import WebsocketHub.RegExpSyntax

/-!
# WebsocketHub.RegExpPlain — patterns that stand for their characters

A pattern is `plain` when none of its characters has a meaning of its own where it is.  `parse_word_iff`
says that these are exactly the patterns whose tree is the sequence of their characters: the lexer makes a
token of each character (`lexFrom_of_plain`), and where it does not, a token takes several characters or
has no leaf in the tree, so that the tree has too few leaves (`width_lexFrom`, `leaves_parse`).
-/

namespace WebsocketHub.RegExp

section Defs

def syntaxCharacters : List CodeUnit :=
  ['^', '$', '\\', '.', '*', '+', '?', '(', ')', '[', '|'].map unit

/-- A backslash is itself before a `c` that no letter follows. -/
def bareBackslash (r : JsString) : Bool :=
  match r with
  | c :: r' => c = unit 'c' && !r'.head?.any isLetter
  | [] => false

/-- The character `u` has no meaning of its own before `r`. -/
def plainHead (u : CodeUnit) (r : JsString) : Bool :=
  if u = unit '\\' then bareBackslash r
  else !syntaxCharacters.contains u && !(u = unit '{' && (braced r).isSome)

/-- No character has a meaning of its own. -/
def plain : JsString → Bool
  | [] => true
  | u :: r => plainHead u r && plain r

/-- The pattern between two `\b`. -/
def word (p : JsString) : JsString := [unit '\\', unit 'b'] ++ p ++ [unit '\\', unit 'b']

/-- The characters of `n` and then `m`. -/
def chars (n : JsString) (m : Node) : Node := n.foldr (fun u m => .seq (.atom (.char u)) m) m

/-- The tree of a plain pattern between two `\b`. -/
def wordNode (n : JsString) : Node :=
  .seq (.assertion .wordBoundary) (chars n (.seq (.assertion .wordBoundary) .empty))

/-! ## The characters and assertions of a pattern -/

/-- From left to right. -/
def Node.leaves : Node → List (Atom ⊕ Assertion)
  | .empty => []
  | .atom a => [.inl a]
  | .assertion a => [.inr a]
  | .seq m n => m.leaves ++ n.leaves
  | .alt m n => m.leaves ++ n.leaves
  | .capture _ n => n.leaves
  | .lookahead _ n => n.leaves
  | .repeated _ _ _ n => n.leaves

def Token.leaf : Token → Option (Atom ⊕ Assertion)
  | .atom a => some (.inl a)
  | .assertion a => some (.inr a)
  | _ => none

def Frame.leaves (f : Frame) : List (Atom ⊕ Assertion) :=
  f.alternatives.reverse.flatMap Node.leaves ++ f.allTerms.reverse.flatMap Node.leaves

def ParserState.leaves (s : ParserState) : List (Atom ⊕ Assertion) :=
  s.stack.reverse.flatMap Frame.leaves ++ s.top.leaves

/-- The number of characters that it takes at least. -/
def leafWidth : Atom ⊕ Assertion → ℕ
  | .inr .wordBoundary => 2
  | _ => 1

def width : List (Atom ⊕ Assertion) → ℕ
  | [] => 0
  | l :: ls => leafWidth l + width ls

end Defs

variable {u : CodeUnit} {r t n : JsString} {groups : ℕ}

/-! ## The tokens of a plain pattern -/

theorem lexFrom_skip (a : JsString) : lexFrom groups a.length (a ++ r) = lexFrom groups 0 r := by
  induction a with
  | nil => rfl
  | cons u a ih =>
    rw [List.length_cons, List.cons_append, lexFrom]
    exact ih

/-- A token that takes the characters `a` after its first. -/
theorem lexFrom_token {k : Token} (a : JsString) (h : lexOne groups u (a ++ r) = some (k, r)) :
    lexFrom groups 0 (u :: (a ++ r)) = (lexFrom groups 0 r).map (k :: ·) := by
  have hskip : (a ++ r).length - r.length = a.length := by
    rw [List.length_append]
    omega
  rw [lexFrom, h, Option.bind_some]
  simp only [hskip, lexFrom_skip]

theorem takeWhile_stop {p : CodeUnit → Bool} (hu : p u = false) :
    (r ++ u :: t).takeWhile p = r.takeWhile p := by
  induction r with
  | nil => simp [hu]
  | cons v r ih =>
    rw [List.cons_append, List.takeWhile_cons, List.takeWhile_cons]
    split_ifs with hv
    · rw [ih]
    · rfl

theorem dropWhile_stop {p : CodeUnit → Bool} (hu : p u = false) :
    (r ++ u :: t).dropWhile p = r.dropWhile p ++ u :: t := by
  induction r with
  | nil => simp [hu]
  | cons v r ih =>
    rw [List.cons_append, List.dropWhile_cons, List.dropWhile_cons]
    split_ifs with hv
    · exact ih
    · rfl

/-- What a brace begins does not depend on a backslash that comes later. -/
theorem braced_append : braced (r ++ unit '\\' :: t) =
    (braced r).map fun q => (q.1, q.2 ++ unit '\\' :: t) := by
  have hstop : isDigit (unit '\\') = false := by decide
  unfold braced
  rw [takeWhile_stop hstop, dropWhile_stop hstop]
  split_ifs with hds
  · rfl
  · cases hd : r.dropWhile isDigit with
    | nil => rfl
    | cons v r₁ =>
      simp only [List.cons_append, takeWhile_stop hstop, dropWhile_stop hstop]
      by_cases hv : v = unit '}'
      · rw [if_pos hv, if_pos hv]
        rfl
      · rw [if_neg hv, if_neg hv]
        by_cases hcomma : v = unit ','
        · rw [if_pos hcomma, if_pos hcomma]
          cases hd₁ : r₁.dropWhile isDigit with
          | nil => rfl
          | cons w r₂ =>
            simp only [List.cons_append]
            split_ifs with hw hes
            · rfl
            · rfl
            · rfl
        · rw [if_neg hcomma, if_neg hcomma]
          rfl

theorem plainHead_append : plainHead u (r ++ unit '\\' :: t) = plainHead u r := by
  have hbare : bareBackslash (r ++ unit '\\' :: t) = bareBackslash r := by
    have hletter : isLetter (unit '\\') = false := by decide
    cases r with
    | nil => rfl
    | cons c r =>
      cases r with
      | nil => simp [bareBackslash, hletter]
      | cons l r => rfl
  unfold plainHead
  rw [hbare, braced_append, Option.isSome_map]

theorem ne_of_not_contains (hu : syntaxCharacters.contains u = false) :
    ∀ v ∈ syntaxCharacters, u ≠ v := by
  rintro v hv rfl
  rw [List.contains_iff_mem.mpr hv] at hu
  cases hu

theorem lexOne_of_plain (h : plainHead u r = true) :
    lexOne groups u r = some (.atom (.char u), r) := by
  unfold plainHead at h
  split_ifs at h with hback
  · subst hback
    cases r with
    | nil => cases h
    | cons c r =>
      rw [bareBackslash, Bool.and_eq_true, decide_eq_true_eq, Bool.not_eq_true'] at h
      obtain ⟨rfl, hletter⟩ := h
      have hescape : characterEscape (unit 'c') r = (unit '\\', unit 'c' :: r) := by
        cases r with
        | nil => rfl
        | cons l r =>
          have hl : isLetter l = false := by simpa using hletter
          show (if isLetter l then (l % 32, r) else (unit '\\', unit 'c' :: l :: r)) = _
          rw [hl]
          rfl
      show some (Token.atom (.char (characterEscape (unit 'c') r).1), (characterEscape (unit 'c') r).2) = _
      rw [hescape]
  · rw [Bool.and_eq_true, Bool.not_eq_true', Bool.not_eq_true'] at h
    obtain ⟨hu, hb⟩ := h
    have hne := ne_of_not_contains hu
    have hnone : (if u = unit '{' then braced r else none) = none := by
      split_ifs with heq
      · rw [decide_eq_true heq, Bool.true_and] at hb
        simpa using hb
      · rfl
    unfold lexOne
    iterate 11 rw [if_neg (hne _ (by decide))]
    rw [hnone]

theorem lexFrom_of_plain (h : plain n = true) :
    lexFrom groups 0 (n ++ unit '\\' :: t) =
      (lexFrom groups 0 (unit '\\' :: t)).map (n.map (Token.atom ∘ Atom.char) ++ ·) := by
  induction n with
  | nil => simp
  | cons u n ih =>
    rw [plain, Bool.and_eq_true] at h
    have hu : plainHead u (n ++ unit '\\' :: t) = true := plainHead_append.trans h.1
    have htoken : lexFrom groups 0 (u :: (n ++ unit '\\' :: t)) =
        (lexFrom groups 0 (n ++ unit '\\' :: t)).map (.atom (.char u) :: ·) :=
      lexFrom_token [] (lexOne_of_plain hu)
    rw [List.cons_append, htoken, ih h.2, Option.map_map]
    rfl

theorem lex_word (h : plain n = true) :
    lex groups (word n) = some (.assertion .wordBoundary ::
      (n.map (Token.atom ∘ Atom.char) ++ [.assertion .wordBoundary])) := by
  have hend : lexFrom groups 0 [unit '\\', unit 'b'] = some [.assertion .wordBoundary] := rfl
  have hhead : lex groups (word n) =
      (lexFrom groups 0 (n ++ [unit '\\', unit 'b'])).map (.assertion .wordBoundary :: ·) :=
    lexFrom_token [unit 'b'] rfl
  rw [hhead, lexFrom_of_plain h, hend]
  rfl

/-! ## The tree of a plain pattern -/

theorem foldlM_atoms (as : List Atom) (s : ParserState) :
    ∃ s', (as.map Token.atom).foldlM parseToken s = some s' ∧ s'.stack = s.stack ∧
      s'.top.alternatives = s.top.alternatives ∧
      s'.top.allTerms = (as.map Node.atom).reverse ++ s.top.allTerms := by
  induction as generalizing s with
  | nil => exact ⟨s, rfl, rfl, rfl, rfl⟩
  | cons a as ih =>
    obtain ⟨s', hs', hstack, halt, hterms⟩ := ih { s with
      top := { s.top with terms := s.top.allTerms, last := some (.atom a, s.captures) } }
    refine ⟨s', hs', hstack, halt, ?_⟩
    rw [hterms, List.map_cons, List.reverse_cons, List.append_assoc]
    rfl

theorem chars_eq (n : JsString) (m : Node) :
    (n.map (Node.atom ∘ Atom.char)).reverse.foldl (fun n m => .seq m n) m = chars n m := by
  rw [List.foldl_reverse, List.foldr_map]
  rfl

/-- **A plain pattern** stands for its characters. -/
theorem parse_word (h : plain n = true) : parse (word n) = some (wordNode n) := by
  let s₀ : ParserState := ⟨⟨.plain, 0, [], [.assertion .wordBoundary], none⟩, [], 0⟩
  obtain ⟨s, hs, hstack, halt, hterms⟩ := foldlM_atoms (n.map .char) s₀
  rw [List.map_map] at hs
  have hread : (n.map (Token.atom ∘ Atom.char) ++ [Token.assertion .wordBoundary]).foldlM
      parseToken s₀ = some { s with
        top := { s.top with terms := .assertion .wordBoundary :: s.top.allTerms, last := none } } := by
    rw [List.foldlM_append, hs]
    rfl
  rw [parse, lex_word h, Option.bind_some, List.foldlM_cons]
  have hfirst : parseToken ParserState.init (.assertion .wordBoundary) = some s₀ := rfl
  rw [hfirst, Option.bind_eq_bind, Option.bind_some, hread, Option.bind_some, ParserState.finish,
    if_pos hstack, Frame.disjunction, halt]
  change some (Frame.alternative _) = _
  rw [Frame.alternative, Frame.allTerms]
  simp only [Option.map_none, Option.toList_none, List.nil_append, List.foldl_cons, hterms,
    List.foldl_append, List.map_map]
  rw [chars_eq]
  rfl

/-! ## A pattern that stands for its characters is plain -/

theorem leaves_foldl_seq (l : List Node) (m : Node) :
    (l.foldl (fun n m => .seq m n) m).leaves = l.reverse.flatMap Node.leaves ++ m.leaves := by
  induction l generalizing m with
  | nil => rfl
  | cons n l ih => rw [List.foldl_cons, ih, List.reverse_cons, List.flatMap_append,
      List.append_assoc, List.flatMap_singleton, Node.leaves]

theorem leaves_foldl_alt (l : List Node) (m : Node) :
    (l.foldl (fun n m => .alt m n) m).leaves = l.reverse.flatMap Node.leaves ++ m.leaves := by
  induction l generalizing m with
  | nil => rfl
  | cons n l ih => rw [List.foldl_cons, ih, List.reverse_cons, List.flatMap_append,
      List.append_assoc, List.flatMap_singleton, Node.leaves]

theorem leaves_alternative (f : Frame) :
    f.alternative.leaves = f.allTerms.reverse.flatMap Node.leaves := by
  rw [Frame.alternative, leaves_foldl_seq, Node.leaves, List.append_nil]

theorem leaves_disjunction (f : Frame) : f.disjunction.leaves = f.leaves := by
  rw [Frame.disjunction, leaves_foldl_alt, leaves_alternative]
  rfl

theorem leaves_node (f : Frame) : f.node.leaves = f.leaves := by
  rw [← leaves_disjunction]
  unfold Frame.node
  split <;> rfl

theorem flatMap_reverse_cons {α β : Type*} (f : α → List β) (e : α) (l : List α) :
    (e :: l).reverse.flatMap f = l.reverse.flatMap f ++ f e := by
  rw [List.reverse_cons, List.flatMap_append, List.flatMap_singleton]

/-- **Step lemma** of the parser: a token adds its leaf. -/
theorem leaves_parseToken {s s' : ParserState} {k : Token} (h : parseToken s k = some s') :
    s'.leaves = s.leaves ++ k.leaf.toList := by
  -- a term after all others of the top frame
  have hterm : ∀ n : Node,
      s.stack.reverse.flatMap Frame.leaves ++
          (s.top.alternatives.reverse.flatMap Node.leaves ++
            (n :: s.top.allTerms).reverse.flatMap Node.leaves) = s.leaves ++ n.leaves := by
    intro n
    rw [flatMap_reverse_cons, ParserState.leaves, Frame.leaves]
    simp only [List.append_assoc]
  cases k with
  | atom a =>
    obtain rfl := Option.some.inj h
    exact hterm (.atom a)
  | assertion a =>
    obtain rfl := Option.some.inj h
    exact hterm (.assertion a)
  | quantifier q =>
    unfold parseToken at h
    cases hl : s.top.last with
    | none =>
      rw [hl] at h
      cases h
    | some nk =>
      obtain ⟨n, k⟩ := nk
      rw [hl] at h
      simp only at h
      split_ifs at h with hq
      obtain rfl := Option.some.inj h
      have hall : s.top.allTerms = n :: s.top.terms := by
        rw [Frame.allTerms, hl]
        rfl
      show _ ++ (_ ++ (Node.repeated q k (s.captures - k) n :: s.top.terms).reverse.flatMap
        Node.leaves) = _
      rw [flatMap_reverse_cons, ParserState.leaves, Frame.leaves, hall, flatMap_reverse_cons]
      exact (List.append_nil _).symm
  | bar =>
    obtain rfl := Option.some.inj h
    show _ ++ ((s.top.alternative :: s.top.alternatives).reverse.flatMap Node.leaves ++ []) = _
    rw [flatMap_reverse_cons, leaves_alternative, List.append_nil]
    exact (List.append_nil _).symm
  | lparen g =>
    obtain rfl := Option.some.inj h
    show (s.top :: s.stack).reverse.flatMap Frame.leaves ++ [] = _
    rw [flatMap_reverse_cons]
    rfl
  | rparen =>
    unfold parseToken at h
    cases hst : s.stack with
    | nil =>
      rw [hst] at h
      cases h
    | cons f fs =>
      rw [hst] at h
      obtain rfl := Option.some.inj h
      show fs.reverse.flatMap Frame.leaves ++ (f.alternatives.reverse.flatMap Node.leaves ++
        (s.top.node :: f.allTerms).reverse.flatMap Node.leaves) = _
      rw [flatMap_reverse_cons, leaves_node, ParserState.leaves, hst, flatMap_reverse_cons]
      simp only [Frame.leaves, Token.leaf, Option.toList_none, List.append_nil, List.append_assoc]

theorem leaves_foldlM {ts : List Token} {s s' : ParserState} (h : ts.foldlM parseToken s = some s') :
    s'.leaves = s.leaves ++ ts.filterMap Token.leaf := by
  induction ts generalizing s with
  | nil =>
    obtain rfl := Option.some.inj h
    exact (List.append_nil _).symm
  | cons k ts ih =>
    obtain ⟨s₁, h1, h2⟩ := Option.bind_eq_some_iff.mp h
    rw [ih h2, leaves_parseToken h1, List.append_assoc, List.filterMap_cons]
    cases k.leaf with
    | none => rfl
    | some l => rfl

/-- The tree of a pattern has its leaves. -/
theorem leaves_parse {p : JsString} {m : Node} (h : parse p = some m) :
    ∃ ts, lex (groupCount p) p = some ts ∧ m.leaves = ts.filterMap Token.leaf := by
  obtain ⟨ts, hts, h1⟩ := Option.bind_eq_some_iff.mp h
  obtain ⟨s, hs, h2⟩ := Option.bind_eq_some_iff.mp h1
  refine ⟨ts, hts, ?_⟩
  unfold ParserState.finish at h2
  split_ifs at h2 with hstack
  obtain rfl := Option.some.inj h2
  have hleaves := leaves_foldlM hs
  rw [ParserState.leaves, hstack] at hleaves
  rw [leaves_disjunction]
  exact hleaves

theorem length_octalEscape (d : ℕ) (r : JsString) : (octalEscape d r).2.length ≤ r.length := by
  unfold octalEscape
  split
  · exact Nat.le_refl _
  · split
    · split
      · exact Nat.zero_le _
      · split
        · simp only [List.length_cons]
          omega
        · simp only [List.length_cons]
          omega
    · exact Nat.le_refl _

/-- Only a `\c` without its letter gives a character back. -/
theorem length_characterEscape (u : CodeUnit) (r : JsString) :
    (characterEscape u r).2.length ≤ r.length ∨ bareBackslash (u :: r) = true := by
  unfold characterEscape
  split_ifs with ht hn hv hf hr hc hx hu ho
  · exact .inl (Nat.le_refl _)
  · exact .inl (Nat.le_refl _)
  · exact .inl (Nat.le_refl _)
  · exact .inl (Nat.le_refl _)
  · exact .inl (Nat.le_refl _)
  · subst hc
    cases r with
    | nil => exact .inr rfl
    | cons l r =>
      simp only
      split_ifs with hl
      · exact .inl (Nat.le_succ _)
      · exact .inr (by simp [bareBackslash, hl])
  · cases hexDigits 2 r with
    | none => exact .inl (Nat.le_refl _)
    | some v => exact .inl (by simp)
  · cases hexDigits 4 r with
    | none => exact .inl (Nat.le_refl _)
    | some v => exact .inl (by simp)
  · exact .inl (length_octalEscape _ r)
  · exact .inl (Nat.le_refl _)

/-! The tokens that a character can begin, as far as their leaves go. -/

theorem lexEscape_cases {k : Token} {rest : JsString} (h : lexEscape groups r = some (k, rest)) :
    (r = unit 'b' :: rest ∧ k = .assertion .wordBoundary) ∨ k = .assertion .notWordBoundary ∨
      (∃ i, k = .atom (.backReference i)) ∨ (∃ A, k = .atom (.set false A)) ∨
      ∃ v r', r = v :: r' ∧ k = .atom (.char (characterEscape v r').1) ∧
        rest = (characterEscape v r').2 := by
  cases r with
  | nil => cases h
  | cons v r =>
    simp only [lexEscape] at h
    split_ifs at h with hb hB hd
    · cases h
      exact .inl ⟨by rw [hb], rfl⟩
    · cases h
      exact .inr (.inl rfl)
    · cases h
      exact .inr (.inr (.inl ⟨_, rfl⟩))
    · cases hA : characterClassEscape v with
      | none =>
        rw [hA] at h
        cases h
        exact .inr (.inr (.inr (.inr ⟨v, r, rfl, rfl, rfl⟩)))
      | some A =>
        rw [hA] at h
        cases h
        exact .inr (.inr (.inr (.inl ⟨A, rfl⟩)))

theorem lexOne_cases {k : Token} {rest : JsString} (h : lexOne groups u r = some (k, rest)) :
    k.leaf = none ∨ (∃ a, a ≠ .wordBoundary ∧ k = .assertion a) ∨
      (∃ invert A, k = .atom (.set invert A)) ∨
      (u = unit '\\' ∧ lexEscape groups r = some (k, rest)) ∨
      (plainHead u r = true ∧ k = .atom (.char u)) := by
  have hquantified : ∀ {min max r'}, some (quantified min max r') = some (k, rest) →
      k.leaf = none := by
    intro min max r' hq
    have hk : (quantified min max r').1 = k := congrArg Prod.fst (Option.some.inj hq)
    rw [← hk]
    unfold quantified
    split
    · split <;> rfl
    · rfl
  unfold lexOne at h
  by_cases h1 : u = unit '^'
  · rw [if_pos h1] at h
    cases h
    exact .inr (.inl ⟨.inputStart, by simp, rfl⟩)
  rw [if_neg h1] at h
  by_cases h2 : u = unit '$'
  · rw [if_pos h2] at h
    cases h
    exact .inr (.inl ⟨.inputEnd, by simp, rfl⟩)
  rw [if_neg h2] at h
  by_cases h3 : u = unit '\\'
  · rw [if_pos h3] at h
    exact .inr (.inr (.inr (.inl ⟨h3, h⟩)))
  rw [if_neg h3] at h
  by_cases h4 : u = unit '.'
  · rw [if_pos h4] at h
    cases h
    exact .inr (.inr (.inl ⟨_, _, rfl⟩))
  rw [if_neg h4] at h
  by_cases h5 : u = unit '*'
  · rw [if_pos h5] at h
    exact .inl (hquantified h)
  rw [if_neg h5] at h
  by_cases h6 : u = unit '+'
  · rw [if_pos h6] at h
    exact .inl (hquantified h)
  rw [if_neg h6] at h
  by_cases h7 : u = unit '?'
  · rw [if_pos h7] at h
    exact .inl (hquantified h)
  rw [if_neg h7] at h
  by_cases h8 : u = unit '('
  · rw [if_pos h8] at h
    have hk : (lexGroup r).1 = k := congrArg Prod.fst (Option.some.inj h)
    left
    rw [← hk]
    unfold lexGroup
    split
    · split_ifs <;> rfl
    · rfl
  rw [if_neg h8] at h
  by_cases h9 : u = unit ')'
  · rw [if_pos h9] at h
    cases h
    exact .inl rfl
  rw [if_neg h9] at h
  by_cases h10 : u = unit '['
  · rw [if_pos h10] at h
    unfold lexClass at h
    split at h
    · split at h
      · obtain ⟨B, -, heq⟩ := Option.map_eq_some_iff.mp h
        exact .inr (.inr (.inl ⟨true, B.1, (congrArg Prod.fst heq).symm⟩))
      · obtain ⟨B, -, heq⟩ := Option.map_eq_some_iff.mp h
        exact .inr (.inr (.inl ⟨false, B.1, (congrArg Prod.fst heq).symm⟩))
    · cases h
  rw [if_neg h10] at h
  by_cases h11 : u = unit '|'
  · rw [if_pos h11] at h
    cases h
    exact .inl rfl
  rw [if_neg h11] at h
  split at h
  · exact .inl (hquantified h)
  · next hbrace =>
    cases h
    refine .inr (.inr (.inr (.inr ⟨?_, rfl⟩)))
    have hmem : syntaxCharacters.contains u = false := by
      simp [syntaxCharacters, h1, h2, h3, h4, h5, h6, h7, h8, h9, h10, h11]
    rw [plainHead, if_neg h3, hmem, Bool.not_false, Bool.true_and, Bool.not_eq_true',
      Bool.and_eq_false_iff]
    by_cases hu : u = unit '{'
    · rw [if_pos hu] at hbrace
      exact .inr (by rw [hbrace]; rfl)
    · exact .inl (decide_eq_false hu)

/-- Unless it is plain, a character takes others with it. -/
theorem plainHead_of_lexOne {rest : JsString} (h : lexOne groups u r = some (.atom (.char u), rest))
    (hle : r.length ≤ rest.length) : plainHead u r = true := by
  rcases lexOne_cases h with hk | ⟨a, -, hk⟩ | ⟨invert, A, hk⟩ | ⟨hback, h1⟩ | ⟨hplain, -⟩
  · cases hk
  · cases hk
  · cases hk
  · rcases lexEscape_cases h1 with ⟨-, hk⟩ | hk | ⟨i, hk⟩ | ⟨A, hk⟩ | ⟨v, r', rfl, -, rfl⟩
    · cases hk
    · cases hk
    · cases hk
    · cases hk
    · rw [plainHead, if_pos hback]
      refine (length_characterEscape v r').resolve_left fun hshort => ?_
      exact absurd (Nat.le_trans hle hshort) (Nat.not_succ_le_self _)
  · exact hplain

theorem leafWidth_le_one {l : Atom ⊕ Assertion} (h : l ≠ .inr .wordBoundary) : leafWidth l = 1 := by
  unfold leafWidth
  split
  · exact absurd rfl h
  · rfl

theorem leafWidth_le {k : Token} {l : Atom ⊕ Assertion} {rest : JsString}
    (h : lexOne groups u r = some (k, rest)) (hl : k.leaf = some l) :
    leafWidth l ≤ 1 + (r.length - rest.length) := by
  by_cases hb : l = .inr .wordBoundary
  · subst hb
    obtain rfl : k = .assertion .wordBoundary := by
      cases k with
      | assertion a => exact congrArg Token.assertion (Sum.inr.inj (Option.some.inj hl))
      | _ => cases hl
    rcases lexOne_cases h with hk | ⟨a, ha, hk⟩ | ⟨invert, A, hk⟩ | ⟨hback, h1⟩ | ⟨-, hk⟩
    · cases hk
    · cases hk
      exact absurd rfl ha
    · cases hk
    · rcases lexEscape_cases h1 with ⟨rfl, -⟩ | hk | ⟨i, hk⟩ | ⟨A, hk⟩ | ⟨v, r', rfl, hk, -⟩
      · rw [List.length_cons]
        show 2 ≤ _
        omega
      · cases hk
      · cases hk
      · cases hk
      · cases hk
    · cases hk
  · rw [leafWidth_le_one hb]
    exact Nat.le_add_right 1 _

theorem width_lexFrom {i : ℕ} {p : JsString} {ts : List Token} (h : lexFrom groups i p = some ts) :
    width (ts.filterMap Token.leaf) ≤ p.length - i := by
  induction p generalizing i ts with
  | nil =>
    have hts : ts = [] := by
      cases i <;> exact (Option.some.inj h).symm
    rw [hts]
    exact Nat.zero_le _
  | cons u r ih =>
    cases i with
    | zero =>
      obtain ⟨⟨k, rest⟩, hk, h1⟩ := Option.bind_eq_some_iff.mp h
      obtain ⟨ts', hts', rfl⟩ := Option.map_eq_some_iff.mp h1
      have hle := ih hts'
      rw [List.filterMap_cons, List.length_cons]
      cases hl : k.leaf with
      | none =>
        simp only
        omega
      | some l =>
        have hw := leafWidth_le hk hl
        simp only [width]
        omega
    | succ i =>
      have hle := ih h
      rw [List.length_cons]
      omega

theorem width_chars (n : JsString) :
    width (n.map (.inl ∘ .char) ++ [.inr .wordBoundary]) = n.length + 2 := by
  induction n with
  | nil => rfl
  | cons u n ih =>
    rw [List.map_cons, List.cons_append, width, ih, List.length_cons]
    show 1 + (n.length + 2) = _
    omega

theorem leaves_chars (n : JsString) (m : Node) :
    (chars n m).leaves = n.map (.inl ∘ .char) ++ m.leaves := by
  induction n with
  | nil => rfl
  | cons u n ih =>
    show .inl (.char u) :: (chars n m).leaves = _
    rw [ih]
    rfl

/-- A pattern whose leaves are its characters is plain. -/
theorem plain_of_leaves {ts : List Token}
    (h : lexFrom groups 0 (n ++ [unit '\\', unit 'b']) = some ts)
    (hl : ts.filterMap Token.leaf = n.map (.inl ∘ .char) ++ [.inr .wordBoundary]) :
    plain n = true := by
  induction n generalizing ts with
  | nil => rfl
  | cons u n ih =>
    rw [List.cons_append, lexFrom] at h
    obtain ⟨⟨k, rest⟩, hk, h1⟩ := Option.bind_eq_some_iff.mp h
    obtain ⟨ts', hts', rfl⟩ := Option.map_eq_some_iff.mp h1
    have hle := width_lexFrom hts'
    have hlength : (n ++ [unit '\\', unit 'b']).length = n.length + 2 := by simp
    rw [List.filterMap_cons] at hl
    cases hk' : k.leaf with
    | none =>
      -- there are too few characters left
      rw [hk'] at hl
      simp only at hl
      rw [hl, width_chars, hlength, List.length_cons] at hle
      omega
    | some l =>
      rw [hk', List.map_cons, List.cons_append] at hl
      obtain ⟨rfl, htail⟩ := List.cons.inj hl
      rw [htail, width_chars, hlength] at hle
      have hskip : (n ++ [unit '\\', unit 'b']).length - rest.length = 0 := by omega
      have hplain : plainHead u n = true := by
        obtain rfl : k = .atom (.char u) := by
          cases k with
          | atom a => exact congrArg Token.atom (Sum.inl.inj (Option.some.inj hk'))
          | _ => cases hk'
        rw [← plainHead_append]
        exact plainHead_of_lexOne hk (Nat.le_of_sub_eq_zero hskip)
      rw [hskip] at hts'
      rw [plain, hplain, ih hts' htail, Bool.true_and]

/-- **The plain patterns** are those that stand for their characters. -/
theorem parse_word_iff : parse (word n) = some (wordNode n) ↔ plain n = true := by
  constructor
  · intro h
    obtain ⟨ts, hts, hleaves⟩ := leaves_parse h
    have hhead : lex (groupCount (word n)) (word n) =
        (lexFrom (groupCount (word n)) 0 (n ++ [unit '\\', unit 'b'])).map
          (.assertion .wordBoundary :: ·) := lexFrom_token [unit 'b'] rfl
    rw [hhead] at hts
    obtain ⟨ts', hts', rfl⟩ := Option.map_eq_some_iff.mp hts
    have hword : (wordNode n).leaves =
        .inr .wordBoundary :: (n.map (.inl ∘ .char) ++ [.inr .wordBoundary]) :=
      congrArg (Sum.inr Assertion.wordBoundary :: ·) (leaves_chars n _)
    rw [hword] at hleaves
    exact plain_of_leaves hts' (List.cons.inj hleaves).2.symm
  · exact parse_word

end WebsocketHub.RegExp
