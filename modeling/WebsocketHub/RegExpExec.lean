import WebsocketHub.RegExpMatch
import Mathlib.Computability.Language

/-!
# WebsocketHub.RegExpExec — `exec` and `replace`, and the language of a pattern

`exec` finds the first match of a regular expression and `segments` cuts a string into its successive
matches and the characters between them, which is how `replace` goes through a string with the flag `g`.

* `Node.language` is what a tree can match, whatever is around it: assertions and the choice between
  several matches are left out.  `language_of_runs` says that every match is in it, for every way in which
  the matcher can go.
* `runs_greedy` is what a loop over one class does: it takes as many characters as it can, first.
-/

namespace WebsocketHub.RegExp

section Defs

variable (toUpperCase : CodeUnit → JsString)

/-- The parameter `toUpperCase` of an expression without the flag `i`. -/
def exactCase (u : CodeUnit) : JsString := [u]

/-- A literal of the source, whose pattern is one. -/
def literal (pattern : String) : Node := (parse (pattern.toList.map unit)).getD .empty

structure Match where
  before : JsString
  text : JsString
  after : JsString
  captures : ℕ → Option JsString

/-- The match at the position, `before` is reversed. -/
def matchAt (n : Node) (before after : JsString) : Option Match :=
  (runs toUpperCase n ⟨before, after, fun _ => none⟩).head?.map fun y =>
    ⟨before.reverse, MatchState.text ⟨before, after, fun _ => none⟩ y, y.after, y.captures⟩

/-- The match at the position or at the next one that has one. -/
def execFrom (n : Node) : JsString → JsString → Option Match
  | before, [] => matchAt toUpperCase n before []
  | before, u :: after =>
    (matchAt toUpperCase n before (u :: after)).or (execFrom n (u :: before) after)

/-- `exec`, of a regular expression without the flag `g`. -/
def exec (n : Node) (s : JsString) : Option Match := execFrom toUpperCase n [] s

/-- `s.replace(n, f)` without the flag `g`. -/
def replaceFirst (n : Node) (f : JsString → JsString) (s : JsString) : JsString :=
  match exec toUpperCase n s with
  | some m => m.before ++ f m.text ++ m.after
  | none => s

/-- A piece of a string that has been searched. -/
inductive Segment
  | kept (u : CodeUnit)
  | found (t : JsString)
deriving DecidableEq, Repr

def Segment.text : Segment → JsString
  | .kept u => [u]
  | .found t => t

/-- The string that has been searched. -/
def joined (l : List Segment) : JsString := l.flatMap Segment.text

/-- The number says how many code units the last match has still to take.  After an empty match the search
goes on one code unit further. -/
def segmentsFrom (n : Node) : ℕ → JsString → JsString → List Segment
  | 0, before, [] => ((matchAt toUpperCase n before []).map fun m => .found m.text).toList
  | _ + 1, _, [] => []
  | k + 1, before, u :: after => segmentsFrom n k (u :: before) after
  | 0, before, u :: after =>
    match matchAt toUpperCase n before (u :: after) with
    | none => .kept u :: segmentsFrom n 0 (u :: before) after
    | some m =>
      if m.text = [] then .found [] :: .kept u :: segmentsFrom n 0 (u :: before) after
      else .found m.text :: segmentsFrom n (m.text.length - 1) (u :: before) after

def segments (n : Node) (s : JsString) : List Segment := segmentsFrom toUpperCase n 0 [] s

/-- `s.replace(n, f)` with the flag `g`. -/
def replaceAll (n : Node) (f : JsString → JsString) (s : JsString) : JsString :=
  (segments toUpperCase n s).flatMap fun g =>
    match g with
    | .kept u => [u]
    | .found t => f t

/-- What an atom can match. -/
def Atom.language : Atom → Language CodeUnit
  | .char u => {s | ∃ v, s = [v] ∧ canonicalize toUpperCase v = canonicalize toUpperCase u}
  | .set invert A => {s | ∃ v, s = [v] ∧ (hits toUpperCase A v != invert) = true}
  | .backReference _ => Set.univ

/-- What a tree can match. -/
def Node.language : Node → Language CodeUnit
  | .empty => 1
  | .atom a => a.language toUpperCase
  | .assertion _ => 1
  | .seq m n => m.language * n.language
  | .alt m n => m.language + n.language
  | .capture _ n => n.language
  | .lookahead _ _ => 1
  | .repeated q _ _ n => {s | ∃ i, (q.min ≤ i ∨ q.max = some i) ∧ (∀ max ∈ q.max, i ≤ max) ∧ s ∈ n.language ^ i}

/-- The characters between `x` and `y` are in `L`. -/
def Consumes (L : Language CodeUnit) (x y : MatchState) : Prop :=
  ∃ t ∈ L, x.after = t ++ y.after ∧ y.before = t.reverse ++ x.before

/-- `t` is matched where it is, between `before` and `after`. -/
def MatchedBetween (n : Node) (before t after : JsString) : Prop :=
  ∃ y ∈ runs toUpperCase n ⟨before.reverse, t ++ after, fun _ => none⟩, y.after = after

/-- Of all the ways to match there, this one is tried first. -/
def FirstBetween (n : Node) (before t after : JsString) : Prop :=
  ∃ y, (runs toUpperCase n ⟨before.reverse, t ++ after, fun _ => none⟩).head? = some y ∧ y.after = after

end Defs

variable {toUpperCase : CodeUnit → JsString} {n : Node} {L M : Language CodeUnit} {x y z : MatchState}

/-! ## Every match is in the language -/

theorem consumes_refl : Consumes 1 x x := ⟨[], rfl, rfl, rfl⟩

theorem Consumes.trans (h : Consumes L x y) (h' : Consumes M y z) : Consumes (L * M) x z := by
  obtain ⟨s, hs, hafter, hbefore⟩ := h
  obtain ⟨t, ht, hafter', hbefore'⟩ := h'
  refine ⟨s ++ t, Language.append_mem_mul hs ht, ?_, ?_⟩
  · rw [hafter, hafter', List.append_assoc]
  · rw [hbefore', hbefore, List.reverse_append, List.append_assoc]

theorem Consumes.mono (hle : ∀ s ∈ L, s ∈ M) (h : Consumes L x y) : Consumes M x y := by
  obtain ⟨s, hs, hafter, hbefore⟩ := h
  exact ⟨s, hle s hs, hafter, hbefore⟩

/-- A match that takes the next `i` characters. -/
theorem consumes_advance {i : ℕ} (h : x.after.take i ∈ L) : Consumes L x (x.advance i) :=
  ⟨x.after.take i, h, (List.take_append_drop i x.after).symm, rfl⟩

theorem consumes_atomRuns (a : Atom) (h : y ∈ atomRuns toUpperCase a x) :
    Consumes (a.language toUpperCase) x y := by
  unfold atomRuns at h
  cases a with
  | char u =>
    cases hx : x.after with
    | nil =>
      simp only [hx] at h
      cases h
    | cons v t =>
      simp only [hx] at h
      split_ifs at h with hv
      · obtain rfl := List.mem_singleton.mp h
        refine consumes_advance ?_
        rw [hx]
        exact ⟨v, rfl, hv⟩
      · cases h
  | set invert A =>
    cases hx : x.after with
    | nil =>
      simp only [hx] at h
      cases h
    | cons v t =>
      simp only [hx] at h
      split_ifs at h with hv
      · obtain rfl := List.mem_singleton.mp h
        refine consumes_advance ?_
        rw [hx]
        exact ⟨v, rfl, hv⟩
      · cases h
  | backReference k =>
    cases hk : x.captures k with
    | none =>
      simp only [hk] at h
      obtain rfl := List.mem_singleton.mp h
      exact consumes_refl.mono fun _ _ => trivial
    | some t =>
      simp only [hk] at h
      split_ifs at h
      · obtain rfl := List.mem_singleton.mp h
        exact consumes_advance trivial
      · cases h

theorem consumes_repeatRuns {f : MatchState → List MatchState} {greedy : Bool}
    (hf : ∀ x, ∀ y ∈ f x, Consumes L x y) (fuel min : ℕ) (max : Option ℕ) (x : MatchState) :
    ∀ y ∈ repeatRuns f greedy fuel min max x,
      ∃ i, (min ≤ i ∨ max = some i) ∧ (∀ m ∈ max, i ≤ m) ∧ Consumes (L ^ i) x y := by
  induction fuel generalizing min max x with
  | zero => exact fun y hy => (nomatch hy)
  | succ fuel ih =>
    intro y hy
    have hstop : y ∈ [x] → min = 0 ∨ max = some 0 →
        ∃ i, (min ≤ i ∨ max = some i) ∧ (∀ m ∈ max, i ≤ m) ∧ Consumes (L ^ i) x y := by
      intro hmem hor
      obtain rfl := List.mem_singleton.mp hmem
      exact ⟨0, hor.imp Nat.le_of_eq id, fun _ _ => Nat.zero_le _, consumes_refl⟩
    -- one round and then the others
    have hagain : max ≠ some 0 →
        (y ∈ (f x).flatMap fun z => if min = 0 && z.after.length = x.after.length then []
          else repeatRuns f greedy fuel (min - 1) (max.map (· - 1)) z) →
        ∃ i, (min ≤ i ∨ max = some i) ∧ (∀ m ∈ max, i ≤ m) ∧ Consumes (L ^ i) x y := by
      intro hmax hmem
      obtain ⟨z, hz, hy⟩ := List.mem_flatMap.mp hmem
      split_ifs at hy
      · cases hy
      obtain ⟨i, hmin, hle, hc⟩ := ih _ _ z y hy
      refine ⟨i + 1, ?_, ?_, ?_⟩
      · rcases hmin with hmin | hmin
        · exact .inl (Nat.sub_le_iff_le_add.mp hmin)
        · obtain ⟨m, hm, heq⟩ := Option.map_eq_some_iff.mp hmin
          have hpos : m ≠ 0 := fun h0 => hmax (h0 ▸ hm)
          exact .inr (by rw [hm]; congr 1; omega)
      · intro m hm
        have hpos : m ≠ 0 := fun h0 => hmax (h0 ▸ hm)
        have := hle (m - 1) (Option.mem_map_of_mem _ hm)
        omega
      · rw [pow_succ']
        exact (hf x z hz).trans hc
    unfold repeatRuns at hy
    by_cases hmax : max = some 0
    · rw [if_pos hmax] at hy
      exact hstop hy (.inr hmax)
    by_cases hmin : min ≠ 0
    · simp only [if_neg hmax, if_pos hmin] at hy
      exact hagain hmax hy
    simp only [if_neg hmax, if_neg hmin] at hy
    split_ifs at hy with hgreedy
    · rcases List.mem_append.mp hy with hy | hy
      · exact hagain hmax hy
      · exact hstop hy (.inl (not_not.mp hmin))
    · rcases List.mem_cons.mp hy with rfl | hy
      · exact hstop (List.mem_singleton.mpr rfl) (.inl (not_not.mp hmin))
      · exact hagain hmax hy

/-- **Every match is in the language** of its tree, in whatever way the matcher goes. -/
theorem language_of_runs (n : Node) (x : MatchState) :
    ∀ y ∈ runs toUpperCase n x, Consumes (n.language toUpperCase) x y := by
  induction n generalizing x with
  | empty =>
    intro y hy
    obtain rfl := List.mem_singleton.mp hy
    exact consumes_refl
  | atom a => exact fun y hy => consumes_atomRuns a hy
  | assertion a =>
    intro y hy
    unfold runs at hy
    split_ifs at hy
    · obtain rfl := List.mem_singleton.mp hy
      exact consumes_refl
    · cases hy
  | seq m n ihm ihn =>
    intro y hy
    obtain ⟨z, hz, hy⟩ := List.mem_flatMap.mp hy
    exact (ihm x z hz).trans (ihn z y hy)
  | alt m n ihm ihn =>
    intro y hy
    rcases List.mem_append.mp hy with hy | hy
    · exact (ihm x y hy).mono fun _ => Or.inl
    · exact (ihn x y hy).mono fun _ => Or.inr
  | capture k n ih =>
    intro y hy
    obtain ⟨z, hz, rfl⟩ := List.mem_map.mp hy
    exact ih x z hz
  | lookahead negative n ih =>
    intro y hy
    unfold runs at hy
    split at hy
    · split_ifs at hy
      · obtain rfl := List.mem_singleton.mp hy
        exact consumes_refl
      · cases hy
    · split_ifs at hy
      · cases hy
      · obtain rfl := List.mem_singleton.mp hy
        exact consumes_refl
  | repeated q k count n ih =>
    intro y hy
    obtain ⟨i, hmin, hmax, t, ht, hafter, hbefore⟩ :=
      consumes_repeatRuns (fun x => ih (x.clear k count)) _ _ _ x y hy
    exact ⟨t, ⟨i, hmin, hmax, ht⟩, hafter, hbefore⟩

/-- The characters of a match are those of its leaves. -/
theorem forall_of_language {P : CodeUnit → Prop} (n : Node)
    (h : ∀ a, .inl a ∈ n.leaves → ∀ s ∈ a.language toUpperCase, ∀ u ∈ s, P u) :
    ∀ s ∈ n.language toUpperCase, ∀ u ∈ s, P u := by
  induction n with
  | empty =>
    rintro s rfl u hu
    cases hu
  | atom a => exact h a (List.mem_singleton.mpr rfl)
  | assertion a =>
    rintro s rfl u hu
    cases hu
  | seq m n ihm ihn =>
    rintro s hs u hu
    obtain ⟨t, ht, r, hr, rfl⟩ := Language.mem_mul.mp hs
    rcases List.mem_append.mp hu with hu | hu
    · exact ihm (fun a ha => h a (List.mem_append_left _ ha)) t ht u hu
    · exact ihn (fun a ha => h a (List.mem_append_right _ ha)) r hr u hu
  | alt m n ihm ihn =>
    rintro s (hs | hs)
    · exact ihm (fun a ha => h a (List.mem_append_left _ ha)) s hs
    · exact ihn (fun a ha => h a (List.mem_append_right _ ha)) s hs
  | capture k n ih => exact ih h
  | lookahead negative n ih =>
    rintro s rfl u hu
    cases hu
  | repeated q k count n ih =>
    rintro s ⟨i, -, -, hs⟩ u hu
    obtain ⟨rounds, rfl, -, hrounds⟩ := Language.mem_pow.mp hs
    obtain ⟨t, ht, hu⟩ := List.mem_flatten.mp hu
    exact ih h t (hrounds t ht) u hu

theorem language_of_matched {before t after : JsString}
    (h : MatchedBetween toUpperCase n before t after) : t ∈ n.language toUpperCase := by
  obtain ⟨y, hy, hafter⟩ := h
  obtain ⟨s, hs, heq, -⟩ := language_of_runs n _ y hy
  have heq' : t ++ after = s ++ y.after := heq
  rw [hafter] at heq'
  rwa [List.append_cancel_right heq']

theorem FirstBetween.matched {before t after : JsString}
    (h : FirstBetween toUpperCase n before t after) : MatchedBetween toUpperCase n before t after := by
  obtain ⟨y, hy, hafter⟩ := h
  exact ⟨y, List.mem_of_mem_head? hy, hafter⟩

/-! ## The pieces of a string -/

theorem literal_eq {pattern : List Char} (h : parse (pattern.map unit) = some n) :
    literal (String.ofList pattern) = n := by
  unfold literal
  rw [String.toList_ofList, h]
  rfl

theorem matchAt_some {before after : JsString} {m : Match}
    (h : matchAt toUpperCase n before after = some m) :
    after = m.text ++ m.after ∧ FirstBetween toUpperCase n before.reverse m.text m.after := by
  obtain ⟨y, hy, rfl⟩ := Option.map_eq_some_iff.mp h
  obtain ⟨t, ht, hafter, hbefore⟩ := language_of_runs n _ y (List.mem_of_mem_head? hy)
  have htext : MatchState.text ⟨before, after, fun _ => none⟩ y = t := by
    unfold MatchState.text
    rw [hbefore, List.length_append, Nat.add_sub_cancel, List.length_reverse, ← List.length_reverse,
      List.take_left, List.reverse_reverse]
  have hsplit : after = t ++ y.after := hafter
  refine ⟨by rw [htext]; exact hsplit, y, ?_, rfl⟩
  simp only [htext, List.reverse_reverse]
  rwa [← hsplit]

theorem execFrom_some {before after : JsString} {m : Match}
    (h : execFrom toUpperCase n before after = some m) :
    before.reverse ++ after = m.before ++ m.text ++ m.after ∧ m.text ∈ n.language toUpperCase := by
  have hhere : ∀ {before after : JsString}, matchAt toUpperCase n before after = some m →
      before.reverse ++ after = m.before ++ m.text ++ m.after ∧
        m.text ∈ n.language toUpperCase := by
    intro before after h
    obtain ⟨hsplit, hmatch⟩ := matchAt_some h
    have hbefore : m.before = before.reverse := by
      obtain ⟨y, -, rfl⟩ := Option.map_eq_some_iff.mp h
      rfl
    refine ⟨?_, language_of_matched hmatch.matched⟩
    rw [hbefore, List.append_assoc, ← hsplit]
  induction after generalizing before with
  | nil => exact hhere h
  | cons u after ih =>
    unfold execFrom at h
    rcases Option.or_eq_some_iff.mp h with h | ⟨-, h⟩
    · exact hhere h
    · have := ih h
      rwa [List.reverse_cons, List.append_assoc] at this

/-- The search goes on where nothing matches. -/
theorem execFrom_append {a r : JsString}
    (h : ∀ u ∈ a, ∀ before after, matchAt toUpperCase n before (u :: after) = none)
    (before : JsString) :
    execFrom toUpperCase n before (a ++ r) = execFrom toUpperCase n (a.reverse ++ before) r := by
  induction a generalizing before with
  | nil => rfl
  | cons u a ih =>
    rw [List.cons_append, execFrom, h u List.mem_cons_self, Option.none_or,
      ih (fun v hv => h v (List.mem_cons_of_mem _ hv)), List.reverse_cons, List.append_assoc]
    rfl

@[simp] theorem joined_nil : joined [] = [] := rfl

@[simp] theorem joined_kept (u : CodeUnit) (l : List Segment) :
    joined (.kept u :: l) = u :: joined l := rfl

@[simp] theorem joined_found (t : JsString) (l : List Segment) :
    joined (.found t :: l) = t ++ joined l := rfl

@[simp] theorem joined_append (l r : List Segment) : joined (l ++ r) = joined l ++ joined r :=
  List.flatMap_append

/-- The pieces are the string. -/
theorem joined_segmentsFrom (n : Node) (k : ℕ) (before after : JsString) (hk : k ≤ after.length) :
    joined (segmentsFrom toUpperCase n k before after) = after.drop k := by
  induction after generalizing k before with
  | nil =>
    obtain rfl := Nat.le_zero.mp hk
    unfold segmentsFrom
    cases hm : matchAt toUpperCase n before [] with
    | none => rfl
    | some m =>
      obtain ⟨hsplit, -⟩ := matchAt_some hm
      have hnil := (List.append_eq_nil_iff.mp hsplit.symm).1
      show joined [.found m.text] = []
      rw [hnil]
      rfl
  | cons u after ih =>
    cases k with
    | succ k =>
      unfold segmentsFrom
      exact ih k _ (Nat.le_of_succ_le_succ hk)
    | zero =>
      have hrest := ih 0 (u :: before) (Nat.zero_le _)
      unfold segmentsFrom
      cases hm : matchAt toUpperCase n before (u :: after) with
      | none =>
        show joined (.kept u :: _) = _
        rw [joined_kept, hrest]
        rfl
      | some m =>
        obtain ⟨hsplit, -⟩ := matchAt_some hm
        by_cases hnil : m.text = []
        · simp only [if_pos hnil]
          rw [joined_found, joined_kept, hrest]
          rfl
        · obtain ⟨v, t, hv⟩ := List.exists_cons_of_ne_nil hnil
          rw [hv] at hsplit
          obtain ⟨rfl, hafter⟩ : u = v ∧ after = t ++ m.after := List.cons.inj hsplit
          have hle : t.length ≤ after.length := by
            rw [hafter]
            exact Nat.le_trans (Nat.le_add_right _ _) (Nat.le_of_eq List.length_append.symm)
          simp only [if_neg hnil]
          rw [joined_found, hv, List.length_cons, Nat.add_sub_cancel, ih _ _ hle, hafter, List.drop_left]
          rfl

theorem joined_segments (n : Node) (s : JsString) : joined (segments toUpperCase n s) = s :=
  joined_segmentsFrom n 0 [] s (Nat.zero_le _)

/-- Every match that is found is one where it is. -/
theorem first_segmentsFrom (n : Node) (k : ℕ) (before after : JsString) (hk : k ≤ after.length)
    {l r : List Segment} {t : JsString}
    (h : segmentsFrom toUpperCase n k before after = l ++ .found t :: r) :
    FirstBetween toUpperCase n (before.reverse ++ after.take k ++ joined l) t (joined r) := by
  induction after generalizing k before l with
  | nil =>
    obtain rfl := Nat.le_zero.mp hk
    unfold segmentsFrom at h
    cases hm : matchAt toUpperCase n before [] with
    | none =>
      rw [hm] at h
      exact absurd h.symm (List.append_ne_nil_of_right_ne_nil _ (List.cons_ne_nil _ _))
    | some m =>
      obtain ⟨hsplit, hmatch⟩ := matchAt_some hm
      rw [hm] at h
      have hone : [Segment.found m.text] = l ++ .found t :: r := h
      obtain ⟨rfl, hfound⟩ : l = [] ∧ [Segment.found m.text] = .found t :: r := by
        cases l with
        | nil => exact ⟨rfl, hone⟩
        | cons g l => exact absurd (List.cons.inj hone).2.symm (by simp)
      obtain ⟨heq, rfl⟩ := List.cons.inj hfound
      obtain rfl := Segment.found.inj heq
      rw [(List.append_eq_nil_iff.mp hsplit.symm).2] at hmatch
      rw [List.take_zero, List.append_nil, joined_nil, List.append_nil]
      exact hmatch
  | cons u after ih =>
    cases k with
    | succ k =>
      unfold segmentsFrom at h
      have := ih k (u :: before) (Nat.le_of_succ_le_succ hk) h
      rwa [List.reverse_cons, List.append_assoc before.reverse] at this
    | zero =>
      -- after a character that is kept
      have hkept : ∀ {l' : List Segment},
          segmentsFrom toUpperCase n 0 (u :: before) after = l' ++ .found t :: r →
          FirstBetween toUpperCase n (before.reverse ++ u :: joined l') t (joined r) := by
        intro l' h'
        have := ih 0 (u :: before) (Nat.zero_le _) h'
        rwa [List.take_zero, List.append_nil, List.reverse_cons, List.append_assoc] at this
      rw [List.take_zero, List.append_nil]
      unfold segmentsFrom at h
      cases hm : matchAt toUpperCase n before (u :: after) with
      | none =>
        simp only [hm] at h
        cases l with
        | nil => cases h
        | cons g l =>
          obtain ⟨rfl, hl⟩ := List.cons.inj h
          exact hkept hl
      | some m =>
        obtain ⟨hsplit, hmatch⟩ := matchAt_some hm
        simp only [hm] at h
        by_cases hnil : m.text = []
        · rw [if_pos hnil] at h
          cases l with
          | nil =>
            obtain ⟨hfound, rfl⟩ := List.cons.inj h
            obtain rfl := Segment.found.inj hfound
            rw [hnil, List.nil_append] at hsplit
            rw [joined_kept, joined_segmentsFrom n 0 _ after (Nat.zero_le _), joined_nil,
              List.append_nil, List.drop_zero, hsplit, ← hnil]
            exact hmatch
          | cons g l =>
            obtain ⟨rfl, hl⟩ := List.cons.inj h
            cases l with
            | nil => cases hl
            | cons g l =>
              obtain ⟨rfl, hl'⟩ := List.cons.inj hl
              exact hkept hl'
        · rw [if_neg hnil] at h
          obtain ⟨v, w, hv⟩ := List.exists_cons_of_ne_nil hnil
          rw [hv] at hsplit
          obtain ⟨rfl, hafter⟩ : u = v ∧ after = w ++ m.after := List.cons.inj hsplit
          have hlength : m.text.length - 1 = w.length := by rw [hv]; rfl
          rw [hlength] at h
          have hle : w.length ≤ after.length := by
            rw [hafter]
            exact Nat.le_trans (Nat.le_add_right _ _) (Nat.le_of_eq List.length_append.symm)
          cases l with
          | nil =>
            obtain ⟨hfound, rfl⟩ := List.cons.inj h
            obtain rfl := Segment.found.inj hfound
            rw [joined_segmentsFrom n _ _ _ hle, hafter, List.drop_left, joined_nil,
              List.append_nil]
            exact hmatch
          | cons g l =>
            obtain ⟨rfl, hl⟩ := List.cons.inj h
            have := ih _ (u :: before) hle hl
            rw [joined_found, hv]
            rw [hafter, List.take_left, List.reverse_cons, List.append_assoc before.reverse,
              List.append_assoc before.reverse] at this
            exact this

theorem first_segments {s t : JsString} {l r : List Segment}
    (h : segments toUpperCase n s = l ++ .found t :: r) :
    FirstBetween toUpperCase n (joined l) t (joined r) :=
  first_segmentsFrom n 0 [] s (Nat.zero_le _) h

/-! ## Classes -/

/-- A class matches the characters that are, up to their case, in one of its ranges. -/
theorem hits_iff {A : CharSet} (hA : A.all (fun c => c.lo ≤ c.hi) = true) (u : CodeUnit) :
    hits toUpperCase A u = true ↔ ∃ c ∈ A, ∃ v, c.lo ≤ v ∧ v ≤ c.hi ∧
      canonicalize toUpperCase v = canonicalize toUpperCase u := by
  unfold hits
  rw [Bool.or_eq_true, List.any_eq_true, List.any_eq_true]
  constructor
  · rintro (⟨c, hc, h⟩ | ⟨c, hc, h⟩)
    · rw [Bool.and_eq_true, decide_eq_true_eq, decide_eq_true_eq] at h
      exact ⟨c, hc, u, h.1, h.2, rfl⟩
    · obtain ⟨k, hk, h⟩ := List.any_eq_true.mp h
      have hle : c.lo ≤ c.hi := of_decide_eq_true (List.all_eq_true.mp hA c hc)
      have hlt := UInt16.toNat_lt c.hi
      rw [List.mem_range] at hk
      rw [UInt16.le_iff_toNat_le] at hle
      have hval : (UInt16.ofNat (c.lo.toNat + k)).toNat = c.lo.toNat + k :=
        UInt16.toNat_ofNat_of_lt' (Nat.lt_of_le_of_lt (by omega) hlt)
      refine ⟨c, hc, _, ?_, ?_, of_decide_eq_true h⟩
      · rw [UInt16.le_iff_toNat_le, hval]
        omega
      · rw [UInt16.le_iff_toNat_le, hval]
        omega
  · rintro ⟨c, hc, v, hlo, hhi, h⟩
    rw [UInt16.le_iff_toNat_le] at hlo hhi
    refine .inr ⟨c, hc, List.any_eq_true.mpr ⟨v.toNat - c.lo.toNat, ?_, ?_⟩⟩
    · rw [List.mem_range]
      omega
    · rw [Nat.add_sub_cancel' hlo, UInt16.ofNat_toNat]
      exact decide_eq_true h

@[simp] theorem canonicalize_exactCase (u : CodeUnit) : canonicalize exactCase u = u := by
  unfold canonicalize exactCase
  simp

theorem hits_exactCase {A : CharSet} (hA : A.all (fun c => c.lo ≤ c.hi) = true) (u : CodeUnit) :
    hits exactCase A u = A.any fun c => c.lo ≤ u && u ≤ c.hi := by
  rw [Bool.eq_iff_iff, hits_iff hA, List.any_eq_true]
  refine exists_congr fun c => and_congr_right fun _ => ?_
  rw [Bool.and_eq_true, decide_eq_true_eq, decide_eq_true_eq]
  constructor
  · rintro ⟨v, hlo, hhi, h⟩
    rw [canonicalize_exactCase, canonicalize_exactCase] at h
    exact h ▸ ⟨hlo, hhi⟩
  · rintro ⟨hlo, hhi⟩
    exact ⟨u, hlo, hhi, rfl⟩

/-! ## Loops over a class -/

theorem advance_zero (x : MatchState) : x.advance 0 = x := rfl

theorem clear_zero (x : MatchState) (k : ℕ) : x.clear k 0 = x := by
  unfold MatchState.clear
  congr 1
  funext i
  rw [if_neg]
  simp only [Nat.add_zero, Bool.and_eq_true, decide_eq_true_eq]
  omega

theorem runs_set (invert : Bool) (A : CharSet) (x : MatchState) :
    runs toUpperCase (.atom (.set invert A)) x =
      if (x.after.head?.any fun v => hits toUpperCase A v != invert) then [x.advance 1] else [] := by
  show atomRuns toUpperCase (.set invert A) x = _
  unfold atomRuns
  cases x.after with
  | nil => rfl
  | cons v t => rfl

theorem repeatRuns_greedy {f : MatchState → List MatchState} {p : CodeUnit → Bool}
    (hf : ∀ x, f x = if x.after.head?.any p then [x.advance 1] else []) {fuel min : ℕ}
    {x : MatchState} (h : min + x.after.length < fuel) :
    (repeatRuns f true fuel min none x).head? =
      if min ≤ (x.after.takeWhile p).length then some (x.advance (x.after.takeWhile p).length)
      else none := by
  induction fuel generalizing min x with
  | zero => exact absurd h (Nat.not_lt_zero _)
  | succ fuel ih =>
    unfold repeatRuns
    rw [if_neg (by simp), hf]
    by_cases hhead : x.after.head?.any p = true
    · -- a further round
      obtain ⟨v, t, hx, hv⟩ : ∃ v t, x.after = v :: t ∧ p v = true := by
        cases hx : x.after with
        | nil =>
          rw [hx] at hhead
          cases hhead
        | cons v t =>
          rw [hx] at hhead
          exact ⟨v, t, rfl, hhead⟩
      have hafter : (x.advance 1).after = t := by
        unfold MatchState.advance
        rw [hx]
        rfl
      rw [hx, List.length_cons] at h
      have hround : ¬(decide (min = 0) && decide (t.length = x.after.length)) = true := by
        rw [hx, List.length_cons]
        simp
      have hih := @ih (min - 1) (x.advance 1) (by rw [hafter]; omega)
      rw [hafter, advance_advance] at hih
      rw [if_pos hhead, List.flatMap_singleton, hafter, if_neg hround, hx,
        List.takeWhile_cons_of_pos hv, List.length_cons, Nat.add_comm _ 1]
      by_cases hmin : min = 0
      · subst hmin
        simp only [ne_eq, not_true_eq_false, if_false, if_true, Option.map_none, List.head?_append,
          hih]
        rw [if_pos (Nat.zero_le _), if_pos (Nat.zero_le _)]
        rfl
      · simp only [if_pos hmin, Option.map_none, hih]
        congr 1
        rw [eq_iff_iff]
        omega
    · -- the loop ends here
      have htake : x.after.takeWhile p = [] := by
        cases hx : x.after with
        | nil => rfl
        | cons v t =>
          rw [hx] at hhead
          exact List.takeWhile_cons_of_neg hhead
      rw [if_neg hhead, List.flatMap_nil, htake, List.length_nil]
      by_cases hmin : min = 0
      · subst hmin
        rfl
      · simp only [if_pos hmin]
        rw [if_neg (by omega)]
        rfl

/-- A greedy loop over a class takes as many characters as it can. -/
theorem runs_greedy (invert : Bool) (A : CharSet) (min k : ℕ) (x : MatchState) :
    (runs toUpperCase (.repeated ⟨min, none, true⟩ k 0 (.atom (.set invert A))) x).head? =
      let taken := x.after.takeWhile fun v => hits toUpperCase A v != invert
      if min ≤ taken.length then some (x.advance taken.length) else none := by
  refine repeatRuns_greedy (fun x => ?_) (Nat.lt_succ_self _)
  rw [clear_zero]
  exact runs_set invert A x

theorem runs_seq_empty (n : Node) (x : MatchState) :
    runs toUpperCase (.seq n .empty) x = runs toUpperCase n x :=
  List.flatMap_singleton' _

theorem matchAt_seq_empty (n : Node) (before after : JsString) :
    matchAt toUpperCase (.seq n .empty) before after = matchAt toUpperCase n before after := by
  unfold matchAt
  rw [runs_seq_empty]

theorem take_length_takeWhile (p : CodeUnit → Bool) (s : JsString) :
    s.take (s.takeWhile p).length = s.takeWhile p :=
  (List.prefix_iff_eq_take.mp (List.takeWhile_prefix p)).symm

theorem after_advance {a s : JsString} (h : x.after = a ++ s) : (x.advance a.length).after = s := by
  unfold MatchState.advance
  rw [h, List.drop_left]

theorem text_advance (x : MatchState) (i : ℕ) : x.text (x.advance i) = x.after.take i := by
  unfold MatchState.text
  show (List.take (((x.after.take i).reverse ++ x.before).length - x.before.length)
    ((x.after.take i).reverse ++ x.before)).reverse = _
  rw [List.length_append, Nat.add_sub_cancel, List.take_left, List.reverse_reverse]

theorem matchAt_greedy (invert : Bool) (A : CharSet) (min k : ℕ) (before after : JsString) :
    matchAt toUpperCase (.repeated ⟨min, none, true⟩ k 0 (.atom (.set invert A))) before after =
      let taken := after.takeWhile fun v => hits toUpperCase A v != invert
      if min ≤ taken.length then
        some ⟨before.reverse, taken, after.drop taken.length, fun _ => none⟩
      else none := by
  unfold matchAt
  rw [runs_greedy]
  simp only
  split_ifs
  · rw [Option.map_some, text_advance]
    simp only [take_length_takeWhile]
    rfl
  · rfl

/-- A captured loop over a class. -/
theorem head?_capture_greedy (invert : Bool) (A : CharSet) (min i k : ℕ) (x : MatchState) :
    (runs toUpperCase
        (.capture i (.seq (.repeated ⟨min, none, true⟩ k 0 (.atom (.set invert A))) .empty)) x).head? =
      let taken := x.after.takeWhile fun v => hits toUpperCase A v != invert
      if min ≤ taken.length then
        some { x.advance taken.length with captures := Function.update x.captures i (some taken) }
      else none := by
  show ((runs toUpperCase (.seq _ .empty) x).map _).head? = _
  rw [runs_seq_empty, List.head?_map, runs_greedy]
  simp only
  split_ifs
  · rw [Option.map_some, text_advance, take_length_takeWhile]
    rfl
  · rfl

/-! ## One way through a tree -/

theorem head?_seq {m n : Node} (h : (runs toUpperCase m x).head? = some y)
    (h' : (runs toUpperCase n y).head? = some z) : (runs toUpperCase (.seq m n) x).head? = some z := by
  obtain ⟨l, hl⟩ := List.head?_eq_some_iff.mp h
  show ((runs toUpperCase m x).flatMap (runs toUpperCase n)).head? = some z
  rw [hl, List.flatMap_cons, List.head?_append, h']
  rfl

theorem runs_seq_of_nil {m n : Node} (h : runs toUpperCase m x = []) :
    runs toUpperCase (.seq m n) x = [] := by
  show (runs toUpperCase m x).flatMap (runs toUpperCase n) = []
  rw [h, List.flatMap_nil]

theorem runs_char_self {u : CodeUnit} {s : JsString} (h : x.after = u :: s) :
    runs toUpperCase (.atom (.char u)) x = [x.advance 1] := by
  show atomRuns toUpperCase (.char u) x = _
  unfold atomRuns
  simp only [h, if_true]

theorem runs_char_exact_of_ne {u : CodeUnit} (h : x.after.head? ≠ some u) :
    runs exactCase (.atom (.char u)) x = [] := by
  show atomRuns exactCase (.char u) x = _
  unfold atomRuns
  cases hx : x.after with
  | nil => rfl
  | cons v t =>
    rw [hx] at h
    have hne : v ≠ u := fun heq => h (congrArg some heq)
    simp only [canonicalize_exactCase, if_neg hne]

/-- An optional group that matches. -/
theorem head?_optional {k count : ℕ} (h : (runs toUpperCase n (x.clear k count)).head? = some y)
    (hlt : y.after.length < x.after.length) :
    (runs toUpperCase (.repeated ⟨0, some 1, true⟩ k count n) x).head? = some y := by
  obtain ⟨l, hl⟩ := List.head?_eq_some_iff.mp h
  obtain ⟨j, hj⟩ : ∃ j, 0 + x.after.length = j + 1 := ⟨x.after.length - 1, by omega⟩
  show (repeatRuns (fun y => runs toUpperCase n (y.clear k count)) true (0 + x.after.length + 1) 0
    (some 1) x).head? = _
  -- the only round, and none after it
  have hround : ¬(decide (y.after.length = x.after.length)) = true := by
    rw [decide_eq_true_eq]
    omega
  unfold repeatRuns
  rw [hl, hj]
  simp only [List.flatMap_cons, if_neg hround, decide_true, Bool.true_and]
  rfl

/-- An optional group that does not. -/
theorem runs_optional_of_nil {k count : ℕ} (h : runs toUpperCase n (x.clear k count) = []) :
    runs toUpperCase (.repeated ⟨0, some 1, true⟩ k count n) x = [x] := by
  show repeatRuns _ true (0 + x.after.length + 1) 0 (some 1) x = _
  unfold repeatRuns
  simp [h]

/-- An expression that begins with `^`. -/
theorem exec_inputStart (n : Node) (s : JsString) :
    exec toUpperCase (.seq (.assertion .inputStart) n) s = matchAt toUpperCase n [] s := by
  have hlate : ∀ (u : CodeUnit) (before after : JsString),
      matchAt toUpperCase (.seq (.assertion .inputStart) n) (u :: before) after = none := by
    intro u before after
    unfold matchAt
    rw [runs_seq_of_nil rfl]
    rfl
  have hnone : ∀ (after : JsString) (u : CodeUnit) (before : JsString),
      execFrom toUpperCase (.seq (.assertion .inputStart) n) (u :: before) after = none := by
    intro after
    induction after with
    | nil => exact fun u before => hlate u before []
    | cons v after ih =>
      intro u before
      rw [execFrom, hlate, Option.none_or, ih]
  have hstart : ∀ x : MatchState, x.before = [] →
      runs toUpperCase (.seq (.assertion .inputStart) n) x = runs toUpperCase n x := by
    intro x hx
    show (if x.before.isEmpty then [x] else []).flatMap (runs toUpperCase n) = _
    rw [hx]
    exact List.flatMap_singleton _ _
  unfold exec
  cases s with
  | nil =>
    unfold execFrom matchAt
    rw [hstart _ rfl]
  | cons u s =>
    rw [execFrom, hnone, Option.or_none]
    unfold matchAt
    rw [hstart _ rfl]

end WebsocketHub.RegExp
