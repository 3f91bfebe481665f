import WebsocketHub.RegExpExec

/-!
# WebsocketHub.RegExpLanguage — what the parts of a pattern match

Facts about the languages of small trees, from which the form of a match of a large one is read off, and
about the order in which a greedy loop tries its ways.

* `Node.within` says of the characters of a tree that they are in a class; with `mem_within` so are those of
  its matches, if the class does not tell the cases of a letter apart.
* `Node.nullable` says that a tree may match nothing.
* `find?_star`: a greedy loop goes on as long as what follows it can succeed.
-/

namespace WebsocketHub.RegExp

section Defs

variable (P : CodeUnit → Bool)

def asciiUpper (u : CodeUnit) : CodeUnit := if inRange 'a' 'z' u then u - 32 else u

def CharRange.within (c : CharRange) : Bool :=
  c.lo ≤ c.hi && (List.range (c.hi.toNat - c.lo.toNat + 1)).all fun k => P (.ofNat (c.lo.toNat + k))

def Atom.within : Atom → Bool
  | .char u => P u
  | .set invert A => !invert && A.all (CharRange.within P)
  | .backReference _ => false

/-- Every character of the tree is in `P`. -/
def Node.within (n : Node) : Bool :=
  n.leaves.all fun l =>
    match l with
    | .inl a => a.within P
    | .inr _ => true

def Node.nullable : Node → Bool
  | .empty => true
  | .atom (.backReference _) => true
  | .atom _ => false
  | .assertion _ => true
  | .seq m n => m.nullable && n.nullable
  | .alt m n => m.nullable || n.nullable
  | .capture _ n => n.nullable
  | .lookahead _ _ => true
  | .repeated q _ _ n => q.min = 0 || q.max = some 0 || n.nullable

/-- There is at most one way to match. -/
def Node.oneWay : Node → Bool
  | .empty => true
  | .atom _ => true
  | .assertion _ => true
  | .seq m n => m.oneWay && n.oneWay
  | .alt _ _ => false
  | .capture _ n => n.oneWay
  | .lookahead _ _ => true
  | .repeated q _ _ n => q.max = some q.min && n.oneWay

/-- `n?` -/
def optionally (k count : ℕ) (n : Node) : Node := .repeated ⟨0, some 1, true⟩ k count n

/-- `n*` -/
def star (k count : ℕ) (n : Node) : Node := .repeated ⟨0, none, true⟩ k count n

end Defs

variable {toUpperCase : CodeUnit → JsString} {P : CodeUnit → Bool} {n m : Node} {s : JsString}
  {u v : CodeUnit} {x y z : MatchState}

/-! ## ASCII -/

theorem isLetter_iff : isLetter u = true ↔
    97 ≤ u.toNat ∧ u.toNat ≤ 122 ∨ 65 ≤ u.toNat ∧ u.toNat ≤ 90 := by
  unfold isLetter inRange
  rw [Bool.or_eq_true, Bool.and_eq_true, Bool.and_eq_true, decide_eq_true_eq, decide_eq_true_eq,
    decide_eq_true_eq, decide_eq_true_eq]
  rfl

theorem inRange_lower : inRange 'a' 'z' u = true ↔ 97 ≤ u.toNat ∧ u.toNat ≤ 122 := by
  unfold inRange
  rw [Bool.and_eq_true, decide_eq_true_eq, decide_eq_true_eq]
  rfl

theorem toNat_asciiUpper (u : CodeUnit) : (asciiUpper u).toNat =
    if 97 ≤ u.toNat ∧ u.toNat ≤ 122 then u.toNat - 32 else u.toNat := by
  unfold asciiUpper
  by_cases h : 97 ≤ u.toNat ∧ u.toNat ≤ 122
  · rw [if_pos (inRange_lower.mpr h), if_pos h]
    have hle : (32 : CodeUnit) ≤ u := by
      rw [UInt16.le_iff_toNat_le]
      exact Nat.le_trans (by decide) h.1
    rw [UInt16.toNat_sub_of_le _ _ hle]
    rfl
  · rw [if_neg (mt inRange_lower.mp h), if_neg h]

theorem eq_of_asciiUpper_eq (hu : isLetter u = false) (h : asciiUpper v = asciiUpper u) : v = u := by
  have hletter := mt isLetter_iff.mpr (Bool.eq_false_iff.mp hu)
  have heq := congrArg UInt16.toNat h
  rw [toNat_asciiUpper, toNat_asciiUpper] at heq
  rw [← UInt16.toNat_inj]
  split_ifs at heq <;> omega

theorem isLetter_of_asciiUpper_eq (hu : isLetter u = true) (h : asciiUpper v = asciiUpper u) :
    isLetter v = true := by
  have hletter := isLetter_iff.mp hu
  have heq := congrArg UInt16.toNat h
  rw [toNat_asciiUpper, toNat_asciiUpper] at heq
  rw [isLetter_iff]
  split_ifs at heq <;> omega

/-- Lower-case letters are told apart by their upper case. -/
theorem eq_of_lower (hu : inRange 'a' 'z' u = true) (hv : inRange 'a' 'z' v = true)
    (h : asciiUpper v = asciiUpper u) : v = u := by
  rw [inRange_lower] at hu hv
  have heq := congrArg UInt16.toNat h
  rw [toNat_asciiUpper, toNat_asciiUpper, if_pos hu, if_pos hv] at heq
  rw [← UInt16.toNat_inj]
  omega

/-- A character outside of ASCII is none of it in any case. -/
theorem le_canonicalize (hu : 128 ≤ u) : 128 ≤ canonicalize toUpperCase u := by
  unfold canonicalize
  split
  · rename_i w _
    by_cases hw : w < 128
    · rw [if_pos (by rw [Bool.and_eq_true]; exact ⟨decide_eq_true hu, decide_eq_true hw⟩)]
      exact hu
    · rw [if_neg (by rw [Bool.and_eq_true, decide_eq_true_eq, decide_eq_true_eq]; exact fun h => hw h.2)]
      exact UInt16.not_lt.mp hw
  · exact hu

theorem eq_of_map_asciiUpper {w : JsString} (hs : ∀ u ∈ s, inRange 'a' 'z' u = true)
    (hw : ∀ u ∈ w, inRange 'a' 'z' u = true) (h : s.map asciiUpper = w.map asciiUpper) : s = w := by
  induction s generalizing w with
  | nil => exact (List.map_eq_nil_iff.mp h.symm).symm
  | cons u s ih =>
    cases w with
    | nil => cases h
    | cons v w =>
      obtain ⟨huv, hsw⟩ := List.cons.inj h
      rw [eq_of_lower (hw v List.mem_cons_self) (hs u List.mem_cons_self) huv,
        ih (fun x hx => hs x (List.mem_cons_of_mem _ hx)) (fun x hx => hw x (List.mem_cons_of_mem _ hx))
          hsw]

/-- The first character outside of a class. -/
theorem eq_of_first_outside {a b a' b' : JsString} (ha : ∀ w ∈ a, P w = true) (hu : P u = false)
    (ha' : ∀ w ∈ a', P w = true) (hv : P v = false) (h : a ++ u :: b = a' ++ v :: b') :
    a = a' ∧ u = v ∧ b = b' := by
  have htake := congrArg (List.takeWhile P) h
  rw [List.takeWhile_append_of_pos ha, List.takeWhile_append_of_pos ha',
    List.takeWhile_cons_of_neg (by rw [hu]; exact Bool.false_ne_true),
    List.takeWhile_cons_of_neg (by rw [hv]; exact Bool.false_ne_true), List.append_nil,
    List.append_nil] at htake
  subst htake
  obtain ⟨huv, hb⟩ := List.cons.inj (List.append_cancel_left h)
  exact ⟨rfl, huv, hb⟩

section Case

variable (hcase : ∀ u < 128, toUpperCase u = [asciiUpper u])

include hcase

theorem canonicalize_of_lt (hu : u < 128) : canonicalize toUpperCase u = asciiUpper u := by
  unfold canonicalize
  rw [hcase u hu]
  simp only
  rw [if_neg]
  rw [Bool.and_eq_true, decide_eq_true_eq, not_and]
  exact fun hle => absurd hu (UInt16.not_lt.mpr hle)

theorem asciiUpper_eq_of_canonicalize (hu : u < 128)
    (h : canonicalize toUpperCase v = canonicalize toUpperCase u) : asciiUpper v = asciiUpper u := by
  rw [canonicalize_of_lt hcase hu] at h
  by_cases hv : v < 128
  · rw [← h, canonicalize_of_lt hcase hv]
  · have hle : 128 ≤ canonicalize toUpperCase v := le_canonicalize (UInt16.not_lt.mp hv)
    rw [h, UInt16.le_iff_toNat_le, toNat_asciiUpper] at hle
    rw [UInt16.lt_iff_toNat_lt] at hu
    have : (128 : CodeUnit).toNat = 128 := rfl
    split_ifs at hle <;> omega

/-- Of a character that is no letter there is one case. -/
theorem mem_char (hu : u < 128 ∧ isLetter u = false)
    (h : s ∈ (Node.atom (.char u)).language toUpperCase) : s = [u] := by
  obtain ⟨v, rfl, hv⟩ := h
  rw [eq_of_asciiUpper_eq hu.2 (asciiUpper_eq_of_canonicalize hcase hu.1 hv)]

theorem map_asciiUpper_eq {w : JsString} (hw : ∀ u ∈ w, u < 128)
    (h : s.map (canonicalize toUpperCase) = w.map (canonicalize toUpperCase)) :
    s.map asciiUpper = w.map asciiUpper := by
  induction s generalizing w with
  | nil =>
    rw [List.map_eq_nil_iff.mp h.symm]
  | cons v s ih =>
    cases w with
    | nil => cases h
    | cons u w =>
      obtain ⟨huv, hsw⟩ := List.cons.inj h
      rw [List.map_cons, List.map_cons,
        asciiUpper_eq_of_canonicalize hcase (hw u List.mem_cons_self) huv,
        ih (fun x hx => hw x (List.mem_cons_of_mem _ hx)) hsw]

/-- A class with all letters, or without letters, does not tell the cases of a letter apart. -/
theorem case_closed (hlt : ∀ u, P u = true → u < 128)
    (hletters : ∀ u v, P u = true → isLetter u = true → isLetter v = true → P v = true) :
    ∀ u v, P u = true → canonicalize toUpperCase v = canonicalize toUpperCase u → P v = true := by
  intro u v hu h
  have hupper := asciiUpper_eq_of_canonicalize hcase (hlt u hu) h
  cases hletter : isLetter u with
  | true => exact hletters u v hu hletter (isLetter_of_asciiUpper_eq hletter hupper)
  | false => rwa [eq_of_asciiUpper_eq hletter hupper]

end Case

/-! ## Languages -/

/-- The characters of a match are in every class that contains those of the tree. -/
theorem mem_within (hP : ∀ u v, P u = true →
      canonicalize toUpperCase v = canonicalize toUpperCase u → P v = true)
    (h : n.within P = true) : ∀ s ∈ n.language toUpperCase, ∀ u ∈ s, P u = true := by
  refine forall_of_language n fun a ha s hs u hu => ?_
  have hwithin : a.within P = true := List.all_eq_true.mp h (.inl a) ha
  cases a with
  | char w =>
    obtain ⟨v, rfl, hv⟩ := hs
    obtain rfl := List.mem_singleton.mp hu
    exact hP w u hwithin hv
  | backReference k => cases hwithin
  | set invert A =>
    obtain ⟨v, rfl, hv⟩ := hs
    obtain rfl := List.mem_singleton.mp hu
    unfold Atom.within at hwithin
    rw [Bool.and_eq_true, Bool.not_eq_true'] at hwithin
    obtain ⟨rfl, hA⟩ := hwithin
    have hranges : ∀ c ∈ A, CharRange.within P c = true := List.all_eq_true.mp hA
    have hle : A.all (fun c => c.lo ≤ c.hi) = true :=
      List.all_eq_true.mpr fun c hc => (Bool.and_eq_true_iff.mp (hranges c hc)).1
    rw [Bool.bne_false, hits_iff hle] at hv
    obtain ⟨c, hc, w, hlo, hhi, hw⟩ := hv
    rw [UInt16.le_iff_toNat_le] at hlo hhi
    have hmem : w.toNat - c.lo.toNat ∈ List.range (c.hi.toNat - c.lo.toNat + 1) := by
      rw [List.mem_range]
      omega
    have hPw := List.all_eq_true.mp (Bool.and_eq_true_iff.mp (hranges c hc)).2 _ hmem
    rw [Nat.add_sub_cancel' hlo, UInt16.ofNat_toNat] at hPw
    exact hP w u hPw hw.symm

theorem nullable_of_nil (n : Node) (h : [] ∈ n.language toUpperCase) : n.nullable = true := by
  induction n with
  | empty => rfl
  | atom a =>
    cases a with
    | char u =>
      obtain ⟨v, hv, -⟩ := h
      cases hv
    | set invert A =>
      obtain ⟨v, hv, -⟩ := h
      cases hv
    | backReference k => rfl
  | assertion a => rfl
  | seq m n ihm ihn =>
    obtain ⟨a, ha, b, hb, hab⟩ := Language.mem_mul.mp h
    obtain ⟨rfl, rfl⟩ := List.append_eq_nil_iff.mp hab
    exact Bool.and_eq_true_iff.mpr ⟨ihm ha, ihn hb⟩
  | alt m n ihm ihn =>
    rcases h with h | h
    · exact Bool.or_eq_true_iff.mpr (.inl (ihm h))
    · exact Bool.or_eq_true_iff.mpr (.inr (ihn h))
  | capture k n ih => exact ih h
  | lookahead negative n ih => rfl
  | repeated q k count n ih =>
    obtain ⟨i, hmin, hmax, hi⟩ := h
    unfold Node.nullable
    rw [Bool.or_eq_true, Bool.or_eq_true, decide_eq_true_eq, decide_eq_true_eq]
    cases i with
    | zero =>
      rcases hmin with hmin | hmin
      · exact .inl (.inl (Nat.le_zero.mp hmin))
      · exact .inl (.inr hmin)
    | succ i =>
      rw [pow_succ'] at hi
      obtain ⟨a, ha, b, -, hab⟩ := Language.mem_mul.mp hi
      obtain ⟨rfl, -⟩ := List.append_eq_nil_iff.mp hab
      exact .inr (ih ha)

/-- A word, up to case. -/
theorem mem_chars {w : JsString} (h : s ∈ (chars w .empty).language toUpperCase) :
    s.map (canonicalize toUpperCase) = w.map (canonicalize toUpperCase) := by
  induction w generalizing s with
  | nil =>
    obtain rfl := (Language.mem_one _).mp h
    rfl
  | cons u w ih =>
    obtain ⟨a, ⟨v, rfl, hv⟩, b, hb, rfl⟩ := Language.mem_mul.mp h
    rw [List.singleton_append, List.map_cons, List.map_cons, hv, ih hb]

theorem mem_optionally {k count : ℕ} (h : s ∈ (optionally k count n).language toUpperCase) :
    s = [] ∨ s ∈ n.language toUpperCase := by
  obtain ⟨i, -, hmax, hs⟩ := h
  have hle : i ≤ 1 := hmax 1 rfl
  rcases Nat.le_one_iff_eq_zero_or_eq_one.mp hle with rfl | rfl
  · exact .inl ((Language.mem_one _).mp hs)
  · rw [pow_one] at hs
    exact .inr hs

/-- The first round of `n+`. -/
theorem mem_plus {greedy : Bool} {k count : ℕ}
    (h : s ∈ (Node.repeated ⟨1, none, greedy⟩ k count n).language toUpperCase) :
    ∃ a ∈ n.language toUpperCase, ∃ b, s = a ++ b := by
  obtain ⟨i, hmin, -, hs⟩ := h
  obtain ⟨j, rfl⟩ : ∃ j, i = j + 1 := by
    rcases hmin with hmin | hmin
    · exact ⟨i - 1, (Nat.sub_add_cancel hmin).symm⟩
    · cases hmin
  rw [pow_succ'] at hs
  obtain ⟨a, ha, b, -, rfl⟩ := Language.mem_mul.mp hs
  exact ⟨a, ha, b, rfl⟩

/-- The last round of `n+`. -/
theorem mem_plus_last {greedy : Bool} {k count : ℕ}
    (h : s ∈ (Node.repeated ⟨1, none, greedy⟩ k count n).language toUpperCase) :
    ∃ a, ∃ b ∈ n.language toUpperCase, s = a ++ b := by
  obtain ⟨i, hmin, -, hs⟩ := h
  obtain ⟨j, rfl⟩ : ∃ j, i = j + 1 := by
    rcases hmin with hmin | hmin
    · exact ⟨i - 1, (Nat.sub_add_cancel hmin).symm⟩
    · cases hmin
  rw [pow_succ] at hs
  obtain ⟨a, -, b, hb, rfl⟩ := Language.mem_mul.mp hs
  exact ⟨a, b, hb, rfl⟩

theorem mem_seq_empty (h : s ∈ (Node.seq n .empty).language toUpperCase) :
    s ∈ n.language toUpperCase := by
  obtain ⟨a, ha, b, hb, rfl⟩ := Language.mem_mul.mp h
  obtain rfl := (Language.mem_one _).mp hb
  rwa [List.append_nil]

/-- An expression that begins with `^`. -/
theorem mem_of_test_inputStart (h : test toUpperCase (.seq (.assertion .inputStart) n) s = true) :
    ∃ a ∈ n.language toUpperCase, ∃ b, s = a ++ b := by
  obtain ⟨pre, rest, rfl, hruns⟩ := (matchesFrom_iff _ _ _).mp h
  obtain ⟨y, hy⟩ := List.exists_mem_of_ne_nil _ hruns
  obtain ⟨z, hz, hy⟩ := List.mem_flatMap.mp hy
  unfold runs at hz
  split_ifs at hz with hstart
  · obtain rfl := List.mem_singleton.mp hz
    have hpre : pre = [] := by simpa [assertionHolds] using hstart
    obtain ⟨a, ha, hafter, -⟩ := language_of_runs n _ y hy
    subst hpre
    exact ⟨a, ha, y.after, hafter⟩
  · cases hz

/-! ## The order of the ways -/

theorem head?_flatMap {α β : Type} {f : α → List β} {l : List α} {b : β}
    (h : (l.flatMap f).head? = some b) :
    ∃ a, l.find? (fun a => !(f a).isEmpty) = some a ∧ (f a).head? = some b := by
  induction l with
  | nil => cases h
  | cons a l ih =>
    rw [List.flatMap_cons, List.head?_append] at h
    cases hf : f a with
    | nil =>
      rw [hf, List.head?_nil, Option.none_or] at h
      obtain ⟨c, hc, hb⟩ := ih h
      refine ⟨c, ?_, hb⟩
      rw [List.find?_cons_of_neg (by rw [hf]; exact Bool.false_ne_true)]
      exact hc
    | cons c fs =>
      refine ⟨a, List.find?_cons_of_pos (by rw [hf]; rfl), ?_⟩
      rw [hf] at h ⊢
      exact h

/-- A match takes something. -/
theorem length_lt_of_mem (hn : n.nullable = false) (hy : y ∈ runs toUpperCase n x) :
    y.after.length < x.after.length := by
  obtain ⟨t, ht, hafter, -⟩ := language_of_runs n x y hy
  have hne : t ≠ [] := by
    rintro rfl
    rw [nullable_of_nil n ht] at hn
    cases hn
  rw [hafter, List.length_append]
  exact Nat.lt_add_of_pos_left (List.length_pos_iff.mpr hne)

theorem length_flatMap_le_one {α β : Type} {f : α → List β} {l : List α} (hl : l.length ≤ 1)
    (hf : ∀ a, (f a).length ≤ 1) : (l.flatMap f).length ≤ 1 := by
  match l, hl with
  | [], _ => exact Nat.zero_le _
  | [a], _ =>
    rw [List.flatMap_singleton]
    exact hf a
  | a :: b :: l, hl => exact absurd hl (by simp)

theorem length_repeatRuns_le_one {f : MatchState → List MatchState} (hf : ∀ x, (f x).length ≤ 1)
    (greedy : Bool) (fuel i : ℕ) (x : MatchState) :
    (repeatRuns f greedy fuel i (some i) x).length ≤ 1 := by
  induction fuel generalizing i x with
  | zero => exact Nat.zero_le _
  | succ fuel ih =>
    unfold repeatRuns
    cases i with
    | zero => exact Nat.le_refl _
    | succ i =>
      rw [if_neg (by simp)]
      simp only [ne_eq, Nat.succ_ne_zero, not_false_eq_true, if_true, decide_false, Bool.false_and,
        Bool.false_eq_true, if_false, Option.map_some, Nat.add_sub_cancel]
      exact length_flatMap_le_one (hf x) fun y => ih i y

theorem length_runs_le_one (n : Node) (h : n.oneWay = true) (x : MatchState) :
    (runs toUpperCase n x).length ≤ 1 := by
  induction n generalizing x with
  | empty => exact Nat.le_refl _
  | atom a =>
    have hone : ∀ (b : Prop) [Decidable b] (z : MatchState),
        (if b then [z] else []).length ≤ 1 := by
      intro b _ z
      split_ifs
      · exact Nat.le_refl _
      · exact Nat.zero_le _
    show (atomRuns toUpperCase a x).length ≤ 1
    unfold atomRuns
    cases a with
    | char u =>
      cases x.after with
      | nil => exact Nat.zero_le _
      | cons v t => exact hone _ _
    | set invert A =>
      cases x.after with
      | nil => exact Nat.zero_le _
      | cons v t => exact hone _ _
    | backReference k =>
      simp only
      split
      · exact Nat.le_refl _
      · exact hone _ _
  | assertion a =>
    unfold runs
    split_ifs
    · exact Nat.le_refl _
    · exact Nat.zero_le _
  | seq m n ihm ihn =>
    obtain ⟨hm, hn⟩ := Bool.and_eq_true_iff.mp h
    exact length_flatMap_le_one (ihm hm x) (ihn hn)
  | alt m n => cases h
  | capture k n ih =>
    show ((runs toUpperCase n x).map _).length ≤ 1
    rw [List.length_map]
    exact ih h x
  | lookahead negative n =>
    unfold runs
    split <;> split_ifs <;> simp
  | repeated q k count n ih =>
    obtain ⟨hq, hn⟩ := Bool.and_eq_true_iff.mp h
    unfold runs
    rw [of_decide_eq_true hq]
    exact length_repeatRuns_le_one (fun y => ih hn (y.clear k count)) _ _ _ _

/-- The way with the optional part comes first. -/
theorem runs_optionally {k count : ℕ} (hn : n.nullable = false) (x : MatchState) :
    runs toUpperCase (optionally k count n) x = runs toUpperCase n (x.clear k count) ++ [x] := by
  show repeatRuns (fun y => runs toUpperCase n (y.clear k count)) true (0 + x.after.length + 1) 0
    (some 1) x = _
  have hround : ((runs toUpperCase n (x.clear k count)).flatMap fun y =>
      if decide (0 = 0) && decide (y.after.length = x.after.length) then []
      else repeatRuns (fun y => runs toUpperCase n (y.clear k count)) true (0 + x.after.length) (0 - 1)
        ((some 1).map (· - 1)) y) = runs toUpperCase n (x.clear k count) := by
    rw [List.flatMap_congr (g := fun y => [y]) fun y hy => ?_]
    · exact List.flatMap_singleton' _
    · have hlt : y.after.length < x.after.length :=
        (length_lt_of_mem hn hy : y.after.length < (x.clear k count).after.length)
      obtain ⟨i, hi⟩ : ∃ i, 0 + x.after.length = i + 1 := ⟨x.after.length - 1, by omega⟩
      rw [if_neg (by simp; omega), hi]
      rfl
  unfold repeatRuns
  rw [if_neg (by simp), if_neg (by simp), if_pos rfl]
  exact congrArg (· ++ [x]) hround

/-- The loop ends where its body does not match. -/
theorem runs_star_of_nil {k count : ℕ} (h : runs toUpperCase n (x.clear k count) = []) :
    runs toUpperCase (star k count n) x = [x] := by
  show repeatRuns _ true (0 + x.after.length + 1) 0 none x = _
  unfold repeatRuns
  simp [h]

/-- The ways with a further round come first. -/
theorem runs_star_of_single {k count : ℕ} (h : runs toUpperCase n (x.clear k count) = [z])
    (hlt : z.after.length < x.after.length) :
    runs toUpperCase (star k count n) x = runs toUpperCase (star k count n) z ++ [x] := by
  obtain ⟨i, hi⟩ : ∃ i, x.after.length = i + 1 := ⟨x.after.length - 1, by omega⟩
  have hrest : repeatRuns (fun y => runs toUpperCase n (y.clear k count)) true (i + 1) 0 none z =
      runs toUpperCase (star k count n) z := by
    refine (runs_repeated ⟨0, none, true⟩ k count n z ?_).symm
    show 0 + z.after.length < i + 1
    omega
  show repeatRuns (fun y => runs toUpperCase n (y.clear k count)) true (0 + x.after.length + 1) 0 none x =
    _
  unfold repeatRuns
  rw [hi, Nat.zero_add]
  simp only [h, List.flatMap_cons, List.flatMap_nil, List.append_nil]
  rw [if_neg (by simp), if_neg (by simp), if_pos trivial, if_neg (by simp; omega)]
  rw [← hrest]
  rfl

theorem before_advance {a r : JsString} (h : x.after = a ++ r) :
    (x.advance a.length).before = a.reverse ++ x.before := by
  unfold MatchState.advance
  rw [h, List.take_left]

/-- A loop can take all of some characters that its body takes one by one. -/
theorem advance_mem_star {k : ℕ} {a r : JsString} (hx : x.after = a ++ r)
    (ha : ∀ x : MatchState, ∀ v ∈ a, x.after.head? = some v → runs toUpperCase n x = [x.advance 1]) :
    x.advance a.length ∈ runs toUpperCase (star k 0 n) x := by
  induction a generalizing x with
  | nil =>
    rw [List.length_nil, advance_zero]
    show x ∈ repeatRuns _ true (0 + x.after.length + 1) 0 none x
    unfold repeatRuns
    simp
  | cons v a ih =>
    have hround : runs toUpperCase n (x.clear k 0) = [x.advance 1] := by
      rw [clear_zero]
      exact ha x v List.mem_cons_self (by rw [hx]; rfl)
    have hafter : (x.advance 1).after = a ++ r := after_advance (a := [v]) hx
    rw [runs_star_of_single hround (by rw [hafter, hx]; exact Nat.lt_succ_self _)]
    have hmem := ih hafter fun x v hv => ha x v (List.mem_cons_of_mem _ hv)
    rw [advance_advance, Nat.add_comm] at hmem
    exact List.mem_append_left _ hmem

/-- **A greedy loop** whose body goes one way ends as late as what follows it allows. -/
theorem find?_star {k count : ℕ} {p : MatchState → Bool}
    (hn : ∀ x : MatchState, runs toUpperCase n (x.clear k count) = [] ∨
      ∃ z, runs toUpperCase n (x.clear k count) = [z] ∧ z.after.length < x.after.length)
    (h : (runs toUpperCase (star k count n) x).find? p = some y) :
    ∀ z ∈ runs toUpperCase n (y.clear k count), ∀ w ∈ runs toUpperCase (star k count n) z,
      p w = false := by
  induction hlength : x.after.length using Nat.strong_induction_on generalizing x with
  | _ i ih =>
    subst hlength
    rcases hn x with hnil | ⟨z, hz, hlt⟩
    · rw [runs_star_of_nil hnil] at h
      obtain rfl := List.mem_singleton.mp (List.mem_of_find?_eq_some h)
      intro z hz
      rw [hnil] at hz
      cases hz
    · rw [runs_star_of_single hz hlt, List.find?_append] at h
      rcases Option.or_eq_some_iff.mp h with h | ⟨hnone, h⟩
      · exact ih z.after.length hlt h rfl
      · obtain rfl := List.mem_singleton.mp (List.mem_of_find?_eq_some h)
        intro z' hz' w hw
        rw [hz] at hz'
        obtain rfl := List.mem_singleton.mp hz'
        exact Bool.eq_false_iff.mpr (List.find?_eq_none.mp hnone w hw)

end WebsocketHub.RegExp
