import WebsocketHub.RegExpPlain
import Mathlib.Logic.Function.Basic

/-!
# WebsocketHub.RegExpMatch — what a regular expression matches

The backtracking matcher of ECMAScript, with the flag `i`: `runs` lists the ways in which a tree can
match from a position on, the one to be tried first in front.  A position is a split of the string; what
is before it is reversed.

* `toUpperCase` is what `String.prototype.toUpperCase` yields of a single code unit; it is a parameter, as
  nothing here depends on the tables of Unicode.
* A loop is given fuel for its mandatory rounds and one round for each code unit that is left, as a
  further round has to take one.
* `test_of_plain` is what a plain pattern between two `\b` matches: its own text, as a word.
-/

namespace WebsocketHub.RegExp

section Defs

/-! ## Strings -/

variable (toUpperCase : CodeUnit → JsString)

/-- `Canonicalize`. -/
def canonicalize (u : CodeUnit) : CodeUnit :=
  match toUpperCase u with
  | [v] => if 128 ≤ u && v < 128 then u else v
  | _ => u

/-- The strings are the same, ignoring case. -/
def sameText (s t : JsString) : Bool := s.map (canonicalize toUpperCase) = t.map (canonicalize toUpperCase)

/-- A word begins or ends between two characters, or at an end of the string. -/
def isBoundary (left right : Option CodeUnit) : Bool := left.any isWordChar != right.any isWordChar

/-- `s` contains the word `n`, ignoring case. -/
def ContainsWord (n s : JsString) : Prop :=
  ∃ pre mid post, s = pre ++ mid ++ post ∧ sameText toUpperCase mid n = true ∧
    isBoundary pre.getLast? (mid ++ post).head? = true ∧
    isBoundary (pre ++ mid).getLast? post.head? = true

/-! ## The matcher -/

structure MatchState where
  before : JsString
  after : JsString
  captures : ℕ → Option JsString

namespace MatchState

/-- `n` characters further. -/
def advance (x : MatchState) (n : ℕ) : MatchState :=
  { x with before := (x.after.take n).reverse ++ x.before, after := x.after.drop n }

/-- The captures `k + 1` to `k + count` are undefined again. -/
def clear (x : MatchState) (k count : ℕ) : MatchState :=
  { x with captures := fun i => if k < i && i ≤ k + count then none else x.captures i }

/-- The text from `x` to `y`. -/
def text (x y : MatchState) : JsString := (y.before.take (y.before.length - x.before.length)).reverse

end MatchState

/-- `CharacterSetMatcher`: a member of the set is the same character, ignoring case. -/
def hits (A : CharSet) (u : CodeUnit) : Bool :=
  A.any (fun c => c.lo ≤ u && u ≤ c.hi) ||
    A.any fun c => (List.range (c.hi.toNat - c.lo.toNat + 1)).any fun k =>
      canonicalize toUpperCase (.ofNat (c.lo.toNat + k)) = canonicalize toUpperCase u

def atomRuns (a : Atom) (x : MatchState) : List MatchState :=
  match a with
  | .char u =>
    match x.after with
    | [] => []
    | v :: _ =>
      if canonicalize toUpperCase v = canonicalize toUpperCase u then [x.advance 1] else []
  | .set invert A =>
    match x.after with
    | [] => []
    | v :: _ => if hits toUpperCase A v != invert then [x.advance 1] else []
  | .backReference k =>
    match x.captures k with
    | none => [x]
    | some t =>
      if sameText toUpperCase (x.after.take t.length) t then [x.advance t.length] else []

def assertionHolds (a : Assertion) (x : MatchState) : Bool :=
  match a with
  | .inputStart => x.before.isEmpty
  | .inputEnd => x.after.isEmpty
  | .wordBoundary => isBoundary x.before.head? x.after.head?
  | .notWordBoundary => !isBoundary x.before.head? x.after.head?

/-- `RepeatMatcher`: a round that is not mandatory has to take something. -/
def repeatRuns (m : MatchState → List MatchState) (greedy : Bool) :
    ℕ → ℕ → Option ℕ → MatchState → List MatchState
  | 0, _, _, _ => []
  | fuel + 1, min, max, x =>
    if max = some 0 then [x]
    else
      let again := (m x).flatMap fun y =>
        if min = 0 && y.after.length = x.after.length then []
        else repeatRuns m greedy fuel (min - 1) (max.map (· - 1)) y
      if min ≠ 0 then again
      else if greedy then again ++ [x]
      else x :: again

def runs : Node → MatchState → List MatchState
  | .empty, x => [x]
  | .atom a, x => atomRuns toUpperCase a x
  | .assertion a, x => if assertionHolds a x then [x] else []
  | .seq m n, x => (runs m x).flatMap (runs n)
  | .alt m n, x => runs m x ++ runs n x
  | .capture k n, x =>
    (runs n x).map fun y => { y with captures := Function.update y.captures k (some (x.text y)) }
  | .lookahead negative n, x =>
    match runs n x with
    | [] => if negative then [x] else []
    | y :: _ => if negative then [] else [{ x with captures := y.captures }]
  | .repeated q k count n, x =>
    repeatRuns (fun y => runs n (y.clear k count)) q.greedy (q.min + x.after.length + 1) q.min q.max x

/-- The tree matches at the position or at a later one. -/
def matchesFrom (n : Node) : JsString → JsString → Bool
  | before, [] => !(runs toUpperCase n ⟨before, [], fun _ => none⟩).isEmpty
  | before, u :: after =>
    !(runs toUpperCase n ⟨before, u :: after, fun _ => none⟩).isEmpty ||
      matchesFrom n (u :: before) after

/-- `test`, of a regular expression without the flag `g`. -/
def test (n : Node) (s : JsString) : Bool := matchesFrom toUpperCase n [] s

end Defs

variable {toUpperCase : CodeUnit → JsString} {n s : JsString} {m : Node}

/-! ## The fuel of a loop -/

theorem length_advance (x : MatchState) (i : ℕ) : (x.advance i).after.length ≤ x.after.length := by
  unfold MatchState.advance
  rw [List.length_drop]
  exact Nat.sub_le _ _

theorem length_of_mem_singleton {x y : MatchState} (h : y ∈ [x]) :
    y.after.length ≤ x.after.length := by
  obtain rfl := List.mem_singleton.mp h
  exact Nat.le_refl _

theorem length_atomRuns (a : Atom) (x : MatchState) :
    ∀ y ∈ atomRuns toUpperCase a x, y.after.length ≤ x.after.length := by
  intro y hy
  have hone : ∀ {b : Bool} {i : ℕ}, y ∈ (if b then [x.advance i] else []) →
      y.after.length ≤ x.after.length := by
    intro b i hmem
    split_ifs at hmem
    · rw [List.mem_singleton.mp hmem]
      exact length_advance x i
    · cases hmem
  cases a with
  | char u =>
    cases hx : x.after with
    | nil =>
      simp only [atomRuns, hx] at hy
      cases hy
    | cons v t =>
      simp only [atomRuns, hx] at hy
      rw [← hx]
      exact hone (b := decide (canonicalize toUpperCase v = canonicalize toUpperCase u))
        (by simpa using hy)
  | set invert A =>
    cases hx : x.after with
    | nil =>
      simp only [atomRuns, hx] at hy
      cases hy
    | cons v t =>
      simp only [atomRuns, hx] at hy
      rw [← hx]
      exact hone hy
  | backReference k =>
    cases hk : x.captures k with
    | none =>
      simp only [atomRuns, hk] at hy
      exact length_of_mem_singleton hy
    | some t =>
      simp only [atomRuns, hk] at hy
      exact hone hy

theorem length_repeatRuns {f : MatchState → List MatchState} {greedy : Bool}
    (hf : ∀ x, ∀ y ∈ f x, y.after.length ≤ x.after.length) (fuel min : ℕ) (max : Option ℕ)
    (x : MatchState) :
    ∀ y ∈ repeatRuns f greedy fuel min max x, y.after.length ≤ x.after.length := by
  induction fuel generalizing min max x with
  | zero => exact fun y hy => (nomatch hy)
  | succ fuel ih =>
    intro y hy
    unfold repeatRuns at hy
    have hagain : ∀ y, (y ∈ (f x).flatMap fun z => if min = 0 && z.after.length = x.after.length then []
        else repeatRuns f greedy fuel (min - 1) (max.map (· - 1)) z) →
        y.after.length ≤ x.after.length := by
      intro y hy
      obtain ⟨z, hz, hy⟩ := List.mem_flatMap.mp hy
      split_ifs at hy
      · cases hy
      · exact Nat.le_trans (ih _ _ z y hy) (hf x z hz)
    by_cases hmax : max = some 0
    · rw [if_pos hmax] at hy
      exact length_of_mem_singleton hy
    by_cases hmin : min ≠ 0
    · simp only [if_neg hmax, if_pos hmin] at hy
      exact hagain y hy
    simp only [if_neg hmax, if_neg hmin] at hy
    split_ifs at hy with hgreedy
    · rcases List.mem_append.mp hy with hy | hy
      · exact hagain y hy
      · exact length_of_mem_singleton hy
    · rcases List.mem_cons.mp hy with rfl | hy
      · exact Nat.le_refl _
      · exact hagain y hy

/-- No match goes back. -/
theorem length_runs (m : Node) (x : MatchState) :
    ∀ y ∈ runs toUpperCase m x, y.after.length ≤ x.after.length := by
  induction m generalizing x with
  | empty =>
    intro y hy
    exact length_of_mem_singleton hy
  | atom a => exact length_atomRuns a x
  | assertion a =>
    intro y hy
    unfold runs at hy
    split_ifs at hy
    · exact length_of_mem_singleton hy
    · cases hy
  | seq m n ihm ihn =>
    intro y hy
    obtain ⟨z, hz, hy⟩ := List.mem_flatMap.mp hy
    exact Nat.le_trans (ihn z y hy) (ihm x z hz)
  | alt m n ihm ihn =>
    intro y hy
    rcases List.mem_append.mp hy with hy | hy
    · exact ihm x y hy
    · exact ihn x y hy
  | capture k n ih =>
    intro y hy
    obtain ⟨z, hz, rfl⟩ := List.mem_map.mp hy
    exact ih x z hz
  | lookahead negative n ih =>
    intro y hy
    unfold runs at hy
    split at hy
    · split_ifs at hy
      · exact length_of_mem_singleton hy
      · cases hy
    · split_ifs at hy
      · cases hy
      · obtain rfl := List.mem_singleton.mp hy
        exact Nat.le_refl _
  | repeated q k count n ih => exact length_repeatRuns (fun x => ih (x.clear k count)) _ _ _ x

/-- A loop that is given more fuel than it needs matches the same. -/
theorem repeatRuns_fuel {f : MatchState → List MatchState} {greedy : Bool}
    (hf : ∀ x, ∀ y ∈ f x, y.after.length ≤ x.after.length) {fuel fuel' min : ℕ} {max : Option ℕ}
    {x : MatchState} (h : min + x.after.length < fuel) (h' : fuel ≤ fuel') :
    repeatRuns f greedy fuel' min max x = repeatRuns f greedy fuel min max x := by
  induction fuel generalizing fuel' min max x with
  | zero => exact absurd h (Nat.not_lt_zero _)
  | succ fuel ih =>
    obtain ⟨fuel', rfl⟩ : ∃ k, fuel' = k + 1 := ⟨fuel' - 1, by omega⟩
    have hagain : ((f x).flatMap fun y =>
        if min = 0 && y.after.length = x.after.length then []
        else repeatRuns f greedy fuel' (min - 1) (max.map (· - 1)) y) =
        (f x).flatMap fun y => if min = 0 && y.after.length = x.after.length then []
          else repeatRuns f greedy fuel (min - 1) (max.map (· - 1)) y := by
      refine List.flatMap_congr fun y hy => ?_
      split_ifs with hstop
      · rfl
      · -- the round was mandatory, or it has taken something
        have hle := hf x y hy
        simp only [Bool.and_eq_true, decide_eq_true_eq, not_and] at hstop
        refine ih ?_ (by omega)
        by_cases hmin : min = 0
        · have := hstop hmin
          omega
        · omega
    unfold repeatRuns
    rw [hagain]

/-- **The fuel is enough** for every loop. -/
theorem runs_repeated (q : Quantifier) (k count : ℕ) (m : Node) (x : MatchState) {fuel : ℕ}
    (h : q.min + x.after.length < fuel) : runs toUpperCase (.repeated q k count m) x =
      repeatRuns (fun y => runs toUpperCase m (y.clear k count)) q.greedy fuel q.min q.max x :=
  (repeatRuns_fuel (fun x => length_runs m (x.clear k count)) (Nat.lt_succ_self _) h).symm

/-! ## The matches of a plain pattern -/

theorem advance_advance (x : MatchState) (i j : ℕ) :
    (x.advance i).advance j = x.advance (i + j) := by
  unfold MatchState.advance
  rw [List.take_add, List.reverse_append, List.append_assoc, List.drop_drop]

theorem sameText_cons (v u : CodeUnit) (t n : JsString) :
    sameText toUpperCase (v :: t) (u :: n) =
      (decide (canonicalize toUpperCase v = canonicalize toUpperCase u) &&
        sameText toUpperCase t n) := by
  simp [sameText]

/-- Text is matched by itself, ignoring case. -/
theorem runs_chars (n : JsString) (x : MatchState) :
    runs toUpperCase (chars n m) x =
      if sameText toUpperCase (x.after.take n.length) n then
        runs toUpperCase m (x.advance n.length)
      else [] := by
  induction n generalizing x with
  | nil => rfl
  | cons u n ih =>
    show (atomRuns toUpperCase (.char u) x).flatMap (runs toUpperCase (chars n m)) = _
    unfold atomRuns
    cases hx : x.after with
    | nil => rfl
    | cons v t =>
      rw [List.length_cons, List.take_succ_cons, sameText_cons]
      by_cases hv : canonicalize toUpperCase v = canonicalize toUpperCase u
      · have hafter : (x.advance 1).after = t := by
          rw [MatchState.advance, hx]
          rfl
        rw [decide_eq_true hv, Bool.true_and, Nat.add_comm n.length 1, ← advance_advance]
        simp only [if_pos hv, List.flatMap_singleton, ih, hafter]
      · rw [decide_eq_false hv, Bool.false_and]
        simp only [if_neg hv, List.flatMap_nil]
        rfl

theorem runs_wordNode (before after : JsString) (captures : ℕ → Option JsString) :
    runs toUpperCase (wordNode n) ⟨before, after, captures⟩ ≠ [] ↔
      isBoundary before.head? after.head? = true ∧
        sameText toUpperCase (after.take n.length) n = true ∧
        isBoundary ((after.take n.length).reverse ++ before).head? (after.drop n.length).head? =
          true := by
  have hassert : ∀ (m : Node) (x : MatchState),
      runs toUpperCase (.seq (.assertion .wordBoundary) m) x =
        if isBoundary x.before.head? x.after.head? then runs toUpperCase m x else [] := by
    intro m x
    show (if isBoundary x.before.head? x.after.head? then [x] else []).flatMap (runs toUpperCase m) = _
    split_ifs with hb
    · exact List.flatMap_singleton _ _
    · rfl
  unfold wordNode
  rw [hassert, runs_chars, hassert]
  show (if isBoundary before.head? after.head? then
    if sameText toUpperCase (after.take n.length) n then
      if isBoundary ((after.take n.length).reverse ++ before).head? (after.drop n.length).head? then
        [MatchState.advance ⟨before, after, captures⟩ n.length] else [] else [] else []) ≠ [] ↔ _
  split_ifs with h1 h2 h3
  · exact ⟨fun _ => ⟨h1, h2, h3⟩, fun _ => List.cons_ne_nil _ _⟩
  · exact ⟨fun h => absurd rfl h, fun h => absurd h.2.2 h3⟩
  · exact ⟨fun h => absurd rfl h, fun h => absurd h.2.1 h2⟩
  · exact ⟨fun h => absurd rfl h, fun h => absurd h.1 h1⟩

theorem matchesFrom_iff (m : Node) (before after : JsString) :
    matchesFrom toUpperCase m before after = true ↔
      ∃ a b, after = a ++ b ∧
        runs toUpperCase m ⟨a.reverse ++ before, b, fun _ => none⟩ ≠ [] := by
  induction after generalizing before with
  | nil =>
    unfold matchesFrom
    rw [Bool.not_eq_true', List.isEmpty_eq_false_iff]
    constructor
    · intro h
      exact ⟨[], [], rfl, h⟩
    · rintro ⟨a, b, hab, h⟩
      obtain ⟨rfl, rfl⟩ := List.append_eq_nil_iff.mp hab.symm
      exact h
  | cons u after ih =>
    unfold matchesFrom
    rw [Bool.or_eq_true, Bool.not_eq_true', List.isEmpty_eq_false_iff, ih]
    constructor
    · rintro (h | ⟨a, b, rfl, h⟩)
      · exact ⟨[], u :: after, rfl, h⟩
      · refine ⟨u :: a, b, rfl, ?_⟩
        rw [List.reverse_cons, List.append_assoc]
        exact h
    · rintro ⟨a, b, hab, h⟩
      cases a with
      | nil =>
        rw [List.nil_append] at hab
        subst hab
        exact .inl h
      | cons v a =>
        obtain ⟨rfl, rfl⟩ := List.cons.inj hab
        refine .inr ⟨a, b, rfl, ?_⟩
        rw [List.reverse_cons, List.append_assoc] at h
        exact h

theorem length_of_sameText {s t : JsString} (h : sameText toUpperCase s t = true) :
    s.length = t.length := by
  have hmap := of_decide_eq_true h
  rw [← List.length_map (canonicalize toUpperCase), hmap, List.length_map]

/-- **A plain pattern between two `\b`** matches its own text, as a word. -/
theorem test_wordNode : test toUpperCase (wordNode n) s = true ↔ ContainsWord toUpperCase n s := by
  unfold test ContainsWord
  rw [matchesFrom_iff]
  constructor
  · rintro ⟨pre, b, rfl, h⟩
    obtain ⟨hl, htext, hr⟩ := (runs_wordNode _ _ _).mp h
    rw [List.append_nil] at hl hr
    refine ⟨pre, b.take n.length, b.drop n.length, ?_, htext, ?_, ?_⟩
    · rw [List.append_assoc, List.take_append_drop]
    · rw [List.take_append_drop, ← List.head?_reverse]
      exact hl
    · rw [← List.head?_reverse, List.reverse_append]
      exact hr
  · rintro ⟨pre, mid, post, rfl, htext, hl, hr⟩
    refine ⟨pre, mid ++ post, List.append_assoc _ _ _, (runs_wordNode _ _ _).mpr ?_⟩
    rw [List.append_nil, ← length_of_sameText htext, List.take_left, List.drop_left,
      ← List.reverse_append, List.head?_reverse, List.head?_reverse]
    exact ⟨hl, htext, hr⟩

end WebsocketHub.RegExp
