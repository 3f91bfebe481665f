import Mathlib.Data.List.Basic
import Mathlib.Data.Nat.Notation

/-!
# WebsocketHub.Recency — how long ago something happened, and lists in that order

A log has the events of a run, the latest first.  `age log p` is the number of events since the last
one that satisfies `p`, the length of the log if there is none.  A list is `Ranked` when the events of
its elements are older from one to the next, as in a cache that puts what is used to its front.
-/

namespace WebsocketHub

section Defs

variable {ε α : Type*}

/-- How many events there have been since the last one that satisfies `p`. -/
def age (log : List ε) (p : ε → Bool) : ℕ := log.findIdx p

/-- From one element to the next the last event of an element, as `p` tells, is older. -/
def Ranked (log : List ε) (p : α → ε → Bool) (l : List α) : Prop :=
  l.Pairwise fun a b => age log (p a) < age log (p b)

end Defs

variable {ε α : Type*} {log : List ε} {e : ε} {p q : ε → Bool}

theorem age_cons_of_pos (h : p e = true) : age (e :: log) p = 0 := by
  rw [age, List.findIdx_cons, h]
  rfl

theorem age_cons_of_neg (h : p e = false) : age (e :: log) p = age log p + 1 := by
  rw [age, List.findIdx_cons, h]
  rfl

/-- The last of two kinds of events. -/
theorem age_or (log : List ε) (p q : ε → Bool) :
    age log (fun e => p e || q e) = min (age log p) (age log q) := by
  induction log with
  | nil => rfl
  | cons e log ih =>
    cases hp : p e with
    | true => rw [age_cons_of_pos (by simp [hp]), age_cons_of_pos hp, Nat.zero_min]
    | false =>
      cases hq : q e with
      | true => rw [age_cons_of_pos (by simp [hq]), age_cons_of_pos hq, Nat.min_zero]
      | false =>
        rw [age_cons_of_neg (by simp [hp, hq]), age_cons_of_neg hp, age_cons_of_neg hq, ih]
        omega

namespace Ranked

variable {p : α → ε → Bool} {l l' : List α} {a : α}

theorem nil : Ranked log p [] := List.Pairwise.nil

theorem sublist (h : Ranked log p l) (hsub : l'.Sublist l) : Ranked log p l' :=
  List.Pairwise.sublist hsub h

/-- An event of none of the elements. -/
theorem skip (h : Ranked log p l) (hnot : ∀ b ∈ l, p b e = false) : Ranked (e :: log) p l := by
  refine List.Pairwise.imp_of_mem ?_ h
  intro b c hb hc hlt
  rw [age_cons_of_neg (hnot b hb), age_cons_of_neg (hnot c hc)]
  exact Nat.succ_lt_succ hlt

/-- An event of an element, which comes to the front. -/
theorem use (h : Ranked log p l) (ha : p a e = true) (hnot : ∀ b ∈ l, p b e = false) :
    Ranked (e :: log) p (a :: l) := by
  refine List.pairwise_cons.mpr ⟨fun b hb => ?_, h.skip hnot⟩
  rw [age_cons_of_pos ha, age_cons_of_neg (hnot b hb)]
  exact Nat.succ_pos _

/-- The last element has the oldest event. -/
theorem lt_last (h : Ranked log p (l ++ [a])) {b : α} (hb : b ∈ l) :
    age log (p b) < age log (p a) :=
  (List.pairwise_append.mp h).2.2 b hb a (List.mem_singleton.mpr rfl)

end Ranked

end WebsocketHub
