import Mathlib.Algebra.Order.BigOperators.Group.List
import Mathlib.Data.List.Infix

/-!
# WebsocketHub.LongestSuffix — the longest suffix of a list within a budget

`longestSuffix w b l` drops elements from the front of `l` until the rest weighs at most `b`.  With
weights that are not negative it is the longest suffix that fits (`IsLongestSuffix`), and it can be
kept up to date element by element (`longestSuffix_concat`).
-/

namespace WebsocketHub

variable {α M : Type*} [AddCommMonoid M] {w : α → M} {b : M}

/-- The total weight of a list. -/
def total (w : α → M) (l : List α) : M := (l.map w).sum

@[simp] theorem total_nil : total w ([] : List α) = 0 := rfl

theorem total_cons (a : α) (l : List α) : total w (a :: l) = w a + total w l := by
  rw [total, total, List.map_cons, List.sum_cons]

theorem total_append (l l' : List α) : total w (l ++ l') = total w l + total w l' := by
  rw [total, total, total, List.map_append, List.sum_append]

section Defs

variable [LinearOrder M] (w : α → M) (b : M)

/-- Drop from the front until the rest fits. -/
def longestSuffix : List α → List α
  | [] => []
  | a :: l => if total w (a :: l) ≤ b then a :: l else longestSuffix l

/-- `r` is the longest suffix of `l` that weighs at most `b`. -/
structure IsLongestSuffix (l r : List α) : Prop where
  suffix : r <:+ l
  fits : total w r ≤ b
  longest : ∀ r', r' <:+ l → total w r' ≤ b → r' <:+ r

end Defs

variable [LinearOrder M]

theorem longestSuffix_of_le {l : List α} (h : total w l ≤ b) : longestSuffix w b l = l := by
  cases l with
  | nil => rfl
  | cons a l => rw [longestSuffix, if_pos h]

theorem longestSuffix_of_lt {a : α} {l : List α} (h : b < total w (a :: l)) :
    longestSuffix w b (a :: l) = longestSuffix w b l := by
  rw [longestSuffix, if_neg (not_le.mpr h)]

theorem longestSuffix_suffix (l : List α) : longestSuffix w b l <:+ l := by
  induction l with
  | nil => exact List.suffix_refl _
  | cons a l ih =>
    rw [longestSuffix]
    split
    · exact List.suffix_refl _
    · exact ih.trans (List.suffix_cons a l)

theorem total_longestSuffix_le (hb : 0 ≤ b) (l : List α) : total w (longestSuffix w b l) ≤ b := by
  induction l with
  | nil => exact hb
  | cons a l ih =>
    rw [longestSuffix]
    split
    · assumption
    · exact ih

theorem suffix_longestSuffix {l r : List α} (hr : r <:+ l) (hfit : total w r ≤ b) :
    r <:+ longestSuffix w b l := by
  induction l with
  | nil => exact hr
  | cons a l ih =>
    rw [longestSuffix]
    split
    · exact hr
    · rcases List.suffix_cons_iff.mp hr with rfl | hr
      · contradiction
      · exact ih hr

theorem isLongestSuffix (hb : 0 ≤ b) (l : List α) : IsLongestSuffix w b l (longestSuffix w b l) where
  suffix := longestSuffix_suffix l
  fits := total_longestSuffix_le hb l
  longest := fun _ hr hfit => suffix_longestSuffix hr hfit

theorem IsLongestSuffix.unique {l r r' : List α} (h : IsLongestSuffix w b l r)
    (h' : IsLongestSuffix w b l r') : r = r' :=
  (h'.longest r h.suffix h.fits).eq_of_length_le (h.longest r' h'.suffix h'.fits).length_le

section Nonneg

variable [IsOrderedAddMonoid M]

theorem total_nonneg (hw : ∀ a, 0 ≤ w a) (l : List α) : 0 ≤ total w l := by
  refine List.sum_nonneg fun x hx => ?_
  obtain ⟨a, -, rfl⟩ := List.mem_map.mp hx
  exact hw a

theorem total_le_total_concat (hw : ∀ a, 0 ≤ w a) (l : List α) (a : α) :
    total w l ≤ total w (l ++ [a]) := by
  rw [total_append]
  exact le_add_of_nonneg_right (total_nonneg hw _)

/-- A suffix weighs no more than the list. -/
theorem total_le_of_suffix (hw : ∀ a, 0 ≤ w a) {l r : List α} (h : r <:+ l) :
    total w r ≤ total w l := by
  obtain ⟨p, rfl⟩ := h
  rw [total_append]
  exact le_add_of_nonneg_left (total_nonneg hw p)

/-- **One more element**: what has been dropped before need not be looked at again. -/
theorem longestSuffix_concat (hw : ∀ a, 0 ≤ w a) (hb : 0 ≤ b) (l : List α) (a : α) :
    longestSuffix w b (l ++ [a]) = longestSuffix w b (longestSuffix w b l ++ [a]) := by
  refine (isLongestSuffix hb (l ++ [a])).unique ⟨?_, total_longestSuffix_le hb _, ?_⟩
  · refine (longestSuffix_suffix _).trans ?_
    obtain ⟨p, hp⟩ := longestSuffix_suffix (w := w) (b := b) l
    exact ⟨p, by rw [← List.append_assoc, hp]⟩
  · intro r hr hfit
    refine suffix_longestSuffix ?_ hfit
    rcases List.suffix_concat_iff.mp hr with rfl | ⟨r₀, rfl, hr₀⟩
    · exact List.nil_suffix
    · -- without its last element the suffix fits as well
      obtain ⟨p, hp⟩ := suffix_longestSuffix hr₀ ((total_le_total_concat hw r₀ a).trans hfit)
      exact ⟨p, by rw [← List.append_assoc, hp]⟩

end Nonneg

end WebsocketHub
