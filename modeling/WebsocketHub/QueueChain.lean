import WebsocketHub.QueuePointers
import Mathlib.Algebra.BigOperators.Intervals
import Mathlib.Algebra.Ring.Int.Defs

/-!
# WebsocketHub.QueueChain — the entries from `q.oldest` to `q.newest`

`chain` follows the `next` pointers from `q.oldest` up to but excluding `q.newest`.  In a state in
which the entries that are left have been linked, the chain is the rest of the history:
`e_o, …, e_{n-1}` for `o` removals and `n` installations.
-/

namespace WebsocketHub

namespace MessageQueue

variable (q : MessageQueue)

/-- The entries met from `p` on before `q.newest`, in at most `fuel` steps. -/
def walk : ℕ → Ptr → List Addr
  | 0, _ => []
  | _ + 1, none => []
  | fuel + 1, some e => if q.newest = some e then [] else e :: walk fuel (q.heap e).next

/-- The backlog.  There are fewer entries than allocated addresses. -/
def chain : List Addr := q.walk q.fresh q.oldest

/-- The actual total `Size()` of the backlog. -/
def chainSize (L : Limits) : ℤ := (q.chain.map fun e => (q.heap e).size L).sum

theorem walk_none : ∀ fuel, q.walk fuel none = []
  | 0 => rfl
  | _ + 1 => rfl

end MessageQueue

namespace QueueState

variable {s : QueueState}

/-- There are fewer entries than allocated addresses. -/
theorem Shape.length_le_fresh (h : s.Shape) : s.installed.length ≤ s.q.fresh := by
  have hsub : s.installed.toFinset ⊆ Finset.range s.q.fresh := by
    intro a ha
    exact Finset.mem_range.mpr (h.alive a (List.mem_toFinset.mp ha)).2
  have hcard := Finset.card_le_card hsub
  rwa [List.toFinset_card_of_nodup h.nodup, Finset.card_range] at hcard

/-- Every entry that has not been removed has been linked. -/
def AllLinked (s : QueueState) : Prop :=
  ∀ i e, s.removers.length ≤ i → i < s.appenders.length → s.IsEntry i e → (s.q.heap e).next ≠ none

/-- From `e_i` on, `k` entries before the placeholder. -/
theorem Shape.walk_eq (h : s.Shape) (hlink : s.AllLinked) {k i fuel : ℕ} {e : Addr}
    (hk : i + k = s.appenders.length) (hi : s.removers.length ≤ i) (he : s.IsEntry i e)
    (hfuel : k < fuel) : s.q.walk fuel (some e) = (s.installed.drop i).take k := by
  induction k generalizing i e fuel with
  | zero =>
    obtain ⟨fuel, rfl⟩ : ∃ f, fuel = f + 1 := ⟨fuel - 1, by omega⟩
    obtain rfl : i = s.appenders.length := hk
    rw [MessageQueue.walk, if_pos (h.newest.trans he), List.take_zero]
  | succ k ih =>
    obtain ⟨fuel, rfl⟩ : ∃ f, fuel = f + 1 := ⟨fuel - 1, by omega⟩
    have hne : s.q.newest ≠ some e := by
      intro heq
      have := h.entry_inj he (h.newest.symm.trans heq)
      omega
    obtain ⟨a, ha⟩ := Option.ne_none_iff_exists'.mp (hlink i e hi (by omega) he)
    have hea : s.IsEntry (i + 1) a := by
      rcases h.next i e a he ha with hn | ⟨-, hn⟩
      · exact hn
      · omega
    obtain ⟨hlt, rfl⟩ := List.getElem?_eq_some_iff.mp he
    rw [MessageQueue.walk, if_neg hne, ha, ih (by omega) (by omega) hea (by omega),
      List.drop_eq_getElem_cons hlt, List.take_succ_cons]

/-- **The chain is the rest of the history.** -/
theorem Shape.chain_eq (h : s.Shape) (hlink : s.AllLinked) {e : Addr} (hold : s.q.oldest = some e)
    (hle : s.removers.length ≤ s.appenders.length) : s.q.chain =
      (s.installed.drop s.removers.length).take (s.appenders.length - s.removers.length) := by
  have hlen := h.length
  have hfresh := h.length_le_fresh
  rw [MessageQueue.chain, hold]
  exact h.walk_eq hlink (by omega) (Nat.le_refl _) (h.oldest e hold) (by omega)

theorem chain_eq_nil (hold : s.q.oldest = none) : s.q.chain = [] := by
  rw [MessageQueue.chain, hold, MessageQueue.walk_none]

/-- The entries of the chain, by position. -/
theorem Shape.mem_chain (h : s.Shape) (hlink : s.AllLinked) {e a : Addr} {i : ℕ}
    (hold : s.q.oldest = some e) (hle : s.removers.length ≤ s.appenders.length)
    (ha : s.IsEntry i a) (hi : s.removers.length ≤ i) (hi' : i < s.appenders.length) :
    a ∈ s.q.chain := by
  rw [h.chain_eq hlink hold hle]
  refine List.mem_of_getElem? (i := i - s.removers.length) ?_
  rw [List.getElem?_take_of_lt (by omega), List.getElem?_drop, Nat.add_sub_cancel' hi]
  exact ha

/-- A sum over a segment of a list is a sum over positions. -/
theorem sum_map_eq_sum_Ico {α : Type*} {f : α → ℤ} {g : ℕ → ℤ} (l : List α) (o : ℕ)
    (h : ∀ i a, l[i]? = some a → f a = g (o + i)) :
    (l.map f).sum = ∑ j ∈ Finset.Ico o (o + l.length), g j := by
  induction l generalizing o with
  | nil => simp
  | cons a l ih =>
    have h0 : f a = g o := h 0 a rfl
    have hrest : (l.map f).sum = ∑ j ∈ Finset.Ico (o + 1) (o + 1 + l.length), g j := by
      refine ih (o + 1) fun i b hb => ?_
      rw [Nat.add_right_comm]
      exact h (i + 1) b hb
    have hbot : ∑ j ∈ Finset.Ico o (o + (a :: l).length), g j =
        g o + ∑ j ∈ Finset.Ico (o + 1) (o + (a :: l).length), g j := by
      refine Finset.sum_eq_sum_Ico_succ_bot ?_ g
      simp
    rw [List.map_cons, List.sum_cons, h0, hrest, hbot, List.length_cons, Nat.add_right_comm,
      Nat.add_assoc]

end QueueState

end WebsocketHub
