import WebsocketHub.Machine
import Mathlib.Algebra.BigOperators.Group.Finset.Basic
import Mathlib.Algebra.Order.BigOperators.Group.Finset

/-!
# WebsocketHub.Termination — runs that come to their end

`ok` says which steps a machine takes by itself.  A potential that every such step lowers bounds their number
(`length_of_potential`).  Where there is a potential only as long as some stage lasts, and there are finitely
many stages, no run goes on forever (`ends_of_stages`).  Either way the machine comes to a halt
(`exists_halted`).  The potential of many that work at once is the sum of theirs (`sum_fall`).
-/

namespace WebsocketHub

section Sums

variable {ι : Type*} [DecidableEq ι] {S : Finset ι} {f g : ι → ℕ} {i : ι}

/-- A sum in which one summand changes. -/
theorem sum_update (hi : i ∈ S) (hother : ∀ j, j ≠ i → g j = f j) :
    ∑ j ∈ S, g j + f i = ∑ j ∈ S, f j + g i := by
  rw [← Finset.add_sum_erase S f hi, ← Finset.add_sum_erase S g hi]
  have hrest : ∑ j ∈ S.erase i, g j = ∑ j ∈ S.erase i, f j :=
    Finset.sum_congr rfl fun j hj => hother j (Finset.ne_of_mem_erase hj)
  omega

/-- A sum in which one summand falls by `k` and no other one rises. -/
theorem sum_fall {k : ℕ} (hi : i ∈ S) (hle : ∀ j ∈ S, j ≠ i → g j ≤ f j) (hfall : g i + k ≤ f i) :
    ∑ j ∈ S, g j + k ≤ ∑ j ∈ S, f j := by
  rw [← Finset.add_sum_erase S f hi, ← Finset.add_sum_erase S g hi]
  have hrest : ∑ j ∈ S.erase i, g j ≤ ∑ j ∈ S.erase i, f j := by
    apply Finset.sum_le_sum
    intro j hj
    exact hle j (Finset.mem_of_mem_erase hj) (Finset.ne_of_mem_erase hj)
  omega

end Sums

namespace Machine

variable {σ α ι : Type*} {M : Machine σ α} {ok : σ → α → Bool}

/-- The machine takes no more step by itself. -/
def Halted (M : Machine σ α) (ok : σ → α → Bool) (s : σ) : Prop := ∀ a, ok s a = true → M.next s a = none

/-- A run of steps that the machine takes by itself. -/
def RunsFor (M : Machine σ α) (ok : σ → α → Bool) (n : ℕ) (s s' : σ) : Prop :=
  ∃ as, as.length = n ∧ M.runIf ok as s = some s'

/-- `s'` follows `s`. -/
def Follows (M : Machine σ α) (ok : σ → α → Bool) (s' s : σ) : Prop :=
  ∃ a, ok s a = true ∧ M.next s a = some s'

/-- No run from `s` goes on forever. -/
def Ends (M : Machine σ α) (ok : σ → α → Bool) (s : σ) : Prop := Acc (M.Follows ok) s

/-- `Φ` is lowered by every step that the machine takes by itself in a state satisfying `I`. -/
def Lowers (M : Machine σ α) (ok : σ → α → Bool) (I : σ → Prop) (Φ : σ → ℕ) : Prop :=
  ∀ s a s', I s → ok s a = true → M.next s a = some s' → I s' ∧ Φ s' < Φ s

variable {I : σ → Prop} {Φ : σ → ℕ} {s s' : σ} {n : ℕ}

theorem RunsFor.cons {a : α} {s₁ : σ} (hok : ok s a = true) (hn : M.next s a = some s₁)
    (h : M.RunsFor ok n s₁ s') : M.RunsFor ok (n + 1) s s' := by
  obtain ⟨as, rfl, hrun⟩ := h
  refine ⟨a :: as, rfl, ?_⟩
  rw [runIf, if_pos hok, hn]
  exact hrun

/-- **Step bound**: the potential pays for every step. -/
theorem length_of_potential (hlow : M.Lowers ok I Φ) : ∀ (as : List α) {s : σ}, I s →
    M.runIf ok as s = some s' → I s' ∧ as.length + Φ s' ≤ Φ s
  | [], s, hs, h => by
    obtain rfl := Option.some.inj h
    exact ⟨hs, Nat.le_of_eq (Nat.zero_add _)⟩
  | a :: as, s, hs, h => by
    by_cases hok : ok s a = true
    · rw [runIf, if_pos hok] at h
      obtain ⟨s₁, hn, hrun⟩ := Option.bind_eq_some_iff.mp h
      obtain ⟨hs₁, hlt⟩ := hlow s a s₁ hs hok hn
      obtain ⟨hs', hle⟩ := length_of_potential hlow as hs₁ hrun
      refine ⟨hs', ?_⟩
      rw [List.length_cons]
      omega
    · rw [runIf, if_neg hok] at h
      cases h

theorem RunsFor.le (hlow : M.Lowers ok I Φ) (hs : I s) (h : M.RunsFor ok n s s') : n ≤ Φ s := by
  obtain ⟨as, rfl, hrun⟩ := h
  exact Nat.le_trans (Nat.le_add_right _ _) (length_of_potential hlow as hs hrun).2

/-- **Termination in stages**: what follows a state is in an earlier stage, or in the same, and then some
potential is lowered that may depend on how the stage has begun. -/
theorem ends_of_stages {J : ι → σ → Prop} {Ψ : ι → σ → ℕ} (stage : σ → ℕ)
    (hI : ∀ s a s', I s → ok s a = true → M.next s a = some s' → I s') (hJ : ∀ s, I s → ∃ i, J i s)
    (hstep : ∀ i s a s', I s → J i s → ok s a = true → M.next s a = some s' →
      stage s' < stage s ∨ stage s' = stage s ∧ J i s' ∧ Ψ i s' < Ψ i s) (hs : I s) : M.Ends ok s := by
  induction hk : stage s using Nat.strongRecOn generalizing s with
  | _ k ih =>
    obtain ⟨i, hi⟩ := hJ s hs
    induction hn : Ψ i s using Nat.strongRecOn generalizing s with
    | _ n ih' =>
      refine Acc.intro s ?_
      rintro s' ⟨a, hok, hnext⟩
      have hs' := hI s a s' hs hok hnext
      rcases hstep i s a s' hs hi hok hnext with hlt | ⟨heq, hi', hlt⟩
      · exact ih (stage s') (hk ▸ hlt) hs' rfl
      · exact ih' (Ψ i s') (hn ▸ hlt) hs' (heq.trans hk) hi' rfl

theorem ends_of_lowers (hlow : M.Lowers ok I Φ) (hs : I s) : M.Ends ok s :=
  ends_of_stages (ι := Unit) (J := fun _ => I) (Ψ := fun _ => Φ) (fun _ => 0)
    (fun s a s' hs hok hn => (hlow s a s' hs hok hn).1) (fun _ hs => ⟨(), hs⟩)
    (fun _ s a s' hs _ hok hn => .inr ⟨rfl, hlow s a s' hs hok hn⟩) hs

/-- A machine whose runs end comes to a halt. -/
theorem exists_halted (h : M.Ends ok s) : ∃ n s', M.RunsFor ok n s s' ∧ M.Halted ok s' := by
  induction h with
  | intro s _ ih =>
    by_cases hhalt : M.Halted ok s
    · exact ⟨0, s, ⟨[], rfl, rfl⟩, hhalt⟩
    · unfold Halted at hhalt
      push Not at hhalt
      obtain ⟨a, hok, hne⟩ := hhalt
      obtain ⟨s₁, hn⟩ := Option.ne_none_iff_exists'.mp hne
      obtain ⟨n, s', hrun, hhalted⟩ := ih s₁ ⟨a, hok, hn⟩
      exact ⟨n + 1, s', hrun.cons hok hn, hhalted⟩

end Machine

end WebsocketHub
