import Mathlib.Logic.Relation
import Mathlib.Data.List.Basic

/-!
# WebsocketHub.Machine — labelled machines, runs under a step condition, invariants

A `Machine` has an initial state and a partial, deterministic `next`: the state an action leads to
when it is enabled.  Nondeterminism (scheduling, the environment) is the choice of actions.

* `Path ok s s'`: a run from `s` to `s'` every step of which satisfies `ok`, a condition on the
  state before the step and the action taken.  `Reaches ok` starts at the initial state and
  `Reachable` puts no condition on the steps.
* The rules: `Path.invariant` (what every step preserves holds at the end of a run), `Path.rel`
  (a reflexive and transitive relation that every step respects relates both ends), and
  `Simulation.path` (a map of states that turns every step into a step or a stutter carries runs
  of one machine to runs of another).
* `logged` is a machine that keeps a log of its run.
* `run` executes a schedule and `runIf` one whose steps pass a check, so that concrete runs can be
  evaluated.
-/

namespace WebsocketHub

/-- A labelled machine. -/
structure Machine (σ α : Type*) where
  init : σ
  next : σ → α → Option σ

namespace Machine

variable {σ α τ β : Type*} (M : Machine σ α)

/-- A run of `M` from `s` every step of which satisfies `ok`. -/
inductive Path (ok : σ → α → Prop) (s : σ) : σ → Prop
  | refl : Path ok s s
  | step {s₁ s₂ : σ} {a : α} : Path ok s s₁ → M.next s₁ a = some s₂ → ok s₁ a → Path ok s s₂

/-- The states met by the runs of `M` whose steps all satisfy `ok`. -/
def Reaches (ok : σ → α → Prop) (s : σ) : Prop := M.Path ok M.init s

/-- The states met by any run. -/
def Reachable (s : σ) : Prop := M.Reaches (fun _ _ => True) s

/-- Execute a schedule. -/
def run : List α → σ → Option σ
  | [], s => some s
  | a :: as, s => (M.next s a).bind (run as)

variable {M}

namespace Path

variable {ok ok' : σ → α → Prop} {s s₁ s₂ : σ}

theorem trans (h₁ : M.Path ok s s₁) (h₂ : M.Path ok s₁ s₂) : M.Path ok s s₂ := by
  induction h₂ with
  | refl => exact h₁
  | step _ hn hok ih => exact ih.step hn hok

/-- Weakening of the step condition. -/
theorem mono (h : M.Path ok s s₁) (hok : ∀ s a, ok s a → ok' s a) : M.Path ok' s s₁ := by
  induction h with
  | refl => exact .refl
  | step _ hn ha ih => exact ih.step hn (hok _ _ ha)

/-- **Invariant rule**: what every step of the run preserves holds at its end. -/
theorem invariant {I : σ → Prop} (h : M.Path ok s s₁)
    (hstep : ∀ s a s', I s → ok s a → M.next s a = some s' → I s') (hs : I s) : I s₁ := by
  induction h with
  | refl => exact hs
  | step _ hn ha ih => exact hstep _ _ _ ih ha hn

/-- **Two-state rule**: a reflexive and transitive relation that every step from an `I`-state
respects relates both ends of a run. -/
theorem rel {I : σ → Prop} {R : σ → σ → Prop} (h : M.Path ok s s₁) (hI : I s)
    (hstep : ∀ s a s', I s → ok s a → M.next s a = some s' → I s' ∧ R s s')
    (hrefl : ∀ s, R s s) (htrans : ∀ s s' s'', R s s' → R s' s'' → R s s'') : R s s₁ := by
  suffices h' : I s₁ ∧ R s s₁ from h'.2
  induction h with
  | refl => exact ⟨hI, hrefl _⟩
  | step _ hn ha ih =>
    obtain ⟨h1, h2⟩ := hstep _ _ _ ih.1 ha hn
    exact ⟨h1, htrans _ _ _ ih.2 h2⟩

end Path

namespace Reaches

variable {ok ok' : σ → α → Prop} {s s' : σ}

theorem init : M.Reaches ok M.init := Path.refl

theorem step {a : α} (h : M.Reaches ok s) (hn : M.next s a = some s') (ha : ok s a) :
    M.Reaches ok s' := Path.step h hn ha

theorem mono (h : M.Reaches ok s) (hok : ∀ s a, ok s a → ok' s a) : M.Reaches ok' s :=
  Path.mono h hok

/-- A run under a condition is a run. -/
theorem reachable (h : M.Reaches ok s) : M.Reachable s := h.mono (fun _ _ _ => trivial)

theorem path (h : M.Reaches ok s) (hp : M.Path ok s s') : M.Reaches ok s' := Path.trans h hp

/-- What is known of the states of a run may be used to prove a condition on its steps. -/
theorem strengthen {J : σ → Prop} (h : M.Reaches ok s) (hJ : ∀ s, M.Reaches ok s → J s)
    (hok : ∀ s a, J s → ok s a → ok' s a) : M.Reaches ok' s := by
  induction h with
  | refl => exact .init
  | step h' hn ha ih => exact ih.step hn (hok _ _ (hJ _ h') ha)

/-- **Invariant rule** from the initial state. -/
theorem invariant {I : σ → Prop} (h : M.Reaches ok s) (hinit : I M.init)
    (hstep : ∀ s a s', I s → ok s a → M.next s a = some s' → I s') : I s :=
  Path.invariant h hstep hinit

/-- The invariant rule when another invariant `J` of the same runs is already known. -/
theorem invariant_of {I J : σ → Prop} (h : M.Reaches ok s) (hJ : ∀ s, M.Reaches ok s → J s)
    (hinit : I M.init)
    (hstep : ∀ s a s', J s → J s' → I s → ok s a → M.next s a = some s' → I s') : I s := by
  have key : M.Reaches ok s ∧ I s := by
    refine invariant (I := fun s => M.Reaches ok s ∧ I s) h ⟨init, hinit⟩ ?_
    rintro s a s' ⟨hr, hi⟩ ha hn
    exact ⟨hr.step hn ha, hstep s a s' (hJ s hr) (hJ s' (hr.step hn ha)) hi ha hn⟩
  exact key.2

end Reaches

/-- Executing a schedule is a run. -/
theorem path_of_run : ∀ {as : List α} {s s' : σ}, M.run as s = some s' →
    M.Path (fun _ _ => True) s s'
  | [], s, s', h => by cases h; exact .refl
  | a :: as, s, s', h => by
    obtain ⟨s₁, h1, h2⟩ := Option.bind_eq_some_iff.mp h
    exact Path.trans (.step .refl h1 trivial) (path_of_run h2)

/-- Execute a schedule as long as its steps pass the check `ok`. -/
def runIf (M : Machine σ α) (ok : σ → α → Bool) : List α → σ → Option σ
  | [], s => some s
  | a :: as, s => if ok s a then (M.next s a).bind (runIf M ok as) else none

theorem path_of_runIf {ok : σ → α → Bool} : ∀ {as : List α} {s s' : σ},
    M.runIf ok as s = some s' → M.Path (fun s a => ok s a = true) s s'
  | [], s, s', h => by cases h; exact .refl
  | a :: as, s, s', h => by
    by_cases hok : ok s a = true
    · rw [runIf, if_pos hok] at h
      obtain ⟨s₁, h1, h2⟩ := Option.bind_eq_some_iff.mp h
      exact Path.trans (.step .refl h1 hok) (path_of_runIf h2)
    · rw [runIf, if_neg hok] at h
      cases h

/-- A schedule that ends in a state that passes a test is a run to such a state. -/
theorem exists_of_run (M : Machine σ α) (s : σ) (as : List α) (p : σ → Bool)
    (h : (M.run as s).any p = true) :
    ∃ s', M.Path (fun _ _ => True) s s' ∧ p s' = true := by
  obtain ⟨s', hs', hp⟩ := (Option.any_eq_true p _).mp h
  exact ⟨s', path_of_run hs', hp⟩

theorem exists_of_runIf (M : Machine σ α) (ok : σ → α → Bool) (s : σ) (as : List α)
    (p : σ → Bool) (h : (M.runIf ok as s).any p = true) :
    ∃ s', M.Path (fun s a => ok s a = true) s s' ∧ p s' = true := by
  obtain ⟨s', hs', hp⟩ := (Option.any_eq_true p _).mp h
  exact ⟨s', path_of_runIf hs', hp⟩

/-- The machine with a log of its run: `record` is what a step writes into it. -/
def logged {ε : Type*} (M : Machine σ α) (record : σ → α → ε → ε) (e : ε) : Machine (σ × ε) α where
  init := (M.init, e)
  next s a := (M.next s.1 a).map fun s' => (s', record s.1 a s.2)

theorem logged_cases {ε : Type*} {record : σ → α → ε → ε} {e : ε} {s s' : σ × ε} {a : α}
    (h : (M.logged record e).next s a = some s') :
    M.next s.1 a = some s'.1 ∧ s'.2 = record s.1 a s.2 := by
  obtain ⟨s₁, h1, rfl⟩ := Option.map_eq_some_iff.mp h
  exact ⟨h1, rfl⟩

/-- A run with its log is a run. -/
theorem path_of_logged {ε : Type*} {record : σ → α → ε → ε} {e : ε} {ok : σ × ε → α → Prop}
    {s s' : σ × ε} (h : (M.logged record e).Path ok s s') : M.Path (fun _ _ => True) s.1 s'.1 := by
  induction h with
  | refl => exact .refl
  | step _ hn _ ih => exact ih.step (logged_cases hn).1 trivial

theorem reachable_of_logged {ε : Type*} {record : σ → α → ε → ε} {e : ε} {ok : σ × ε → α → Prop}
    {s : σ × ε} (h : (M.logged record e).Reaches ok s) : M.Reachable s.1 := path_of_logged h

/-- Every run has its log. -/
theorem exists_logged {ε : Type*} {record : σ → α → ε → ε} {e : ε} {ok : σ → α → Prop} {s : σ}
    (h : M.Reaches ok s) : ∃ l, (M.logged record e).Reaches (fun s a => ok s.1 a) (s, l) := by
  induction h with
  | refl => exact ⟨e, .init⟩
  | step _ hn ha ih =>
    obtain ⟨l, hl⟩ := ih
    exact ⟨_, hl.step (Option.map_eq_some_iff.mpr ⟨_, hn, rfl⟩) ha⟩

/-- `f` turns every step of `M` that satisfies `okM`, taken in a state satisfying `I`, into a stutter
or a step of `N` that satisfies `okN`. -/
structure Simulation (M : Machine σ α) (N : Machine τ β) (I : σ → Prop)
    (okM : σ → α → Prop) (okN : τ → β → Prop) (f : σ → τ) : Prop where
  step : ∀ s a s', I s → okM s a → M.next s a = some s' →
    I s' ∧ (f s' = f s ∨ ∃ b, okN (f s) b ∧ N.next (f s) b = some (f s'))

/-- **Simulation rule**: runs are carried along. -/
theorem Simulation.path {N : Machine τ β} {I : σ → Prop} {okM : σ → α → Prop}
    {okN : τ → β → Prop} {f : σ → τ} (hf : Simulation M N I okM okN f) {s s' : σ}
    (h : M.Path okM s s') (hs : I s) : I s' ∧ N.Path okN (f s) (f s') := by
  induction h with
  | refl => exact ⟨hs, .refl⟩
  | step _ hn ha ih =>
    obtain ⟨h1, h2 | ⟨b, hb, hnb⟩⟩ := hf.step _ _ _ ih.1 ha hn
    · exact ⟨h1, h2 ▸ ih.2⟩
    · exact ⟨h1, ih.2.step hnb hb⟩

end Machine

end WebsocketHub
