import WebsocketHub.Machine
import WebsocketHub.MessageQueue

/-!
# WebsocketHub.Client — `client.Close` of `hub/client.go`

`Close` checks the channel `closed` without blocking and then closes it: two steps, and nothing keeps
another call from coming between them.  `closeRun n` interleaves `n` calls on one client; a call that
has not begun stands at its check.  `checksAlone` is the step condition under which the check is worth
something.
-/

namespace WebsocketHub

/-- The statement a call of `client.Close` stands at. -/
inductive ClosePc
  /-- `select { case <-c.closed: … default: }` -/
  | check
  /-- `close(c.closed)` -/
  | act
  /-- returned, with a nil error or not -/
  | returned (ok : Bool)
deriving DecidableEq, Repr

/-- The next step of `c.Close()`; `closed` says whether `c.closed` is closed. -/
def closeStep (closed : Bool) : ClosePc → Option (Except Panic (Bool × ClosePc))
  | .check => some (.ok (closed, if closed then .returned false else .act))
  | .act => if closed then some (.error .closeOfClosedChannel) else some (.ok (true, .returned true))
  | .returned _ => none

structure CloseState where
  closed : Bool
  calls : List ClosePc
  panic : Option Panic
deriving DecidableEq, Repr

/-- Call `k` takes its next step. -/
def closeNext (s : CloseState) (k : ℕ) : Option CloseState :=
  match s.panic, s.calls[k]? with
  | none, some p =>
    match closeStep s.closed p with
    | none => none
    | some (.error e) => some { s with panic := some e }
    | some (.ok (closed, p')) => some { s with closed := closed, calls := s.calls.set k p' }
  | _, _ => none

def closeRun (n : ℕ) : Machine CloseState ℕ where
  init := ⟨false, List.replicate n .check, none⟩
  next := closeNext

/-- When a call makes its check, no other one stands between its check and its `close(c.closed)`. -/
def checksAlone (s : CloseState) (k : ℕ) : Bool :=
  s.calls[k]? ≠ some .check || s.calls.all (· ≠ .act)

/-- One call closes the channel: the one that will, or the one that has. -/
structure ClosedOnce (s : CloseState) : Prop where
  panic : s.panic = none
  acts : s.calls.count .act ≤ 1
  acts_closed : s.closed = true → s.calls.count .act = 0
  oks : s.calls.count (.returned true) = if s.closed then 1 else 0
  fails : .returned false ∈ s.calls → s.closed = true

variable {s s' : CloseState} {n k : ℕ}

theorem closedOnce_init : ClosedOnce (closeRun n).init where
  panic := rfl
  acts := by simp [closeRun, List.count_replicate]
  acts_closed := by simp [closeRun]
  oks := by simp [closeRun, List.count_replicate]
  fails := by simp [closeRun, List.mem_replicate]

/-- **Step lemma**: a check that is alone. -/
theorem ClosedOnce.step (h : ClosedOnce s) (hok : checksAlone s k = true)
    (hn : closeNext s k = some s') : ClosedOnce s' := by
  obtain ⟨p, hp, hstep⟩ : ∃ p, s.calls[k]? = some p ∧
      (match closeStep s.closed p with
        | none => none
        | some (.error e) => some { s with panic := some e }
        | some (.ok (closed, p')) => some { s with closed := closed, calls := s.calls.set k p' }) =
        some s' := by
    unfold closeNext at hn
    split at hn
    · exact ⟨_, ‹_›, hn⟩
    · cases hn
  obtain ⟨hk, hget⟩ := List.getElem?_eq_some_iff.mp hp
  have hcount : ∀ p' x, (s.calls.set k p').count x =
      s.calls.count x - (if s.calls[k] == x then 1 else 0) + if p' == x then 1 else 0 :=
    fun p' x => List.count_set hk
  have hmem : ∀ p' x, x ∈ s.calls.set k p' → x ∈ s.calls ∨ x = p' :=
    fun p' x hx => List.mem_or_eq_of_mem_set hx
  have hact : p = .act → s.calls.count .act = 1 := by
    rintro rfl
    have := List.count_pos_iff.mpr (List.mem_of_getElem? hp)
    have := h.acts
    omega
  have hoks := h.oks
  cases p with
  | check =>
    have hnone : s.calls.count .act = 0 := by
      refine List.count_eq_zero.mpr fun hin => ?_
      simp only [checksAlone, hp, ne_eq, not_true_eq_false, decide_false, Bool.false_or,
        List.all_eq_true] at hok
      exact of_decide_eq_true (hok _ hin) rfl
    cases hcl : s.closed with
    | true =>
      rw [hcl] at hoks
      simp only [closeStep, hcl, if_true, Option.some.injEq] at hstep
      subst hstep
      refine ⟨h.panic, ?_, fun _ => ?_, ?_, fun _ => rfl⟩ <;> simp [hcount, hget, hnone, hoks]
    | false =>
      rw [hcl] at hoks
      simp only [closeStep, hcl, Bool.false_eq_true, if_false, Option.some.injEq] at hstep
      subst hstep
      refine ⟨h.panic, ?_, by simp, ?_, fun hin => ?_⟩
      · simp [hcount, hget, hnone]
      · simpa [hcount, hget] using hoks
      · rcases hmem _ _ hin with hin | hin
        · exact absurd (h.fails hin) (by simp [hcl])
        · cases hin
  | act =>
    have hone := hact rfl
    have hcl : s.closed = false := by
      by_contra hne
      have := h.acts_closed (by simpa using hne)
      omega
    rw [hcl] at hoks
    simp only [closeStep, hcl, Bool.false_eq_true, if_false, Option.some.injEq] at hstep
    subst hstep
    refine ⟨h.panic, ?_, fun _ => ?_, ?_, fun _ => rfl⟩
    · simp [hcount, hget, hone]
    · simp [hcount, hget, hone]
    · simpa [hcount, hget] using hoks
  | returned ok => cases hstep

theorem closedOnce_of_reaches (h : (closeRun n).Reaches (fun s k => checksAlone s k = true) s) :
    ClosedOnce s :=
  h.invariant closedOnce_init fun _ _ _ hI hok hn => hI.step hok hn

/-- What the calls of `c.Close()` come to: no panic, at most one nil error, and exactly one when all
have returned. -/
structure OneCloses (s : CloseState) : Prop where
  panic : s.panic = none
  at_most : s.calls.count (.returned true) ≤ 1
  exactly : s.calls ≠ [] → (∀ p ∈ s.calls, ∃ ok, p = .returned ok) →
    s.calls.count (.returned true) = 1

theorem ClosedOnce.one_closes (h : ClosedOnce s) : OneCloses s where
  panic := h.panic
  at_most := by
    rw [h.oks]
    split <;> omega
  exactly := by
    intro hne hall
    obtain ⟨p, hp⟩ := List.exists_mem_of_ne_nil _ hne
    obtain ⟨ok, rfl⟩ := hall p hp
    have hcl : s.closed = true := by
      cases ok with
      | false => exact h.fails hp
      | true =>
        by_contra hcl
        have hpos := List.count_pos_iff.mpr hp
        have hoks := h.oks
        rw [if_neg (by simpa using hcl)] at hoks
        omega
    rw [h.oks, if_pos hcl]

end WebsocketHub
