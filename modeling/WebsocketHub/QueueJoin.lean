import WebsocketHub.QueueDelivery

/-!
# WebsocketHub.QueueJoin — what a listener that has just joined may miss

`Listen` only spawns the goroutine: `q.oldest` is read when the goroutine runs for the first time, and
appends and trims may come before that.  `startsInTime` is the condition under which the listener
still finds everything that was appended after `Listen` returned.
-/

namespace WebsocketHub

namespace QueueState

variable {L : Limits} {s s₁ s₂ : QueueState}

/-- When listener `l` reads `q.oldest`, the messages that have been removed from the queue were
appended by calls that had begun in `s₁`. -/
def startsInTime (s₁ : QueueState) (l : Lid) (s : QueueState) : QueueAction → Bool
  | .listener k _ => k ≠ l || s.listeners l ≠ some listen ||
      (s.appenders.take s.removers.length).all fun t => (s₁.calls t).isSome
  | _ => true

/-- Listener `l` has joined.  Once it has read `q.oldest`, it starts at or before every entry filled by
a call that had not begun in `s₁`. -/
def StartsBefore (s₁ : QueueState) (l : Lid) (s : QueueState) : Prop :=
  ∃ x, s.listeners l = some x ∧ (x = listen ∨ (x.pc ≠ .start ∧
    ∀ e, x.first = some e → ∀ t i, s₁.calls t = none → s.Owns t i → x.start ≤ i))

/-- An entry is owned since before the step, or it was the placeholder. -/
theorem owns_of_step {a : QueueAction} (hs : QueueStep L s a s₂) {t : Tid} {i : ℕ}
    (ho : s₂.Owns t i) : s.Owns t i ∨ i = s.appenders.length := by
  cases hs with
  | casNewest =>
    rcases getElem?_concat ho with ho | ⟨rfl, -⟩
    · exact .inl ho
    · exact .inr rfl
  | _ => exact .inl ho

/-- **Step lemma** of `StartsBefore`. -/
theorem StartsBefore.step (hs : s.Shape) (hd : s.Delivery) {l : Lid} (h : StartsBefore s₁ l s)
    {a : QueueAction} (hok : startsInTime s₁ l s a = true) (hstep : QueueStep L s a s₂) :
    StartsBefore s₁ l s₂ := by
  obtain ⟨x, hx, hcase⟩ := h
  rcases listener_of_step hstep hx with hx₂ | ⟨quit, pc, rfl, hpc, hx₂, hap⟩
  · refine ⟨x, hx₂, ?_⟩
    rcases hcase with rfl | ⟨hne, hbefore⟩
    · exact .inl rfl
    · refine .inr ⟨hne, fun e he t i ht ho => ?_⟩
      rcases owns_of_step hstep ho with ho | rfl
      · exact hbefore e he t i ht ho
      · -- a new entry comes after every entry of the chain
        rcases hs.lt_or_eq ((hd l x hx).first e he) with hlt | heq
        · exact Nat.le_of_lt hlt
        · exact Nat.le_of_eq heq
  · refine ⟨_, hx₂, .inr ⟨?_, ?_⟩⟩
    · rw [moveTo_pc]
      exact listenerStep_ne_start hpc
    · intro e he t i ht ho
      rw [Owns, hap] at ho
      rcases hcase with rfl | ⟨hne, hbefore⟩
      · -- the read of `q.oldest`: no entry of such a call has been removed
        obtain rfl : .loop s.q.oldest = pc := by simpa [listenerStep, WebsocketHub.listen] using hpc
        show s.removers.length ≤ i
        by_contra hlt
        have hmem : t ∈ s.appenders.take s.removers.length := by
          refine List.mem_of_getElem? (i := i) ?_
          rw [List.getElem?_take_of_lt (by omega)]
          exact ho
        have hall : ∀ u ∈ s.appenders.take s.removers.length, (s₁.calls u).isSome = true := by
          simpa [startsInTime, hx] using hok
        have hsome := hall t hmem
        rw [ht] at hsome
        cases hsome
      · rw [(moveTo_start hne).1] at he
        rw [(moveTo_start hne).2]
        exact hbefore e he t i ht ho

theorem startsBefore_of_path {l : Lid} (hr : (queueRun L).Reachable s₁)
    (hl : s₁.listeners l = some listen)
    (hp : (queueRun L).Path (fun s a => startsInTime s₁ l s a = true) s₁ s₂) :
    StartsBefore s₁ l s₂ := by
  have key : (s₂.Shape ∧ s₂.Delivery) ∧ StartsBefore s₁ l s₂ := by
    refine hp.invariant (I := fun s => (s.Shape ∧ s.Delivery) ∧ StartsBefore s₁ l s) ?_
      ⟨⟨shape_of_reaches hr, delivery_of_reaches hr⟩, listen, hl, .inl rfl⟩
    rintro s a s' ⟨⟨hshape, hdel⟩, hbefore⟩ hok hn
    have hstep := (queueStep_of_next hn).2
    exact ⟨⟨hshape.step hstep, hdel.step hshape hstep⟩, hbefore.step hshape hdel hok hstep⟩
  exact key.2

/-- Every message whose `Append` began after `s₁` and that precedes, in the queue, a message `l` has
sent in `s₂`, has been sent by `l` before it. -/
def SkipsNothing (s₁ s₂ : QueueState) (l : Lid) : Prop :=
  ∀ {t : Tid} {i j p : ℕ} {x : Listener} {e : Addr} {m : Bytes}, s₁.calls t = none → s₂.Owns t i →
    s₂.listeners l = some x → x.sent[p]? = some (e, m) → s₂.IsEntry j e → i < j →
    ∃ p' < p, ∃ e' c, s₂.IsEntry i e' ∧ s₂.calls t = some c ∧ x.sent[p']? = some (e', c.msg)

/-- **Nothing is skipped** by a listener that reads `q.oldest` in time.  In `s₁` its `Listen` has
returned and its goroutine has not run yet. -/
theorem listener_skips_nothing {l : Lid} (hr : (queueRun L).Reachable s₁)
    (hl : s₁.listeners l = some listen)
    (hp : (queueRun L).Path (fun s a => startsInTime s₁ l s a = true) s₁ s₂) :
    SkipsNothing s₁ s₂ l := by
  intro t i j p x e m ht ho hx hsent he hij
  have hr₂ : (queueRun L).Reachable s₂ := hr.path (hp.mono fun _ _ _ => trivial)
  have hs := shape_of_reaches hr₂
  have hfacts := delivery_of_reaches hr₂ l x hx
  obtain ⟨hep, -⟩ := hfacts.sent p e m hsent
  have hj : x.start + p = j := hs.entry_inj hep he
  have hlen := (List.getElem?_eq_some_iff.mp hsent).1
  -- the listener started at or before `e_i`
  have hle : x.start ≤ i := by
    obtain ⟨y, hy, hcase⟩ := startsBefore_of_path hr hl hp
    obtain rfl := Option.some.inj (hx.symm.trans hy)
    rcases hcase with rfl | ⟨-, hbefore⟩
    · simp [WebsocketHub.listen] at hsent
    · obtain ⟨a, ha⟩ := Option.ne_none_iff_exists'.mp
        (hfacts.first_some (List.ne_nil_of_length_pos (by omega)))
      exact hbefore a ha t i ht ho
  -- so what it sent at that position is the message of `t`
  have hp' : i - x.start < x.sent.length := by omega
  obtain ⟨hei, hmi⟩ := hfacts.sent (i - x.start) _ _ (List.getElem?_eq_getElem hp')
  rw [Nat.add_sub_cancel' hle] at hei
  obtain ⟨c, hc, -⟩ := (hs.started t).mp (List.mem_of_getElem? ho)
  have hmsg := hs.msg i t c _ ho hc hei
  rw [hmi] at hmsg
  refine ⟨i - x.start, by omega, x.sent[i - x.start].1, c, hei, hc, ?_⟩
  rw [List.getElem?_eq_getElem hp']
  split at hmsg
  · rw [← Option.some.inj hmsg]
    rfl
  · cases hmsg

/-- A call of `Append` that meets no other trim, up to and including its `valid.Done()`. -/
def appendSteps (t : Tid) (m : Bytes) : List QueueAction := .append t m :: List.replicate 6 (.call t)

/-- With a backlog that keeps nothing: the listener reads `q.oldest` before the first of two appends
and delivers both messages. -/
theorem listener_skips_nothing_of_two_appends : ∃ s₁ s₂, s₁.listeners 0 = some listen ∧
    s₁.calls 0 = none ∧ (s₂.listeners 0).map Listener.sent = some [(1, [7]), (2, [8])] ∧
    SkipsNothing s₁ s₂ 0 := by
  obtain ⟨s₁, h1, hc1⟩ := Machine.exists_of_run (queueRun (backlogOf 0)) init [.listen 0]
    (fun s => s.listeners 0 = some listen && s.calls 0 = none &&
      ((queueRun (backlogOf 0)).runIf (startsInTime s 0) ([.listener 0 false] ++ appendSteps 0 [7] ++
        appendSteps 1 [8] ++ List.replicate 9 (.listener 0 false)) s).any fun s₂ =>
          (s₂.listeners 0).map Listener.sent = some [(1, [7]), (2, [8])]) (by decide)
  simp only [Bool.and_eq_true, decide_eq_true_eq] at hc1
  obtain ⟨⟨hl, hc⟩, hrun⟩ := hc1
  obtain ⟨s₂, h2, hsent⟩ := Machine.exists_of_runIf _ _ _ _ _ hrun
  exact ⟨s₁, s₂, hl, hc, of_decide_eq_true hsent, listener_skips_nothing h1 hl h2⟩

/-- **The late listener**: the first append and its trim are over before the goroutine reads
`q.oldest`; it starts at the second message. -/
theorem listener_skips : ¬ ∀ (L : Limits) (s₁ s₂ : QueueState) (l : Lid),
    (queueRun L).Reachable s₁ → s₁.listeners l = some listen →
    (queueRun L).Path (fun _ _ => True) s₁ s₂ → SkipsNothing s₁ s₂ l := by
  intro hall
  obtain ⟨s₁, h1, hc1⟩ := Machine.exists_of_run (queueRun (backlogOf 0)) init [.listen 0]
    (fun s => s.listeners 0 = some listen && s.calls 0 = none &&
      ((queueRun (backlogOf 0)).run (appendSteps 0 [7] ++ List.replicate 8 (.call 0) ++
        [.listener 0 false] ++ appendSteps 1 [8] ++ List.replicate 4 (.listener 0 false)) s).any fun s₂ =>
          s₂.appenders[0]? = some 0 && s₂.installed[1]? = some 2 &&
          (s₂.listeners 0).map Listener.sent = some [(2, [8])]) (by decide)
  simp only [Bool.and_eq_true, decide_eq_true_eq] at hc1
  obtain ⟨⟨hl, hc⟩, hrun⟩ := hc1
  obtain ⟨s₂, h2, hc2⟩ := Machine.exists_of_run _ _ _ _ hrun
  simp only [Bool.and_eq_true, decide_eq_true_eq] at hc2
  obtain ⟨⟨ho, he⟩, hsent⟩ := hc2
  obtain ⟨x, hx, hsent⟩ := Option.map_eq_some_iff.mp hsent
  -- the message of call 0 comes before the only one sent
  have h0 : x.sent[0]? = some (2, [8]) := by rw [hsent]; rfl
  obtain ⟨p, hp, -⟩ := hall (backlogOf 0) s₁ s₂ 0 h1 hl h2 hc ho hx h0 he Nat.zero_lt_one
  exact absurd hp (Nat.not_lt_zero p)

end QueueState

end WebsocketHub
