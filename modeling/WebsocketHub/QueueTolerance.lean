import WebsocketHub.QueueLag

/-!
# WebsocketHub.QueueTolerance — how far a listener may fall behind

Complete appends again, and a listener that advances right after its send.  What it finds in the link
of the entry it has just delivered decides what it does next, whatever happens meanwhile: `staleEntry`
makes it close its channel, and any other entry is the next one it delivers.
-/

namespace WebsocketHub

section Defs

/-- The listener is on its way to the entry `e`, or has quit. -/
def Waits (e : Addr) (x : Listener) : Prop :=
  x.pc = .loop (some e) ∨ x.pc = .wait (some e) ∨ x.pc = .readMsg e ∨ (∃ m, x.pc = .select e m) ∨
    x.pc = .quit

/-- The listener has found `staleEntry`. -/
def Behind (x : Listener) : Prop := x.pc = .loop (some staleEntry) ∨ x.pc = .closed

end Defs

variable {L : Limits} {s s' : LagState} {e : Addr} {m : Bytes} {o : ℕ}

/-- A message has been removed when it does not fit together with those after it. -/
theorem LagFacts.lt_iff (h : LagFacts L 1 s o) {j : ℕ} :
    j < o ↔ L.maxsize < total L.weight (s.msgs.drop j) := by
  constructor
  · intro hj
    exact h.exceeds hj
  · intro hexc
    by_contra hge
    exact absurd (h.fits (Nat.not_lt.mp hge)) (Int.not_le.mpr hexc)

/-! ## The steps of the listener -/

theorem lagNext_listener {quit : Bool} {pc : ListenerPc}
    (h : listenerStep s.q quit s.x.pc = some (.ok pc)) :
    lagNext L s (.listener quit) = some { s with x := s.x.moveTo s.removed pc } := by
  simp only [lagNext, h]

/-- What a step does to the listener. -/
theorem listener_of_lagNext {a : LagAction} (h : lagNext L s a = some s') :
    s'.x = s.x ∨ ∃ quit pc, a = .listener quit ∧ s'.q = s.q ∧ s'.msgs = s.msgs ∧
      listenerStep s.q quit s.x.pc = some (.ok pc) ∧ s'.x = s.x.moveTo s.removed pc := by
  cases a with
  | append m =>
    unfold lagNext at h
    dsimp only at h
    split at h
    · obtain rfl := Option.some.inj h
      exact .inl rfl
    · cases h
  | listener quit =>
    unfold lagNext at h
    dsimp only at h
    split at h
    · next pc hx =>
      obtain rfl := Option.some.inj h
      exact .inr ⟨quit, pc, rfl, rfl, rfl, hx, rfl⟩
    · cases h

/-- A step that is neither the read of `q.oldest` nor a send sends nothing. -/
theorem moveTo_quiet {x : Listener} {n : ℕ} {pc : ListenerPc} (h1 : x.pc ≠ .start)
    (h2 : ∀ e m, x.pc ≠ .select e m) : x.moveTo n pc = { x with pc := pc } :=
  QueueState.moveTo_eq h1 fun e m _ hp => absurd hp (h2 e m)

/-! ## Behind -/

/-- **Step lemma**: a listener that is behind sends nothing more. -/
theorem Behind.step (h : Behind s.x) {a : LagAction} (hn : lagNext L s a = some s') :
    Behind s'.x ∧ s'.x.sent = s.x.sent := by
  rcases listener_of_lagNext hn with heq | ⟨quit, pc, -, -, -, hx, heq⟩
  · rw [heq]
    exact ⟨h, rfl⟩
  · rcases h with hp | hp
    · rw [hp] at hx
      obtain rfl : .closed = pc := by simpa [listenerStep] using hx
      rw [heq, moveTo_quiet (by simp [hp]) (by simp [hp])]
      exact ⟨.inr rfl, rfl⟩
    · rw [hp] at hx
      cases hx

theorem Behind.path (h : Behind s.x) (hp : (lagRun L).Path (fun _ _ => True) s s') :
    Behind s'.x ∧ s'.x.sent = s.x.sent := by
  refine hp.invariant (I := fun s' => Behind s'.x ∧ s'.x.sent = s.x.sent) ?_ ⟨h, rfl⟩
  rintro s₁ a s₂ ⟨hI, hsent⟩ - hn
  obtain ⟨h1, h2⟩ := hI.step hn
  exact ⟨h1, h2.trans hsent⟩

/-- It closes its channel with its next step. -/
theorem Behind.closes (h : Behind s.x) (quit : Bool) : s.x.pc = .closed ∨
    ∃ s', lagNext L s (.listener quit) = some s' ∧ s'.x.pc = .closed ∧ s'.x.sent = s.x.sent := by
  rcases h with hp | hp
  · have hx : listenerStep s.q quit s.x.pc = some (.ok .closed) := by
      rw [hp]
      simp [listenerStep]
    refine .inr ⟨_, lagNext_listener hx, ?_⟩
    rw [moveTo_quiet (by simp [hp]) (by simp [hp])]
    exact ⟨rfl, rfl⟩
  · exact .inl hp

/-! ## On the way to the next message -/

/-- What a run from a state in which the listener, having sent `sent`, is on its way to `e_k` leads
to: it still is, or it has delivered the message of `e_k` next. -/
def Follows (k : ℕ) (sent : List (Addr × Bytes)) (s : LagState) : Prop :=
  (s.x.sent = sent ∧ Waits (entryAt k) s.x) ∨
    ∃ m, s.msgs[k]? = some m ∧ sent ++ [(entryAt k, m)] <+: s.x.sent

/-- Messages are only added. -/
theorem msgs_of_lagNext {a : LagAction} (h : lagNext L s a = some s') : s.msgs <+: s'.msgs := by
  cases a with
  | append m =>
    unfold lagNext at h
    dsimp only at h
    split at h
    · obtain rfl := Option.some.inj h
      exact List.prefix_append _ _
    · cases h
  | listener quit =>
    unfold lagNext at h
    dsimp only at h
    split at h
    · obtain rfl := Option.some.inj h
      exact List.prefix_refl _
    · cases h

theorem sent_moveTo (x : Listener) (n : ℕ) (pc : ListenerPc) : x.sent <+: (x.moveTo n pc).sent := by
  unfold Listener.moveTo
  split
  · exact List.prefix_refl _
  · exact List.prefix_append _ _
  · exact List.prefix_refl _

/-- **Step lemma**. -/
theorem Follows.step {k : ℕ} {sent : List (Addr × Bytes)} (h : Follows k sent s)
    (hf : LagFacts L 1 s o) {a : LagAction} (hn : lagNext L s a = some s') : Follows k sent s' := by
  rcases h with ⟨hsent, hw⟩ | ⟨m, hm, hpre⟩
  · rcases listener_of_lagNext hn with heq | ⟨quit, pc, -, -, hmsgs, hx, heq⟩
    · left
      rw [heq]
      exact ⟨hsent, hw⟩
    rcases hw with hp | hp | hp | ⟨m, hp⟩ | hp
    · rw [hp] at hx
      obtain rfl : .wait (some (entryAt k)) = pc := by
        simpa [listenerStep, entryAt_ne_stale] using hx
      left
      rw [heq, moveTo_quiet (by simp [hp]) (by simp [hp])]
      exact ⟨hsent, .inr (.inl rfl)⟩
    · rw [hp] at hx
      obtain rfl : .readMsg (entryAt k) = pc := by
        unfold listenerStep at hx
        grind
      left
      rw [heq, moveTo_quiet (by simp [hp]) (by simp [hp])]
      exact ⟨hsent, .inr (.inr (.inl rfl))⟩
    · rw [hp] at hx
      obtain ⟨m, rfl⟩ : ∃ m, .select (entryAt k) m = pc := by
        unfold listenerStep at hx
        grind
      left
      rw [heq, moveTo_quiet (by simp [hp]) (by simp [hp])]
      exact ⟨hsent, .inr (.inr (.inr (.inl ⟨m, rfl⟩)))⟩
    · rw [hp] at hx
      cases quit with
      | true =>
        obtain rfl : .quit = pc := by simpa [listenerStep] using hx
        left
        have hmv : s.x.moveTo s.removed .quit = { s.x with pc := .quit } := by
          simp [Listener.moveTo, hp]
        rw [heq, hmv]
        exact ⟨hsent, .inr (.inr (.inr (.inr rfl)))⟩
      | false =>
        -- the send
        obtain rfl : .advance (entryAt k) = pc := by simpa [listenerStep] using hx
        have hat := hf.pc
        rw [hp] at hat
        have hpos : s.pos = k := (entryAt_inj.mp hat.1).symm
        refine .inr ⟨m, ?_, ?_⟩
        · rw [hmsgs, ← hpos]
          exact hat.2
        · have hmv : s.x.moveTo s.removed (.advance (entryAt k)) =
              { s.x with pc := .advance (entryAt k), sent := s.x.sent ++ [(entryAt k, m)] } := by
            simp [Listener.moveTo, hp]
          rw [heq, hmv, hsent]
    · rw [hp] at hx
      cases hx
  · refine .inr ⟨m, QueueState.getElem?_mono (msgs_of_lagNext hn) hm, ?_⟩
    rcases listener_of_lagNext hn with heq | ⟨quit, pc, -, -, -, -, heq⟩
    · rw [heq]
      exact hpre
    · rw [heq]
      exact hpre.trans (sent_moveTo _ _ _)

theorem Follows.path {k : ℕ} {sent : List (Addr × Bytes)} (h : Follows k sent s)
    (hf : ∃ o, LagFacts L 1 s o) (hp : (lagRun L).Path (fun _ _ => True) s s') :
    (∃ o, LagFacts L 1 s' o) ∧ Follows k sent s' := by
  refine hp.invariant (I := fun s => (∃ o, LagFacts L 1 s o) ∧ Follows k sent s) ?_ ⟨hf, h⟩
  rintro s₁ a s₂ ⟨⟨o, hf⟩, hI⟩ - hn
  exact ⟨hf.step (.inl Nat.zero_lt_one) hn, hI.step hf hn⟩

/-- The listener takes one step towards the send. -/
theorem run_succ {n : ℕ} {p : ListenerPc} (h1 : s.x.pc ≠ .start)
    (h2 : ∀ e m, s.x.pc ≠ .select e m) (hx : listenerStep s.q false s.x.pc = some (.ok p)) :
    (lagRun L).run (List.replicate (n + 1) (.listener false)) s =
      (lagRun L).run (List.replicate n (.listener false)) { s with x := { s.x with pc := p } } := by
  show ((lagNext L s (.listener false)).bind _) = _
  rw [lagNext_listener hx, moveTo_quiet h1 h2]
  rfl

/-- **Progress**: nothing keeps a listener that has not quit from the message it is on its way to, once
this has been appended. -/
theorem Waits.delivers {k : ℕ} (hw : Waits (entryAt k) s.x) (hquit : s.x.pc ≠ .quit)
    (hf : LagFacts L 1 s o) (hm : s.msgs[k]? = some m) : ∃ n s',
    (lagRun L).run (List.replicate n (.listener false)) s = some s' ∧
      s'.x.sent = s.x.sent ++ [(entryAt k, m)] := by
  obtain ⟨hmsg, hvalid⟩ := hf.entry hm
  have hsend : ∀ s : LagState, s.x.pc = .select (entryAt k) m →
      ∃ s', (lagRun L).run (List.replicate 1 (.listener false)) s = some s' ∧
        s'.x.sent = s.x.sent ++ [(entryAt k, m)] := by
    intro s hp
    have hx : listenerStep s.q false s.x.pc = some (.ok (.advance (entryAt k))) := by
      rw [hp]
      rfl
    refine ⟨_, congrArg (Option.bind · _) (lagNext_listener (L := L) hx), ?_⟩
    simp [Listener.moveTo, hp]
  have hread : ∀ s₁ : LagState, s₁.q = s.q → s₁.x.sent = s.x.sent → s₁.x.pc = .readMsg (entryAt k) →
      ∃ s', (lagRun L).run (List.replicate 2 (.listener false)) s₁ = some s' ∧
        s'.x.sent = s.x.sent ++ [(entryAt k, m)] := by
    intro s₁ hq hsent hp
    rw [run_succ (p := .select (entryAt k) m) (by simp [hp]) (by simp [hp])
      (by simp [listenerStep, hp, hq, hmsg]), ← hsent]
    exact hsend _ rfl
  have hwait : ∀ s₁ : LagState, s₁.q = s.q → s₁.x.sent = s.x.sent →
      s₁.x.pc = .wait (some (entryAt k)) →
      ∃ s', (lagRun L).run (List.replicate 3 (.listener false)) s₁ = some s' ∧
        s'.x.sent = s.x.sent ++ [(entryAt k, m)] := by
    intro s₁ hq hsent hp
    rw [run_succ (p := .readMsg (entryAt k)) (by simp [hp]) (by simp [hp])
      (by simp [listenerStep, hp, hq, hvalid])]
    exact hread _ hq hsent rfl
  rcases hw with hp | hp | hp | ⟨m', hp⟩ | hp
  · refine ⟨4, ?_⟩
    rw [run_succ (p := .wait (some (entryAt k))) (by simp [hp]) (by simp [hp])
      (by simp [listenerStep, hp, entryAt_ne_stale])]
    exact hwait _ rfl rfl rfl
  · exact ⟨3, hwait s rfl rfl hp⟩
  · exact ⟨2, hread s rfl rfl hp⟩
  · -- the operand of the select is the message of the entry
    have hat := hf.pc
    rw [hp] at hat
    have hpos : s.pos = k := (entryAt_inj.mp hat.1).symm
    rw [← hpos, hat.2] at hm
    obtain rfl := Option.some.inj hm
    exact ⟨1, hsend s hp⟩
  · exact absurd hp hquit

/-- **One iteration**: the send and the advance. -/
theorem iteration (hf : LagFacts L 1 s o) (hpc : s.x.pc = .select e m) :
    e = entryAt s.pos ∧ s.msgs[s.pos]? = some m ∧ ∃ s₁ s₂,
      lagNext L s (.listener false) = some s₁ ∧ lagNext L s₁ (.listener false) = some s₂ ∧
      s₂ = { s with x := { s.x with
        pc := .loop (if s.pos < o then some staleEntry else some (entryAt (s.pos + 1))),
        sent := s.x.sent ++ [(e, m)] } } := by
  have hat := hf.pc
  rw [hpc] at hat
  obtain ⟨rfl, hm⟩ := hat
  have hlt := (List.getElem?_eq_some_iff.mp hm).1
  refine ⟨rfl, hm, { s with x := { s.x with
    pc := .advance (entryAt s.pos), sent := s.x.sent ++ [(entryAt s.pos, m)] } }, _, ?_, ?_, rfl⟩
  · have hx : listenerStep s.q false s.x.pc = some (.ok (.advance (entryAt s.pos))) := by
      rw [hpc]
      rfl
    rw [lagNext_listener hx]
    simp [Listener.moveTo, hpc]
  · have hnext := hf.next_eq hlt
    simp only [lagNext, listenerStep, hnext]
    rfl

/-- **Exact lag tolerance**: a listener that delivers `m_k` when `m_1, …, m_n` have been appended goes on
to close its channel if and only if `m_k, …, m_n` together exceed the limit.  Otherwise the next thing
it does, unless it quits, is to deliver `m_{k+1}`, removed or not. -/
theorem exact_lag_tolerance (h : (lagRun L).Reachable s) (hpc : s.x.pc = .select e m) :
    s.msgs[s.pos]? = some m ∧ ∃ s₁ s₂,
      lagNext L s (.listener false) = some s₁ ∧ lagNext L s₁ (.listener false) = some s₂ ∧
      s₂.msgs = s.msgs ∧ s₂.x.sent = s.x.sent ++ [(e, m)] ∧
    ((∃ s', (lagRun L).Path (fun _ _ => True) s₂ s' ∧ s'.x.pc = .closed ∧
        s'.x.sent = s₂.x.sent) ↔ L.maxsize < total L.weight (s.msgs.drop s.pos)) ∧
    (L.maxsize < total L.weight (s.msgs.drop s.pos) →
      ∀ s', (lagRun L).Path (fun _ _ => True) s₂ s' → s'.x.sent = s₂.x.sent ∧
        ∀ quit, s'.x.pc = .closed ∨
          ∃ s'', lagNext L s' (.listener quit) = some s'' ∧ s''.x.pc = .closed) ∧
    (total L.weight (s.msgs.drop s.pos) ≤ L.maxsize →
      ∀ s', (lagRun L).Path (fun _ _ => True) s₂ s' →
        (s'.x.sent = s₂.x.sent ∧ s'.x.pc ≠ .closed ∧ (s'.x.pc ≠ .quit →
          ∀ m', s'.msgs[s.pos + 1]? = some m' → ∃ n s'',
            (lagRun L).run (List.replicate n (.listener false)) s' = some s'' ∧
            s''.x.sent = s₂.x.sent ++ [(entryAt (s.pos + 1), m')])) ∨
        ∃ m', s'.msgs[s.pos + 1]? = some m' ∧
          s₂.x.sent ++ [(entryAt (s.pos + 1), m')] <+: s'.x.sent) := by
  obtain ⟨o, hf⟩ := lagFacts_of_reachable h
  obtain ⟨rfl, hm, s₁, s₂, h1, h2, hs₂⟩ := iteration hf hpc
  have hmsgs : s₂.msgs = s.msgs := by rw [hs₂]
  have hsent : s₂.x.sent = s.x.sent ++ [(entryAt s.pos, m)] := by rw [hs₂]
  have hf₂ : ∃ o, LagFacts L 1 s₂ o := by
    have h₁ : (lagRun L).Reachable s₁ := Machine.Reaches.step (a := .listener false) h h1 trivial
    exact lagFacts_of_reachable (Machine.Reaches.step (a := .listener false) h₁ h2 trivial)
  have hbehind : L.maxsize < total L.weight (s.msgs.drop s.pos) → Behind s₂.x := by
    intro hexc
    left
    rw [hs₂, if_pos (hf.lt_iff.mpr hexc)]
  have hwaits : total L.weight (s.msgs.drop s.pos) ≤ L.maxsize →
      Follows (s.pos + 1) s₂.x.sent s₂ := by
    intro hfit
    have hge : ¬ s.pos < o := fun hlt => absurd (hf.lt_iff.mp hlt) (Int.not_lt.mpr hfit)
    refine .inl ⟨rfl, .inl ?_⟩
    rw [hs₂, if_neg hge]
  refine ⟨hm, s₁, s₂, h1, h2, hmsgs, hsent, ⟨?_, ?_⟩, ?_, ?_⟩
  · rintro ⟨s', hp, hclosed, hsame⟩
    by_contra hfit
    rcases (Follows.path (hwaits (Int.not_lt.mp hfit)) hf₂ hp).2 with ⟨-, hw⟩ | ⟨m', -, hpre⟩
    · rcases hw with hp | hp | hp | ⟨m', hp⟩ | hp <;> rw [hclosed] at hp <;> cases hp
    · have hlen := hpre.length_le
      rw [hsame, List.length_append, List.length_singleton] at hlen
      omega
  · intro hexc
    rcases (hbehind hexc).closes (L := L) false with hclosed | ⟨s', hn, hclosed, hsame⟩
    · exact ⟨s₂, .refl, hclosed, rfl⟩
    · exact ⟨s', .step (a := .listener false) .refl hn trivial, hclosed, hsame⟩
  · intro hexc s' hp
    obtain ⟨hb, hsame⟩ := (hbehind hexc).path hp
    refine ⟨hsame, fun quit => ?_⟩
    rcases hb.closes (L := L) quit with hclosed | ⟨s'', hn, hclosed, -⟩
    · exact .inl hclosed
    · exact .inr ⟨s'', hn, hclosed⟩
  · intro hfit s' hp
    obtain ⟨⟨o', hf'⟩, hfollows⟩ := Follows.path (hwaits hfit) hf₂ hp
    rcases hfollows with ⟨hsame, hw⟩ | hdone
    · refine .inl ⟨hsame, ?_, fun hquit m' hm' => ?_⟩
      · intro hclosed
        rcases hw with hp | hp | hp | ⟨m', hp⟩ | hp <;> rw [hclosed] at hp <;> cases hp
      · rw [← hsame]
        exact hw.delivers hquit hf' hm'
    · exact .inr hdone

/-- Two messages together exceed the limit; the listener delivers the first one and is behind. -/
theorem lag_tolerance_of_two_messages : ∃ s : LagState, (lagRun (backlogOf 50)).Reachable s ∧
    s.x.pc = .select 1 [7] ∧ s.msgs = [[7], [8]] ∧ ∃ s₁ s₂,
      lagNext (backlogOf 50) s (.listener false) = some s₁ ∧
      lagNext (backlogOf 50) s₁ (.listener false) = some s₂ ∧
      ((∃ s', (lagRun (backlogOf 50)).Path (fun _ _ => True) s₂ s' ∧ s'.x.pc = .closed ∧
        s'.x.sent = s₂.x.sent) ↔
        (backlogOf 50).maxsize < total (backlogOf 50).weight (s.msgs.drop s.pos)) := by
  obtain ⟨s, h, hc⟩ := Machine.exists_of_run (lagRun (backlogOf 50)) (lagRun (backlogOf 50)).init
    (.append [7] :: List.replicate 4 (.listener false) ++ [.append [8]])
    (fun s => s.x.pc = .select 1 [7] && s.msgs = [[7], [8]]) (by decide)
  simp only [Bool.and_eq_true, decide_eq_true_eq] at hc
  obtain ⟨-, s₁, s₂, h1, h2, -, -, hiff, -⟩ := exact_lag_tolerance h hc.1
  exact ⟨s, h, hc.1, hc.2, s₁, s₂, h1, h2, hiff⟩

end WebsocketHub
