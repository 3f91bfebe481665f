import WebsocketHub.ChatroomRest

/-!
# WebsocketHub.ChatroomEnding — the goroutines that deliver to a client come to their end

When a client has been closed its listener and its writer should end.  The listener looks at `quit` only in
its select, which it reaches when there is a message; the writer ends when a write fails or `msgs` is closed.
As long as the listeners leave last (`leavesLast`) no writer is left behind, and if no write succeeds any more
both have ended once there is one message more than those that the listener has handed over and the one that
its writer may still take (`DeliveriesEnd`).  In a room that stays silent they wait.
-/

namespace WebsocketHub

open ChatroomState QueueState

section Defs

/-- A step that a goroutine takes by itself, where the listeners leave last. -/
def goesLast (s : ChatroomState) (a : ChatroomAction) : Bool := goes s a && leavesLast s a

def WriterPc.writes : WriterPc → Bool
  | .write _ => true
  | _ => false

/-- No write to `c` succeeds. -/
def writesFail (c : Cid) (s : ChatroomState) : ChatroomAction → Bool
  | .writer d true => d ≠ c || (s.conns c).all fun x => !x.writer.writes
  | _ => true

/-- The messages that a writer takes if no write succeeds. -/
def WriterPc.takes : WriterPc → ℕ
  | .notSpawned => 1
  | .range => 1
  | _ => 0

/-- Both goroutines that deliver to `c` have ended. -/
def DeliveryEnded (s : ChatroomState) (c : Cid) : Prop :=
  (∃ y, s.backlog.listeners c = some y ∧ (y.pc = .closed ∨ y.pc = .quit)) ∧
    ∃ x, s.conns c = some x ∧ x.writer = .returned

/-- The goroutines of the room have done all that they can, and there has been no panic. -/
structure StandsStill (M : Machine ChatroomState ChatroomAction) (s : ChatroomState) : Prop where
  panic : s.panic = none
  backlog : s.backlog.panic = none
  halted : M.Halted goesLast s

/-- A step of a client after which its writer takes no more than before. -/
structure Shrinks (x x' : Client) : Prop where
  takes : x'.writer.takes ≤ x.writer.takes
  closed : x.closed = true → x'.closed = true

/-- The client `c` has been closed, its listener has begun, and with its writer it gets no further than to
post `n`. -/
def GetsTo (c : Cid) (n : ℕ) (s : ChatroomState) : Prop :=
  ∃ x y, s.conns c = some x ∧ x.closed = true ∧ s.backlog.listeners c = some y ∧ y.pc ≠ .start ∧
    y.cursor.pos + x.writer.takes ≤ n

end Defs

variable {verbose : Bool} {L : Limits} {s s' : ChatroomState} {a : ChatroomAction} {c : Cid}
  {x x' : Client} {T : Thread} {q q' : QueueState} {n : ℕ}

/-! ## How far a listener gets -/

/-- The listeners of the queue move on by sending only. -/
theorem pos_of_act {b : QueueAction} (h : queueAct L q b = some q') {y : Listener}
    (hy : q.listeners c = some y) (hstart : y.pc ≠ .start)
    (hsend : b = .listener c false → ∀ e msg, y.pc ≠ .select e msg) :
    ∃ y', q'.listeners c = some y' ∧ y'.pc ≠ .start ∧ y'.cursor.pos = y.cursor.pos := by
  rcases listener_of_step (queueStep_of_act h) hy with hsame | ⟨quit, pc, hb, hstep, hy', -⟩
  · exact ⟨y, hsame, hstart, rfl⟩
  · refine ⟨_, hy', ?_, ?_⟩
    · rw [moveTo_pc]
      exact listenerStep_ne_start hstep
    · rw [moveTo_eq hstart]
      · rfl
      · rintro e msg e' hpc rfl
        cases quit with
        | false => exact hsend hb e msg hpc
        | true =>
          rw [hpc] at hstep
          cases hstep

/-- A send moves the listener on by one. -/
theorem pos_of_send (h : queueAct L q (.listener c false) = some q') {y : Listener}
    (hy : q.listeners c = some y) {e : Addr} {msg : Bytes} (hpc : y.pc = .select e msg) :
    ∃ y', q'.listeners c = some y' ∧ y'.pc ≠ .start ∧ y'.cursor.pos = y.cursor.pos + 1 := by
  simp only [queueAct, hy, hpc, listenerStep, Bool.false_eq_true, if_false, Option.some.injEq] at h
  subst h
  refine ⟨_, Function.update_self _ _ _, ?_, ?_⟩
  · rw [moveTo_pc]
    rintro ⟨⟩
  · unfold Listener.moveTo
    rw [hpc]
    show y.start + List.length (List.map Prod.snd (y.sent ++ [(e, msg)])) =
      y.start + List.length (List.map Prod.snd y.sent) + 1
    rw [List.length_map, List.length_map, List.length_append, List.length_singleton, Nat.add_assoc]

theorem Shrinks.refl (x : Client) : Shrinks x x := ⟨Nat.le_refl _, fun h => h⟩

namespace GetsTo

/-- A step that leaves the queue alone. -/
theorem keep (h : GetsTo c n s) (hlisteners : s'.backlog.listeners = s.backlog.listeners)
    (hconns : ∀ x, s.conns c = some x → ∃ x', s'.conns c = some x' ∧ Shrinks x x') : GetsTo c n s' := by
  obtain ⟨x, y, hx, hclosed, hy, hstart, hle⟩ := h
  obtain ⟨x', hx', hshrinks⟩ := hconns x hx
  have htakes := hshrinks.takes
  exact ⟨x', y, hx', hshrinks.closed hclosed, hlisteners ▸ hy, hstart, by omega⟩

theorem conns_set {d : Cid} (hd : s.conns d = some x)
    (hconns : s'.conns = Function.update s.conns d (some x')) (hx : Shrinks x x') :
    ∀ z, s.conns c = some z → ∃ z', s'.conns c = some z' ∧ Shrinks z z' := by
  intro z hz
  rw [hconns, Function.update_apply]
  split
  · next heq =>
    obtain rfl := Option.some.inj (hz.symm.trans (heq ▸ hd))
    exact ⟨x', rfl, hx⟩
  · exact ⟨z, hz, .refl z⟩

/-- A step of client `d` that leaves the queue alone. -/
theorem set (h : GetsTo c n s) {d : Cid} (hd : s.conns d = some x)
    (hconns : s'.conns = Function.update s.conns d (some x'))
    (hlisteners : s'.backlog.listeners = s.backlog.listeners) (hx : Shrinks x x') : GetsTo c n s' :=
  h.keep hlisteners (conns_set hd hconns hx)

theorem del (h : GetsTo c n s) (hd : runDel verbose s T = some s') : GetsTo c n s' := by
  refine h.keep (by rw [(runDel_frame hd).1]) fun x hx => ?_
  obtain ⟨x', hx', hm⟩ := runDel_conn_of hd hx
  refine ⟨x', hx', ?_, fun hclosed => hm.closed.trans hclosed⟩
  rcases hm.writer with heq | ⟨p, p', -, hp'⟩
  · rw [heq]
  · rw [hp']
    cases p' <;> exact Nat.zero_le _

/-- A step of the queue that sends nothing to `c`. -/
theorem act {b : QueueAction} (h : GetsTo c n s) (hq : queueAct L s.backlog b = some q)
    (hsend : ∀ y, s.backlog.listeners c = some y → b = .listener c false → ∀ e msg, y.pc ≠ .select e msg)
    (hbacklog : s'.backlog = q)
    (hconns : ∀ x, s.conns c = some x → ∃ x', s'.conns c = some x' ∧ Shrinks x x') : GetsTo c n s' := by
  obtain ⟨x, y, hx, hclosed, hy, hstart, hle⟩ := h
  obtain ⟨x', hx', hshrinks⟩ := hconns x hx
  obtain ⟨y', hy', hstart', hpos⟩ := pos_of_act hq hy hstart (hsend y hy)
  have htakes := hshrinks.takes
  exact ⟨x', y', hx', hshrinks.closed hclosed, hbacklog ▸ hy', hstart', by omega⟩

/-- **Step lemma**: without a successful write the writer takes one message at most. -/
theorem step (h : GetsTo c n s) (hls : Listens s) (hok : writesFail c s a = true)
    (hs : ChatStep verbose L s a s') : GetsTo c n s' := by
  have hsame : ∀ z, s.conns c = some z → ∃ z', s.conns c = some z' ∧ Shrinks z z' :=
    fun z hz => ⟨z, hz, .refl z⟩
  cases hs with
  | @connect d hd =>
    refine h.keep rfl fun z hz => ⟨z, ?_, .refl z⟩
    rw [conns_setConn, if_neg, hz]
    rintro rfl
    rw [hd] at hz
    cases hz
  | addInc hc hr => exact h.set hc rfl rfl ⟨Nat.le_refl _, fun h => h⟩
  | addLock hc hr hfree => exact h.set hc rfl rfl ⟨Nat.le_refl _, fun h => h⟩
  | addInsert hc hr => exact h.set hc rfl rfl ⟨Nat.le_refl _, fun h => h⟩
  | addUnlock hc hr => exact h.set hc rfl rfl ⟨Nat.le_refl _, fun h => h⟩
  | addWatcher hc hr => exact h.set hc rfl rfl ⟨Nat.le_refl _, fun h => h⟩
  | @addWriter d x i hd hr =>
    refine h.keep rfl fun z hz => ⟨z, ?_, .refl z⟩
    -- `c` has called `Listen` already
    rw [conns_setConn, if_neg, hz]
    rintro rfl
    obtain ⟨-, y, -, -, hy, -⟩ := h
    obtain ⟨w, hw, hl⟩ := hls c (by rw [hy]; nofun)
    obtain rfl := Option.some.inj (hd.symm.trans hw)
    rw [hr] at hl
    cases hl
  | addListen hc hr hq =>
    exact h.act hq (by rintro _ - ⟨⟩) rfl (conns_set hc rfl ⟨Nat.le_refl _, fun h => h⟩)
  | addCount hc hr => exact h.set hc rfl rfl ⟨Nat.le_refl _, fun h => h⟩
  | readFails hc hr => exact h.set hc rfl rfl ⟨Nat.le_refl _, fun h => h⟩
  | readMsg hc hr hq =>
    exact h.act hq (by rintro _ - ⟨⟩) rfl (conns_set hc rfl ⟨Nat.le_refl _, fun h => h⟩)
  | appendStep hc hr hq => exact h.act hq (by rintro _ - ⟨⟩) rfl hsame
  | appendReturns hc hr hret => exact h.set hc rfl rfl ⟨Nat.le_refl _, fun h => h⟩
  | readerCloses hc hr hstep => exact h.set hc rfl rfl ⟨Nat.le_refl _, (closeStep_closed hstep).1⟩
  | readerDel hd => exact h.del hd
  | watcherWait hc hw hcl => exact h.set hc rfl rfl ⟨Nat.le_refl _, fun h => h⟩
  | watcherQuit hc hw => exact h.set hc rfl rfl ⟨Nat.le_refl _, fun h => h⟩
  | writerEnds hc hw hl => exact h.set hc rfl rfl ⟨Nat.zero_le _, fun h => h⟩
  | @writeOk d x msg hd hw =>
    refine h.keep rfl fun z hz => ⟨z, ?_, .refl z⟩
    rw [conns_setConn, if_neg, hz]
    rintro rfl
    simp [writesFail, hd, hw, WriterPc.writes] at hok
  | writeFails hc hw => exact h.set hc rfl rfl ⟨Nat.zero_le _, fun h => h⟩
  | writerDel hd => exact h.del hd
  | @writerCloses d x ok p p' closed hc hw hstep =>
    refine h.set hc rfl rfl ⟨?_, (closeStep_closed hstep).1⟩
    cases p' <;> exact Nat.zero_le _
  | @send d x e msg q hc hl hw hq =>
    by_cases hdc : d = c
    · subst hdc
      obtain ⟨z, y, hz, hclosed, hy, hstart, hle⟩ := h
      obtain rfl := Option.some.inj (hc.symm.trans hz)
      rw [hy, Option.map_some, Option.some.injEq] at hl
      obtain ⟨y', hy', hstart', hpos⟩ := pos_of_send hq hy hl
      refine ⟨_, y', Function.update_self _ _ _, hclosed, hy', hstart', ?_⟩
      rw [hw] at hle
      have hle : y.cursor.pos + 1 ≤ n := hle
      show y'.cursor.pos + 0 ≤ n
      omega
    · refine h.act hq (fun y _ hb => absurd (QueueAction.listener.inj hb).1 hdc) rfl fun z hz => ?_
      refine ⟨z, ?_, .refl z⟩
      rw [conns_setConn, if_neg (Ne.symm hdc)]
      exact hz
  | @listens d quit q hl hq =>
    refine h.act hq (fun y hy hb e msg hpc => ?_) rfl hsame
    obtain ⟨rfl, rfl⟩ := QueueAction.listener.inj hb
    exact hl e msg rfl (by rw [hy, Option.map_some, hpc])
  | del hd => exact h.del hd
  | _ => exact h.keep rfl hsame

/-- **Run lemma**. -/
theorem path {ok : ChatroomState → ChatroomAction → Prop} (h : GetsTo c n s)
    (hreach : (chatRun verbose L).Reachable s)
    (hpath : (chatRun verbose L).Path (fun s a => ok s a ∧ writesFail c s a = true) s s') :
    GetsTo c n s' := by
  suffices hboth : (chatRun verbose L).Reachable s' ∧ GetsTo c n s' from hboth.2
  refine hpath.invariant (I := fun s => (chatRun verbose L).Reachable s ∧ GetsTo c n s) ?_ ⟨hreach, h⟩
  rintro s a s' ⟨hreach, hI⟩ ⟨-, hok⟩ hn
  exact ⟨hreach.step hn trivial, hI.step (listens_of_reaches hreach) hok (chatStep_of_next hn).2.2⟩

end GetsTo

/-! ## A room that stands still -/

/-- Where no listener may leave before its writer, the two go on together. -/
theorem StandsStill.halted_goes (h : StandsStill (chatRun verbose L) s) :
    (chatRun verbose L).Halted goes s := by
  intro a hgoes
  by_cases hlast : leavesLast s a = true
  · exact h.halted a (Bool.and_eq_true_iff.mpr ⟨hgoes, hlast⟩)
  · exfalso
    have hstep : ∀ b, goesLast s b = true → chatAct verbose L s b = none := by
      intro b hb
      have hnone : chatNext verbose L s b = none := h.halted b hb
      rwa [chatNext_of_alive h.panic h.backlog] at hnone
    unfold leavesLast at hlast
    split at hlast
    · next c =>
      rw [Bool.not_eq_true, Bool.or_eq_false_iff, Bool.not_eq_false', Option.any_eq_true] at hlast
      obtain ⟨⟨y, hy, hsel⟩, hall⟩ := hlast
      obtain ⟨x, hx, hin⟩ := of_all_eq_false hall
      rw [Bool.not_eq_false'] at hin
      obtain ⟨e, msg, hpc⟩ := ListenerPc.exists_of_selects hsel
      cases hw : x.writer with
      | range =>
        have hsend := hstep (.listener c false) rfl
        rw [chatAct, hx, Option.bind_some] at hsend
        unfold chatListenerStep at hsend
        rw [hy, Option.map_some, hpc] at hsend
        simp [hw, queueAct, hy, hpc, listenerStep] at hsend
      | write m =>
        have hwrite := hstep (.writer c true) rfl
        rw [chatAct, hx, Option.bind_some, writerStep, hw] at hwrite
        cases hwrite
      | _ =>
        rw [hw] at hin
        cases hin
    · exact hlast rfl

/-- What is left of a client that has been closed. -/
theorem ended_or_caughtUp (h : (chatRun verbose L).Reachable s) (hstill : StandsStill (chatRun verbose L) s)
    (hno : ∀ c, ¬Orphan s c) (hc : s.conns c = some x) (hclosed : x.closed = true) :
    DeliveryEnded s c ∨ ∃ y, s.backlog.listeners c = some y ∧ CaughtUp s.backlog y := by
  have hrest := atRest_of_halted h hstill.panic hstill.backlog hstill.halted_goes
  obtain ⟨-, -, y, hy, hleft⟩ := hrest.closed c x hc hclosed
  cases hleft with
  | ended hl hw => exact .inl ⟨⟨y, hy, hl⟩, x, hc, hw⟩
  | waits hl => exact .inr ⟨y, hy, hl⟩
  | orphan hl hw => exact absurd ⟨by rw [hy, Option.map_some, hl], x, hc, hw⟩ (hno c)

/-- A listener that has caught up stands behind the last post. -/
theorem CaughtUp.le_pos {y : Listener} (h : CaughtUp q y) : q.log.posts.length ≤ y.cursor.pos := by
  have hlength := congrArg List.length h.2
  rw [List.length_drop] at hlength
  show _ ≤ y.start + y.cursor.got.length
  omega

/-- Where something has been said that is out of their reach, both have ended. -/
theorem GetsTo.ended (h : GetsTo c n s) (hreach : (chatRun verbose L).Reachable s)
    (hno : ∀ c, ¬Orphan s c) (hstill : StandsStill (chatRun verbose L) s)
    (hn : n < s.backlog.log.posts.length) : DeliveryEnded s c := by
  obtain ⟨x, y, hx, hclosed, hy, -, hle⟩ := h
  rcases ended_or_caughtUp hreach hstill hno hx hclosed with hended | ⟨z, hz, hcaught⟩
  · exact hended
  · obtain rfl := Option.some.inj (hy.symm.trans hz)
    have hpos := hcaught.le_pos
    omega

end WebsocketHub
