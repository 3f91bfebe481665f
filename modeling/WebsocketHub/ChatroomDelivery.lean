import WebsocketHub.QueueDelivery
import WebsocketHub.ChatroomStep

/-!
# WebsocketHub.ChatroomDelivery — what a client is sent

The room is a simulation of its queue: every step of `chatRun` is a step of `queueRun` on the backlog
or leaves it alone, so what holds of every run of the queue holds of the room.  `Written` follows a
message from the listener over the channel `msgs` to the connection.  `TotalOrder` collects what the
room promises about the messages.
-/

namespace WebsocketHub

namespace QueueState

variable {L : Limits} {s s₁ s₂ : QueueState} {l : Lid} {x : Listener}

/-- `sent` is `msg(e_j), …, msg(e_k)` for consecutive entries, starting at the entry `first`. -/
def SendsFrom (s : QueueState) (first : Ptr) (sent : List (Addr × Bytes)) : Prop :=
  ∃ j, (∀ e, first = some e → s.IsEntry j e) ∧ (sent ≠ [] → first ≠ none) ∧
    sent.map (fun r => (r.1, some r.2)) = (s.history.drop j).take sent.length

theorem sendsFrom_first (h : s.Delivery) (hx : s.listeners l = some x) :
    s.SendsFrom x.first x.sent :=
  ⟨x.start, (h l x hx).first, (h l x hx).first_some, sent_eq_segment h hx⟩

/-- The read of `q.oldest` is remembered. -/
theorem first_of_path {ok : QueueState → QueueAction → Prop} (hp : (queueRun L).Path ok s₁ s₂)
    (hx : s₁.listeners l = some x) (hne : x.pc ≠ .start) :
    ∃ y, s₂.listeners l = some y ∧ y.pc ≠ .start ∧ y.first = x.first := by
  refine hp.invariant (I := fun s => ∃ y, s.listeners l = some y ∧ y.pc ≠ .start ∧ y.first = x.first)
    ?_ ⟨x, hx, hne, rfl⟩
  rintro s a s' ⟨y, hy, hyne, hfirst⟩ - hn
  rcases listener_of_step (queueStep_of_next hn).2 hy with hy' | ⟨quit, pc, -, hpc, hy', -⟩
  · exact ⟨y, hy', hyne, hfirst⟩
  · refine ⟨_, hy', ?_, (moveTo_start hyne).1.trans hfirst⟩
    rw [moveTo_pc]
    exact listenerStep_ne_start hpc

/-- From the read of `q.oldest` on. -/
theorem sendsFrom_of_path {quit : Bool} {y : Listener} {ok : QueueState → QueueAction → Prop}
    (hr : (queueRun L).Reachable s) (hx : s.listeners l = some x) (hpc : x.pc = .start)
    (hn : (queueRun L).next s (.listener l quit) = some s₁) (hp : (queueRun L).Path ok s₁ s₂)
    (hy : s₂.listeners l = some y) : s₂.SendsFrom s.q.oldest y.sent := by
  have hs₁ : s₁.listeners l = some (x.moveTo s.removers.length (.loop s.q.oldest)) := by
    obtain ⟨hnone, -⟩ := queueStep_of_next hn
    have hact : queueNext L s (.listener l quit) = some s₁ := hn
    simp only [queueNext, hnone, queueAct, hx, hpc, listenerStep, Option.some.injEq] at hact
    rw [← hact, setListener_listeners, if_pos rfl]
  have hmove : (x.moveTo s.removers.length (.loop s.q.oldest)).first = s.q.oldest := by
    simp [Listener.moveTo, hpc]
  obtain ⟨z, hz, -, hfirst⟩ := first_of_path hp hs₁ (by simp [moveTo_pc])
  obtain rfl := Option.some.inj (hy.symm.trans hz)
  have hr₂ : (queueRun L).Reachable s₂ :=
    (hr.step hn trivial).path (hp.mono fun _ _ _ => trivial)
  have hsends := sendsFrom_first (delivery_of_reaches hr₂) hy
  rw [hfirst, hmove] at hsends
  exact hsends

theorem record_calls (t : Tid) (c : Call) : (s.record t c).calls = s.calls := by
  unfold record
  split
  · split <;> rfl
  · split <;> rfl
  · rfl
  · rfl

/-- **Frame**: an action on another call, or on a listener, leaves call `t` alone. -/
theorem calls_of_act {a : QueueAction} {t : Tid} (h : queueAct L s a = some s₂)
    (happ : ∀ m, a ≠ .append t m) (hcall : a ≠ .call t) : s₂.calls t = s.calls t := by
  cases a with
  | append u m =>
    have hne : t ≠ u := by
      rintro rfl
      exact happ m rfl
    cases queueStep_of_act h with
    | append hu => rw [QueueState.begin, setCall_calls, if_neg hne]
  | call u =>
    have hne : t ≠ u := by
      rintro rfl
      exact hcall rfl
    cases hu : s.calls u with
    | none => simp [queueAct, hu] at h
    | some d =>
      simp only [queueAct, hu] at h
      split at h
      · cases h
      · obtain rfl := Option.some.inj h
        rfl
      · obtain rfl := Option.some.inj h
        rw [setCall_calls, if_neg hne]
        exact congrFun (record_calls u d) t
  | listen k => cases queueStep_of_act h with | listen hk => rfl
  | listener k quit =>
    cases queueStep_of_act h with
    | listener hk hx => rfl
    | listenerPanics hk hx => rfl

/-- A call that has returned takes no step. -/
theorem returned_of_act {a : QueueAction} {t : Tid} {c : Call} (h : queueAct L s a = some s₂)
    (hc : s.calls t = some c) (hret : c.pc = .returned) : s₂.calls t = some c := by
  rw [calls_of_act h, hc]
  · rintro m rfl
    simp [queueAct, hc] at h
  · rintro rfl
    simp [queueAct, hc, callStep, hret] at h

/-- A call begins with `Append`. -/
theorem none_of_act {a : QueueAction} {t : Tid} (h : queueAct L s a = some s₂)
    (hc : s.calls t = none) (happ : ∀ m, a ≠ .append t m) : s₂.calls t = none := by
  rw [calls_of_act h happ, hc]
  rintro rfl
  simp [queueAct, hc] at h

/-- The messages listener `l` has sent. -/
def messages (s : QueueState) (l : Lid) : List Bytes :=
  ((s.listeners l).map fun x => x.sent.map Prod.snd).getD []

/-- An action that is no listener's leaves the messages alone. -/
theorem messages_of_act {a : QueueAction} (h : queueAct L s a = some s₂)
    (ha : ∀ l quit, a ≠ .listener l quit) (l : Lid) : s₂.messages l = s.messages l := by
  have hstep := queueStep_of_act h
  cases hstep with
  | @listen k hk =>
    rw [messages, messages, setListener_listeners]
    split
    · next heq =>
      rw [heq, hk]
      rfl
    · rfl
  | listener hk hx => exact absurd rfl (ha _ _)
  | listenerPanics hk hx => exact absurd rfl (ha _ _)
  | _ => rfl

/-- Only the select sends. -/
theorem messages_of_listener {k : Lid} {quit : Bool} (h : queueAct L s (.listener k quit) = some s₂)
    (hpc : ∀ e m, quit = false → (s.listeners k).map Listener.pc ≠ some (.select e m)) (l : Lid) :
    s₂.messages l = s.messages l := by
  cases queueStep_of_act h with
  | @listener _ _ x pc hk hx =>
    rw [messages, messages, setListener_listeners]
    split
    · next heq =>
      subst heq
      rw [hk]
      show (x.moveTo s.removers.length pc).sent.map Prod.snd = x.sent.map Prod.snd
      unfold Listener.moveTo
      split
      · rfl
      · next e m e' hs =>
        cases quit with
        | false => exact absurd (by rw [hk, Option.map_some, hs]) (hpc e m rfl)
        | true =>
          rw [hs] at hx
          cases hx
      · rfl
    · rfl
  | listenerPanics hk hx => rfl

/-- A send. -/
theorem messages_of_send {k : Lid} {e : Addr} {m : Bytes}
    (h : queueAct L s (.listener k false) = some s₂)
    (hpc : (s.listeners k).map Listener.pc = some (.select e m)) (l : Lid) :
    s₂.messages l = if l = k then s.messages l ++ [m] else s.messages l := by
  obtain ⟨x, hk, hx⟩ := Option.map_eq_some_iff.mp hpc
  simp only [queueAct, hk, hx, listenerStep, Bool.false_eq_true, if_false, Option.some.injEq] at h
  subst h
  rw [messages, messages, setListener_listeners]
  split
  · next heq =>
    subst heq
    rw [hk]
    simp [Listener.moveTo, hx]
  · rfl

end QueueState

open ChatroomState QueueState

section Room

variable {verbose : Bool} {L : Limits} {s s' : ChatroomState} {a : ChatroomAction} {c : Cid}
  {x x' : Client} {sent : List Bytes}

/-- What a step of the room does to the queue. -/
theorem backlog_of_step (hs : ChatStep verbose L s a s') :
    s'.backlog = s.backlog ∨ ∃ b, queueAct L s.backlog b = some s'.backlog := by
  cases hs with
  | addListen hc hr hq => exact .inr ⟨_, hq⟩
  | readMsg hc hr hq => exact .inr ⟨_, hq⟩
  | appendStep hc hr hq => exact .inr ⟨_, hq⟩
  | send hc hl hw hq => exact .inr ⟨_, hq⟩
  | listens hl hq => exact .inr ⟨_, hq⟩
  | readerDel hd => exact .inl (runDel_frame hd).1
  | writerDel hd => exact .inl (runDel_frame hd).1
  | del hd => exact .inl (runDel_frame hd).1
  | _ => exact .inl rfl

/-- **Simulation**: the room runs its queue. -/
theorem backlog_simulation : Machine.Simulation (chatRun verbose L) (queueRun L) (fun _ => True)
    (fun _ _ => True) (fun _ _ => True) ChatroomState.backlog where
  step := by
    intro s a s' _ _ hn
    obtain ⟨-, hnone, hs⟩ := chatStep_of_next hn
    refine ⟨trivial, ?_⟩
    rcases backlog_of_step hs with heq | ⟨b, hb⟩
    · exact .inl heq
    · refine .inr ⟨b, trivial, ?_⟩
      show queueNext L s.backlog b = some s'.backlog
      rw [queueNext, hnone]
      exact hb

theorem backlog_path (h : (chatRun verbose L).Path (fun _ _ => True) s s') :
    (queueRun L).Path (fun _ _ => True) s.backlog s'.backlog :=
  (backlog_simulation.path h trivial).2

/-- The next call of `Append` has not begun. -/
def NextFresh (s : ChatroomState) : Prop := ∀ t, s.nextCall ≤ t → s.backlog.calls t = none

theorem NextFresh.step (h : NextFresh s) (hs : ChatStep verbose L s a s') : NextFresh s' := by
  cases hs with
  | addListen hc hr hq => exact fun t ht => none_of_act hq (h t ht) (by simp)
  | readMsg hc hr hq =>
    intro t ht
    have hlt : s.nextCall < t := ht
    refine none_of_act hq (h t (Nat.le_of_lt hlt)) fun m heq => ?_
    obtain ⟨rfl, -⟩ := QueueAction.append.inj heq
    exact Nat.lt_irrefl _ hlt
  | appendStep hc hr hq => exact fun t ht => none_of_act hq (h t ht) (by simp)
  | send hc hl hw hq => exact fun t ht => none_of_act hq (h t ht) (by simp)
  | listens hl hq => exact fun t ht => none_of_act hq (h t ht) (by simp)
  | readerDel hd => rw [NextFresh, (runDel_frame hd).1, (runDel_frame hd).2.2.1]; exact h
  | writerDel hd => rw [NextFresh, (runDel_frame hd).1, (runDel_frame hd).2.2.1]; exact h
  | del hd => rw [NextFresh, (runDel_frame hd).1, (runDel_frame hd).2.2.1]; exact h
  | _ => exact h

theorem nextFresh_of_reaches {ok : ChatroomState → ChatroomAction → Prop}
    (h : (chatRun verbose L).Reaches ok s) : NextFresh s := by
  refine h.invariant (I := NextFresh) (fun t _ => rfl) ?_
  intro s a s' hI _ hn
  exact hI.step (chatStep_of_next hn).2.2

/-- Call `t` of `Append` by client `c` has returned, or `c` is still in it. -/
def Appending (c : Cid) (t : Tid) (s : ChatroomState) : Prop :=
  (∃ d, s.backlog.calls t = some d ∧ d.pc = .returned) ∨
    ∃ x, s.conns c = some x ∧ x.reader = .append t

namespace Appending

variable {t : Tid}

theorem returned {s : ChatroomState} (h : (s.backlog.calls t).map Call.pc = some .returned) :
    Appending c t s := by
  obtain ⟨d, hd, hret⟩ := Option.map_eq_some_iff.mp h
  exact .inl ⟨d, hd, hret⟩

/-- A step of one client. -/
theorem set {d : Cid} (hx : s.conns c = some x) (hr : x.reader = .append t) {x₀ x₁ : Client}
    (hd : s.conns d = some x₀) (hconns : s'.conns = Function.update s.conns d (some x₁))
    (hkeep : x₀.reader = .append t → x₁.reader = .append t) : Appending c t s' := by
  right
  rw [hconns, Function.update_apply]
  split
  · next heq =>
    subst heq
    obtain rfl := Option.some.inj (hd.symm.trans hx)
    exact ⟨x₁, rfl, hkeep hr⟩
  · exact ⟨x, hx, hr⟩

theorem del {T : Thread} (hd : runDel verbose s T = some s') (hx : s.conns c = some x)
    (hr : x.reader = .append t) : Appending c t s' := by
  have hsome := runDel_isSome hd c
  rw [hx] at hsome
  obtain ⟨x', hx'⟩ := Option.isSome_iff_exists.mp hsome
  obtain ⟨x₀, hx₀, hm⟩ := runDel_conn hd hx'
  obtain rfl := Option.some.inj (hx.symm.trans hx₀)
  rcases hm.reader with heq | ⟨p, p', hp, -⟩
  · exact .inr ⟨x', hx', heq.trans hr⟩
  · rw [hr] at hp
    cases hp

/-- **Step lemma**. -/
theorem step (h : Appending c t s) (hs : ChatStep verbose L s a s') : Appending c t s' := by
  rcases h with ⟨d, hd, hret⟩ | ⟨x, hx, hr⟩
  · rcases backlog_of_step hs with heq | ⟨b, hb⟩
    · exact .inl ⟨d, by rw [heq]; exact hd, hret⟩
    · exact .inl ⟨d, returned_of_act hb hd hret, hret⟩
  · cases hs with
    | @connect d hc =>
      refine .inr ⟨x, ?_, hr⟩
      rw [conns_setConn, if_neg, hx]
      rintro rfl
      rw [hc] at hx
      cases hx
    | addInc hc hr' => exact .set hx hr hc rfl fun h => by rw [hr'] at h; cases h
    | addLock hc hr' hfree => exact .set hx hr hc rfl fun h => by rw [hr'] at h; cases h
    | addInsert hc hr' => exact .set hx hr hc rfl fun h => by rw [hr'] at h; cases h
    | addUnlock hc hr' => exact .set hx hr hc rfl fun h => by rw [hr'] at h; cases h
    | addWatcher hc hr' => exact .set hx hr hc rfl fun h => by rw [hr'] at h; cases h
    | addWriter hc hr' => exact .set hx hr hc rfl fun h => by rw [hr'] at h; cases h
    | addListen hc hr' hq => exact .set hx hr hc rfl fun h => by rw [hr'] at h; cases h
    | addCount hc hr' => exact .set hx hr hc rfl fun h => by rw [hr'] at h; cases h
    | readFails hc hr' => exact .set hx hr hc rfl fun h => by rw [hr'] at h; cases h
    | readMsg hc hr' hq => exact .set hx hr hc rfl fun h => by rw [hr'] at h; cases h
    | readerCloses hc hr' hstep => exact .set hx hr hc rfl fun h => by rw [hr'] at h; cases h
    | @appendReturns d x' i t' hc hr' hret =>
      by_cases heq : d = c
      · subst heq
        obtain rfl := Option.some.inj (hc.symm.trans hx)
        obtain rfl : t' = t := by
          rw [hr'] at hr
          exact ReaderPc.append.inj hr
        exact .returned hret
      · refine .inr ⟨x, ?_, hr⟩
        rw [conns_setConn, if_neg (Ne.symm heq), hx]
    | watcherWait hc hw hcl => exact .set hx hr hc rfl fun h => h
    | watcherQuit hc hw => exact .set hx hr hc rfl fun h => h
    | writerEnds hc hw hl => exact .set hx hr hc rfl fun h => h
    | writeOk hc hw => exact .set hx hr hc rfl fun h => h
    | writeFails hc hw => exact .set hx hr hc rfl fun h => h
    | writerCloses hc hw hstep => exact .set hx hr hc rfl fun h => h
    | send hc hl hw hq => exact .set hx hr hc rfl fun h => h
    | readerDel hd => exact .del hd hx hr
    | writerDel hd => exact .del hd hx hr
    | del hd => exact .del hd hx hr
    | _ => exact .inr ⟨x, hx, hr⟩

end Appending

theorem appending_of_path {ok : ChatroomState → ChatroomAction → Prop} {t : Tid}
    (hp : (chatRun verbose L).Path ok s s') (hc : s.conns c = some x) (hr : x.reader = .append t) :
    Appending c t s' := by
  refine hp.invariant (I := Appending c t) ?_ (.inr ⟨x, hc, hr⟩)
  intro s a s' hI _ hn
  exact hI.step (chatStep_of_next hn).2.2

/-! ## From the listener to the connection -/

/-- What has been written to a client, against the messages its listener has sent. -/
def WriterFacts (sent : List Bytes) (x : Client) : Prop :=
  match x.writer with
  | .notSpawned => x.written = sent
  | .range => x.written = sent
  | .write m => x.written ++ [m] = sent
  | .del _ => x.written <+: sent
  | .close _ => x.written <+: sent
  | .returned => x.written <+: sent

theorem WriterFacts.written (h : WriterFacts sent x) : x.written <+: sent := by
  unfold WriterFacts at h
  split at h
  · exact h ▸ List.prefix_refl _
  · exact h ▸ List.prefix_refl _
  · rw [← h]
    exact List.prefix_append _ _
  · exact h
  · exact h
  · exact h

def Written (s : ChatroomState) : Prop :=
  ∀ c, (s.conns c = none → s.backlog.messages c = []) ∧
    ∀ x, s.conns c = some x → WriterFacts (s.backlog.messages c) x

namespace Written

theorem init : Written ChatroomState.init := fun _ => ⟨fun _ => rfl, fun _ h => by cases h⟩

/-- A step of client `c`, which may come with a message. -/
theorem set (h : Written s)
    (hmsg : ∀ d, d ≠ c → s'.backlog.messages d = s.backlog.messages d)
    (hconns : s'.conns = Function.update s.conns c (some x'))
    (hx : WriterFacts (s'.backlog.messages c) x') : Written s' := by
  intro d
  rw [hconns, Function.update_apply]
  split
  · next heq =>
    subst heq
    refine ⟨by simp, fun x hx' => ?_⟩
    obtain rfl := Option.some.inj hx'
    exact hx
  · next hne =>
    rw [hmsg d hne]
    exact h d

/-- A step that neither sends nor writes. -/
theorem keep (h : Written s) (hmsg : ∀ d, s'.backlog.messages d = s.backlog.messages d)
    (hc : s.conns c = some x) (hconns : s'.conns = Function.update s.conns c (some x'))
    (hw : x'.writer = x.writer) (hwritten : x'.written = x.written) : Written s' := by
  refine h.set (fun d _ => hmsg d) hconns ?_
  have hx := (h c).2 x hc
  rw [hmsg, WriterFacts, hw, hwritten]
  exact hx

theorem same (h : Written s) (hmsg : ∀ d, s'.backlog.messages d = s.backlog.messages d)
    (hconns : s'.conns = s.conns) : Written s' := by
  intro d
  rw [hmsg, hconns]
  exact h d

theorem del {T : Thread} (h : Written s) (hd : runDel verbose s T = some s') : Written s' := by
  intro c
  rw [(runDel_frame hd).1]
  refine ⟨fun hnone => (h c).1 ?_, fun x' hc => ?_⟩
  · have hsome := runDel_isSome hd c
    rw [hnone] at hsome
    exact Option.isNone_iff_eq_none.mp (by simpa using hsome.symm)
  · obtain ⟨x, hx, hm⟩ := runDel_conn hd hc
    have hfacts := (h c).2 x hx
    rcases hm.writer with heq | ⟨p, p', hp, hp'⟩
    · rw [WriterFacts, heq, hm.written]
      exact hfacts
    · have hpre := hfacts.written
      rw [WriterFacts, hp', hm.written]
      cases p' <;> exact hpre

/-- **Step lemma**. -/
theorem step (h : Written s) (hsp : Spawned s) (hs : ChatStep verbose L s a s') : Written s' := by
  cases hs with
  | @connect c hc =>
    refine h.set (fun _ _ => rfl) rfl ?_
    show [] = s.backlog.messages c
    exact ((h c).1 hc).symm
  | addInc hc hr => exact h.keep (fun _ => rfl) hc rfl rfl rfl
  | addLock hc hr hfree => exact h.keep (fun _ => rfl) hc rfl rfl rfl
  | addInsert hc hr => exact h.keep (fun _ => rfl) hc rfl rfl rfl
  | addUnlock hc hr => exact h.keep (fun _ => rfl) hc rfl rfl rfl
  | addWatcher hc hr => exact h.keep (fun _ => rfl) hc rfl rfl rfl
  | @addWriter c x i hc hr =>
    refine h.set (fun _ _ => rfl) rfl ?_
    have hx := (h c).2 x hc
    rw [WriterFacts, hsp c x hc (by rw [hr]; rfl)] at hx
    exact hx
  | addListen hc hr hq => exact h.keep (messages_of_act hq (by simp)) hc rfl rfl rfl
  | addCount hc hr => exact h.keep (fun _ => rfl) hc rfl rfl rfl
  | readFails hc hr => exact h.keep (fun _ => rfl) hc rfl rfl rfl
  | readMsg hc hr hq => exact h.keep (messages_of_act hq (by simp)) hc rfl rfl rfl
  | appendStep hc hr hq => exact h.same (messages_of_act hq (by simp)) rfl
  | appendReturns hc hr hret => exact h.keep (fun _ => rfl) hc rfl rfl rfl
  | readerCloses hc hr hstep => exact h.keep (fun _ => rfl) hc rfl rfl rfl
  | watcherWait hc hw hcl => exact h.keep (fun _ => rfl) hc rfl rfl rfl
  | watcherQuit hc hw => exact h.keep (fun _ => rfl) hc rfl rfl rfl
  | @writerEnds c x ok hc hw hl =>
    exact h.set (fun _ _ => rfl) rfl ((h c).2 x hc).written
  | @writeOk c x m hc hw =>
    refine h.set (fun _ _ => rfl) rfl ?_
    have hx := (h c).2 x hc
    rw [WriterFacts, hw] at hx
    exact hx
  | @writeFails c x m hc hw =>
    exact h.set (fun _ _ => rfl) rfl ((h c).2 x hc).written
  | @writerCloses c x ok p p' closed hc hw hstep =>
    have hpre := ((h c).2 x hc).written
    refine h.set (fun _ _ => rfl) rfl ?_
    cases p' <;> exact hpre
  | @send c x e m q hc hl hw hq =>
    refine h.set (fun d hne => ?_) rfl ?_
    · exact (messages_of_send hq hl d).trans (if_neg hne)
    · have hx := (h c).2 x hc
      rw [WriterFacts, hw] at hx
      show x.written ++ [m] = q.messages c
      rw [messages_of_send hq hl, if_pos rfl, hx]
  | listens hl hq => exact h.same (messages_of_listener hq hl) rfl
  | readerDel hd => exact h.del hd
  | writerDel hd => exact h.del hd
  | del hd => exact h.del hd
  | _ => exact h

end Written

theorem written_of_reaches {ok : ChatroomState → ChatroomAction → Prop}
    (h : (chatRun verbose L).Reaches ok s) : Written s := by
  refine h.invariant_of (I := Written) (J := Spawned) (fun _ => spawned_of_reaches) .init ?_
  intro s a s' hsp _ hI _ hn
  exact hI.step hsp (chatStep_of_next hn).2.2

end Room

/-- What the room promises about its messages.  Runs are those of the queue with any number of calls
and listeners; `in_room` says that the room's runs are among them. -/
structure TotalOrder (verbose : Bool) (L : Limits) : Prop where
  /-- A listener sends the messages of consecutive entries, from the one that `q.oldest` held when it
  read it. -/
  segment : ∀ {s s₁ s₂ : QueueState} {l : Lid} {quit : Bool} {x y : Listener},
    (queueRun L).Reachable s → s.listeners l = some x → x.pc = .start →
    (queueRun L).next s (.listener l quit) = some s₁ →
    (queueRun L).Path (fun _ _ => True) s₁ s₂ → s₂.listeners l = some y →
    s₂.SendsFrom s.q.oldest y.sent
  /-- Before that it has sent nothing. -/
  silent : ∀ {s : QueueState} {l : Lid} {x : Listener}, (queueRun L).Reachable s →
    s.listeners l = some x → x.pc = .start → x.sent = []
  /-- It never finds a nil message. -/
  not_nil : ∀ {s : QueueState}, (queueRun L).Reachable s → s.panic ≠ some .nilInQueue
  /-- `msg(e_i)` is the message of the call that filled `e_i`. -/
  filled : ∀ {s : QueueState} {t : Tid} {c : Call} {i : ℕ} {e : Addr}, (queueRun L).Reachable s →
    s.calls t = some c → s.Owns t i → s.IsEntry i e → (s.q.heap e).msg ≠ none →
    (s.q.heap e).msg = some c.msg
  /-- A call that has returned before another begins comes first. -/
  real_time : ∀ {s s' : QueueState} {t t' : Tid} {c : Call} {i j : ℕ}, (queueRun L).Reachable s →
    (queueRun L).Path (fun _ _ => True) s s' → s.calls t = some c → c.pc = .returned →
    s.calls t' = none → s'.Owns t i → s'.Owns t' j → i < j
  /-- Two listeners that both deliver two messages deliver them in the same order. -/
  same_order : ∀ {s : QueueState} {l l' : Lid} {x y : Listener} {r r' : Addr × Bytes},
    (queueRun L).Reachable s → s.listeners l = some x → s.listeners l' = some y →
    Before r r' x.sent → r ∈ y.sent → r' ∈ y.sent → Before r r' y.sent
  in_room : ∀ {s s' : ChatroomState}, (chatRun verbose L).Path (fun _ _ => True) s s' →
    (queueRun L).Path (fun _ _ => True) s.backlog s'.backlog
  /-- When a client's reader reads, every call of `Append` it has made has returned, and the one it
  makes next has not begun. -/
  one_at_a_time : ∀ {s s' : ChatroomState} {c : Cid} {x x' : Client} {t : Tid},
    (chatRun verbose L).Reachable s → s.conns c = some x → x.reader = .append t →
    (chatRun verbose L).Path (fun _ _ => True) s s' → s'.conns c = some x' → x'.reader = .read →
    (∃ d, s'.backlog.calls t = some d ∧ d.pc = .returned) ∧ s'.backlog.calls s'.nextCall = none
  /-- The writer writes a prefix of what the listener sends. -/
  written : ∀ {s : ChatroomState} {c : Cid} {x : Client}, (chatRun verbose L).Reachable s →
    s.conns c = some x → x.written <+: s.backlog.messages c

/-- **Total order**: in every room, under every interleaving. -/
theorem total_order_delivery (verbose : Bool) (L : Limits) : TotalOrder verbose L where
  segment := fun hr hx hpc hn hp hy => sendsFrom_of_path hr hx hpc hn hp hy
  silent := by
    intro s l x hr hx hpc
    have hfacts := (delivery_of_reaches hr l x hx).pc
    rw [hpc] at hfacts
    exact hfacts
  not_nil := by
    intro s hr hp
    cases panic_of_reaches hr hp
  filled := by
    intro s t c i e hr hc ho he hne
    have hmsg := (shape_of_reaches hr).msg i t c e ho hc he
    split at hmsg
    · exact hmsg
    · exact absurd hmsg hne
  real_time := fun hr hp hc hret ht' hi hj =>
    owns_lt_of_returned (shape_of_reaches hr) hp hc hret ht' hi hj
  same_order := fun hr hx hy hxr hr₁ hr₂ =>
    before_of_before (shape_of_reaches hr) (delivery_of_reaches hr) hx hy hxr hr₁ hr₂
  in_room := backlog_path
  one_at_a_time := by
    intro s s' c x x' t hr hc happ hp hc' hread
    refine ⟨?_, nextFresh_of_reaches (hr.path hp) _ (Nat.le_refl _)⟩
    rcases appending_of_path hp hc happ with hret | ⟨y, hy, hyr⟩
    · exact hret
    · obtain rfl := Option.some.inj (hc'.symm.trans hy)
      rw [hread] at hyr
      cases hyr
  written := fun hr hc => ((written_of_reaches hr _).2 _ hc).written

end WebsocketHub
