import WebsocketHub.QueueDelivery
import WebsocketHub.ChatroomStep

/-!
# WebsocketHub.ChatroomOrphan — writers that wait for nobody

`msgs` has one sender, the listener, and one receiver, the writer.  A listener that is out of sync
closes the channel; one that takes the `quit` case of its select leaves it open.  A writer that ranges
over the channel then waits for ever (`Orphan.path`).  This comes of the steps that `leavesLast` excludes,
and of no other: a listener that quits while the writer is in its loop.
-/

namespace WebsocketHub

open ChatroomState QueueState

section Defs

/-- The writer of `c` waits to receive, its listener has returned, and `msgs` is open. -/
def Orphan (s : ChatroomState) (c : Cid) : Prop :=
  (s.backlog.listeners c).map Listener.pc = some .quit ∧
    ∃ x, s.conns c = some x ∧ x.writer = .range

def ListenerPc.selects : ListenerPc → Bool
  | .select _ _ => true
  | _ => false

/-- The writer is in its loop: it waits for a message, or writes one and will be back if that succeeds. -/
def WriterPc.inLoop : WriterPc → Bool
  | .range => true
  | .write _ => true
  | _ => false

/-- A listener takes the `quit` case of its select only once the writer of its client has left its loop. -/
def leavesLast (s : ChatroomState) : ChatroomAction → Bool
  | .listener c true =>
    !(s.backlog.listeners c).any (·.pc.selects) || (s.conns c).all fun x => !x.writer.inLoop
  | _ => true

/-- The writer of `c` is in its loop, and its listener has quit. -/
def Forsaken (s : ChatroomState) (c : Cid) : Prop :=
  (s.backlog.listeners c).map Listener.pc = some .quit ∧
    ∃ x, s.conns c = some x ∧ x.writer.inLoop = true

/-- `cr.backlog.Listen(msgs, quit)` has been called. -/
def ReaderPc.listened : ReaderPc → Bool
  | .add .count => true
  | .add _ => false
  | _ => true

/-- A client has a listener when its reader has called `Listen`. -/
def Listens (s : ChatroomState) : Prop :=
  ∀ c, s.backlog.listeners c ≠ none → ∃ x, s.conns c = some x ∧ x.reader.listened = true

end Defs

variable {verbose : Bool} {L : Limits} {s s' m : ChatroomState} {a : ChatroomAction} {c : Cid}
  {x x' : Client} {T : Thread}

/-! ## The listeners of the queue -/

section Queue

variable {q q' : QueueState} {b : QueueAction}

/-- A listener comes into being with `Listen`. -/
theorem listeners_none_of_act (h : queueAct L q b = some q') (hb : b ≠ .listen c)
    (hc : q.listeners c = none) : q'.listeners c = none := by
  cases queueStep_of_act h with
  | @listen k hk =>
    rw [setListener_listeners, if_neg, hc]
    rintro rfl
    exact hb rfl
  | @listener k quit y pc hk hy =>
    rw [setListener_listeners, if_neg, hc]
    rintro rfl
    rw [hc] at hk
    cases hk
  | _ => exact hc

/-- A listener returns without closing its channel through the `quit` case of its select. -/
theorem quit_of_act (h : queueAct L q b = some q')
    (hq : (q'.listeners c).map Listener.pc = some .quit) :
    (q.listeners c).map Listener.pc = some .quit ∨ b = .listener c true ∧
      ∃ e m, (q.listeners c).map Listener.pc = some (.select e m) := by
  cases queueStep_of_act h with
  | @listen k hk =>
    rw [setListener_listeners] at hq
    split at hq
    · cases hq
    · exact .inl hq
  | @listener k quit y pc hk hy =>
    rw [setListener_listeners] at hq
    split at hq
    · next heq =>
      subst heq
      rw [Option.map_some, moveTo_pc] at hq
      obtain rfl := Option.some.inj hq
      right
      rw [hk]
      unfold listenerStep at hy
      split at hy
      case h_6 e m hp =>
        cases quit
        · simp at hy
        · exact ⟨rfl, e, m, by rw [Option.map_some, hp]⟩
      all_goals grind
    · exact .inl hq
  | _ => exact .inl hq

/-- A listener that has quit takes no step. -/
theorem quit_stays_of_act (h : queueAct L q b = some q')
    (hq : (q.listeners c).map Listener.pc = some .quit) :
    (q'.listeners c).map Listener.pc = some .quit := by
  obtain ⟨y, hy, hpc⟩ := Option.map_eq_some_iff.mp hq
  rcases listener_of_step (queueStep_of_act h) hy with hsame | ⟨quit, pc, -, hstep, -, -⟩
  · rw [hsame, Option.map_some, hpc]
  · rw [hpc] at hstep
    cases hstep

end Queue

/-! ## Clients listen once -/

namespace Listens

/-- A step of a client that has called `Listen` already, or leaves its listener alone. -/
theorem set (h : Listens s) (hc : s.conns c = some x)
    (hconns : s'.conns = Function.update s.conns c (some x'))
    (hq : ∀ d, s.backlog.listeners d = none → s'.backlog.listeners d = none)
    (hr : x.reader.listened = true → x'.reader.listened = true) : Listens s' := by
  intro d hd
  obtain ⟨y, hy, hl⟩ := h d fun hnone => hd (hq d hnone)
  rw [hconns, Function.update_apply]
  split
  · next heq =>
    subst heq
    obtain rfl := Option.some.inj (hc.symm.trans hy)
    exact ⟨x', rfl, hr hl⟩
  · exact ⟨y, hy, hl⟩

/-- A step that changes no client. -/
theorem same (h : Listens s) (hconns : s'.conns = s.conns)
    (hq : ∀ d, s.backlog.listeners d = none → s'.backlog.listeners d = none) : Listens s' := by
  intro d hd
  rw [hconns]
  exact h d fun hnone => hd (hq d hnone)

theorem del (h : Listens s) (hd : runDel verbose s T = some s') : Listens s' := by
  intro c hl
  rw [(runDel_frame hd).1] at hl
  obtain ⟨x, hx, hr⟩ := h c hl
  obtain ⟨x', hx'⟩ := Option.isSome_iff_exists.mp ((runDel_isSome hd c).trans (by rw [hx]; rfl))
  obtain ⟨y, hy, hm⟩ := runDel_conn hd hx'
  obtain rfl := Option.some.inj (hx.symm.trans hy)
  refine ⟨x', hx', ?_⟩
  rcases hm.reader with heq | ⟨p, p', -, hp'⟩
  · rw [heq]
    exact hr
  · rw [hp']
    cases p' <;> rfl

/-- **Step lemma**. -/
theorem step (h : Listens s) (hs : ChatStep verbose L s a s') : Listens s' := by
  have hkeep : ∀ d, s.backlog.listeners d = none → s.backlog.listeners d = none := fun _ h => h
  cases hs with
  | @connect c hc =>
    intro d hd
    obtain ⟨y, hy, hl⟩ := h d hd
    refine ⟨y, ?_, hl⟩
    rw [conns_setConn, if_neg, hy]
    rintro rfl
    rw [hc] at hy
    cases hy
  | @addListen c x i q hc hr hq =>
    intro d hd
    rw [conns_setConn]
    split
    · refine ⟨_, rfl, ?_⟩
      cases verbose <;> rfl
    · next hne =>
      have hd' : s.backlog.listeners d ≠ none := fun hnone =>
        hd (listeners_none_of_act hq (by simpa using Ne.symm hne) hnone)
      exact h d hd'
  | addInc hc hr => exact h.set hc rfl hkeep (by simp [hr, ReaderPc.listened])
  | addLock hc hr hfree => exact h.set hc rfl hkeep (by simp [hr, ReaderPc.listened])
  | addInsert hc hr => exact h.set hc rfl hkeep (by simp [hr, ReaderPc.listened])
  | addUnlock hc hr => exact h.set hc rfl hkeep (by simp [hr, ReaderPc.listened])
  | addWatcher hc hr => exact h.set hc rfl hkeep (by simp [hr, ReaderPc.listened])
  | addWriter hc hr => exact h.set hc rfl hkeep (by simp [hr, ReaderPc.listened])
  | addCount hc hr => exact h.set hc rfl hkeep fun _ => rfl
  | readFails hc hr => exact h.set hc rfl hkeep fun _ => rfl
  | readMsg hc hr hq =>
    exact h.set hc rfl (fun d hd => listeners_none_of_act hq (by simp) hd) fun _ => rfl
  | appendReturns hc hr hret => exact h.set hc rfl hkeep fun _ => rfl
  | @readerCloses c x i p p' closed hc hr hstep =>
    refine h.set hc rfl hkeep fun _ => ?_
    cases p' <;> rfl
  | watcherWait hc hw hcl => exact h.set hc rfl hkeep fun h => h
  | watcherQuit hc hw => exact h.set hc rfl hkeep fun h => h
  | writerEnds hc hw hl => exact h.set hc rfl hkeep fun h => h
  | writeOk hc hw => exact h.set hc rfl hkeep fun h => h
  | writeFails hc hw => exact h.set hc rfl hkeep fun h => h
  | writerCloses hc hw hstep => exact h.set hc rfl hkeep fun h => h
  | send hc hl hw hq =>
    exact h.set hc rfl (fun d hd => listeners_none_of_act hq (by simp) hd) fun h => h
  | appendStep hc hr hq =>
    exact h.same rfl fun d hd => listeners_none_of_act hq (by simp) hd
  | listens hl hq => exact h.same rfl fun d hd => listeners_none_of_act hq (by simp) hd
  | readerDel hd => exact h.del hd
  | writerDel hd => exact h.del hd
  | del hd => exact h.del hd
  | _ => exact h.same rfl hkeep

end Listens

theorem listens_of_reaches {ok : ChatroomState → ChatroomAction → Prop}
    (h : (chatRun verbose L).Reaches ok s) : Listens s := by
  refine h.invariant (I := Listens) (fun c hl => absurd rfl hl) ?_
  intro s a s' hI _ hn
  exact hI.step (chatStep_of_next hn).2.2

/-! ## Writers that are left in their loop -/

/-- A step after which the listener of `c` has quit only if it had before. -/
theorem Forsaken.back (h : Forsaken s' c)
    (hq : (s'.backlog.listeners c).map Listener.pc = some .quit →
      (s.backlog.listeners c).map Listener.pc = some .quit)
    (hw : ∀ x', s'.conns c = some x' → x'.writer.inLoop = true →
      ∃ x, s.conns c = some x ∧ x.writer.inLoop = true) : Forsaken s c := by
  obtain ⟨hl, x', hx', hr⟩ := h
  exact ⟨hq hl, hw x' hx' hr⟩

/-- A step of client `d` that does not bring its writer back to the loop. -/
theorem Forsaken.set (h : Forsaken s' c) {d : Cid} (hd : s.conns d = some x)
    (hconns : s'.conns = Function.update s.conns d (some x'))
    (hq : (s'.backlog.listeners c).map Listener.pc = some .quit →
      (s.backlog.listeners c).map Listener.pc = some .quit)
    (hw : x'.writer.inLoop = true → x.writer.inLoop = true) : Forsaken s c := by
  refine h.back hq fun y' hy' hr => ?_
  rw [hconns, Function.update_apply] at hy'
  split at hy'
  · next heq =>
    subst heq
    obtain rfl := Option.some.inj hy'
    exact ⟨x, hd, hw hr⟩
  · exact ⟨y', hy', hr⟩

theorem of_all_eq_false {α : Type*} {o : Option α} {p : α → Bool} (h : o.all p = false) :
    ∃ x, o = some x ∧ p x = false := by
  cases o with
  | none => cases h
  | some x => exact ⟨x, rfl, h⟩

theorem ListenerPc.exists_of_selects {p : ListenerPc} (h : p.selects = true) : ∃ e m, p = .select e m := by
  unfold ListenerPc.selects at h
  split at h
  · exact ⟨_, _, rfl⟩
  · cases h

/-- A writer that is left in its loop is an orphan, or will be as soon as its write succeeds. -/
theorem Forsaken.orphan (h : Forsaken s c) (hp : s.panic = none) (hlive : s.backlog.panic = none) :
    Orphan s c ∨ ∃ s', (chatRun verbose L).next s (.writer c true) = some s' ∧ Orphan s' c := by
  obtain ⟨hl, x, hx, hin⟩ := h
  cases hw : x.writer with
  | range => exact .inl ⟨hl, x, hx, hw⟩
  | write msg =>
    refine .inr ⟨s.setConn c { x with writer := .range, written := x.written ++ [msg] }, ?_, hl, _,
      (conns_setConn ..).trans (if_pos rfl), rfl⟩
    show chatNext verbose L s (.writer c true) = _
    simp only [chatNext, hp, hlive, chatAct, hx, Option.bind_some, writerStep, hw, if_true]
  | _ =>
    rw [hw] at hin
    cases hin

/-! ## Orphans -/

namespace Orphan

/-- A step of client `d` that leaves a waiting writer where it is. -/
theorem keep (h : Orphan s c) {d : Cid} (hd : s.conns d = some x)
    (hconns : s'.conns = Function.update s.conns d (some x'))
    (hq : (s.backlog.listeners c).map Listener.pc = some .quit →
      (s'.backlog.listeners c).map Listener.pc = some .quit)
    (hw : c = d → x.writer = .range → x'.writer = .range) : Orphan s' c := by
  obtain ⟨hl, y, hy, hr⟩ := h
  refine ⟨hq hl, ?_⟩
  rw [hconns, Function.update_apply]
  split
  · next heq =>
    subst heq
    obtain rfl := Option.some.inj (hd.symm.trans hy)
    exact ⟨x', rfl, hw rfl hr⟩
  · exact ⟨y, hy, hr⟩

theorem del (h : Orphan s c) (hd : runDel verbose s T = some s') : Orphan s' c := by
  obtain ⟨hl, y, hy, hr⟩ := h
  refine ⟨(runDel_frame hd).1 ▸ hl, ?_⟩
  obtain ⟨y', hy'⟩ := Option.isSome_iff_exists.mp ((runDel_isSome hd c).trans (by rw [hy]; rfl))
  obtain ⟨y₀, hy₀, hm⟩ := runDel_conn hd hy'
  obtain rfl := Option.some.inj (hy.symm.trans hy₀)
  refine ⟨y', hy', ?_⟩
  rcases hm.writer with heq | ⟨p, p', hp, -⟩
  · rw [heq, hr]
  · rw [hr] at hp
    cases hp

/-- **Step lemma**: an orphan stays an orphan. -/
theorem step (h : Orphan s c) (hs : ChatStep verbose L s a s') : Orphan s' c := by
  have hl := h.1
  cases hs with
  | @connect d hd =>
    obtain ⟨-, y, hy, hr⟩ := h
    refine ⟨hl, y, ?_, hr⟩
    rw [conns_setConn, if_neg, hy]
    rintro rfl
    rw [hd] at hy
    cases hy
  | addInc hd hr => exact h.keep hd rfl (fun hq => hq) fun _ h => h
  | addLock hd hr hfree => exact h.keep hd rfl (fun hq => hq) fun _ h => h
  | addInsert hd hr => exact h.keep hd rfl (fun hq => hq) fun _ h => h
  | addUnlock hd hr => exact h.keep hd rfl (fun hq => hq) fun _ h => h
  | addWatcher hd hr => exact h.keep hd rfl (fun hq => hq) fun _ h => h
  | addWriter hd hr => exact h.keep hd rfl (fun hq => hq) fun _ _ => rfl
  | addListen hd hr hq => exact h.keep hd rfl (quit_stays_of_act hq) fun _ h => h
  | addCount hd hr => exact h.keep hd rfl (fun hq => hq) fun _ h => h
  | readFails hd hr => exact h.keep hd rfl (fun hq => hq) fun _ h => h
  | readMsg hd hr hq => exact h.keep hd rfl (quit_stays_of_act hq) fun _ h => h
  | appendReturns hd hr hret => exact h.keep hd rfl (fun hq => hq) fun _ h => h
  | readerCloses hd hr hstep => exact h.keep hd rfl (fun hq => hq) fun _ h => h
  | watcherWait hd hw hcl => exact h.keep hd rfl (fun hq => hq) fun _ h => h
  | watcherQuit hd hw => exact h.keep hd rfl (fun hq => hq) fun _ h => h
  | writerEnds hd hw hclosed =>
    -- its own channel is open
    refine h.keep hd rfl (fun hq => hq) ?_
    rintro rfl -
    rw [hl] at hclosed
    cases hclosed
  | writeOk hd hw => exact h.keep hd rfl (fun hq => hq) fun _ _ => rfl
  | writeFails hd hw => exact h.keep hd rfl (fun hq => hq) fun _ hr => by simp [hw] at hr
  | writerCloses hd hw hstep => exact h.keep hd rfl (fun hq => hq) fun _ hr => by simp [hw] at hr
  | send hd hsel hw hq =>
    refine h.keep hd rfl (quit_stays_of_act hq) ?_
    rintro rfl -
    rw [hl] at hsel
    cases hsel
  | appendStep hd hr hq => exact ⟨quit_stays_of_act hq hl, h.2⟩
  | listens hsel hq => exact ⟨quit_stays_of_act hq hl, h.2⟩
  | readerDel hd => exact h.del hd
  | writerDel hd => exact h.del hd
  | del hd => exact h.del hd
  | _ => exact ⟨hl, h.2⟩

/-- **For ever**: no run brings a message to an orphan, or closes its channel. -/
theorem path {ok : ChatroomState → ChatroomAction → Prop} (h : Orphan s c)
    (hp : (chatRun verbose L).Path ok s s') : Orphan s' c :=
  hp.invariant (I := fun s => Orphan s c) (fun _ _ _ hI _ hn => hI.step (chatStep_of_next hn).2.2) h

end Orphan

end WebsocketHub
