import WebsocketHub.ChatroomStep

/-!
# WebsocketHub.ChatroomClose — who closes `c.closed`

In the room two goroutines of a client call `c.Close()`: the reader after a read error, and the writer
when it ends, whatever ended it.  A client seen through these two calls (`Client.closing`) is a
state of the machine of `WebsocketHub.Client`, and every step of the room is a step of it or leaves it
as it is: what holds there of calls that check alone holds in every room.
-/

namespace WebsocketHub

open ChatroomState

section Defs

/-- The reader's call of `c.Close()`; `ok` is what it has returned. -/
def ReaderPc.closePc (ok : Bool) : ReaderPc → ClosePc
  | .close p => p
  | .del _ => .returned ok
  | .returned => .returned ok
  | _ => .check

/-- The writer's. -/
def WriterPc.closePc (ok : Bool) : WriterPc → ClosePc
  | .close p => p
  | .returned => .returned ok
  | _ => .check

/-- A client as its two calls of `c.Close()` see it. -/
def Client.closing (x : Client) : CloseState :=
  ⟨x.closed, [x.reader.closePc x.readerClose, x.writer.closePc x.writerClose], none⟩

/-- `checksAlone` for the two calls of a client. -/
def closesAlone (s : ChatroomState) : ChatroomAction → Bool
  | .reader c _ => (s.conns c).all fun x => x.reader ≠ .close .check || x.writer ≠ .close .act
  | .writer c _ => (s.conns c).all fun x => x.writer ≠ .close .check || x.reader ≠ .close .act
  | _ => true

/-- Nothing has been closed twice and nothing will be. -/
structure Closing (s : ChatroomState) : Prop where
  panic : s.panic = none
  clients : ∀ c x, s.conns c = some x → ClosedOnce x.closing

end Defs

variable {verbose : Bool} {L : Limits} {s s' : ChatroomState} {a : ChatroomAction} {c : Cid}
  {x x' : Client} {p p' : ClosePc} {closed : Bool}

theorem closing_makeClient : ClosedOnce makeClient.closing where
  panic := rfl
  acts := by decide
  acts_closed := by decide
  oks := by decide
  fails := by decide

/-- A step of the reader's call is a step of the machine. -/
theorem closeNext_reader (hr : x.reader = .close p)
    (h : closeStep x.closed p = some (.ok (closed, p'))) :
    closeNext x.closing 0 = some
      { x with closed := closed, readerClose := p'.result, reader := .ofClose p' : Client }.closing := by
  have hp : x.reader.closePc x.readerClose = p := by rw [hr, ReaderPc.closePc]
  have hp' : (ReaderPc.ofClose p').closePc p'.result = p' := by cases p' <;> rfl
  simp [closeNext, Client.closing, hp, hp', h]

theorem closeNext_writer (hw : x.writer = .close p)
    (h : closeStep x.closed p = some (.ok (closed, p'))) :
    closeNext x.closing 1 = some
      { x with closed := closed, writerClose := p'.result, writer := .ofClose p' : Client }.closing := by
  have hp : x.writer.closePc x.writerClose = p := by rw [hw, WriterPc.closePc]
  have hp' : (WriterPc.ofClose p').closePc p'.result = p' := by cases p' <;> rfl
  simp [closeNext, Client.closing, hp, hp', h]

/-- The condition is the machine's. -/
theorem checksAlone_reader {i : Option Bytes} (hok : closesAlone s (.reader c i) = true)
    (hc : s.conns c = some x) (hr : x.reader = .close p) : checksAlone x.closing 0 = true := by
  simp only [closesAlone, hc, Option.all_some, Bool.or_eq_true, decide_eq_true_eq] at hok
  have hp : x.reader.closePc x.readerClose = p := by rw [hr, ReaderPc.closePc]
  cases p with
  | check =>
    have hw : x.writer ≠ .close .act := hok.resolve_left fun hne => hne hr
    have hact : x.writer.closePc x.writerClose ≠ .act := by
      intro heq
      unfold WriterPc.closePc at heq
      split at heq
      · next q hq => exact hw (hq.trans (congrArg _ heq))
      · cases heq
      · cases heq
    simp [checksAlone, Client.closing, hp, hact]
  | act => simp [checksAlone, Client.closing, hp]
  | returned ok => simp [checksAlone, Client.closing, hp]

theorem checksAlone_writer {ok : Bool} (hok : closesAlone s (.writer c ok) = true)
    (hc : s.conns c = some x) (hw : x.writer = .close p) : checksAlone x.closing 1 = true := by
  simp only [closesAlone, hc, Option.all_some, Bool.or_eq_true, decide_eq_true_eq] at hok
  have hp : x.writer.closePc x.writerClose = p := by rw [hw, WriterPc.closePc]
  cases p with
  | check =>
    have hr : x.reader ≠ .close .act := hok.resolve_left fun hne => hne hw
    have hact : x.reader.closePc x.readerClose ≠ .act := by
      intro heq
      unfold ReaderPc.closePc at heq
      split at heq
      · next q hq => exact hr (hq.trans (congrArg _ heq))
      · cases heq
      · cases heq
      · cases heq
    simp [checksAlone, Client.closing, hp, hact]
  | act => simp [checksAlone, Client.closing, hp]
  | returned ok => simp [checksAlone, Client.closing, hp]

/-- A call of `c.Close()` that checks alone does not panic. -/
theorem closeStep_no_panic {k : ℕ} {t : CloseState} {e : Panic} (h : ClosedOnce t)
    (hk : t.calls[k]? = some p) (hok : checksAlone t k = true)
    (he : closeStep t.closed p = some (.error e)) : False := by
  have hn : closeNext t k = some { t with panic := some e } := by
    simp [closeNext, h.panic, hk, he]
  have := (h.step hok hn).panic
  cases this

/-- `l_delClient` is no part of the protocol. -/
theorem DelMoves.closing (h : DelMoves x x') : x'.closing = x.closing := by
  have hr : x'.reader.closePc x.readerClose = x.reader.closePc x.readerClose := by
    rcases h.reader with heq | ⟨p, p', hp, hp'⟩
    · rw [heq]
    · rw [hp, hp']
      cases p' <;> rfl
  have hw : x'.writer.closePc x.writerClose = x.writer.closePc x.writerClose := by
    rcases h.writer with heq | ⟨p, p', hp, hp'⟩
    · rw [heq]
    · rw [hp, hp']
      cases p' <;> rfl
  simp only [Client.closing, h.closed, h.readerClose, h.writerClose, hr, hw]

namespace Closing

theorem init : Closing ChatroomState.init where
  panic := rfl
  clients := fun _ _ hc => by cases hc

/-- A step that changes one client. -/
theorem set (h : Closing s) (hp : s'.panic = none)
    (hconns : s'.conns = Function.update s.conns c (some x')) (hx : ClosedOnce x'.closing) :
    Closing s' where
  panic := hp
  clients := by
    intro c₁ x₁ h₁
    rw [hconns, Function.update_apply] at h₁
    split at h₁
    · obtain rfl := Option.some.inj h₁
      exact hx
    · exact h.clients c₁ x₁ h₁

/-- A step that changes one client, but not its calls of `c.Close()`. -/
theorem keep (h : Closing s) (hc : s.conns c = some x) (hp : s'.panic = none)
    (hconns : s'.conns = Function.update s.conns c (some x')) (hx : x'.closing = x.closing) :
    Closing s' :=
  h.set hp hconns (hx ▸ h.clients c x hc)

theorem del {T : Thread} (h : Closing s) (hd : runDel verbose s T = some s') : Closing s' where
  panic := (runDel_frame hd).2.1.trans h.panic
  clients := by
    intro c x' hc
    obtain ⟨x, hx, hm⟩ := runDel_conn hd hc
    rw [hm.closing]
    exact h.clients c x hx

/-- **Step lemma**. -/
theorem step (h : Closing s) (hsp : Spawned s) (hok : closesAlone s a = true)
    (hs : ChatStep verbose L s a s') : Closing s' := by
  have hp := h.panic
  cases hs with
  | connect hc => exact h.set hp rfl closing_makeClient
  | readerCloses hc hr hstep =>
    exact h.set hp rfl ((h.clients _ _ hc).step (checksAlone_reader hok hc hr)
      (closeNext_reader hr hstep))
  | writerCloses hc hw hstep =>
    exact h.set hp rfl ((h.clients _ _ hc).step (checksAlone_writer hok hc hw)
      (closeNext_writer hw hstep))
  | readerClosePanics hc hr he =>
    refine (closeStep_no_panic (h.clients _ _ hc) ?_ (checksAlone_reader hok hc hr) he).elim
    simp [Client.closing, hr, ReaderPc.closePc]
  | writerClosePanics hc hw he =>
    refine (closeStep_no_panic (h.clients _ _ hc) ?_ (checksAlone_writer hok hc hw) he).elim
    simp [Client.closing, hw, WriterPc.closePc]
  | readerDel hd => exact h.del hd
  | writerDel hd => exact h.del hd
  | del hd => exact h.del hd
  | addListen hc hr hq =>
    refine h.keep hc hp rfl ?_
    simp only [Client.closing, hr]
    split <;> rfl
  | addInc hc hr => exact h.keep hc hp rfl (by simp [Client.closing, hr, ReaderPc.closePc])
  | addLock hc hr hfree => exact h.keep hc hp rfl (by simp [Client.closing, hr, ReaderPc.closePc])
  | addInsert hc hr => exact h.keep hc hp rfl (by simp [Client.closing, hr, ReaderPc.closePc])
  | addUnlock hc hr => exact h.keep hc hp rfl (by simp [Client.closing, hr, ReaderPc.closePc])
  | addWatcher hc hr => exact h.keep hc hp rfl (by simp [Client.closing, hr, ReaderPc.closePc])
  | addWriter hc hr =>
    have hw := hsp _ _ hc (by rw [hr]; rfl)
    exact h.keep hc hp rfl (by simp [Client.closing, hr, hw, ReaderPc.closePc, WriterPc.closePc])
  | addCount hc hr => exact h.keep hc hp rfl (by simp [Client.closing, hr, ReaderPc.closePc])
  | readFails hc hr => exact h.keep hc hp rfl (by simp [Client.closing, hr, ReaderPc.closePc])
  | readMsg hc hr hq => exact h.keep hc hp rfl (by simp [Client.closing, hr, ReaderPc.closePc])
  | appendReturns hc hr hret => exact h.keep hc hp rfl (by simp [Client.closing, hr, ReaderPc.closePc])
  | writerEnds hc hw hl => exact h.keep hc hp rfl (by simp [Client.closing, hw, WriterPc.closePc])
  | writeOk hc hw => exact h.keep hc hp rfl (by simp [Client.closing, hw, WriterPc.closePc])
  | writeFails hc hw => exact h.keep hc hp rfl (by simp [Client.closing, hw, WriterPc.closePc])
  | send hc hl hw hq => exact h.keep hc hp rfl (by simp [Client.closing, hw, WriterPc.closePc])
  | watcherWait hc hw hcl => exact h.keep hc hp rfl rfl
  | watcherQuit hc hw => exact h.keep hc hp rfl rfl
  | appendStep hc hr hq => exact ⟨hp, h.clients⟩
  | listens hl hq => exact ⟨hp, h.clients⟩
  | close hk => exact ⟨hp, h.clients⟩
  | rlock hk hfree => exact ⟨hp, h.clients⟩
  | runlock hk => exact ⟨hp, h.clients⟩
  | spawn hk hi => exact ⟨hp, h.clients⟩

end Closing

theorem closing_of_reaches (h : (chatRun verbose L).Reaches (fun s a => closesAlone s a = true) s) :
    Closing s := by
  refine h.invariant_of (I := Closing) (J := Spawned) (fun _ => spawned_of_reaches) .init ?_
  intro s a s' hsp _ hI hok hn
  exact hI.step hsp hok (chatStep_of_next hn).2.2

/-- **A client is closed once**: in every run, of any number of calls of `c.Close()` or of a whole room,
in which a call checks only while no other call on that client stands between its check and its
`close(c.closed)`. -/
theorem closed_at_most_once (n : ℕ) (verbose : Bool) (L : Limits) :
    (∀ s, (closeRun n).Reaches (fun s k => checksAlone s k = true) s → OneCloses s) ∧
    ∀ s, (chatRun verbose L).Reaches (fun s a => closesAlone s a = true) s →
      s.panic = none ∧ ∀ c x, s.conns c = some x → OneCloses x.closing := by
  refine ⟨fun s h => (closedOnce_of_reaches h).one_closes, fun s h => ?_⟩
  have hI := closing_of_reaches h
  exact ⟨hI.panic, fun c x hc => (hI.clients c x hc).one_closes⟩

/-- The reader closes the client before the writer checks. -/
theorem closed_at_most_once_of_write_error : ∃ (s : ChatroomState) (x : Client), s.conns 0 = some x ∧
    x.reader = .del .lock ∧ x.writer = .returned ∧ s.panic = none ∧ OneCloses x.closing := by
  obtain ⟨s, hs, hp⟩ := Machine.exists_of_runIf (chatRun false (backlogOf 100)) closesAlone
    ChatroomState.init (writeErrorSteps ++ [.reader 0 none, .reader 0 none, .writer 0 false])
    (fun s => (s.conns 0).any fun x => x.reader = .del .lock && x.writer = .returned) (by decide)
  obtain ⟨x, hx, hpc⟩ := (Option.any_eq_true _ _).mp hp
  simp only [Bool.and_eq_true, decide_eq_true_eq] at hpc
  obtain ⟨hpanic, hone⟩ := (closed_at_most_once 2 false (backlogOf 100)).2 s hs
  exact ⟨s, x, hx, hpc.1, hpc.2, hpanic, hone 0 x hx⟩

/-- **Closed twice**: after the write error both goroutines check, and both close. -/
theorem closed_twice : ∃ s, (chatRun false (backlogOf 100)).Reachable s ∧
    s.panic = some .closeOfClosedChannel := by
  obtain ⟨s, hs, hp⟩ := Machine.exists_of_run (chatRun false (backlogOf 100)) ChatroomState.init
    (writeErrorSteps ++ [.reader 0 none, .writer 0 false, .reader 0 none, .writer 0 false])
    (fun s => s.panic = some .closeOfClosedChannel) (by decide)
  exact ⟨s, hs, of_decide_eq_true hp⟩

end WebsocketHub
