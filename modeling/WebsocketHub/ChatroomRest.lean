import WebsocketHub.ChatroomAuthors
import WebsocketHub.ChatroomLock
import WebsocketHub.ChatroomWork

/-!
# WebsocketHub.ChatroomRest — a room that is left alone comes to rest

When the server brings nothing more and nothing more is read, the goroutines of a room are done after
finitely many steps, in whatever order they are scheduled (`WebsocketHub.ChatroomWork`).  Then nobody holds
`clientsL` or waits for it, no call is in progress, every client that has not been closed has been written all
that there is, and of one that has been closed there is left what `Remains` says (`AtRest`).
-/

namespace WebsocketHub

open ChatroomState QueueState

section Defs

/-- The loop of the reader has not ended. -/
def ReaderPc.goesOn : ReaderPc → Bool
  | .close (.returned _) => false
  | .del _ => false
  | .returned => false
  | _ => true

/-- The writer has been spawned and has not ended. -/
def WriterPc.goesOn : WriterPc → Bool
  | .notSpawned => false
  | .del .returned => false
  | .close (.returned _) => false
  | .returned => false
  | _ => true

/-- The watcher of the client has been spawned. -/
def ReaderPc.watches : ReaderPc → Bool
  | .add .writer => true
  | p => p.spawned

/-- The call of `Append` that the reader is in. -/
def ReaderPc.call : ReaderPc → Option Tid
  | .append t => some t
  | _ => none

/-- The listener that an action of the queue is about. -/
def QueueAction.listenerOf : QueueAction → Option Lid
  | .listen l => some l
  | .listener l _ => some l
  | _ => none

/-- A client taken by itself. -/
structure SoundClient (x : Client) : Prop where
  reader : x.reader ≠ .del .returned ∧ ∀ ok, x.reader ≠ .close (.returned ok)
  writer : x.writer ≠ .del .returned ∧ ∀ ok, x.writer ≠ .close (.returned ok)
  started : x.writer = .notSpawned → x.reader.spawned = false
  left : x.reader = .returned ∨ x.reader.delPc ≠ none → x.closed = true
  ended : x.writer = .returned → x.closed = true
  watched : x.watcher = .closeQuit ∨ x.quit = true → x.closed = true
  watching : x.watcher = .notSpawned → x.reader.watches = false
  told : x.watcher = .returned → x.quit = true

/-- A client and what it has in the queue. -/
structure Served (q : QueueState) (c : Cid) (x : Client) : Prop where
  call : ∀ t, x.reader.call = some t → q.calls t ≠ none
  listener : x.reader.listened = true ↔ q.listeners c ≠ none
  quits : (q.listeners c).map Listener.pc = some .quit → x.quit = true

/-- Every client of the room is sound. -/
def Staffed (s : ChatroomState) : Prop := ∀ c x, s.conns c = some x → SoundClient x ∧ Served s.backlog c x

/-- Every call of `Append` is some client's. -/
def Called (s : ChatroomState) : Prop := ∀ t d, s.backlog.calls t = some d → ∃ c, Appending c t s

/-- `clientsL` is held for reading by the calls of `chatroom.Close` in their loops. -/
def ReadLocked (s : ChatroomState) : Prop := ∃ R : Finset Kid, R.card = s.clientsL.readers ∧
  ∀ k, k ∈ R ↔ ∃ todo, s.closers k = some (.spawn todo)

/-- The listener waits for the next message, and has handed over all that there is. -/
def CaughtUp (q : QueueState) (y : Listener) : Prop :=
  (∃ e, y.pc = .wait (some e)) ∧ y.cursor.got = q.log.posts.drop y.start

/-- What is left of the two goroutines that deliver to a client. -/
inductive Remains (q : QueueState) (x : Client) (y : Listener) : Prop
  | ended (hl : y.pc = .closed ∨ y.pc = .quit) (hw : x.writer = .returned)
  /-- The listener does not look at `quit` while it waits for a message. -/
  | waits (hl : CaughtUp q y)
  /-- The writer waits for a listener that has quit. -/
  | orphan (hl : y.pc = .quit) (hw : x.writer = .range)

/-- What a room looks like when its goroutines have done all that they can. -/
structure AtRest (s : ChatroomState) : Prop where
  lock : s.clientsL.owner = none ∧ s.clientsL.readers = 0
  closers : ∀ k p, s.closers k = some p → p = .returned
  dels : ∀ d y, s.dels d = some y → y.pc = .returned
  readers : ∀ c x, s.conns c = some x → x.reader = .read ∨ x.reader = .returned
  writers : ∀ c x, s.conns c = some x → x.writer = .range ∨ x.writer = .returned
  appends : s.backlog.Quiescent
  /-- A client that has not been closed is being read from, and has been written all that has been posted
  since its listener has begun, and what was in the backlog then. -/
  delivered : ∀ c x, s.conns c = some x → x.closed = false → x.reader = .read ∧
    ∃ y, s.backlog.listeners c = some y ∧ x.written = s.backlog.log.posts.drop y.start
  /-- The watcher of a client that has been closed has closed `quit`. -/
  closed : ∀ c x, s.conns c = some x → x.closed = true → x.watcher = .returned ∧ x.quit = true ∧
    ∃ y, s.backlog.listeners c = some y ∧ Remains s.backlog x y

end Defs

variable {verbose : Bool} {L : Limits} {s s' m : ChatroomState} {a : ChatroomAction} {c : Cid}
  {x x' : Client} {T : Thread} {q q' : QueueState}

/-! ## Clients by themselves -/

theorem soundClient_makeClient : SoundClient makeClient where
  reader := ⟨nofun, nofun⟩
  writer := ⟨nofun, nofun⟩
  started := fun _ => rfl
  left := by simp [makeClient, ReaderPc.delPc]
  ended := nofun
  watched := by simp [makeClient]
  watching := fun _ => rfl
  told := nofun

/-- What `l_delClient` leaves alone. -/
theorem runDel_quit (h : runDel verbose s T = some s') (c : Cid) :
    (s'.conns c).map (fun x => (x.quit, x.watcher)) = (s.conns c).map fun x => (x.quit, x.watcher) := by
  have hon : ∀ (s : ChatroomState) (d : Cid) (f : Client → Client),
      (∀ x, (f x).quit = x.quit ∧ (f x).watcher = x.watcher) →
      ((s.onConn d f).conns c).map (fun x => (x.quit, x.watcher)) =
        (s.conns c).map fun x => (x.quit, x.watcher) := by
    intro s d f hf
    rw [conns_onConn]
    split
    · next heq =>
      rw [heq, Option.map_map]
      congr 1
      funext x
      show ((f x).quit, (f x).watcher) = _
      rw [(hf x).1, (hf x).2]
    · rfl
  obtain ⟨y, m, p, -, hm, rfl⟩ := runDel_cases h
  have hstep : (m.conns c).map (fun x => (x.quit, x.watcher)) =
      (s.conns c).map fun x => (x.quit, x.watcher) := by
    cases hm with
    | rawClose hpc => exact hon s _ _ fun x => ⟨rfl, rfl⟩
    | _ => rfl
  rw [← hstep]
  cases T with
  | reader d => exact hon m _ _ fun x => ⟨rfl, rfl⟩
  | writer d => exact hon m _ _ fun x => ⟨rfl, rfl⟩
  | del d => rfl

theorem SoundClient.del (h : SoundClient x) (hm : DelMoves x x') (hquit : x'.quit = x.quit)
    (hwatcher : x'.watcher = x.watcher) : SoundClient x' where
  reader := by
    rcases hm.reader with heq | ⟨p, p', -, hp'⟩
    · rw [heq]
      exact h.reader
    · rw [hp']
      cases p' <;> exact ⟨nofun, nofun⟩
  writer := by
    rcases hm.writer with heq | ⟨p, p', -, hp'⟩
    · rw [heq]
      exact h.writer
    · rw [hp']
      cases p' <;> exact ⟨nofun, nofun⟩
  started := by
    intro hw
    have hw' : x.writer = .notSpawned := by
      rcases hm.writer with heq | ⟨p, p', -, hp'⟩
      · exact heq.symm.trans hw
      · rw [hp'] at hw
        cases p' <;> cases hw
    rcases hm.reader with heq | ⟨p, p', hp, -⟩
    · rw [heq]
      exact h.started hw'
    · have hspawned := h.started hw'
      rw [hp] at hspawned
      cases hspawned
  left := by
    intro hl
    rw [hm.closed]
    rcases hm.reader with heq | ⟨p, p', hp, -⟩
    · rw [heq] at hl
      exact h.left hl
    · exact h.left (.inr (by rw [hp]; nofun))
  ended := by
    intro hw
    rw [hm.closed]
    rcases hm.writer with heq | ⟨p, p', -, hp'⟩
    · exact h.ended (heq.symm.trans hw)
    · rw [hp'] at hw
      cases p' <;> cases hw
  watched := by
    rw [hwatcher, hquit, hm.closed]
    exact h.watched
  watching := by
    rw [hwatcher]
    intro hw
    rcases hm.reader with heq | ⟨p, p', hp, -⟩
    · rw [heq]
      exact h.watching hw
    · have hwatches := h.watching hw
      rw [hp] at hwatches
      cases hwatches
  told := by
    rw [hwatcher, hquit]
    exact h.told

/-- A reader that moves on before its loop has ended. -/
theorem SoundClient.read (h : SoundClient x) (hwriter : x'.writer = x.writer)
    (hwatcher : x'.watcher = x.watcher) (hclosed : x'.closed = x.closed) (hquit : x'.quit = x.quit)
    (hreader : x'.reader.goesOn = true) (hstarted : x.writer = .notSpawned → x'.reader.spawned = false)
    (hwatching : x.watcher = .notSpawned → x'.reader.watches = false) : SoundClient x' where
  reader := by
    constructor
    · intro heq
      rw [heq] at hreader
      cases hreader
    · intro ok heq
      rw [heq] at hreader
      cases hreader
  writer := by
    rw [hwriter]
    exact h.writer
  started := by
    rw [hwriter]
    exact hstarted
  left := by
    intro hl
    cases hr : x'.reader with
    | returned =>
      rw [hr] at hreader
      cases hreader
    | del p =>
      rw [hr] at hreader
      cases hreader
    | _ => simp [hr, ReaderPc.delPc] at hl
  ended := by
    rw [hwriter, hclosed]
    exact h.ended
  watched := by
    rw [hwatcher, hquit, hclosed]
    exact h.watched
  watching := by
    rw [hwatcher]
    exact hwatching
  told := by
    rw [hwatcher, hquit]
    exact h.told

/-- What `c.Close()` does to the channel. -/
theorem closeStep_closed {closed closed' : Bool} {p p' : ClosePc}
    (h : closeStep closed p = some (.ok (closed', p'))) :
    (closed = true → closed' = true) ∧ ∀ ok, p' = .returned ok → closed' = true := by
  cases p with
  | check =>
    cases closed with
    | true =>
      cases h
      exact ⟨fun _ => rfl, fun _ _ => rfl⟩
    | false =>
      cases h
      exact ⟨fun hc => hc, by nofun⟩
  | act =>
    cases closed with
    | true => cases h
    | false =>
      cases h
      exact ⟨fun _ => rfl, fun _ _ => rfl⟩
  | returned ok => cases h

theorem ReaderPc.ofClose_cases (p : ClosePc) :
    (∃ ok, p = .returned ok) ∧ ReaderPc.ofClose p = .del .lock ∨
      (∀ ok, p ≠ .returned ok) ∧ ReaderPc.ofClose p = .close p := by
  cases p with
  | returned ok => exact .inl ⟨⟨ok, rfl⟩, rfl⟩
  | _ => exact .inr ⟨nofun, rfl⟩

theorem WriterPc.ofClose_cases (p : ClosePc) :
    (∃ ok, p = .returned ok) ∧ WriterPc.ofClose p = .returned ∨
      (∀ ok, p ≠ .returned ok) ∧ WriterPc.ofClose p = .close p := by
  cases p with
  | returned ok => exact .inl ⟨⟨ok, rfl⟩, rfl⟩
  | _ => exact .inr ⟨nofun, rfl⟩

theorem SoundClient.ne_notSpawned (h : SoundClient x) (hr : x.reader.spawned = true) :
    x.writer ≠ .notSpawned := by
  intro hw
  rw [h.started hw] at hr
  cases hr

theorem SoundClient.watcher_ne_notSpawned (h : SoundClient x) (hr : x.reader.watches = true) :
    x.watcher ≠ .notSpawned := by
  intro hw
  rw [h.watching hw] at hr
  cases hr

theorem SoundClient.readerCloses {p p' : ClosePc} {closed ok : Bool} (h : SoundClient x)
    (hr : x.reader = .close p) (hstep : closeStep x.closed p = some (.ok (closed, p'))) :
    SoundClient { x with closed := closed, readerClose := ok, reader := .ofClose p' } := by
  obtain ⟨hkeeps, hcloses⟩ := closeStep_closed hstep
  refine ⟨?_, h.writer, fun hw => absurd hw (h.ne_notSpawned (by rw [hr]; rfl)), ?_,
    fun hw => hkeeps (h.ended hw), fun hw => hkeeps (h.watched hw),
    fun hw => absurd hw (h.watcher_ne_notSpawned (by rw [hr]; rfl)), h.told⟩
  · rcases ReaderPc.ofClose_cases p' with ⟨-, heq⟩ | ⟨hne, heq⟩
    · rw [heq]
      exact ⟨nofun, nofun⟩
    · rw [heq]
      exact ⟨nofun, fun ok hok => hne ok (ReaderPc.close.inj hok)⟩
  · rcases ReaderPc.ofClose_cases p' with ⟨⟨ok, hok⟩, heq⟩ | ⟨-, heq⟩
    · exact fun _ => hcloses ok hok
    · rw [heq]
      rintro (hl | hl)
      · cases hl
      · exact absurd rfl hl

theorem SoundClient.writerCloses {p p' : ClosePc} {closed ok : Bool} (h : SoundClient x)
    (hstep : closeStep x.closed p = some (.ok (closed, p'))) :
    SoundClient { x with closed := closed, writerClose := ok, writer := .ofClose p' } := by
  obtain ⟨hkeeps, hcloses⟩ := closeStep_closed hstep
  rcases WriterPc.ofClose_cases p' with ⟨⟨ok', hok⟩, heq⟩ | ⟨hne, heq⟩
  · rw [heq]
    exact ⟨h.reader, ⟨nofun, nofun⟩, nofun, fun hl => hkeeps (h.left hl), fun _ => hcloses ok' hok,
      fun hw => hkeeps (h.watched hw), h.watching, h.told⟩
  · rw [heq]
    exact ⟨h.reader, ⟨nofun, fun ok hok => hne ok (WriterPc.close.inj hok)⟩, nofun,
      fun hl => hkeeps (h.left hl), nofun, fun hw => hkeeps (h.watched hw), h.watching, h.told⟩

/-- A writer that moves on before its end. -/
theorem SoundClient.write (h : SoundClient x) (hreader : x'.reader = x.reader)
    (hwatcher : x'.watcher = x.watcher) (hclosed : x'.closed = x.closed) (hquit : x'.quit = x.quit)
    (hwriter : x'.writer.goesOn = true) : SoundClient x' where
  reader := by
    rw [hreader]
    exact h.reader
  writer := by
    constructor
    · intro heq
      rw [heq] at hwriter
      cases hwriter
    · intro ok heq
      rw [heq] at hwriter
      cases hwriter
  started := by
    intro heq
    rw [heq] at hwriter
    cases hwriter
  left := by
    rw [hreader, hclosed]
    exact h.left
  ended := by
    intro heq
    rw [heq] at hwriter
    cases hwriter
  watched := by
    rw [hwatcher, hquit, hclosed]
    exact h.watched
  watching := by
    rw [hwatcher, hreader]
    exact h.watching
  told := by
    rw [hwatcher, hquit]
    exact h.told

/-- `l_addClient` spawns the watcher, and the writer. -/
theorem SoundClient.addWatcher (h : SoundClient x) :
    SoundClient { x with watcher := .wait, reader := .add .writer } where
  reader := ⟨nofun, nofun⟩
  writer := h.writer
  started := fun _ => rfl
  left := by simp [ReaderPc.delPc]
  ended := h.ended
  watched := by
    rintro (hw | hq)
    · cases hw
    · exact h.watched (.inr hq)
  watching := nofun
  told := nofun

theorem SoundClient.addWriter (h : SoundClient x) (hr : x.reader = .add .writer) :
    SoundClient { x with writer := .range, reader := .add .listen } := by
  have hwrite : SoundClient { x with writer := .range } := h.write rfl rfl rfl rfl rfl
  exact hwrite.read rfl rfl rfl rfl rfl (fun hw => by cases hw)
    fun hw => absurd hw (h.watcher_ne_notSpawned (by rw [hr]; rfl))

/-! ## Clients and the queue -/

namespace Served

theorem client (h : Served q c x) (hcall : x'.reader.call = none ∨ x'.reader = x.reader)
    (hlistened : x'.reader.listened = x.reader.listened) (hquit : x.quit = true → x'.quit = true) :
    Served q c x' where
  call := by
    intro t ht
    rcases hcall with hnone | heq
    · rw [hnone] at ht
      cases ht
    · exact h.call t (heq ▸ ht)
  listener := by
    rw [hlistened]
    exact h.listener
  quits := fun hq => hquit (h.quits hq)

theorem queue (h : Served q c x) (hcalls : ∀ t, q.calls t ≠ none → q'.calls t ≠ none)
    (hlisteners : q'.listeners c = q.listeners c) : Served q' c x where
  call := fun t ht => hcalls t (h.call t ht)
  listener := by
    rw [hlisteners]
    exact h.listener
  quits := by
    rw [hlisteners]
    exact h.quits

end Served

theorem calls_of_queueAct {b : QueueAction} (h : queueAct L q b = some q') (t : Tid)
    (ht : q.calls t ≠ none) : q'.calls t ≠ none := by
  have hstep := queueStep_of_act h
  by_cases hb : ∃ u m, b = .append u m
  · obtain ⟨u, m, rfl⟩ := hb
    cases hstep with
    | append hu =>
      rw [QueueState.begin, setCall_calls]
      split
      · simp
      · exact ht
  · exact (calls_of_step hstep (fun u m hum => hb ⟨u, m, hum⟩) t).mpr ht

/-- The listeners that an action is not about. -/
theorem listeners_of_queueAct {b : QueueAction} (h : queueAct L q b = some q') {d : Cid}
    (hd : b.listenerOf ≠ some d) : q'.listeners d = q.listeners d := by
  cases queueStep_of_act h with
  | @listen e he =>
    rw [setListener_listeners, if_neg]
    rintro rfl
    exact hd rfl
  | @listener e quit y pc he hy =>
    rw [setListener_listeners, if_neg]
    rintro rfl
    exact hd rfl
  | _ => rfl

/-- Only `Listen` makes a listener. -/
theorem listeners_none_iff {b : QueueAction} (h : queueAct L q b = some q') (hb : ∀ d, b ≠ .listen d)
    (d : Cid) : q'.listeners d ≠ none ↔ q.listeners d ≠ none := by
  cases queueStep_of_act h with
  | @listen e he => exact absurd rfl (hb _)
  | @listener e quit y pc he hy =>
    rw [setListener_listeners]
    split
    · next heq =>
      rw [heq, he]
      exact iff_of_true nofun nofun
    · rfl
  | _ => rfl

/-- A listener quits when it has been told to. -/
theorem quit_of_next (hn : chatNext verbose L s a = some s')
    (hq : (s'.backlog.listeners c).map Listener.pc = some .quit) :
    (s.backlog.listeners c).map Listener.pc = some .quit ∨ ∃ x, s.conns c = some x ∧ x.quit = true := by
  obtain ⟨hp, hlive, hs⟩ := chatStep_of_next hn
  have hact : ∀ {b}, queueAct L s.backlog b = some s'.backlog → (∀ quit, b ≠ .listener c quit) →
      (s.backlog.listeners c).map Listener.pc = some .quit := by
    intro b hb hne
    rcases quit_of_act hb hq with hquit | ⟨rfl, -⟩
    · exact hquit
    · exact absurd rfl (hne true)
  cases hs with
  | addListen hc hr hact' => exact .inl (hact hact' nofun)
  | readMsg hc hr hact' => exact .inl (hact hact' nofun)
  | appendStep hc hr hact' => exact .inl (hact hact' nofun)
  | @send d x e msg q hc hl hw hact' =>
    rcases quit_of_act hact' hq with hquit | ⟨hb, -⟩
    · exact .inl hquit
    · cases hb
  | @listens d quit q hl hact' =>
    rcases quit_of_act hact' hq with hquit | ⟨hb, e, msg, hpc⟩
    · exact .inl hquit
    · -- the guard of the case in its select
      obtain ⟨rfl, rfl⟩ := hb
      right
      rw [chatNext_of_alive hp hlive] at hn
      obtain ⟨x, hc, hx⟩ := Option.bind_eq_some_iff.mp hn
      refine ⟨x, hc, ?_⟩
      unfold chatListenerStep at hx
      rw [hpc] at hx
      by_contra hnot
      rw [if_neg hnot] at hx
      cases hx
  | readerDel hd => exact .inl (by rwa [(runDel_frame hd).1] at hq)
  | writerDel hd => exact .inl (by rwa [(runDel_frame hd).1] at hq)
  | del hd => exact .inl (by rwa [(runDel_frame hd).1] at hq)
  | _ => exact .inl hq

namespace Staffed

theorem set (h : Staffed s) (hconns : s'.conns = Function.update s.conns c (some x'))
    (hcalls : ∀ t, s.backlog.calls t ≠ none → s'.backlog.calls t ≠ none)
    (hlisteners : ∀ d, d ≠ c → s'.backlog.listeners d = s.backlog.listeners d)
    (hx : SoundClient x' ∧ Served s'.backlog c x') : Staffed s' := by
  intro d y hy
  rw [hconns, Function.update_apply] at hy
  split at hy
  · next hdc =>
    obtain rfl := Option.some.inj hy
    rw [hdc]
    exact hx
  · next hdc =>
    obtain ⟨hsound, hserved⟩ := h d y hy
    exact ⟨hsound, hserved.queue hcalls (hlisteners d hdc)⟩

/-- A step that leaves the queue alone. -/
theorem setClient (h : Staffed s) (hc : s.conns c = some x)
    (hconns : s'.conns = Function.update s.conns c (some x')) (hbacklog : s'.backlog = s.backlog)
    (hx : SoundClient x') (hcall : x'.reader.call = none ∨ x'.reader = x.reader)
    (hlistened : x'.reader.listened = x.reader.listened) (hquit : x.quit = true → x'.quit = true) :
    Staffed s' := by
  refine h.set hconns ?_ ?_ ⟨hx, ?_⟩
  · rw [hbacklog]
    exact fun t ht => ht
  · rw [hbacklog]
    exact fun d _ => rfl
  · rw [hbacklog]
    exact (h c x hc).2.client hcall hlistened hquit

theorem del (h : Staffed s) (hd : runDel verbose s T = some s') : Staffed s' := by
  intro c x' hc
  obtain ⟨x, hx, hm⟩ := runDel_conn hd hc
  have hquit := runDel_quit hd c
  rw [hc, hx, Option.map_some, Option.map_some, Option.some.injEq, Prod.mk.injEq] at hquit
  obtain ⟨hsound, hserved⟩ := h c x hx
  refine ⟨hsound.del hm hquit.1 hquit.2, ?_⟩
  rw [(runDel_frame hd).1]
  refine hserved.client ?_ ?_ (fun hq => hquit.1.trans hq)
  · rcases hm.reader with heq | ⟨p, p', -, hp'⟩
    · exact .inr heq
    · rw [hp']
      cases p' <;> exact .inl rfl
  · rcases hm.reader with heq | ⟨p, p', hp, hp'⟩
    · rw [heq]
    · rw [hp, hp']
      cases p' <;> rfl

/-- A step of the queue that is about no listener. -/
theorem serves {b : QueueAction} (h : Staffed s) (hq : queueAct L s.backlog b = some q)
    (hb : b.listenerOf = none) (hconns : s'.conns = s.conns) (hbacklog : s'.backlog = q) : Staffed s' := by
  intro d y hy
  rw [hconns] at hy
  rw [hbacklog]
  obtain ⟨hx, hserved⟩ := h d y hy
  refine ⟨hx, hserved.queue (calls_of_queueAct hq) (listeners_of_queueAct hq ?_)⟩
  rw [hb]
  exact (Option.some_ne_none d).symm

/-- `cr.backlog.Listen(msgs, quit)` -/
theorem listen {r : ReaderPc} (h : Staffed s) (hc : s.conns c = some x) (hr : x.reader = .add .listen)
    (hr' : r = .add .count ∨ r = .read) (hq : queueAct L s.backlog (.listen c) = some q) :
    Staffed ({ s with backlog := q }.setConn c { x with reader := r }) := by
  have hx := (h c x hc).1
  have hne : x.writer ≠ .notSpawned := hx.ne_notSpawned (by rw [hr]; rfl)
  have hne' : x.watcher ≠ .notSpawned := hx.watcher_ne_notSpawned (by rw [hr]; rfl)
  have hl : q.listeners c = some WebsocketHub.listen := by
    cases queueStep_of_act hq with
    | listen hl => exact Function.update_self _ _ _
  have hlistened : r.goesOn = true ∧ r.listened = true ∧ r.call = none := by
    rcases hr' with rfl | rfl <;> decide
  have hserved : Served q c { x with reader := r } := by
    refine ⟨fun t ht => ?_, iff_of_true hlistened.2.1 ?_, fun hquit => ?_⟩
    · rw [show ({ x with reader := r } : Client).reader.call = none from hlistened.2.2] at ht
      cases ht
    · rw [hl]
      exact Option.some_ne_none _
    · rw [hl] at hquit
      cases hquit
  exact h.set rfl (calls_of_queueAct hq)
    (fun d hd => listeners_of_queueAct hq fun heq => hd (Option.some.inj heq).symm)
    ⟨hx.read rfl rfl rfl rfl hlistened.1 (fun hw => absurd hw hne) fun hw => absurd hw hne', hserved⟩

/-- A message has been read: `Append` begins. -/
theorem append {msg : Bytes} (h : Staffed s) (hc : s.conns c = some x) (hr : x.reader = .read)
    (hq : queueAct L s.backlog (.append s.nextCall msg) = some q) :
    Staffed ({ s with backlog := q, nextCall := s.nextCall + 1 }.setConn c
      { x with reader := .append s.nextCall }) := by
  obtain ⟨hx, hserved⟩ := h c x hc
  have hlisteners : ∀ d, q.listeners d = s.backlog.listeners d := fun d =>
    listeners_of_queueAct hq (Option.some_ne_none d).symm
  have hcall : q.calls s.nextCall ≠ none := by
    cases queueStep_of_act hq with
    | append ht =>
      rw [QueueState.begin, setCall_calls, if_pos rfl]
      exact Option.some_ne_none _
  have hserved' : Served q c { x with reader := .append s.nextCall } := by
    refine ⟨fun t ht => ?_, ?_, ?_⟩
    · rw [← Option.some.inj ht]
      exact hcall
    · have hlistener := hserved.listener
      rw [hr] at hlistener
      rw [hlisteners]
      exact hlistener
    · rw [hlisteners]
      exact hserved.quits
  exact h.set rfl (calls_of_queueAct hq) (fun d _ => hlisteners d)
    ⟨hx.read rfl rfl rfl rfl rfl (fun hw => absurd hw (hx.ne_notSpawned (by rw [hr]; rfl)))
      fun hw => absurd hw (hx.watcher_ne_notSpawned (by rw [hr]; rfl)), hserved'⟩

/-- A client comes to the room. -/
theorem connect (h : Staffed s) (hls : Listens s) (hc : s.conns c = none) :
    Staffed (s.setConn c makeClient) := by
  have hnone : s.backlog.listeners c = none := by
    by_contra hne
    obtain ⟨x, hx, -⟩ := hls c hne
    rw [hc] at hx
    cases hx
  have hserved : Served s.backlog c makeClient := by
    refine ⟨fun t ht => (by cases ht), ?_, fun hquit => ?_⟩
    · rw [hnone]
      exact iff_of_false Bool.false_ne_true fun hne => hne rfl
    · rw [hnone] at hquit
      cases hquit
  exact h.set rfl (fun t ht => ht) (fun d _ => rfl) ⟨soundClient_makeClient, hserved⟩

/-- A reader that moves on. -/
theorem reads (h : Staffed s) (hc : s.conns c = some x)
    (hconns : s'.conns = Function.update s.conns c (some x')) (hbacklog : s'.backlog = s.backlog)
    (hwriter : x'.writer = x.writer) (hwatcher : x'.watcher = x.watcher) (hclosed : x'.closed = x.closed)
    (hquit : x'.quit = x.quit) (hreader : x'.reader.goesOn = true) (hcall : x'.reader.call = none)
    (hlistened : x'.reader.listened = x.reader.listened)
    (hspawned : x'.reader.spawned = x.reader.spawned ∧ x'.reader.watches = x.reader.watches) :
    Staffed s' := by
  have hx := (h c x hc).1
  refine h.setClient hc hconns hbacklog
    (hx.read hwriter hwatcher hclosed hquit hreader (fun hw => ?_) fun hw => ?_)
    (.inl hcall) hlistened fun hq => hquit.trans hq
  · rw [hspawned.1]
    exact hx.started hw
  · rw [hspawned.2]
    exact hx.watching hw

/-- **Step lemma**. -/
theorem step (h : Staffed s) (hls : Listens s) (hn : chatNext verbose L s a = some s') : Staffed s' := by
  obtain ⟨-, -, hs⟩ := chatStep_of_next hn
  cases hs with
  | connect hc => exact h.connect hls hc
  | addInc hc hr =>
    exact h.reads hc rfl rfl rfl rfl rfl rfl rfl rfl (by rw [hr]; rfl) (by rw [hr]; exact ⟨rfl, rfl⟩)
  | addLock hc hr hfree =>
    exact h.reads hc rfl rfl rfl rfl rfl rfl rfl rfl (by rw [hr]; rfl) (by rw [hr]; exact ⟨rfl, rfl⟩)
  | addInsert hc hr =>
    exact h.reads hc rfl rfl rfl rfl rfl rfl rfl rfl (by rw [hr]; rfl) (by rw [hr]; exact ⟨rfl, rfl⟩)
  | addUnlock hc hr =>
    exact h.reads hc rfl rfl rfl rfl rfl rfl rfl rfl (by rw [hr]; rfl) (by rw [hr]; exact ⟨rfl, rfl⟩)
  | @addWatcher c x i hc hr =>
    refine h.setClient hc rfl rfl (h c x hc).1.addWatcher (.inl rfl) (by rw [hr]; rfl) (fun hq => hq)
  | @addWriter c x i hc hr =>
    exact h.setClient hc rfl rfl ((h c x hc).1.addWriter hr) (.inl rfl) (by rw [hr]; rfl) (fun hq => hq)
  | addListen hc hr hq => exact h.listen hc hr (by cases verbose; exacts [.inr rfl, .inl rfl]) hq
  | addCount hc hr =>
    exact h.reads hc rfl rfl rfl rfl rfl rfl rfl rfl (by rw [hr]; rfl) (by rw [hr]; exact ⟨rfl, rfl⟩)
  | readFails hc hr =>
    exact h.reads hc rfl rfl rfl rfl rfl rfl rfl rfl (by rw [hr]; rfl) (by rw [hr]; exact ⟨rfl, rfl⟩)
  | readMsg hc hr hq => exact h.append hc hr hq
  | appendStep hc hr hq => exact h.serves hq rfl rfl rfl
  | appendReturns hc hr hret =>
    exact h.reads hc rfl rfl rfl rfl rfl rfl rfl rfl (by rw [hr]; rfl) (by rw [hr]; exact ⟨rfl, rfl⟩)
  | @readerCloses c x i p p' closed hc hr hstep =>
    refine h.setClient hc rfl rfl ((h c x hc).1.readerCloses hr hstep) (.inl ?_) ?_ (fun hq => hq)
    · cases p' <;> rfl
    · rw [hr]
      cases p' <;> rfl
  | readerClosePanics hc hr hstep => exact h
  | readerDel hd => exact h.del hd
  | @watcherWait c x hc hw hcl =>
    have hx := (h c x hc).1
    exact h.setClient hc rfl rfl ⟨hx.reader, hx.writer, hx.started, hx.left, hx.ended, fun _ => hcl,
      nofun, nofun⟩ (.inr rfl) rfl (fun hq => hq)
  | @watcherQuit c x hc hw =>
    have hx := (h c x hc).1
    exact h.setClient hc rfl rfl ⟨hx.reader, hx.writer, hx.started, hx.left, hx.ended,
      fun _ => hx.watched (.inl hw), nofun, fun _ => rfl⟩ (.inr rfl) rfl (fun _ => rfl)
  | @writerEnds c x ok hc hw hl =>
    exact h.setClient hc rfl rfl ((h c x hc).1.write rfl rfl rfl rfl rfl) (.inr rfl) rfl (fun hq => hq)
  | @writeOk c x msg hc hw =>
    exact h.setClient hc rfl rfl ((h c x hc).1.write rfl rfl rfl rfl rfl) (.inr rfl) rfl (fun hq => hq)
  | @writeFails c x msg hc hw =>
    exact h.setClient hc rfl rfl ((h c x hc).1.write rfl rfl rfl rfl rfl) (.inr rfl) rfl (fun hq => hq)
  | writerDel hd => exact h.del hd
  | @writerCloses c x ok p p' closed hc hw hstep =>
    exact h.setClient hc rfl rfl ((h c x hc).1.writerCloses hstep) (.inr rfl) rfl (fun hq => hq)
  | writerClosePanics hc hw hstep => exact h
  | @send c x e msg q hc hl hw hq =>
    obtain ⟨hx, hserved⟩ := h c x hc
    refine h.set rfl (calls_of_queueAct hq)
      (fun d hd => listeners_of_queueAct hq fun heq => hd (Option.some.inj heq).symm)
      ⟨hx.write rfl rfl rfl rfl rfl, fun t ht => calls_of_queueAct hq t (hserved.call t ht),
        hserved.listener.trans (listeners_none_iff hq (by rintro _ ⟨⟩) c).symm, fun hquit => ?_⟩
    rcases quit_of_act hq hquit with hold | ⟨hb, -⟩
    · exact hserved.quits hold
    · cases hb
  | @listens c quit q hl hq =>
    intro d y hy
    obtain ⟨hsound, hserved⟩ := h d y hy
    refine ⟨hsound, fun t ht => calls_of_queueAct hq t (hserved.call t ht),
      hserved.listener.trans (listeners_none_iff hq (by rintro _ ⟨⟩) d).symm, fun hquit => ?_⟩
    rcases quit_of_next hn hquit with hold | ⟨z, hz, hzq⟩
    · exact hserved.quits hold
    · obtain rfl := Option.some.inj (hy.symm.trans hz)
      exact hzq
  | del hd => exact h.del hd
  | close hk => exact h
  | rlock hk hfree => exact h
  | runlock hk => exact h
  | spawn hk hi => exact h

end Staffed

theorem staffed_of_reaches {ok : ChatroomState → ChatroomAction → Prop}
    (h : (chatRun verbose L).Reaches ok s) : Staffed s := by
  refine h.invariant_of (I := Staffed) (J := Listens) (fun _ => listens_of_reaches)
    (fun c x hc => by cases hc) ?_
  intro s a s' hls _ hI _ hn
  exact hI.step hls hn

/-! ## Calls and closers -/

theorem Called.step (h : Called s) (hs : ChatStep verbose L s a s') : Called s' := by
  intro t d hd
  by_cases hnone : s.backlog.calls t = none
  · -- a call that has just begun
    have hact : ∀ {b}, queueAct L s.backlog b = some s'.backlog → (∀ m, b ≠ .append t m) → False := by
      intro b hb hne
      rw [none_of_act hb hnone hne] at hd
      cases hd
    cases hs with
    | @readMsg c x msg q hc hr hq =>
      by_cases ht : t = s.nextCall
      · refine ⟨c, .inr ⟨_, Function.update_self _ _ _, ?_⟩⟩
        rw [ht]
      · exact (hact hq fun m hm => ht (QueueAction.append.inj hm).1.symm).elim
    | addListen hc hr hq => exact (hact hq nofun).elim
    | @appendStep c x i u q hc hr hq => exact (hact hq nofun).elim
    | send hc hl hw hq => exact (hact hq nofun).elim
    | listens hl hq => exact (hact hq nofun).elim
    | readerDel hdel =>
      rw [(runDel_frame hdel).1, hnone] at hd
      cases hd
    | writerDel hdel =>
      rw [(runDel_frame hdel).1, hnone] at hd
      cases hd
    | del hdel =>
      rw [(runDel_frame hdel).1, hnone] at hd
      cases hd
    | _ =>
      have hd : s.backlog.calls t = some d := hd
      rw [hnone] at hd
      cases hd
  · obtain ⟨d₀, hd₀⟩ := Option.ne_none_iff_exists'.mp hnone
    obtain ⟨c, hc⟩ := h t d₀ hd₀
    exact ⟨c, hc.step hs⟩

theorem called_of_reaches {ok : ChatroomState → ChatroomAction → Prop}
    (h : (chatRun verbose L).Reaches ok s) : Called s :=
  h.invariant (I := Called) (fun t d hd => by cases hd) fun _ _ _ hI _ hn => hI.step (chatStep_of_next hn).2.2

theorem runDel_readers (h : runDel verbose s T = some s') : s'.clientsL.readers = s.clientsL.readers :=
  (LockWait.of_runDel (c := 0) h).readers

namespace ReadLocked

theorem keep (h : ReadLocked s) (hreaders : s'.clientsL.readers = s.clientsL.readers)
    (hclosers : s'.closers = s.closers) : ReadLocked s' := by
  unfold ReadLocked
  rw [hreaders, hclosers]
  exact h

/-- **Step lemma**. -/
theorem step (h : ReadLocked s) (hs : ChatStep verbose L s a s') : ReadLocked s' := by
  have hdel : ∀ {T}, runDel verbose s T = some s' → ReadLocked s' :=
    fun hd => h.keep (runDel_readers hd) (runDel_frame hd).2.2.2
  cases hs with
  | readerDel hd => exact hdel hd
  | writerDel hd => exact hdel hd
  | del hd => exact hdel hd
  | @close k hk =>
    obtain ⟨R, hcard, hR⟩ := h
    refine ⟨R, hcard, fun i => ?_⟩
    rw [hR i]
    show _ ↔ ∃ todo, Function.update s.closers k (some .rlock) i = some (.spawn todo)
    rw [Function.update_apply]
    split
    · next heq => simp [heq, hk]
    · rfl
  | @rlock k i hk hfree =>
    obtain ⟨R, hcard, hR⟩ := h
    have hnot : k ∉ R := by
      rw [hR k, hk]
      rintro ⟨todo, ⟨⟩⟩
    refine ⟨insert k R, ?_, fun j => ?_⟩
    · rw [Finset.card_insert_of_notMem hnot, hcard]
    · show _ ↔ ∃ todo, Function.update s.closers k (some (.spawn _)) j = some (.spawn todo)
      rw [Finset.mem_insert, hR j, Function.update_apply]
      split
      · next heq => exact iff_of_true (.inl heq) ⟨_, rfl⟩
      · next hne => exact ⟨fun hj => hj.resolve_left hne, .inr⟩
  | @runlock k i hk =>
    obtain ⟨R, hcard, hR⟩ := h
    have hin : k ∈ R := (hR k).mpr ⟨[], hk⟩
    refine ⟨R.erase k, ?_, fun j => ?_⟩
    · rw [Finset.card_erase_of_mem hin, hcard]
    · show _ ↔ ∃ todo, Function.update s.closers k (some .returned) j = some (.spawn todo)
      rw [Finset.mem_erase, hR j, Function.update_apply]
      split
      · next heq => exact iff_of_false (fun hj => hj.1 heq) (by rintro ⟨todo, ⟨⟩⟩)
      · next hne => exact ⟨fun hj => hj.2, fun hj => ⟨hne, hj⟩⟩
  | @spawn k i todo e hk hi =>
    obtain ⟨R, hcard, hR⟩ := h
    refine ⟨R, hcard, fun j => ?_⟩
    rw [hR j]
    show _ ↔ ∃ todo', Function.update s.closers k (some (.spawn (todo.eraseIdx i))) j = some (.spawn todo')
    rw [Function.update_apply]
    split
    · next heq => exact iff_of_true ⟨todo, heq ▸ hk⟩ ⟨_, rfl⟩
    · rfl
  | _ => exact h.keep rfl rfl

end ReadLocked

theorem readLocked_of_reaches {ok : ChatroomState → ChatroomAction → Prop}
    (h : (chatRun verbose L).Reaches ok s) : ReadLocked s :=
  h.invariant (I := ReadLocked) ⟨∅, rfl, fun k => by simp [chatRun, ChatroomState.init]⟩
    fun _ _ _ hI _ hn => hI.step (chatStep_of_next hn).2.2

/-! ## A room that has come to a halt -/

section Halted

variable (hp : s.panic = none) (hlive : s.backlog.panic = none) (hhalt : (chatRun verbose L).Halted goes s)

include hp hlive hhalt

/-- No step is left. -/
theorem chatAct_of_halted (hgoes : goes s a = true) : chatAct verbose L s a = none := by
  have hnone : chatNext verbose L s a = none := hhalt a hgoes
  rwa [chatNext_of_alive hp hlive] at hnone

theorem readerStep_of_halted (hc : s.conns c = some x) (hr : x.reader ≠ .read) :
    readerStep verbose L s c x none = none := by
  have hact := chatAct_of_halted hp hlive hhalt (a := .reader c none)
    (by rw [goes, hc]; exact decide_eq_true hr)
  rwa [chatAct, hc] at hact

theorem writerStep_of_halted (ok : Bool) (hc : s.conns c = some x) : writerStep verbose s c x ok = none := by
  have hact := chatAct_of_halted hp hlive hhalt (a := .writer c ok) rfl
  rwa [chatAct, hc] at hact

theorem watcherStep_of_halted (hc : s.conns c = some x) : watcherStep s c x = none := by
  have hact := chatAct_of_halted hp hlive hhalt (a := .watcher c) rfl
  rwa [chatAct, hc] at hact

theorem listenerStep_of_halted (quit : Bool) (hc : s.conns c = some x) :
    chatListenerStep L s c x quit = none := by
  have hact := chatAct_of_halted hp hlive hhalt (a := .listener c quit) rfl
  rwa [chatAct, hc] at hact

theorem runDel_of_halted (T : Thread) : runDel verbose s T = none := by
  by_contra hne
  obtain ⟨s', hd⟩ := Option.ne_none_iff_exists'.mp hne
  obtain ⟨y, -, -, hy, -, -⟩ := runDel_cases hd
  cases T with
  | reader c =>
    obtain ⟨x, p, hc, hr, -⟩ := delAt_reader.mp hy
    have hstep := readerStep_of_halted hp hlive hhalt hc (by rw [hr]; nofun)
    rw [readerStep, hr] at hstep
    exact hne hstep
  | writer c =>
    obtain ⟨x, p, hc, hw, -⟩ := delAt_writer.mp hy
    have hstep := writerStep_of_halted hp hlive hhalt true hc
    rw [writerStep, hw] at hstep
    exact hne hstep
  | del d => exact hne (chatAct_of_halted hp hlive hhalt (a := .del d) rfl)

/-- A deletion is done, or waits for the lock. -/
theorem del_of_halted {y : Deletion} (hy : s.delAt T = some y) :
    y.pc = .returned ∨ y.pc = .lock ∧ s.canLock = false := by
  have hnone := runDel_of_halted hp hlive hhalt T
  rw [runDel, hy, Option.bind_some, Option.map_eq_none_iff, delStep] at hnone
  cases hpc : y.pc with
  | returned => exact .inl rfl
  | lock =>
    rw [hpc] at hnone
    refine .inr ⟨rfl, ?_⟩
    by_contra hcan
    rw [Bool.not_eq_false] at hcan
    simp [hcan] at hnone
  | _ =>
    rw [hpc] at hnone
    cases hnone

/-- Nobody holds the lock: who does can go on. -/
theorem owner_of_halted (hlock : LockOk s) : s.clientsL.owner = none := by
  by_contra hne
  obtain ⟨T, hT⟩ := Option.ne_none_iff_exists'.mp hne
  have hdel : ∀ {y}, s.delAt T = some y → y.pc.inside = true → False := by
    intro y hy hin
    rcases del_of_halted hp hlive hhalt hy with hpc | ⟨hpc, -⟩
    · rw [hpc] at hin
      cases hin
    · rw [hpc] at hin
      cases hin
  have hin := hlock.owner T hT
  cases T with
  | reader c =>
    obtain ⟨x, hc, hholds⟩ := hin
    cases hr : x.reader with
    | add p =>
      have hstep := readerStep_of_halted hp hlive hhalt hc (by rw [hr]; nofun)
      rw [readerStep, hr] at hstep
      rw [hr] at hholds
      cases p with
      | insert => cases hstep
      | unlock => cases hstep
      | _ => cases hholds
    | del p =>
      rw [ReaderPc.holds, hr] at hholds
      exact hdel (delAt_reader.mpr ⟨x, p, hc, hr, rfl⟩) hholds
    | _ =>
      rw [hr] at hholds
      cases hholds
  | writer c =>
    obtain ⟨x, hc, hholds⟩ := hin
    cases hw : x.writer with
    | del p =>
      rw [WriterPc.holds, hw] at hholds
      exact hdel (delAt_writer.mpr ⟨x, p, hc, hw, rfl⟩) hholds
    | _ =>
      rw [hw] at hholds
      cases hholds
  | del d =>
    obtain ⟨y, hy, hpc⟩ := hin
    exact hdel hy hpc

theorem closer_of_halted {k : Kid} {p : CloserPc} (howner : s.clientsL.owner = none)
    (hk : s.closers k = some p) : p = .returned := by
  have hact := chatAct_of_halted hp hlive hhalt (a := .closer k 0) rfl
  rw [chatAct, hk, Option.bind_some] at hact
  cases p with
  | rlock =>
    rw [closerStep, howner] at hact
    cases hact
  | spawn todo => cases todo <;> cases hact
  | returned => rfl

/-- `clientsL` is free. -/
theorem lock_of_halted (hlock : LockOk s) (hread : ReadLocked s) :
    s.clientsL.owner = none ∧ s.clientsL.readers = 0 := by
  have howner := owner_of_halted hp hlive hhalt hlock
  refine ⟨howner, ?_⟩
  obtain ⟨R, hcard, hR⟩ := hread
  rw [← hcard, Finset.card_eq_zero]
  refine Finset.eq_empty_of_forall_notMem fun k hk => ?_
  obtain ⟨todo, htodo⟩ := (hR k).mp hk
  cases closer_of_halted hp hlive hhalt howner htodo

theorem del_returned_of_halted {y : Deletion} (hlock : s.clientsL.owner = none ∧ s.clientsL.readers = 0)
    (hy : s.delAt T = some y) : y.pc = .returned := by
  rcases del_of_halted hp hlive hhalt hy with hpc | ⟨-, hcan⟩
  · exact hpc
  · rw [canLock, hlock.1, hlock.2] at hcan
    cases hcan

/-- A reader waits for the network, or is done. -/
theorem reader_of_halted (hlock : s.clientsL.owner = none ∧ s.clientsL.readers = 0) (hstaffed : Staffed s)
    (hc : s.conns c = some x) : x.reader = .read ∨ x.reader = .returned := by
  obtain ⟨hx, hserved⟩ := hstaffed c x hc
  by_cases hread : x.reader = .read
  · exact .inl hread
  have hstep := readerStep_of_halted hp hlive hhalt hc hread
  right
  cases hr : x.reader with
  | read => exact absurd hr hread
  | returned => rfl
  | add p =>
    exfalso
    rw [readerStep, hr] at hstep
    cases p with
    | lock =>
      have hcan : s.canLock = true := by
        rw [canLock, hlock.1, hlock.2]
        rfl
      simp [addStep, hcan] at hstep
    | listen =>
      have hnone : s.backlog.listeners c = none := by
        by_contra hne
        have hlistened := hserved.listener.mpr hne
        rw [hr] at hlistened
        cases hlistened
      simp [addStep, queueAct, hnone] at hstep
    | _ => cases hstep
  | append t =>
    exfalso
    obtain ⟨d, hd⟩ := Option.ne_none_iff_exists'.mp (hserved.call t (by rw [hr]; rfl))
    rw [readerStep, hr] at hstep
    dsimp only at hstep
    split at hstep
    · cases hstep
    · next hret =>
      rw [hd, Option.map_some, Option.some.injEq] at hret
      obtain ⟨q, hq⟩ := queueNext_call_isSome (L := L) hlive hd hret
      rw [queueNext, hlive] at hq
      rw [show queueAct L s.backlog (.call t) = some q from hq] at hstep
      cases hstep
  | close p =>
    exfalso
    rw [readerStep, hr] at hstep
    cases p with
    | check => cases hstep
    | act =>
      cases hcl : x.closed <;> simp [closeStep, hcl] at hstep
    | returned ok => exact hx.reader.2 ok hr
  | del p =>
    exfalso
    have hpc := del_returned_of_halted hp hlive hhalt hlock (delAt_reader.mpr ⟨x, p, hc, hr, rfl⟩)
    exact hx.reader.1 (by rw [hr, show p = .returned from hpc])

theorem spawned_of_halted (hlock : s.clientsL.owner = none ∧ s.clientsL.readers = 0) (hstaffed : Staffed s)
    (hc : s.conns c = some x) : x.writer ≠ .notSpawned ∧ x.watcher ≠ .notSpawned := by
  obtain ⟨hx, -⟩ := hstaffed c x hc
  rcases reader_of_halted hp hlive hhalt hlock hstaffed hc with hr | hr
  · exact ⟨hx.ne_notSpawned (by rw [hr]; rfl), hx.watcher_ne_notSpawned (by rw [hr]; rfl)⟩
  · exact ⟨hx.ne_notSpawned (by rw [hr]; rfl), hx.watcher_ne_notSpawned (by rw [hr]; rfl)⟩

/-- A writer waits for a message, or is done. -/
theorem writer_of_halted (hlock : s.clientsL.owner = none ∧ s.clientsL.readers = 0) (hstaffed : Staffed s)
    (hc : s.conns c = some x) : x.writer = .range ∨ x.writer = .returned := by
  obtain ⟨hx, -⟩ := hstaffed c x hc
  have hstep := writerStep_of_halted hp hlive hhalt true hc
  rw [writerStep] at hstep
  cases hw : x.writer with
  | range => exact .inl rfl
  | returned => exact .inr rfl
  | notSpawned => exact absurd hw (spawned_of_halted hp hlive hhalt hlock hstaffed hc).1
  | write msg =>
    rw [hw] at hstep
    cases hstep
  | del p =>
    have hpc := del_returned_of_halted hp hlive hhalt hlock (delAt_writer.mpr ⟨x, p, hc, hw, rfl⟩)
    exact absurd (by rw [hw, show p = .returned from hpc]) hx.writer.1
  | close p =>
    rw [hw] at hstep
    cases p with
    | check => cases hstep
    | act =>
      cases hcl : x.closed <;> simp [closeStep, hcl] at hstep
    | returned ok => exact absurd hw (hx.writer.2 ok)

/-- The watcher of a client that has been closed is done. -/
theorem watcher_of_halted (hlock : s.clientsL.owner = none ∧ s.clientsL.readers = 0) (hstaffed : Staffed s)
    (hc : s.conns c = some x) (hclosed : x.closed = true) : x.watcher = .returned := by
  have hstep := watcherStep_of_halted hp hlive hhalt hc
  rw [watcherStep] at hstep
  cases hw : x.watcher with
  | returned => rfl
  | notSpawned => exact absurd hw (spawned_of_halted hp hlive hhalt hlock hstaffed hc).2
  | wait =>
    rw [hw] at hstep
    simp [hclosed] at hstep
  | closeQuit =>
    rw [hw] at hstep
    cases hstep

/-- Every call of `Append` has returned. -/
theorem quiescent_of_halted (hlock : s.clientsL.owner = none ∧ s.clientsL.readers = 0) (hstaffed : Staffed s)
    (hcalled : Called s) : s.backlog.Quiescent := by
  intro t d hd
  obtain ⟨c, ⟨d', hd', hret⟩ | ⟨x, hc, hr⟩⟩ := hcalled t d hd
  · obtain rfl := Option.some.inj (hd.symm.trans hd')
    exact hret
  · rcases reader_of_halted hp hlive hhalt hlock hstaffed hc with hread | hread <;>
      rw [hr] at hread <;> cases hread

/-- A listener waits for an entry to be filled, or is done, or stands at its select with nobody to send to and
`quit` not closed. -/
theorem listener_of_halted (hc : s.conns c = some x) {y : Listener}
    (hy : s.backlog.listeners c = some y) :
    (∃ e, y.pc = .wait (some e) ∧ (s.backlog.q.heap e).valid ≠ 0) ∨ y.pc = .closed ∨ y.pc = .quit ∨
      x.writer ≠ .range ∧ x.quit = false := by
  have hstep := fun quit => listenerStep_of_halted hp hlive hhalt quit hc
  unfold chatListenerStep at hstep
  rw [hy, Option.map_some] at hstep
  have hgo : ∀ {quit r}, listenerStep s.backlog.q quit y.pc = some r →
      queueAct L s.backlog (.listener c quit) ≠ none := by
    intro quit r hr
    simp only [queueAct, hy, hr]
    cases r <;> exact Option.some_ne_none _
  cases hpc : y.pc with
  | wait p =>
    rw [hpc] at hstep hgo
    cases p with
    | none => exact absurd (Option.map_eq_none_iff.mp (hstep false)) (hgo rfl)
    | some e =>
      refine .inl ⟨e, rfl, fun hvalid => ?_⟩
      exact hgo (by rw [listenerStep, if_pos hvalid]) (Option.map_eq_none_iff.mp (hstep false))
  | loop p =>
    rw [hpc] at hstep hgo
    refine absurd (Option.map_eq_none_iff.mp (hstep false)) ?_
    by_cases hstale : p = some staleEntry
    · exact hgo (by rw [listenerStep, if_pos hstale])
    · exact hgo (by rw [listenerStep, if_neg hstale])
  | readMsg e =>
    rw [hpc] at hstep hgo
    refine absurd (Option.map_eq_none_iff.mp (hstep false)) ?_
    cases hmsg : (s.backlog.q.heap e).msg with
    | none => exact hgo (by rw [listenerStep, hmsg])
    | some msg => exact hgo (by rw [listenerStep, hmsg])
  | select e msg =>
    rw [hpc] at hstep hgo
    refine .inr (.inr (.inr ⟨fun hw => ?_, ?_⟩))
    · have hsend := hstep false
      simp only [if_pos hw] at hsend
      exact absurd (Option.map_eq_none_iff.mp hsend) (hgo rfl)
    · by_contra hquit
      have hquits := hstep true
      simp only [if_pos (Bool.not_eq_false _ ▸ hquit)] at hquits
      exact absurd (Option.map_eq_none_iff.mp hquits) (hgo rfl)
  | closed => exact .inr (.inl rfl)
  | quit => exact .inr (.inr (.inl rfl))
  | _ =>
    rw [hpc] at hstep hgo
    exact absurd (Option.map_eq_none_iff.mp (hstep false)) (hgo rfl)

/-- A writer does not wait at a channel that is closed. -/
theorem not_closed_of_halted (hc : s.conns c = some x) (hw : x.writer = .range) {y : Listener}
    (hy : s.backlog.listeners c = some y) : y.pc ≠ .closed := by
  intro hpc
  have hwriter := writerStep_of_halted hp hlive hhalt true hc
  rw [writerStep, hw] at hwriter
  simp [hy, hpc] at hwriter

end Halted

/-- In a queue at rest only the last entry is not filled. -/
theorem QueueState.Shape.last_of_quiescent (h : q.Shape) (hq : q.Quiescent) {i : ℕ} {e : Addr}
    (he : q.IsEntry i e) (hvalid : (q.q.heap e).valid ≠ 0) : i = q.appenders.length := by
  rcases h.lt_or_eq he with hlt | heq
  · obtain ⟨t, d, ho, hd, -⟩ := h.exists_owner hlt
    have hfilled := h.valid i t d e ho hd he
    rw [hq t d hd] at hfilled
    exact absurd hfilled hvalid
  · exact heq

/-- In a queue at rest a listener that waits has handed over all that there is. -/
theorem caughtUp_of_waiting (h : (chatRun verbose L).Reachable s) (hq : s.backlog.Quiescent) {y : Listener}
    (hy : s.backlog.listeners c = some y) {e : Addr} (hpc : y.pc = .wait (some e))
    (hvalid : (s.backlog.q.heap e).valid ≠ 0) : CaughtUp s.backlog y := by
  refine ⟨⟨e, hpc⟩, ?_⟩
  have hqueue := backlog_path h
  have hfacts := (delivery_of_reaches hqueue c y hy).pc
  rw [hpc] at hfacts
  have hpos := (backlog_shape h).last_of_quiescent hq (hfacts.1 e rfl) hvalid
  have hcursor : s.backlog.log.cursors c = some y.cursor := congrArg (Option.map Listener.cursor) hy
  have hwindow := ((BroadcastLog.sound_of_reachable (log_reachable hqueue)).window c _ hcursor).got
  have hlength : (s.backlog.log.posts.drop y.start).length = y.cursor.got.length := by
    rw [List.length_drop, show y.cursor.got.length = y.sent.length from List.length_map _,
      show s.backlog.log.posts.length = s.backlog.appenders.length from List.length_map _]
    omega
  calc y.cursor.got = (s.backlog.log.posts.drop y.start).take y.cursor.got.length := hwindow
    _ = s.backlog.log.posts.drop y.start := by rw [← hlength, List.take_length]

/-- A client whose writer waits has been written what its listener has handed over. -/
theorem written_of_range (h : (chatRun verbose L).Reachable s) (hc : s.conns c = some x)
    (hw : x.writer = .range) {y : Listener} (hy : s.backlog.listeners c = some y) :
    x.written = y.cursor.got := by
  have hfacts := (written_of_reaches h c).2 x hc
  rw [WriterFacts, hw] at hfacts
  rw [show x.written = s.backlog.messages c from hfacts, QueueState.messages, hy]
  rfl

/-- A room that has come to a halt without a panic is at rest. -/
theorem atRest_of_halted (h : (chatRun verbose L).Reachable s) (hp : s.panic = none)
    (hlive : s.backlog.panic = none) (hhalt : (chatRun verbose L).Halted goes s) : AtRest s := by
  have hstaffed := staffed_of_reaches h
  have hlock := lock_of_halted hp hlive hhalt (lockOk_of_reaches h) (readLocked_of_reaches h)
  have hquiet := quiescent_of_halted hp hlive hhalt hlock hstaffed (called_of_reaches h)
  have hreader : ∀ c x, s.conns c = some x → x.reader = .read ∨ x.reader = .returned :=
    fun c x hc => reader_of_halted hp hlive hhalt hlock hstaffed hc
  have hwriter : ∀ c x, s.conns c = some x → x.writer = .range ∨ x.writer = .returned :=
    fun c x hc => writer_of_halted hp hlive hhalt hlock hstaffed hc
  have hlistener : ∀ c x, s.conns c = some x → ∃ y, s.backlog.listeners c = some y := by
    intro c x hc
    refine Option.ne_none_iff_exists'.mp ((hstaffed c x hc).2.listener.mp ?_)
    rcases hreader c x hc with hr | hr <;> rw [hr] <;> rfl
  refine ⟨hlock, fun k p hk => closer_of_halted hp hlive hhalt hlock.1 hk,
    fun d y hy => del_returned_of_halted hp hlive hhalt (T := .del d) hlock hy, hreader, hwriter, hquiet,
    ?_, ?_⟩
  · intro c x hc hclosed
    obtain ⟨hx, hserved⟩ := hstaffed c x hc
    have hopen : ¬x.closed = true := Bool.eq_false_iff.mp hclosed
    have hr : x.reader = .read := (hreader c x hc).resolve_right fun hr => hopen (hx.left (.inl hr))
    have hw : x.writer = .range := (hwriter c x hc).resolve_right fun hw => hopen (hx.ended hw)
    obtain ⟨y, hy⟩ := hlistener c x hc
    refine ⟨hr, y, hy, ?_⟩
    rw [written_of_range h hc hw hy]
    rcases listener_of_halted hp hlive hhalt hc hy with ⟨e, hpc, hvalid⟩ | hpc | hpc | ⟨hne, -⟩
    · exact (caughtUp_of_waiting h hquiet hy hpc hvalid).2
    · exact absurd hpc (not_closed_of_halted hp hlive hhalt hc hw hy)
    · exact absurd (hx.watched (.inr (hserved.quits (by rw [hy, Option.map_some, hpc])))) hopen
    · exact absurd hw hne
  · intro c x hc hclosed
    have hwatcher := watcher_of_halted hp hlive hhalt hlock hstaffed hc hclosed
    have hquit : x.quit = true := (hstaffed c x hc).1.told hwatcher
    obtain ⟨y, hy⟩ := hlistener c x hc
    refine ⟨hwatcher, hquit, y, hy, ?_⟩
    rcases listener_of_halted hp hlive hhalt hc hy with ⟨e, hpc, hvalid⟩ | hpc | hpc | ⟨-, hnot⟩
    · exact .waits (caughtUp_of_waiting h hquiet hy hpc hvalid)
    · exact .ended (.inl hpc)
        ((hwriter c x hc).resolve_left fun hw => not_closed_of_halted hp hlive hhalt hc hw hy hpc)
    · rcases hwriter c x hc with hw | hw
      · exact .orphan hpc hw
      · exact .ended (.inr hpc) hw
    · rw [hquit] at hnot
      cases hnot

/-- What becomes of a room that is left alone. -/
structure ComesToRest (M : Machine ChatroomState ChatroomAction) : Prop where
  /-- Its goroutines take boundedly many steps, whatever their order. -/
  bounded : ∀ s, M.Reachable s → ∃ n, ∀ k s', M.RunsFor goes k s s' → k ≤ n
  /-- They can take their steps until none is left. -/
  halts : ∀ s, M.Reachable s → ∃ k s', M.RunsFor goes k s s' ∧ M.Halted goes s'
  /-- Then, unless there has been a panic, no call is in progress and all that has been said is delivered. -/
  rests : ∀ s, M.Reachable s → s.panic = none → s.backlog.panic = none → M.Halted goes s → AtRest s

/-- **Rest**: every room comes to rest, and delivers what it has read before. -/
theorem room_comes_to_rest (verbose : Bool) (L : Limits) : ComesToRest (chatRun verbose L) where
  bounded := by
    intro s h
    obtain ⟨C, K, hknown⟩ := exists_known h
    exact ⟨s.work C K, fun k s' hrun => hrun.le work_lowers ⟨h, hknown⟩⟩
  halts := by
    intro s h
    obtain ⟨C, K, hknown⟩ := exists_known h
    exact Machine.exists_halted (Machine.ends_of_lowers work_lowers ⟨h, hknown⟩)
  rests := fun s h hp hlive hhalt => atRest_of_halted h hp hlive hhalt

end WebsocketHub
