import WebsocketHub.Chatroom

/-!
# WebsocketHub.ChatroomStep — what a step of the room can do

`ChatStep` has one constructor for each effect on the room; `chatStep_of_next` is the inversion of
`chatNext`.  The steps of `l_delClient` stay together in `runDel`, whichever goroutine takes them:
`DelMoves` is what they may change of a client.
-/

namespace WebsocketHub

open ChatroomState

section Defs

variable (verbose : Bool) (L : Limits)

/-- The steps of the room. -/
inductive ChatStep (s : ChatroomState) : ChatroomAction → ChatroomState → Prop
  | connect {c : Cid} (hc : s.conns c = none) : ChatStep s (.connect c) (s.setConn c makeClient)
  | addInc {c : Cid} {x : Client} {i : Option Bytes} (hc : s.conns c = some x)
      (hr : x.reader = .add .inc) : ChatStep s (.reader c i)
      ({ s with numclients := s.numclients + 1 }.setConn c
        { x with id := s.numclients + 1, reader := .add .lock })
  | addLock {c : Cid} {x : Client} {i : Option Bytes} (hc : s.conns c = some x)
      (hr : x.reader = .add .lock) (hfree : s.canLock = true) : ChatStep s (.reader c i)
      ((s.lock (.reader c)).setConn c { x with reader := .add .insert })
  | addInsert {c : Cid} {x : Client} {i : Option Bytes} (hc : s.conns c = some x)
      (hr : x.reader = .add .insert) : ChatStep s (.reader c i)
      ({ s with clients := s.clients.insert x.id c }.setConn c { x with reader := .add .unlock })
  | addUnlock {c : Cid} {x : Client} {i : Option Bytes} (hc : s.conns c = some x)
      (hr : x.reader = .add .unlock) : ChatStep s (.reader c i)
      (s.unlock.setConn c { x with reader := .add .watcher })
  | addWatcher {c : Cid} {x : Client} {i : Option Bytes} (hc : s.conns c = some x)
      (hr : x.reader = .add .watcher) : ChatStep s (.reader c i)
      (s.setConn c { x with watcher := .wait, reader := .add .writer })
  | addWriter {c : Cid} {x : Client} {i : Option Bytes} (hc : s.conns c = some x)
      (hr : x.reader = .add .writer) : ChatStep s (.reader c i)
      (s.setConn c { x with writer := .range, reader := .add .listen })
  | addListen {c : Cid} {x : Client} {i : Option Bytes} {q : QueueState} (hc : s.conns c = some x)
      (hr : x.reader = .add .listen) (hq : queueAct L s.backlog (.listen c) = some q) :
      ChatStep s (.reader c i) ({ s with backlog := q }.setConn c
        { x with reader := if verbose then .add .count else .read })
  | addCount {c : Cid} {x : Client} {i : Option Bytes} (hc : s.conns c = some x)
      (hr : x.reader = .add .count) : ChatStep s (.reader c i)
      ({ s with connectedclients := s.connectedclients + 1 }.setConn c { x with reader := .read })
  | readFails {c : Cid} {x : Client} (hc : s.conns c = some x) (hr : x.reader = .read) :
      ChatStep s (.reader c none) (s.setConn c { x with reader := .close .check })
  | readMsg {c : Cid} {x : Client} {m : Bytes} {q : QueueState} (hc : s.conns c = some x)
      (hr : x.reader = .read) (hq : queueAct L s.backlog (.append s.nextCall m) = some q) :
      ChatStep s (.reader c (some m)) ({ s with backlog := q, nextCall := s.nextCall + 1 }.setConn c
        { x with reader := .append s.nextCall })
  | appendStep {c : Cid} {x : Client} {i : Option Bytes} {t : Tid} {q : QueueState}
      (hc : s.conns c = some x) (hr : x.reader = .append t)
      (hq : queueAct L s.backlog (.call t) = some q) :
      ChatStep s (.reader c i) { s with backlog := q }
  | appendReturns {c : Cid} {x : Client} {i : Option Bytes} {t : Tid} (hc : s.conns c = some x)
      (hr : x.reader = .append t) (hret : (s.backlog.calls t).map Call.pc = some .returned) :
      ChatStep s (.reader c i) (s.setConn c { x with reader := .read })
  | readerCloses {c : Cid} {x : Client} {i : Option Bytes} {p p' : ClosePc} {closed : Bool}
      (hc : s.conns c = some x) (hr : x.reader = .close p)
      (h : closeStep x.closed p = some (.ok (closed, p'))) : ChatStep s (.reader c i)
      (s.setConn c { x with closed := closed, readerClose := p'.result, reader := .ofClose p' })
  | readerClosePanics {c : Cid} {x : Client} {i : Option Bytes} {p : ClosePc} {e : Panic}
      (hc : s.conns c = some x) (hr : x.reader = .close p)
      (h : closeStep x.closed p = some (.error e)) :
      ChatStep s (.reader c i) { s with panic := some e }
  | readerDel {c : Cid} {i : Option Bytes} {s' : ChatroomState}
      (h : runDel verbose s (.reader c) = some s') : ChatStep s (.reader c i) s'
  | watcherWait {c : Cid} {x : Client} (hc : s.conns c = some x) (hw : x.watcher = .wait)
      (hcl : x.closed = true) : ChatStep s (.watcher c) (s.setConn c { x with watcher := .closeQuit })
  | watcherQuit {c : Cid} {x : Client} (hc : s.conns c = some x) (hw : x.watcher = .closeQuit) :
      ChatStep s (.watcher c) (s.setConn c { x with quit := true, watcher := .returned })
  | writerEnds {c : Cid} {x : Client} {ok : Bool} (hc : s.conns c = some x) (hw : x.writer = .range)
      (h : (s.backlog.listeners c).map Listener.pc = some .closed) :
      ChatStep s (.writer c ok) (s.setConn c { x with writer := .close .check })
  | writeOk {c : Cid} {x : Client} {m : Bytes} (hc : s.conns c = some x) (hw : x.writer = .write m) :
      ChatStep s (.writer c true)
        (s.setConn c { x with writer := .range, written := x.written ++ [m] })
  | writeFails {c : Cid} {x : Client} {m : Bytes} (hc : s.conns c = some x)
      (hw : x.writer = .write m) :
      ChatStep s (.writer c false) (s.setConn c { x with writer := .del .lock })
  | writerDel {c : Cid} {ok : Bool} {s' : ChatroomState}
      (h : runDel verbose s (.writer c) = some s') : ChatStep s (.writer c ok) s'
  | writerCloses {c : Cid} {x : Client} {ok : Bool} {p p' : ClosePc} {closed : Bool}
      (hc : s.conns c = some x) (hw : x.writer = .close p)
      (h : closeStep x.closed p = some (.ok (closed, p'))) : ChatStep s (.writer c ok)
      (s.setConn c { x with closed := closed, writerClose := p'.result, writer := .ofClose p' })
  | writerClosePanics {c : Cid} {x : Client} {ok : Bool} {p : ClosePc} {e : Panic}
      (hc : s.conns c = some x) (hw : x.writer = .close p)
      (h : closeStep x.closed p = some (.error e)) :
      ChatStep s (.writer c ok) { s with panic := some e }
  | send {c : Cid} {x : Client} {e : Addr} {m : Bytes} {q : QueueState} (hc : s.conns c = some x)
      (hl : (s.backlog.listeners c).map Listener.pc = some (.select e m)) (hw : x.writer = .range)
      (hq : queueAct L s.backlog (.listener c false) = some q) : ChatStep s (.listener c false)
      ({ s with backlog := q }.setConn c { x with writer := .write m })
  | listens {c : Cid} {quit : Bool} {q : QueueState}
      (hl : ∀ e m, quit = false → (s.backlog.listeners c).map Listener.pc ≠ some (.select e m))
      (hq : queueAct L s.backlog (.listener c quit) = some q) :
      ChatStep s (.listener c quit) { s with backlog := q }
  | del {d : Did} {s' : ChatroomState} (h : runDel verbose s (.del d) = some s') :
      ChatStep s (.del d) s'
  | close {k : Kid} (hk : s.closers k = none) : ChatStep s (.close k)
      { s with closers := Function.update s.closers k (some .rlock) }
  | rlock {k : Kid} {i : ℕ} (hk : s.closers k = some .rlock) (hfree : s.clientsL.owner = none) :
      ChatStep s (.closer k i) { s with
        clientsL := { s.clientsL with readers := s.clientsL.readers + 1 }
        closers := Function.update s.closers k
          (some (.spawn (s.clients.entries.map fun e => (e.1, e.2)))) }
  | runlock {k : Kid} {i : ℕ} (hk : s.closers k = some (.spawn [])) : ChatStep s (.closer k i)
      { s with
        clientsL := { s.clientsL with readers := s.clientsL.readers - 1 }
        closers := Function.update s.closers k (some .returned) }
  | spawn {k : Kid} {i : ℕ} {todo : List (UInt32 × Cid)} {e : UInt32 × Cid}
      (hk : s.closers k = some (.spawn todo)) (hi : todo[i]? = some e) : ChatStep s (.closer k i)
      { s with
        dels := Function.update s.dels s.nextDel (some ⟨e.1, e.2, .lock⟩)
        nextDel := s.nextDel + 1
        closers := Function.update s.closers k (some (.spawn (todo.eraseIdx i))) }

end Defs

variable {verbose : Bool} {L : Limits} {s s' : ChatroomState} {a : ChatroomAction} {c : Cid}
  {x : Client}

theorem chatStep_of_add {i : Option Bytes} {p : AddPc} (hc : s.conns c = some x)
    (hr : x.reader = .add p) (h : addStep verbose L s c x p = some s') :
    ChatStep verbose L s (.reader c i) s' := by
  cases p with
  | inc =>
    obtain rfl := Option.some.inj h
    exact .addInc hc hr
  | lock =>
    by_cases hfree : s.canLock = true
    · rw [addStep, if_pos hfree] at h
      obtain rfl := Option.some.inj h
      exact .addLock hc hr hfree
    · rw [addStep, if_neg hfree] at h
      cases h
  | insert =>
    obtain rfl := Option.some.inj h
    exact .addInsert hc hr
  | unlock =>
    obtain rfl := Option.some.inj h
    exact .addUnlock hc hr
  | watcher =>
    obtain rfl := Option.some.inj h
    exact .addWatcher hc hr
  | writer =>
    obtain rfl := Option.some.inj h
    exact .addWriter hc hr
  | listen =>
    obtain ⟨q, hq, rfl⟩ := Option.map_eq_some_iff.mp h
    exact .addListen hc hr hq
  | count =>
    obtain rfl := Option.some.inj h
    rw [SafeUint32.inc_eq]
    exact .addCount hc hr

theorem chatStep_of_reader {i : Option Bytes} (hc : s.conns c = some x)
    (h : readerStep verbose L s c x i = some s') : ChatStep verbose L s (.reader c i) s' := by
  unfold readerStep at h
  cases hr : x.reader with
  | add p =>
    rw [hr] at h
    exact chatStep_of_add hc hr h
  | read =>
    rw [hr] at h
    cases i with
    | none =>
      obtain rfl := Option.some.inj h
      exact .readFails hc hr
    | some m =>
      obtain ⟨q, hq, rfl⟩ := Option.map_eq_some_iff.mp h
      exact .readMsg hc hr hq
  | append t =>
    rw [hr] at h
    dsimp only at h
    split at h
    · next hret =>
      obtain rfl := Option.some.inj h
      exact .appendReturns hc hr hret
    · obtain ⟨q, hq, rfl⟩ := Option.map_eq_some_iff.mp h
      exact .appendStep hc hr hq
  | close p =>
    rw [hr] at h
    dsimp only at h
    split at h
    · cases h
    · next e he =>
      obtain rfl := Option.some.inj h
      exact .readerClosePanics hc hr he
    · next closed p' hp =>
      obtain rfl := Option.some.inj h
      exact .readerCloses hc hr hp
  | del p =>
    rw [hr] at h
    exact .readerDel h
  | returned =>
    rw [hr] at h
    cases h

theorem chatStep_of_writer {ok : Bool} (hc : s.conns c = some x)
    (h : writerStep verbose s c x ok = some s') : ChatStep verbose L s (.writer c ok) s' := by
  unfold writerStep at h
  cases hw : x.writer with
  | notSpawned =>
    rw [hw] at h
    cases h
  | range =>
    rw [hw] at h
    dsimp only at h
    split at h
    · next hcl =>
      obtain rfl := Option.some.inj h
      exact .writerEnds hc hw hcl
    · cases h
  | write m =>
    rw [hw] at h
    cases ok with
    | true =>
      obtain rfl := Option.some.inj h
      exact .writeOk hc hw
    | false =>
      obtain rfl := Option.some.inj h
      exact .writeFails hc hw
  | del p =>
    rw [hw] at h
    exact .writerDel h
  | close p =>
    rw [hw] at h
    dsimp only at h
    split at h
    · cases h
    · next e he =>
      obtain rfl := Option.some.inj h
      exact .writerClosePanics hc hw he
    · next closed p' hp =>
      obtain rfl := Option.some.inj h
      exact .writerCloses hc hw hp
  | returned =>
    rw [hw] at h
    cases h

theorem chatStep_of_listener {quit : Bool} (hc : s.conns c = some x)
    (h : chatListenerStep L s c x quit = some s') :
    ChatStep verbose L s (.listener c quit) s' := by
  unfold chatListenerStep at h
  split at h
  · next e m hl =>
    split at h
    · next hw =>
      obtain ⟨q, hq, rfl⟩ := Option.map_eq_some_iff.mp h
      exact .send hc hl hw hq
    · cases h
  · next e m hl =>
    split at h
    · obtain ⟨q, hq, rfl⟩ := Option.map_eq_some_iff.mp h
      exact .listens (by simp) hq
    · cases h
  · next h1 h2 =>
    obtain ⟨q, hq, rfl⟩ := Option.map_eq_some_iff.mp h
    exact .listens (fun e m hquit heq => h1 e m heq hquit) hq

theorem chatStep_of_closer {k : Kid} {i : ℕ} {p : CloserPc} (hk : s.closers k = some p)
    (h : closerStep s k i p = some s') : ChatStep verbose L s (.closer k i) s' := by
  cases p with
  | rlock =>
    by_cases hfree : s.clientsL.owner.isNone = true
    · rw [closerStep, if_pos hfree] at h
      obtain rfl := Option.some.inj h
      exact .rlock hk (Option.isNone_iff_eq_none.mp hfree)
    · rw [closerStep, if_neg hfree] at h
      cases h
  | spawn todo =>
    cases todo with
    | nil =>
      obtain rfl := Option.some.inj h
      exact .runlock hk
    | cons e todo =>
      obtain ⟨e', he, rfl⟩ := Option.map_eq_some_iff.mp h
      exact .spawn hk he
  | returned => cases h

/-- **Inversion** of the room's step. -/
theorem chatStep_of_next (h : chatNext verbose L s a = some s') :
    s.panic = none ∧ s.backlog.panic = none ∧ ChatStep verbose L s a s' := by
  unfold chatNext at h
  split at h
  · next hp hq =>
    refine ⟨hp, hq, ?_⟩
    cases a with
    | connect c =>
      cases hc : s.conns c with
      | some x => simp [chatAct, hc] at h
      | none =>
        simp only [chatAct, hc, Option.some.injEq] at h
        subst h
        exact .connect hc
    | reader c i =>
      obtain ⟨x, hc, hx⟩ := Option.bind_eq_some_iff.mp h
      exact chatStep_of_reader hc hx
    | watcher c =>
      obtain ⟨x, hc, hx⟩ := Option.bind_eq_some_iff.mp h
      unfold watcherStep at hx
      split at hx
      · next hw =>
        split at hx
        · next hcl =>
          obtain rfl := Option.some.inj hx
          exact .watcherWait hc hw hcl
        · cases hx
      · next hw =>
        obtain rfl := Option.some.inj hx
        exact .watcherQuit hc hw
      · cases hx
    | writer c ok =>
      obtain ⟨x, hc, hx⟩ := Option.bind_eq_some_iff.mp h
      exact chatStep_of_writer hc hx
    | listener c quit =>
      obtain ⟨x, hc, hx⟩ := Option.bind_eq_some_iff.mp h
      exact chatStep_of_listener hc hx
    | del d => exact .del h
    | close k =>
      cases hk : s.closers k with
      | some p => simp [chatAct, hk] at h
      | none =>
        simp only [chatAct, hk, Option.some.injEq] at h
        subst h
        exact .close hk
    | closer k i =>
      obtain ⟨p, hk, hx⟩ := Option.bind_eq_some_iff.mp h
      exact chatStep_of_closer hk hx
  · cases h

/-! ## The deletions -/

namespace ChatroomState

theorem conns_setConn (c' : Cid) :
    (s.setConn c x).conns c' = if c' = c then some x else s.conns c' :=
  Function.update_apply s.conns c (some x) c'

theorem conns_onConn (f : Client → Client) (c' : Cid) :
    (s.onConn c f).conns c' = if c' = c then (s.conns c).map f else s.conns c' :=
  Function.update_apply s.conns c ((s.conns c).map f) c'

@[simp] theorem moveDel_backlog (p : DelPc) (T : Thread) : (s.moveDel p T).backlog = s.backlog := by
  cases T <;> rfl

@[simp] theorem moveDel_panic (p : DelPc) (T : Thread) : (s.moveDel p T).panic = s.panic := by
  cases T <;> rfl

@[simp] theorem moveDel_nextCall (p : DelPc) (T : Thread) :
    (s.moveDel p T).nextCall = s.nextCall := by
  cases T <;> rfl

@[simp] theorem moveDel_clients (p : DelPc) (T : Thread) : (s.moveDel p T).clients = s.clients := by
  cases T <;> rfl

@[simp] theorem moveDel_clientsL (p : DelPc) (T : Thread) :
    (s.moveDel p T).clientsL = s.clientsL := by
  cases T <;> rfl

@[simp] theorem moveDel_closers (p : DelPc) (T : Thread) : (s.moveDel p T).closers = s.closers := by
  cases T <;> rfl

end ChatroomState

/-- What a step of `l_delClient` may change of a client: it closes the connection, and the client's
own goroutines move on. -/
structure DelMoves (x x' : Client) : Prop where
  id : x'.id = x.id
  closed : x'.closed = x.closed
  written : x'.written = x.written
  readerClose : x'.readerClose = x.readerClose
  writerClose : x'.writerClose = x.writerClose
  raw : x.raw = true → x'.raw = true
  reader : x'.reader = x.reader ∨ ∃ p p', x.reader = .del p ∧ x'.reader = .ofDel p'
  writer : x'.writer = x.writer ∨ ∃ p p', x.writer = .del p ∧ x'.writer = .ofDel p'

theorem DelMoves.refl (x : Client) : DelMoves x x :=
  ⟨rfl, rfl, rfl, rfl, rfl, fun h => h, .inl rfl, .inl rfl⟩

variable {T : Thread} {y : Deletion} {m : ChatroomState} {p : DelPc}

/-- The steps of `l_delClient` in goroutine `T`. -/
inductive DelStep (verbose : Bool) (s : ChatroomState) (T : Thread) (y : Deletion) :
    ChatroomState → DelPc → Prop
  | lock (hpc : y.pc = .lock) (hfree : s.canLock = true) : DelStep verbose s T y (s.lock T) .lookup
  | found (hpc : y.pc = .lookup) (h : (s.clients.lookup y.id).isSome = true) :
      DelStep verbose s T y s .rawClose
  | absent (hpc : y.pc = .lookup) (h : s.clients.lookup y.id = none) : DelStep verbose s T y s .unlock
  | rawClose (hpc : y.pc = .rawClose) : DelStep verbose s T y
      (s.onConn y.client fun x => { x with raw := true }) .delete
  | delete (hpc : y.pc = .delete) : DelStep verbose s T y
      { s with clients := s.clients.erase y.id } (if verbose then .count else .unlock)
  | count (hpc : y.pc = .count) : DelStep verbose s T y
      { s with connectedclients := SafeUint32.dec s.connectedclients } .unlock
  | unlock (hpc : y.pc = .unlock) : DelStep verbose s T y s.unlock .returned

theorem delStep_cases (h : delStep verbose s T y = some (m, p)) : DelStep verbose s T y m p := by
  unfold delStep at h
  split at h
  · next hpc =>
    split at h
    · next hfree =>
      cases h
      exact .lock hpc hfree
    · cases h
  · next hpc =>
    cases hl : s.clients.lookup y.id with
    | none =>
      rw [hl] at h
      cases h
      exact .absent hpc hl
    | some c =>
      rw [hl] at h
      cases h
      exact .found hpc (by rw [hl]; rfl)
  · next hpc =>
    cases h
    exact .rawClose hpc
  · next hpc =>
    cases h
    exact .delete hpc
  · next hpc =>
    cases h
    exact .count hpc
  · next hpc =>
    cases h
    exact .unlock hpc
  · cases h

/-- What `l_delClient` itself does to the clients: it closes a connection. -/
theorem DelStep.conn (h : DelStep verbose s T y m p) {c : Cid} {x' : Client}
    (hc : m.conns c = some x') : ∃ x, s.conns c = some x ∧ (x' = x ∨ x' = { x with raw := true }) := by
  cases h with
  | rawClose hpc =>
    rw [conns_onConn] at hc
    split at hc
    · next heq =>
      obtain ⟨x, hx, rfl⟩ := Option.map_eq_some_iff.mp hc
      exact ⟨x, heq ▸ hx, .inr rfl⟩
    · exact ⟨x', hc, .inl rfl⟩
  | lock hpc hfree => exact ⟨x', hc, .inl rfl⟩
  | found hpc hl => exact ⟨x', hc, .inl rfl⟩
  | absent hpc hl => exact ⟨x', hc, .inl rfl⟩
  | delete hpc => exact ⟨x', hc, .inl rfl⟩
  | count hpc => exact ⟨x', hc, .inl rfl⟩
  | unlock hpc => exact ⟨x', hc, .inl rfl⟩

/-- What it leaves alone. -/
theorem DelStep.frame (h : DelStep verbose s T y m p) :
    m.backlog = s.backlog ∧ m.panic = s.panic ∧ m.nextCall = s.nextCall ∧ m.dels = s.dels ∧
      m.closers = s.closers := by
  cases h <;> exact ⟨rfl, rfl, rfl, rfl, rfl⟩

theorem runDel_cases (h : runDel verbose s T = some s') :
    ∃ y m p, s.delAt T = some y ∧ DelStep verbose s T y m p ∧ s' = m.moveDel p T := by
  obtain ⟨y, hy, h1⟩ := Option.bind_eq_some_iff.mp h
  obtain ⟨⟨m, p⟩, hm, rfl⟩ := Option.map_eq_some_iff.mp h1
  exact ⟨y, m, p, hy, delStep_cases hm, rfl⟩

theorem delAt_reader : s.delAt (.reader c) = some y ↔
    ∃ x p, s.conns c = some x ∧ x.reader = .del p ∧ y = ⟨x.id, c, p⟩ := by
  constructor
  · intro h
    obtain ⟨x, hx, h1⟩ := Option.bind_eq_some_iff.mp h
    obtain ⟨p, hp, rfl⟩ := Option.map_eq_some_iff.mp h1
    refine ⟨x, p, hx, ?_, rfl⟩
    unfold ReaderPc.delPc at hp
    split at hp
    · next heq => rw [heq, Option.some.inj hp]
    · cases hp
  · rintro ⟨x, p, hx, hp, rfl⟩
    simp [delAt, hx, hp, ReaderPc.delPc]

theorem delAt_writer : s.delAt (.writer c) = some y ↔
    ∃ x p, s.conns c = some x ∧ x.writer = .del p ∧ y = ⟨x.id, c, p⟩ := by
  constructor
  · intro h
    obtain ⟨x, hx, h1⟩ := Option.bind_eq_some_iff.mp h
    obtain ⟨p, hp, rfl⟩ := Option.map_eq_some_iff.mp h1
    refine ⟨x, p, hx, ?_, rfl⟩
    unfold WriterPc.delPc at hp
    split at hp
    · next heq => rw [heq, Option.some.inj hp]
    · cases hp
  · rintro ⟨x, p, hx, hp, rfl⟩
    simp [delAt, hx, hp, WriterPc.delPc]

/-- **Frame** of `l_delClient`, client by client. -/
theorem runDel_conn (h : runDel verbose s T = some s') {c : Cid} {x' : Client}
    (hc : s'.conns c = some x') : ∃ x, s.conns c = some x ∧ DelMoves x x' := by
  obtain ⟨y, m, p, hy, hm, rfl⟩ := runDel_cases h
  have hstep : ∀ x₁, m.conns c = some x₁ → ∃ x, s.conns c = some x ∧ DelMoves x x₁ ∧
      x₁.reader = x.reader ∧ x₁.writer = x.writer := by
    intro x₁ h1
    obtain ⟨x, hx, rfl | rfl⟩ := hm.conn h1
    · exact ⟨x₁, hx, .refl x₁, rfl, rfl⟩
    · exact ⟨x, hx, { DelMoves.refl x with raw := fun _ => rfl }, rfl, rfl⟩
  cases T with
  | reader d =>
    rw [moveDel, conns_onConn] at hc
    split at hc
    · next heq =>
      subst heq
      obtain ⟨x₁, h1, rfl⟩ := Option.map_eq_some_iff.mp hc
      obtain ⟨x, hx, hf, hr, -⟩ := hstep x₁ h1
      obtain ⟨x₂, p₂, hx₂, hp₂, -⟩ := delAt_reader.mp hy
      obtain rfl := Option.some.inj (hx.symm.trans hx₂)
      exact ⟨x, hx, { hf with reader := .inr ⟨p₂, p, hp₂, rfl⟩ }⟩
    · obtain ⟨x, hx, hf, -⟩ := hstep x' hc
      exact ⟨x, hx, hf⟩
  | writer d =>
    rw [moveDel, conns_onConn] at hc
    split at hc
    · next heq =>
      subst heq
      obtain ⟨x₁, h1, rfl⟩ := Option.map_eq_some_iff.mp hc
      obtain ⟨x, hx, hf, -, hw⟩ := hstep x₁ h1
      obtain ⟨x₂, p₂, hx₂, hp₂, -⟩ := delAt_writer.mp hy
      obtain rfl := Option.some.inj (hx.symm.trans hx₂)
      exact ⟨x, hx, { hf with writer := .inr ⟨p₂, p, hp₂, rfl⟩ }⟩
    · obtain ⟨x, hx, hf, -⟩ := hstep x' hc
      exact ⟨x, hx, hf⟩
  | del d =>
    obtain ⟨x, hx, hf, -⟩ := hstep x' hc
    exact ⟨x, hx, hf⟩

theorem runDel_isSome (h : runDel verbose s T = some s') (c : Cid) :
    (s'.conns c).isSome = (s.conns c).isSome := by
  obtain ⟨y, m, p, -, hm, rfl⟩ := runDel_cases h
  have hconn : ∀ (s : ChatroomState) (d : Cid) (f : Client → Client),
      ((s.onConn d f).conns c).isSome = (s.conns c).isSome := by
    intro s d f
    rw [conns_onConn]
    split
    · next heq => rw [Option.isSome_map, heq]
    · rfl
  have hstep : (m.conns c).isSome = (s.conns c).isSome := by
    cases hm with
    | rawClose hpc => exact hconn s _ _
    | _ => rfl
  cases T with
  | reader d => exact (hconn m _ _).trans hstep
  | writer d => exact (hconn m _ _).trans hstep
  | del d => exact hstep

theorem runDel_conn_of (h : runDel verbose s T = some s') (hc : s.conns c = some x) :
    ∃ x', s'.conns c = some x' ∧ DelMoves x x' := by
  obtain ⟨x', hx'⟩ : ∃ x', s'.conns c = some x' := by
    rw [← Option.isSome_iff_exists, runDel_isSome h, hc]
    rfl
  obtain ⟨x₀, hx₀, hm⟩ := runDel_conn h hx'
  obtain rfl := Option.some.inj (hc.symm.trans hx₀)
  exact ⟨x', hx', hm⟩

theorem runDel_frame (h : runDel verbose s T = some s') :
    s'.backlog = s.backlog ∧ s'.panic = s.panic ∧ s'.nextCall = s.nextCall ∧
      s'.closers = s.closers := by
  obtain ⟨y, m, p, -, hm, rfl⟩ := runDel_cases h
  obtain ⟨h1, h2, h3, -, h4⟩ := hm.frame
  exact ⟨(moveDel_backlog p T).trans h1, (moveDel_panic p T).trans h2,
    (moveDel_nextCall p T).trans h3, (moveDel_closers p T).trans h4⟩

/-! ## The writer starts once -/

/-- `l_addClient` has spawned the writer. -/
def ReaderPc.spawned : ReaderPc → Bool
  | .add .listen => true
  | .add .count => true
  | .add _ => false
  | _ => true

/-- A writer has been spawned by its reader. -/
def Spawned (s : ChatroomState) : Prop :=
  ∀ c x, s.conns c = some x → x.reader.spawned = false → x.writer = .notSpawned

namespace Spawned

/-- A step that changes one client. -/
theorem set {x' : Client} (h : Spawned s) (hconns : s'.conns = Function.update s.conns c (some x'))
    (hx : x'.reader.spawned = false → x'.writer = .notSpawned) : Spawned s' := by
  intro c₁ x₁ h₁
  rw [hconns, Function.update_apply] at h₁
  split at h₁
  · obtain rfl := Option.some.inj h₁
    exact hx
  · exact h c₁ x₁ h₁

/-- A step of a reader that leaves the writer alone. -/
theorem reader {x' : Client} (h : Spawned s) (hc : s.conns c = some x)
    (hconns : s'.conns = Function.update s.conns c (some x')) (hw : x'.writer = x.writer)
    (hr : x'.reader.spawned = false → x.reader.spawned = false) : Spawned s' :=
  h.set hconns fun hf => hw.trans (h c x hc (hr hf))

/-- A step of a writer. -/
theorem writer {x' : Client} (h : Spawned s) (hc : s.conns c = some x)
    (hconns : s'.conns = Function.update s.conns c (some x')) (hr : x'.reader = x.reader)
    (hw : x.writer ≠ .notSpawned) : Spawned s' :=
  h.set hconns fun hf => absurd (h c x hc (hr ▸ hf)) hw

theorem del (h : Spawned s) (hd : runDel verbose s T = some s') : Spawned s' := by
  intro c x' hc hf
  obtain ⟨x, hx, hm⟩ := runDel_conn hd hc
  have hr : x.reader.spawned = false := by
    rcases hm.reader with heq | ⟨p, p', hp, hp'⟩
    · rw [← heq]
      exact hf
    · rw [hp'] at hf
      cases p' <;> cases hf
  rcases hm.writer with heq | ⟨p, p', hp, -⟩
  · exact heq.trans (h c x hx hr)
  · have := h c x hx hr
    rw [hp] at this
    cases this

/-- **Step lemma**. -/
theorem step (h : Spawned s) (hs : ChatStep verbose L s a s') : Spawned s' := by
  cases hs with
  | connect hc => exact h.set rfl fun _ => rfl
  | addInc hc hr => exact h.reader hc rfl rfl fun _ => by rw [hr]; rfl
  | addLock hc hr hfree => exact h.reader hc rfl rfl fun _ => by rw [hr]; rfl
  | addInsert hc hr => exact h.reader hc rfl rfl fun _ => by rw [hr]; rfl
  | addUnlock hc hr => exact h.reader hc rfl rfl fun _ => by rw [hr]; rfl
  | addWatcher hc hr => exact h.reader hc rfl rfl fun _ => by rw [hr]; rfl
  | addWriter hc hr => exact h.set rfl fun hf => by cases hf
  | addListen hc hr hq =>
    refine h.reader hc rfl rfl fun hf => ?_
    dsimp only at hf
    split at hf <;> cases hf
  | addCount hc hr => exact h.reader hc rfl rfl fun hf => by cases hf
  | readFails hc hr => exact h.reader hc rfl rfl fun hf => by cases hf
  | readMsg hc hr hq => exact h.reader hc rfl rfl fun hf => by cases hf
  | appendReturns hc hr hret => exact h.reader hc rfl rfl fun hf => by cases hf
  | readerCloses hc hr hstep =>
    refine h.reader hc rfl rfl fun hf => ?_
    rename_i p' _
    cases p' <;> cases hf
  | watcherWait hc hw hcl => exact h.reader hc rfl rfl fun hf => hf
  | watcherQuit hc hw => exact h.reader hc rfl rfl fun hf => hf
  | writerEnds hc hw hl => exact h.writer hc rfl rfl (by rw [hw]; simp)
  | writeOk hc hw => exact h.writer hc rfl rfl (by rw [hw]; simp)
  | writeFails hc hw => exact h.writer hc rfl rfl (by rw [hw]; simp)
  | writerCloses hc hw hstep => exact h.writer hc rfl rfl (by rw [hw]; simp)
  | send hc hl hw hq => exact h.writer hc rfl rfl (by rw [hw]; simp)
  | readerDel hd => exact h.del hd
  | writerDel hd => exact h.del hd
  | del hd => exact h.del hd
  | _ => exact h

end Spawned

theorem spawned_of_reaches {ok : ChatroomState → ChatroomAction → Prop}
    (h : (chatRun verbose L).Reaches ok s) : Spawned s := by
  refine h.invariant (I := Spawned) (fun c x hc => by cases hc) ?_
  intro s a s' hI _ hn
  exact hI.step (chatStep_of_next hn).2.2

/-! ## Every spawned deletion is a new one -/

/-- `nextDel` is not used yet. -/
def NewDel (s : ChatroomState) : Prop := ∀ d, s.nextDel ≤ d → s.dels d = none

theorem runDel_dels (h : runDel verbose s T = some s') (d : Did) :
    ((s'.dels d).isSome = (s.dels d).isSome) ∧ s'.nextDel = s.nextDel := by
  obtain ⟨y, m, p, -, hm, rfl⟩ := runDel_cases h
  have hnext : m.nextDel = s.nextDel := by cases hm <;> rfl
  have hdels := hm.frame.2.2.2.1
  cases T with
  | reader c => exact ⟨congrArg (fun f => (f d).isSome) hdels, hnext⟩
  | writer c => exact ⟨congrArg (fun f => (f d).isSome) hdels, hnext⟩
  | del e =>
    refine ⟨?_, hnext⟩
    simp only [moveDel, Function.update_apply, hdels]
    split
    · next heq => rw [Option.isSome_map, heq]
    · rfl

theorem NewDel.step (h : NewDel s) (hs : ChatStep verbose L s a s') :
    NewDel s' := by
  have hdel : ∀ {T}, runDel verbose s T = some s' → NewDel s' := by
    intro T hd d hle
    obtain ⟨hsome, hnext⟩ := runDel_dels hd d
    have hnone := h d (hnext ▸ hle)
    rw [← Option.isNone_iff_eq_none, ← Option.not_isSome, hsome, hnone]
    rfl
  cases hs with
  | readerDel hd => exact hdel hd
  | writerDel hd => exact hdel hd
  | del hd => exact hdel hd
  | spawn hk hi =>
    intro d hle
    have hlt : s.nextDel < d := hle
    exact (Function.update_of_ne (Nat.ne_of_gt hlt) _ _).trans (h d (Nat.le_of_lt hlt))
  | _ => exact h

theorem newDel_of_reaches {ok : ChatroomState → ChatroomAction → Prop}
    (h : (chatRun verbose L).Reaches ok s) : NewDel s :=
  h.invariant (I := NewDel) (fun _ _ => rfl) fun _ _ _ hI _ hn => hI.step (chatStep_of_next hn).2.2

end WebsocketHub
