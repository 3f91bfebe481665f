import WebsocketHub.QueueRun
import WebsocketHub.Client
import Mathlib.Data.List.AList

/-!
# WebsocketHub.Chatroom — one room of `hub/chatroom.go` with all its goroutines

Every client has its reader (`handleWebsocket`), the watcher and the writer that `l_addClient` spawns,
and a listener of the room's queue; the `Append`s of the readers, the calls of `chatroom.Close` and
the deletions these spawn come on top.  `chatRun` interleaves their single steps.

* What the network does is part of the action: a read yields a message or an error, a write succeeds
  or fails, at any time.
* A send on the unbuffered `msgs` is one step of the listener and the writer together.
* Who holds the lock (`RWMutex.owner`), `written`, `readerClose` and `writerClose` are history.
-/

namespace WebsocketHub

/-- A client of the room. -/
abbrev Cid := ℕ

/-- A goroutine that deletes a client, spawned by `chatroom.Close`. -/
abbrev Did := ℕ

/-- A call of `chatroom.Close`. -/
abbrev Kid := ℕ

/-- The goroutines that lock `clientsL` for writing. -/
inductive Thread
  | reader (c : Cid)
  | writer (c : Cid)
  | del (d : Did)
deriving DecidableEq, Repr

structure RWMutex where
  owner : Option Thread
  readers : ℕ
deriving DecidableEq, Repr

/-- The statement of `l_addClient` the reader stands at. -/
inductive AddPc
  /-- `cr.numclients.inc()` -/
  | inc
  /-- `cr.l.clientsL.Lock()` -/
  | lock
  /-- `cr.l.clients[id] = c` -/
  | insert
  /-- `cr.l.clientsL.Unlock()` -/
  | unlock
  /-- `go func() { c.WaitUntilClosed(); close(quit) }()` -/
  | watcher
  /-- `go func() { defer c.Close(); … }()` -/
  | writer
  /-- `cr.backlog.Listen(msgs, quit)` -/
  | listen
  /-- `cr.connectedclients.inc()` -/
  | count
deriving DecidableEq, Repr

/-- The statement of `l_delClient` a goroutine stands at. -/
inductive DelPc
  /-- `cr.l.clientsL.Lock()` -/
  | lock
  /-- `if _, ok := cr.l.clients[id]; !ok` -/
  | lookup
  /-- `c.raw.Close()` -/
  | rawClose
  /-- `delete(cr.l.clients, id)` -/
  | delete
  /-- `cr.connectedclients.dec()` -/
  | count
  /-- `cr.l.clientsL.Unlock()`, deferred -/
  | unlock
  | returned
deriving DecidableEq, Repr

/-- `handleWebsocket`, from its call of `l_addClient` on. -/
inductive ReaderPc
  | add (p : AddPc)
  /-- `c.readMessage()` -/
  | read
  /-- `cr.handleNewMsg(msg)`: the call `t` of `Append` -/
  | append (t : Tid)
  /-- after a read error: `c.Close()` -/
  | close (p : ClosePc)
  /-- `cr.l_delClient(id, c)` -/
  | del (p : DelPc)
  | returned
deriving DecidableEq, Repr

inductive WatcherPc
  | notSpawned
  /-- `c.WaitUntilClosed()` -/
  | wait
  /-- `close(quit)` -/
  | closeQuit
  | returned
deriving DecidableEq, Repr

inductive WriterPc
  | notSpawned
  /-- `for msg := range msgs` -/
  | range
  /-- `c.writeMessage(msg)`, in `l_sendToClient` -/
  | write (msg : Bytes)
  /-- `l_sendToClient` has failed: `cr.l_delClient(id, c)` -/
  | del (p : DelPc)
  /-- the deferred `c.Close()` -/
  | close (p : ClosePc)
  | returned
deriving DecidableEq, Repr

/-- A client, with the channels `closed` and `quit` (whether they are closed), its connection `raw`
(whether it is closed) and its goroutines. -/
structure Client where
  id : UInt32
  closed : Bool
  quit : Bool
  raw : Bool
  reader : ReaderPc
  watcher : WatcherPc
  writer : WriterPc
  written : List Bytes
  readerClose : Bool
  writerClose : Bool
deriving DecidableEq, Repr

/-- `makeClient`, about to be added to the room. -/
def makeClient : Client where
  id := 0
  closed := false
  quit := false
  raw := false
  reader := .add .inc
  watcher := .notSpawned
  writer := .notSpawned
  written := []
  readerClose := false
  writerClose := false

/-- A call of `l_delClient(id, c)`. -/
structure Deletion where
  id : UInt32
  client : Cid
  pc : DelPc
deriving DecidableEq, Repr

/-- A call of `chatroom.Close`; `spawn` has the entries of the map still to be visited. -/
inductive CloserPc
  /-- `cr.l.clientsL.RLock()` -/
  | rlock
  /-- `for id, c := range cr.l.clients { go cr.l_delClient(id, c) }`, then `RUnlock` -/
  | spawn (todo : List (UInt32 × Cid))
  | returned
deriving DecidableEq, Repr

structure ChatroomState where
  backlog : QueueState
  numclients : UInt32
  connectedclients : UInt32
  clientsL : RWMutex
  clients : AList (fun _ : UInt32 => Cid)
  conns : Cid → Option Client
  dels : Did → Option Deletion
  closers : Kid → Option CloserPc
  /-- the next call of `Append`, the next spawned deletion -/
  nextCall : Tid
  nextDel : Did
  panic : Option Panic

inductive ChatroomAction
  /-- `handleWebsocket` comes to the room with a new client -/
  | connect (c : Cid)
  /-- the next step of a reader; `input` is what a read yields -/
  | reader (c : Cid) (input : Option Bytes)
  | watcher (c : Cid)
  /-- the next step of a writer; `ok` is whether a write succeeds -/
  | writer (c : Cid) (ok : Bool)
  /-- the next step of a listener; `quit` is the case its select takes -/
  | listener (c : Cid) (quit : Bool)
  | del (d : Did)
  /-- a call of `chatroom.Close` -/
  | close (k : Kid)
  /-- the next step of such a call; the loop visits entry `i` of those left -/
  | closer (k : Kid) (i : ℕ)
deriving DecidableEq, Repr

/-- The actions that come from the server; the others are steps of the room's goroutines. -/
def ChatroomAction.ofServer : ChatroomAction → Bool
  | .connect _ => true
  | .close _ => true
  | _ => false

/-- Where a reader stands after a step of `c.Close()`, and of `l_delClient`. -/
def ReaderPc.ofClose : ClosePc → ReaderPc
  | .returned _ => .del .lock
  | p => .close p

def ReaderPc.ofDel : DelPc → ReaderPc
  | .returned => .returned
  | p => .del p

def ReaderPc.delPc : ReaderPc → Option DelPc
  | .del p => some p
  | _ => none

def WriterPc.delPc : WriterPc → Option DelPc
  | .del p => some p
  | _ => none

/-- Where a writer stands after a step of its deferred `c.Close()`, and of `l_delClient`. -/
def WriterPc.ofClose : ClosePc → WriterPc
  | .returned _ => .returned
  | p => .close p

def WriterPc.ofDel : DelPc → WriterPc
  | .returned => .close .check
  | p => .del p

/-- What a call of `c.Close()` has returned: whether the error is nil. -/
def ClosePc.result : ClosePc → Bool
  | .returned ok => ok
  | _ => false

namespace ChatroomState

def init : ChatroomState where
  backlog := QueueState.init
  numclients := 0
  connectedclients := 0
  clientsL := ⟨none, 0⟩
  clients := ∅
  conns := fun _ => none
  dels := fun _ => none
  closers := fun _ => none
  nextCall := 0
  nextDel := 0
  panic := none

variable (s : ChatroomState)

def setConn (c : Cid) (x : Client) : ChatroomState :=
  { s with conns := Function.update s.conns c (some x) }

/-- Change a client in place. -/
def onConn (c : Cid) (f : Client → Client) : ChatroomState :=
  { s with conns := Function.update s.conns c ((s.conns c).map f) }

/-- The call of `l_delClient` a goroutine is in. -/
def delAt : Thread → Option Deletion
  | .reader c => (s.conns c).bind fun x => x.reader.delPc.map fun p => ⟨x.id, c, p⟩
  | .writer c => (s.conns c).bind fun x => x.writer.delPc.map fun p => ⟨x.id, c, p⟩
  | .del d => s.dels d

/-- Move a goroutine that is in `l_delClient`. -/
def moveDel (p : DelPc) : Thread → ChatroomState
  | .reader c => s.onConn c fun x => { x with reader := .ofDel p }
  | .writer c => s.onConn c fun x => { x with writer := .ofDel p }
  | .del d => { s with dels := Function.update s.dels d ((s.dels d).map fun y => { y with pc := p }) }

/-- `clientsL` is free for a writer. -/
def canLock : Bool := s.clientsL.owner.isNone && s.clientsL.readers = 0

def lock (T : Thread) : ChatroomState := { s with clientsL := { s.clientsL with owner := some T } }

def unlock : ChatroomState := { s with clientsL := { s.clientsL with owner := none } }

end ChatroomState

open ChatroomState

variable (verbose : Bool) (L : Limits)

/-- The next step of `l_delClient(id, c)` in goroutine `T`, and where it leads. -/
def delStep (s : ChatroomState) (T : Thread) (y : Deletion) : Option (ChatroomState × DelPc) :=
  match y.pc with
  | .lock => if s.canLock then some (s.lock T, .lookup) else none
  | .lookup => some (s, if (s.clients.lookup y.id).isSome then .rawClose else .unlock)
  | .rawClose => some (s.onConn y.client fun x => { x with raw := true }, .delete)
  | .delete =>
    some ({ s with clients := s.clients.erase y.id }, if verbose then .count else .unlock)
  | .count =>
    some ({ s with connectedclients := SafeUint32.dec s.connectedclients }, .unlock)
  | .unlock => some (s.unlock, .returned)
  | .returned => none

/-- A goroutine in `l_delClient` takes its next step. -/
def runDel (s : ChatroomState) (T : Thread) : Option ChatroomState :=
  (s.delAt T).bind fun y => (delStep verbose s T y).map fun r => r.1.moveDel r.2 T

/-- The next step of `l_addClient` in the reader of `c`. -/
def addStep (s : ChatroomState) (c : Cid) (x : Client) : AddPc → Option ChatroomState
  | .inc =>
    some ({ s with numclients := SafeUint32.inc s.numclients }.setConn c
      { x with id := SafeUint32.inc s.numclients, reader := .add .lock })
  | .lock =>
    if s.canLock then some ((s.lock (.reader c)).setConn c { x with reader := .add .insert }) else none
  | .insert =>
    some ({ s with clients := s.clients.insert x.id c }.setConn c { x with reader := .add .unlock })
  | .unlock => some (s.unlock.setConn c { x with reader := .add .watcher })
  | .watcher => some (s.setConn c { x with watcher := .wait, reader := .add .writer })
  | .writer => some (s.setConn c { x with writer := .range, reader := .add .listen })
  | .listen =>
    (queueAct L s.backlog (.listen c)).map fun q =>
      { s with backlog := q }.setConn c { x with reader := if verbose then .add .count else .read }
  | .count =>
    some ({ s with connectedclients := SafeUint32.inc s.connectedclients }.setConn c
      { x with reader := .read })

/-- The next step of the reader of `c`. -/
def readerStep (s : ChatroomState) (c : Cid) (x : Client) (input : Option Bytes) :
    Option ChatroomState :=
  match x.reader with
  | .add p => addStep verbose L s c x p
  | .read =>
    match input with
    | none => some (s.setConn c { x with reader := .close .check })
    | some msg =>
      (queueAct L s.backlog (.append s.nextCall msg)).map fun q =>
        { s with backlog := q, nextCall := s.nextCall + 1 }.setConn c
          { x with reader := .append s.nextCall }
  | .append t =>
    if (s.backlog.calls t).map Call.pc = some .returned then
      some (s.setConn c { x with reader := .read })
    else (queueAct L s.backlog (.call t)).map fun q => { s with backlog := q }
  | .close p =>
    match closeStep x.closed p with
    | none => none
    | some (.error e) => some { s with panic := some e }
    | some (.ok (closed, p')) => some (s.setConn c
        { x with closed := closed, readerClose := p'.result, reader := .ofClose p' })
  | .del _ => runDel verbose s (.reader c)
  | .returned => none

def watcherStep (s : ChatroomState) (c : Cid) (x : Client) : Option ChatroomState :=
  match x.watcher with
  | .wait => if x.closed then some (s.setConn c { x with watcher := .closeQuit }) else none
  | .closeQuit => some (s.setConn c { x with quit := true, watcher := .returned })
  | _ => none

/-- The next step of the writer of `c`, but for receiving a message. -/
def writerStep (s : ChatroomState) (c : Cid) (x : Client) (ok : Bool) : Option ChatroomState :=
  match x.writer with
  | .notSpawned => none
  | .range =>
    -- out of sync: `msgs` is closed
    if (s.backlog.listeners c).map Listener.pc = some .closed then
      some (s.setConn c { x with writer := .close .check })
    else none
  | .write msg =>
    if ok then some (s.setConn c { x with writer := .range, written := x.written ++ [msg] })
    else some (s.setConn c { x with writer := .del .lock })
  | .del _ => runDel verbose s (.writer c)
  | .close p =>
    match closeStep x.closed p with
    | none => none
    | some (.error e) => some { s with panic := some e }
    | some (.ok (closed, p')) => some (s.setConn c
        { x with closed := closed, writerClose := p'.result, writer := .ofClose p' })
  | .returned => none

/-- The next step of the listener of `c`.  Its select quits once `quit` is closed, and sends when the
writer waits for a message. -/
def chatListenerStep (s : ChatroomState) (c : Cid) (x : Client) (quit : Bool) :
    Option ChatroomState :=
  match (s.backlog.listeners c).map Listener.pc, quit with
  | some (.select _ msg), false =>
    if x.writer = .range then
      (queueAct L s.backlog (.listener c false)).map fun q =>
        { s with backlog := q }.setConn c { x with writer := .write msg }
    else none
  | some (.select _ _), true =>
    if x.quit then (queueAct L s.backlog (.listener c true)).map fun q => { s with backlog := q }
    else none
  | _, _ => (queueAct L s.backlog (.listener c quit)).map fun q => { s with backlog := q }

def closerStep (s : ChatroomState) (k : Kid) (i : ℕ) : CloserPc → Option ChatroomState
  | .rlock =>
    if s.clientsL.owner.isNone then
      some { s with
        clientsL := { s.clientsL with readers := s.clientsL.readers + 1 }
        closers := Function.update s.closers k
          (some (.spawn (s.clients.entries.map fun e => (e.1, e.2)))) }
    else none
  | .spawn [] =>
    some { s with
      clientsL := { s.clientsL with readers := s.clientsL.readers - 1 }
      closers := Function.update s.closers k (some .returned) }
  | .spawn todo =>
    todo[i]?.map fun e =>
      { s with
        dels := Function.update s.dels s.nextDel (some ⟨e.1, e.2, .lock⟩)
        nextDel := s.nextDel + 1
        closers := Function.update s.closers k (some (.spawn (todo.eraseIdx i))) }
  | .returned => none

/-- What an action does in a room without a panic; `none` when it is not enabled. -/
def chatAct (s : ChatroomState) : ChatroomAction → Option ChatroomState
  | .connect c =>
    match s.conns c with
    | some _ => none
    | none => some (s.setConn c makeClient)
  | .reader c input => (s.conns c).bind fun x => readerStep verbose L s c x input
  | .watcher c => (s.conns c).bind fun x => watcherStep s c x
  | .writer c ok => (s.conns c).bind fun x => writerStep verbose s c x ok
  | .listener c quit => (s.conns c).bind fun x => chatListenerStep L s c x quit
  | .del d => runDel verbose s (.del d)
  | .close k =>
    match s.closers k with
    | some _ => none
    | none => some { s with closers := Function.update s.closers k (some .rlock) }
  | .closer k i => (s.closers k).bind fun p => closerStep s k i p

/-- A panic anywhere ends the run. -/
def chatNext (s : ChatroomState) (a : ChatroomAction) : Option ChatroomState :=
  match s.panic, s.backlog.panic with
  | none, none => chatAct verbose L s a
  | _, _ => none

def chatRun : Machine ChatroomState ChatroomAction where
  init := ChatroomState.init
  next := chatNext verbose L

/-- A client joins a silent room, up to its first read. -/
def joinSteps (c : Cid) : List ChatroomAction := .connect c :: List.replicate 7 (.reader c none)

/-- Client 0 says something, its own listener hands it to its writer, and the write fails: the writer
deletes the client and comes to its deferred `c.Close()`, the reader finds the connection closed. -/
def writeErrorSteps : List ChatroomAction :=
  joinSteps 0 ++ .reader 0 (some [7]) :: List.replicate 8 (.reader 0 none) ++
    List.replicate 5 (.listener 0 false) ++ List.replicate 6 (.writer 0 false) ++ [.reader 0 none]

end WebsocketHub
