import WebsocketHub.ChatroomStep
import Mathlib.Data.Finset.Insert
import Mathlib.Data.Finset.Erase

/-!
# WebsocketHub.Server — `hub/groupchatserver.go`: all rooms, their cache and their names

The server's state has every room ever made, with its goroutines (`chatRun`), and the cache `s.rooms`,
an association list in the order of use.  What `lrucache` does is fixed only as far as the code relies
on it: `Get` yields the cached room or makes one through `OnMiss`; when there are too many, one room
that `mayEvict` allows leaves the cache and its `OnPurge` is called.

* A goroutine started by `go` is in a list until it runs; any of those may run next.
* `OnPurge` has two effects, each of which takes its time: the operation on `roomNames` and the call
  of `Close`, which is the room's `closers 0`.
* A room name is a string of Go, any sequence of bytes.
-/

namespace WebsocketHub

/-- A room, by the order in which the rooms are made. -/
abbrev RoomId := ℕ

/-- The call of `chatroom.Close` in `OnPurge`. -/
abbrev purgeCall : Kid := 0

/-- What the server is started with; `names` are the cached rooms, the one used last first. -/
structure ServerConfig where
  verbose : Bool
  backlog : Limits
  numRooms : ℕ
  numRooms_pos : 1 ≤ numRooms
  /-- whether `lrucache` may remove the room `name` -/
  mayEvict : (names : List Bytes) → (name : Bytes) → Bool

structure Room where
  name : Bytes
  chat : ChatroomState

/-- Only the room used least recently may be removed. -/
def leastRecentlyUsed (names : List Bytes) (name : Bytes) : Bool := names.getLast? = some name

/-- An operation on `roomNames`. -/
inductive RoomNameOp
  | add (name : Bytes)
  | remove (name : Bytes)
deriving DecidableEq, Repr

/-- What `websocket.Upgrade` returns. -/
inductive Upgrade
  | conn
  | handshakeError
  | otherError
deriving DecidableEq, Repr

/-- `http.Error(w, text, code)`. -/
structure HttpError where
  text : String
  code : ℕ
deriving DecidableEq, Repr

structure ServerState where
  rooms : List Room
  cache : AList (fun _ : Bytes => RoomId)
  roomNames : Finset Bytes
  /-- `go s.handleWebsocket(roomname, ws)`, not yet at its `rooms.Get` -/
  joins : List Bytes
  /-- `go s.roomNames.Add(roomname)` and `go cr.server.roomNames.Remove(cr.name)` -/
  ops : List RoomNameOp

inductive ServerAction
  /-- a request to `/hub`, with its room parameter and what becomes of the upgrade -/
  | hub (room : Option Bytes) (up : Upgrade)
  /-- `handleWebsocket` number `i` executes `rooms.Get` and comes to the room as client `c`; `victim` is
  the room that leaves the cache if there are too many -/
  | get (i : ℕ) (c : Cid) (victim : Bytes)
  /-- the operation `i` on `roomNames` -/
  | sync (i : ℕ)
  /-- a step of a goroutine in a room -/
  | room (r : RoomId) (a : ChatroomAction)
deriving DecidableEq, Repr

def RoomNameOp.name : RoomNameOp → Bytes
  | .add name => name
  | .remove name => name

def RoomNameOp.run : RoomNameOp → Finset Bytes → Finset Bytes
  | .add name, names => insert name names
  | .remove name, names => names.erase name

/-- `handleHub`: the error answers, and the goroutine it starts, if any. -/
def handleHub (room : Option Bytes) (up : Upgrade) : List HttpError × Option Bytes :=
  let roomname := room.getD []
  -- no return here
  let missing := if roomname = [] then [⟨"room parameter missing", 400⟩] else []
  match up with
  | .handshakeError => (missing ++ [⟨"Illegal websocket handshake", 400⟩], none)
  | .otherError => (missing ++ [⟨"internal server error", 500⟩], none)
  | .conn => (missing, some roomname)

namespace ServerState

def init : ServerState where
  rooms := []
  cache := ∅
  roomNames := ∅
  joins := []
  ops := []

end ServerState

open ServerState

variable (cfg : ServerConfig)

/-- A step in room `r`. -/
def roomStep (s : ServerState) (r : RoomId) (a : ChatroomAction) : Option ServerState :=
  (s.rooms[r]?).bind fun R => (chatNext cfg.verbose cfg.backlog R.chat a).map fun chat =>
    { s with rooms := s.rooms.set r { R with chat := chat } }

/-- `OnPurge` of a room. -/
def onPurge (s : ServerState) (r : RoomId) : Option ServerState :=
  (s.rooms[r]?).bind fun R =>
    roomStep cfg { s with ops := s.ops ++ [.remove R.name] } r (.close purgeCall)

/-- The cache has become too large. -/
def evict (s : ServerState) (victim : Bytes) : Option ServerState :=
  if cfg.mayEvict s.cache.keys victim then
    (s.cache.lookup victim).bind fun r =>
      onPurge cfg { s with cache := s.cache.erase victim } r
  else none

/-- `newChatroom`, called by `OnMiss`. -/
def onMiss (s : ServerState) (name : Bytes) : ServerState :=
  { s with
    rooms := s.rooms ++ [⟨name, ChatroomState.init⟩]
    cache := s.cache.insert name s.rooms.length
    ops := s.ops ++ [.add name] }

/-- `s.rooms.Get(name)`, and the room it returns. -/
def getRoom (s : ServerState) (name victim : Bytes) : Option (ServerState × RoomId) :=
  match s.cache.lookup name with
  | some r => some ({ s with cache := s.cache.insert name r }, r)
  | none =>
    if s.cache.keys.length < cfg.numRooms then some (onMiss s name, s.rooms.length)
    else (evict cfg (onMiss s name) victim).map fun s' => (s', s.rooms.length)

/-- The room that it returns. -/
def roomOf (s : ServerState) (name : Bytes) : RoomId := (s.cache.lookup name).getD s.rooms.length

/-- What an action does while nothing has panicked; `none` when it is not enabled. -/
def serverAct (s : ServerState) : ServerAction → Option ServerState
  | .hub room up => some { s with joins := s.joins ++ (handleHub room up).2.toList }
  | .get i c victim =>
    (s.joins[i]?).bind fun name =>
      (getRoom cfg { s with joins := s.joins.eraseIdx i } name victim).bind fun g =>
        roomStep cfg g.1 g.2 (.connect c)
  | .sync i => (s.ops[i]?).map fun op =>
      { s with roomNames := op.run s.roomNames, ops := s.ops.eraseIdx i }
  | .room r a => if a.ofServer then none else roomStep cfg s r a

/-- A panic in one room. -/
def ChatroomState.panicked (s : ChatroomState) : Bool := s.panic.isSome || s.backlog.panic.isSome

/-- A panic in any room ends the process. -/
def serverNext (s : ServerState) (a : ServerAction) : Option ServerState :=
  if s.rooms.any fun R => R.chat.panicked then none else serverAct cfg s a

def serverRun : Machine ServerState ServerAction where
  init := ServerState.init
  next := serverNext cfg

end WebsocketHub
