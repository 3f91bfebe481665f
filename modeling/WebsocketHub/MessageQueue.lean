import WebsocketHub.SafeVals
import Mathlib.Logic.Function.Basic

/-!
# WebsocketHub.MessageQueue — the backlog of `hub/messagequeue.go`

A queue is a chain of entries on the heap, from `oldest` to `newest`.  The last entry of the chain is
the empty container prepared for the next message.  A call of `Append` is a little program: `Pc` is
the statement it stands at, with the locals that statement reads, and `callStep` performs that
statement as one atomic step.  `listenerStep` does the same for the goroutine started by `Listen`.
-/

namespace WebsocketHub

/-- A non-nil `[]byte`. -/
abbrev Bytes := List UInt8

/-- The runtime panics of the hub's code. -/
inductive Panic
  | appendingNil
  | nilDeref
  | negativeWaitGroup
  | nilInQueue
  | closeOfClosedChannel
deriving DecidableEq, Repr

structure QueueEntry where
  next : Ptr
  msg : Option Bytes
  /-- the counter of the `sync.WaitGroup` -/
  valid : ℕ
deriving DecidableEq, Repr

/-- `QUEUE_ENTRY_OVERHEAD`, and the `maxsize` a queue is created with. -/
structure Limits where
  overhead : ℤ
  maxsize : ℤ
  overhead_pos : 0 < overhead
  maxsize_nonneg : 0 ≤ maxsize

/-- `Size` of an entry that holds a message of `n` bytes. -/
def Limits.sizeOf (L : Limits) (n : ℕ) : ℤ := L.overhead + n

/-- A `maxsize`, and the 48 bytes of a `queueEntry` on a 64-bit machine; for concrete runs. -/
def backlogOf (maxsize : ℕ) : Limits := ⟨48, maxsize, by decide, Int.natCast_nonneg maxsize⟩

def QueueEntry.size (L : Limits) (e : QueueEntry) : ℤ := L.sizeOf (e.msg.getD []).length

/-- `queueEntry{}`. -/
def zeroEntry : QueueEntry := ⟨none, none, 0⟩

def newQueueEntry : QueueEntry := { zeroEntry with valid := zeroEntry.valid + 1 }

/-- The address of the global `staleEntry`, a zero entry. -/
def staleEntry : Addr := 0

/-- The address of the entry `newQueue` allocates. -/
def initialEntry : Addr := 1

@[ext]
structure MessageQueue where
  oldest : Ptr
  newest : Ptr
  size : ℤ
  heap : Addr → QueueEntry
  /-- the next address to be allocated -/
  fresh : Addr

def newQueue : MessageQueue where
  oldest := some initialEntry
  newest := some initialEntry
  size := 0
  heap := Function.update (fun _ => zeroEntry) initialEntry newQueueEntry
  fresh := initialEntry + 1

namespace MessageQueue

/-- Overwrite one entry. -/
def write (q : MessageQueue) (a : Addr) (e : QueueEntry) : MessageQueue :=
  { q with heap := Function.update q.heap a e }

/-- `e.next.store(p)`. -/
def storeNext (q : MessageQueue) (e : Addr) (p : Ptr) : MessageQueue :=
  q.write e { q.heap e with next := p }

/-- `e.msg = msg`. -/
def storeMsg (q : MessageQueue) (e : Addr) (msg : Bytes) : MessageQueue :=
  q.write e { q.heap e with msg := some msg }

/-- `e.valid.Done()`, on a counter that is not zero. -/
def done (q : MessageQueue) (e : Addr) : MessageQueue :=
  q.write e { q.heap e with valid := (q.heap e).valid - 1 }

theorem write_heap (q : MessageQueue) (a b : Addr) (e : QueueEntry) :
    (q.write a e).heap b = if b = a then e else q.heap b :=
  Function.update_apply q.heap a e b

@[simp] theorem write_oldest (q : MessageQueue) (a : Addr) (e : QueueEntry) :
    (q.write a e).oldest = q.oldest := rfl
@[simp] theorem write_newest (q : MessageQueue) (a : Addr) (e : QueueEntry) :
    (q.write a e).newest = q.newest := rfl
@[simp] theorem write_size (q : MessageQueue) (a : Addr) (e : QueueEntry) :
    (q.write a e).size = q.size := rfl
@[simp] theorem write_fresh (q : MessageQueue) (a : Addr) (e : QueueEntry) :
    (q.write a e).fresh = q.fresh := rfl

end MessageQueue

/-- The statement a call of `Append` stands at. -/
inductive Pc
  /-- `oldnewest = q.newest.load()` -/
  | loadNewest
  /-- `q.newest.cas(oldnewest, newp)` -/
  | casNewest (oldnewest : Ptr)
  /-- `e.next.store(newp)` -/
  | storeNext (e : Ptr)
  /-- `e.msg = msg` -/
  | storeMsg (e : Addr)
  /-- `q.size.add(e.Size())` -/
  | addSize (e : Addr)
  /-- `e.valid.Done()` -/
  | validDone (e : Addr)
  /-- `for int64(q.size.load()) > q.maxsize` -/
  | trimTest
  /-- `oldoldest = q.oldest.load()` -/
  | trimLoadOldest
  /-- `newoldest = e.next.load()` -/
  | trimLoadNext (oldoldest : Ptr)
  /-- `q.oldest.cas(oldoldest, newoldest)` -/
  | trimCas (oldoldest : Addr) (newoldest : Ptr)
  /-- the argument `e.Size()` of `q.size.sub` -/
  | trimSize (e : Addr)
  /-- `q.size.sub(n)` -/
  | trimSub (e : Addr) (n : ℤ)
  /-- `e.next.store(unsafe.Pointer(staleEntry))` -/
  | trimStale (e : Addr)
  | returned
deriving DecidableEq, Repr

/-- A call of `Append`. -/
structure Call where
  msg : Bytes
  prepared : Addr
  pc : Pc
deriving DecidableEq, Repr

def Call.goto (c : Call) (pc : Pc) : Call := { c with pc := pc }

@[simp] theorem Call.goto_pc (c : Call) (pc : Pc) : (c.goto pc).pc = pc := rfl
@[simp] theorem Call.goto_msg (c : Call) (pc : Pc) : (c.goto pc).msg = c.msg := rfl

/-- `Append(msg)` up to its loop: the nil check and the allocation of the next container. -/
def beginAppend (q : MessageQueue) : Option Bytes → Except Panic (MessageQueue × Call)
  | none => .error .appendingNil
  | some msg => .ok ({ q.write q.fresh newQueueEntry with fresh := q.fresh + 1 },
      ⟨msg, q.fresh, .loadNewest⟩)

/-- The next atomic step of a call of `Append`, its `trim` included; `none` once it has returned. -/
def callStep (L : Limits) (q : MessageQueue) (c : Call) :
    Option (Except Panic (MessageQueue × Call)) :=
  match c.pc with
  | .loadNewest => some (.ok (q, c.goto (.casNewest q.newest)))
  | .casNewest oldnewest =>
    match SafePointer.cas q.newest oldnewest (some c.prepared) with
    | (true, newest) => some (.ok ({ q with newest := newest }, c.goto (.storeNext oldnewest)))
    | (false, _) => some (.ok (q, c.goto .loadNewest))
  | .storeNext none => some (.error .nilDeref)
  | .storeNext (some e) => some (.ok (q.storeNext e (some c.prepared), c.goto (.storeMsg e)))
  | .storeMsg e => some (.ok (q.storeMsg e c.msg, c.goto (.addSize e)))
  | .addSize e =>
    some (.ok ({ q with size := SafeInt64.add q.size ((q.heap e).size L) }, c.goto (.validDone e)))
  | .validDone e =>
    if (q.heap e).valid = 0 then some (.error .negativeWaitGroup)
    else some (.ok (q.done e, c.goto .trimTest))
  | .trimTest =>
    if q.size > L.maxsize then some (.ok (q, c.goto .trimLoadOldest))
    else some (.ok (q, c.goto .returned))
  | .trimLoadOldest => some (.ok (q, c.goto (.trimLoadNext q.oldest)))
  | .trimLoadNext none => some (.error .nilDeref)
  | .trimLoadNext (some e) => some (.ok (q, c.goto (.trimCas e (q.heap e).next)))
  | .trimCas e newoldest =>
    match SafePointer.cas q.oldest (some e) newoldest with
    | (true, oldest) => some (.ok ({ q with oldest := oldest }, c.goto (.trimSize e)))
    -- another trim is running: let him do the rest
    | (false, _) => some (.ok (q, c.goto .returned))
  | .trimSize e => some (.ok (q, c.goto (.trimSub e ((q.heap e).size L))))
  | .trimSub e n => some (.ok ({ q with size := SafeInt64.sub q.size n }, c.goto (.trimStale e)))
  | .trimStale e => some (.ok (q.storeNext e (some staleEntry), c.goto .trimTest))
  | .returned => none

/-- The statement the goroutine `listener(q, c, quit)` stands at. -/
inductive ListenerPc
  /-- `var p safePointer = q.oldest` -/
  | start
  /-- `e := (*queueEntry)(p.load())` and the comparison with `staleEntry` -/
  | loop (p : Ptr)
  /-- `e.valid.Wait()` -/
  | wait (e : Ptr)
  /-- `if e.msg == nil`, and the operand `e.msg` of the select -/
  | readMsg (e : Addr)
  /-- the select: `<-quit` or `c <- e.msg` -/
  | select (e : Addr) (msg : Bytes)
  /-- `p = e.next` -/
  | advance (e : Addr)
  /-- out of sync: `close(c)` done, returned -/
  | closed
  /-- returned through `<-quit` -/
  | quit
deriving DecidableEq, Repr

/-- The next atomic step of a listener; `none` while it is blocked and once it has returned.  `quit`
says which case the select takes. -/
def listenerStep (q : MessageQueue) (quit : Bool) : ListenerPc → Option (Except Panic ListenerPc)
  | .start => some (.ok (.loop q.oldest))
  | .loop p => if p = some staleEntry then some (.ok .closed) else some (.ok (.wait p))
  | .wait none => some (.error .nilDeref)
  | .wait (some e) => if (q.heap e).valid = 0 then some (.ok (.readMsg e)) else none
  | .readMsg e =>
    match (q.heap e).msg with
    | none => some (.error .nilInQueue)
    | some msg => some (.ok (.select e msg))
  | .select e _ => if quit then some (.ok .quit) else some (.ok (.advance e))
  | .advance e => some (.ok (.loop (q.heap e).next))
  | .closed => none
  | .quit => none

end WebsocketHub
