import WebsocketHub.Machine
import WebsocketHub.MessageQueue

/-!
# WebsocketHub.QueueRun — every interleaving of appends, trims and listeners on one queue

The machine `queueRun L` starts with `newQueue`.  An action begins a call of `Append`, performs the
next atomic step of a call, calls `Listen`, or performs the next atomic step of a listener.  A panic
ends the run.

`installed`, `appenders`, `removers` and `taken` are history: no step of the code reads them.
`installed` is `e_0, e_1, …`, the initial entry and the entries in the order of the successful CASes
on `q.newest`; `appenders` are the calls that performed these CASes (`appenders[i]` replaced `e_i`,
so it owns `e_i`); `removers` are the calls whose CASes on `q.oldest` succeeded, in that order.
-/

namespace WebsocketHub

abbrev Tid := ℕ
abbrev Lid := ℕ

/-- A listener goroutine.  `first`, `start` and `sent` are history: the value of `q.oldest` it has
read, how many entries had been removed then, and what it has sent on its channel (every message with
the entry it was read from). -/
structure Listener where
  pc : ListenerPc
  first : Ptr
  start : ℕ
  sent : List (Addr × Bytes)
deriving DecidableEq, Repr

/-- The goroutine that `Listen` spawns. -/
def listen : Listener := ⟨.start, none, 0, []⟩

/-- Move to `pc`; the read of `q.oldest` and a send leave their trace. -/
def Listener.moveTo (x : Listener) (removed : ℕ) (pc : ListenerPc) : Listener :=
  match x.pc, pc with
  | .start, .loop p => { x with pc := pc, first := p, start := removed }
  | .select e msg, .advance _ => { x with pc := pc, sent := x.sent ++ [(e, msg)] }
  | _, _ => { x with pc := pc }

structure QueueState where
  q : MessageQueue
  calls : Tid → Option Call
  listeners : Lid → Option Listener
  panic : Option Panic
  installed : List Addr
  appenders : List Tid
  removers : List Tid
  /-- what a trim has subtracted from `q.size` for a removed entry -/
  taken : Addr → Option ℤ

namespace QueueState

def init : QueueState where
  q := newQueue
  calls := fun _ => none
  listeners := fun _ => none
  panic := none
  installed := [initialEntry]
  appenders := []
  removers := []
  taken := fun _ => none

def setCall (s : QueueState) (t : Tid) (c : Call) : QueueState :=
  { s with calls := Function.update s.calls t (some c) }

def setListener (s : QueueState) (l : Lid) (x : Listener) : QueueState :=
  { s with listeners := Function.update s.listeners l (some x) }

/-- History of the step that call `c` of `t` is about to take. -/
def record (s : QueueState) (t : Tid) (c : Call) : QueueState :=
  match c.pc with
  | .casNewest oldnewest =>
    if s.q.newest = oldnewest then
      { s with installed := s.installed ++ [c.prepared], appenders := s.appenders ++ [t] }
    else s
  | .trimCas oldoldest _ =>
    if s.q.oldest = some oldoldest then { s with removers := s.removers ++ [t] } else s
  | .trimSub e n => { s with taken := Function.update s.taken e (some n) }
  | _ => s

end QueueState

inductive QueueAction
  /-- a call `Append(m)` begins -/
  | append (t : Tid) (m : Bytes)
  /-- the next step of a call -/
  | call (t : Tid)
  /-- a call of `Listen` -/
  | listen (l : Lid)
  /-- the next step of a listener -/
  | listener (l : Lid) (quit : Bool)
deriving DecidableEq, Repr

variable (L : Limits)

open QueueState in
/-- What an action does in a state without a panic; `none` when it is not enabled. -/
def queueAct (s : QueueState) : QueueAction → Option QueueState
  | .append t m =>
    match s.calls t with
    | some _ => none
    | none =>
      match beginAppend s.q (some m) with
      | .error p => some { s with panic := some p }
      | .ok (q, c) => some (setCall { s with q := q } t c)
  | .call t =>
    match s.calls t with
    | none => none
    | some c =>
      match callStep L s.q c with
      | none => none
      | some (.error p) => some { s with panic := some p }
      | some (.ok (q, c')) => some (setCall { s.record t c with q := q } t c')
  | .listen l =>
    match s.listeners l with
    | some _ => none
    | none => some (s.setListener l WebsocketHub.listen)
  | .listener l quit =>
    match s.listeners l with
    | none => none
    | some x =>
      match listenerStep s.q quit x.pc with
      | none => none
      | some (.error p) => some { s with panic := some p }
      | some (.ok pc) => some (s.setListener l (x.moveTo s.removers.length pc))

def queueNext (s : QueueState) (a : QueueAction) : Option QueueState :=
  match s.panic with
  | some _ => none
  | none => queueAct L s a

def queueRun : Machine QueueState QueueAction where
  init := QueueState.init
  next := queueNext L

namespace QueueState

variable (s : QueueState)

/-- Every `Append` that has started has returned. -/
def Quiescent : Prop := ∀ t c, s.calls t = some c → c.pc = .returned

section Projections

variable (t : Tid) (c : Call) (l : Lid) (x : Listener)

@[simp] theorem setCall_q : (s.setCall t c).q = s.q := rfl
@[simp] theorem setCall_installed : (s.setCall t c).installed = s.installed := rfl
@[simp] theorem setCall_appenders : (s.setCall t c).appenders = s.appenders := rfl
theorem setCall_calls (t' : Tid) :
    (s.setCall t c).calls t' = if t' = t then some c else s.calls t' :=
  Function.update_apply s.calls t (some c) t'

theorem setListener_listeners (l' : Lid) :
    (s.setListener l x).listeners l' = if l' = l then some x else s.listeners l' :=
  Function.update_apply s.listeners l (some x) l'

end Projections

end QueueState

/-! ## What a step can do -/

/-- A step of a call that changes nothing but where the call stands. -/
inductive LocalStep (q : MessageQueue) : Pc → Pc → Prop
  | loadNewest : LocalStep q .loadNewest (.casNewest q.newest)
  | casNewestFails {old : Ptr} (h : q.newest ≠ old) : LocalStep q (.casNewest old) .loadNewest
  | trimTest (h : L.maxsize < q.size) : LocalStep q .trimTest .trimLoadOldest
  | trimEnds (h : q.size ≤ L.maxsize) : LocalStep q .trimTest .returned
  | trimLoadOldest : LocalStep q .trimLoadOldest (.trimLoadNext q.oldest)
  | trimLoadNext {e : Addr} : LocalStep q (.trimLoadNext (some e)) (.trimCas e (q.heap e).next)
  | trimCasFails {e : Addr} {new : Ptr} (h : q.oldest ≠ some e) :
      LocalStep q (.trimCas e new) .returned
  | trimSize {e : Addr} : LocalStep q (.trimSize e) (.trimSub e ((q.heap e).size L))

namespace QueueState

variable (s : QueueState) (t : Tid) (c : Call)

/-- The call's message and its next container are on the heap, nothing else has happened. -/
def begin (m : Bytes) : QueueState :=
  setCall { s with q := { s.q.write s.q.fresh newQueueEntry with fresh := s.q.fresh + 1 } } t
    ⟨m, s.q.fresh, .loadNewest⟩

/-- A successful CAS on `q.newest`. -/
def install (old : Ptr) : QueueState :=
  setCall
    { s with
      q := { s.q with newest := some c.prepared }
      installed := s.installed ++ [c.prepared]
      appenders := s.appenders ++ [t] } t (c.goto (.storeNext old))

/-- A successful CAS on `q.oldest`. -/
def remove (e : Addr) (new : Ptr) : QueueState :=
  setCall { s with q := { s.q with oldest := new }, removers := s.removers ++ [t] } t
    (c.goto (.trimSize e))

/-- The subtraction for a removed entry. -/
def subtract (e : Addr) (n : ℤ) : QueueState :=
  setCall
    { s with
      q := { s.q with size := s.q.size - n }
      taken := Function.update s.taken e (some n) } t (c.goto (.trimStale e))

/-- A step that touches one entry only. -/
def touch (e : Addr) (x : QueueEntry) (pc : Pc) : QueueState :=
  setCall { s with q := s.q.write e x } t (c.goto pc)

/-- The addition for a filled entry. -/
def account (e : Addr) (n : ℤ) : QueueState :=
  setCall { s with q := { s.q with size := s.q.size + n } } t (c.goto (.validDone e))

end QueueState

open QueueState

/-- The steps of the machine, one constructor for each effect on the shared state. -/
inductive QueueStep (s : QueueState) : QueueAction → QueueState → Prop
  | append {t : Tid} {m : Bytes} (ht : s.calls t = none) : QueueStep s (.append t m) (s.begin t m)
  | moves {t : Tid} {c : Call} {pc : Pc} (hc : s.calls t = some c)
      (h : LocalStep L s.q c.pc pc) : QueueStep s (.call t) (s.setCall t (c.goto pc))
  | casNewest {t : Tid} {c : Call} {old : Ptr} (hc : s.calls t = some c)
      (hpc : c.pc = .casNewest old) (h : s.q.newest = old) :
      QueueStep s (.call t) (s.install t c old)
  | storeNext {t : Tid} {c : Call} {e : Addr} (hc : s.calls t = some c)
      (hpc : c.pc = .storeNext (some e)) : QueueStep s (.call t)
      (s.touch t c e { s.q.heap e with next := some c.prepared } (.storeMsg e))
  | storeMsg {t : Tid} {c : Call} {e : Addr} (hc : s.calls t = some c)
      (hpc : c.pc = .storeMsg e) : QueueStep s (.call t)
      (s.touch t c e { s.q.heap e with msg := some c.msg } (.addSize e))
  | addSize {t : Tid} {c : Call} {e : Addr} (hc : s.calls t = some c)
      (hpc : c.pc = .addSize e) : QueueStep s (.call t) (s.account t c e ((s.q.heap e).size L))
  | validDone {t : Tid} {c : Call} {e : Addr} (hc : s.calls t = some c)
      (hpc : c.pc = .validDone e) (h : (s.q.heap e).valid ≠ 0) : QueueStep s (.call t)
      (s.touch t c e { s.q.heap e with valid := (s.q.heap e).valid - 1 } .trimTest)
  | trimCas {t : Tid} {c : Call} {e : Addr} {new : Ptr} (hc : s.calls t = some c)
      (hpc : c.pc = .trimCas e new) (h : s.q.oldest = some e) :
      QueueStep s (.call t) (s.remove t c e new)
  | trimSub {t : Tid} {c : Call} {e : Addr} {n : ℤ} (hc : s.calls t = some c)
      (hpc : c.pc = .trimSub e n) : QueueStep s (.call t) (s.subtract t c e n)
  | trimStale {t : Tid} {c : Call} {e : Addr} (hc : s.calls t = some c)
      (hpc : c.pc = .trimStale e) : QueueStep s (.call t)
      (s.touch t c e { s.q.heap e with next := some staleEntry } .trimTest)
  | listen {l : Lid} (hl : s.listeners l = none) :
      QueueStep s (.listen l) (s.setListener l WebsocketHub.listen)
  | listener {l : Lid} {quit : Bool} {x : Listener} {pc : ListenerPc}
      (hl : s.listeners l = some x) (h : listenerStep s.q quit x.pc = some (.ok pc)) :
      QueueStep s (.listener l quit) (s.setListener l (x.moveTo s.removers.length pc))
  | callPanics {t : Tid} {c : Call} {p : Panic} (hc : s.calls t = some c)
      (h : callStep L s.q c = some (.error p)) : QueueStep s (.call t) { s with panic := some p }
  | listenerPanics {l : Lid} {quit : Bool} {x : Listener} {p : Panic}
      (hl : s.listeners l = some x) (h : listenerStep s.q quit x.pc = some (.error p)) :
      QueueStep s (.listener l quit) { s with panic := some p }

variable {L}

/-- The steps of a call that end in a panic. -/
theorem callStep_error {q : MessageQueue} {c : Call} {p : Panic}
    (h : callStep L q c = some (.error p)) :
    (p = .nilDeref ∧ (c.pc = .storeNext none ∨ c.pc = .trimLoadNext none)) ∨
      (p = .negativeWaitGroup ∧ ∃ e, c.pc = .validDone e ∧ (q.heap e).valid = 0) := by
  unfold callStep SafePointer.cas at h
  grind

/-- The steps of a listener that end in a panic. -/
theorem listenerStep_error {q : MessageQueue} {quit : Bool} {pc : ListenerPc} {p : Panic}
    (h : listenerStep q quit pc = some (.error p)) :
    (p = .nilDeref ∧ pc = .wait none) ∨
      (p = .nilInQueue ∧ ∃ e, pc = .readMsg e ∧ (q.heap e).msg = none) := by
  unfold listenerStep at h
  grind

/-- The steps of a call that do not panic. -/
theorem queueStep_of_callStep {s : QueueState} {t : Tid} {c c' : Call} {q : MessageQueue}
    (hc : s.calls t = some c) (h : callStep L s.q c = some (.ok (q, c'))) :
    QueueStep L s (.call t) (setCall { s.record t c with q := q } t c') := by
  cases hpc : c.pc with
  | loadNewest =>
    simp only [callStep, hpc, Option.some.injEq, Except.ok.injEq, Prod.mk.injEq] at h
    obtain ⟨rfl, rfl⟩ := h
    simp only [record, hpc]
    exact .moves hc (hpc ▸ .loadNewest)
  | casNewest old =>
    by_cases ho : s.q.newest = old
    · simp only [callStep, hpc, SafePointer.cas, ho, if_true, Option.some.injEq, Except.ok.injEq,
        Prod.mk.injEq] at h
      obtain ⟨rfl, rfl⟩ := h
      simp only [record, hpc, ho, if_true]
      exact .casNewest hc hpc ho
    · simp only [callStep, hpc, SafePointer.cas, ho, if_false, Option.some.injEq, Except.ok.injEq,
        Prod.mk.injEq] at h
      obtain ⟨rfl, rfl⟩ := h
      simp only [record, hpc, ho, if_false]
      exact .moves hc (hpc ▸ .casNewestFails ho)
  | storeNext e =>
    cases e with
    | none => simp [callStep, hpc] at h
    | some e =>
      simp only [callStep, hpc, Option.some.injEq, Except.ok.injEq, Prod.mk.injEq] at h
      obtain ⟨rfl, rfl⟩ := h
      simp only [record, hpc]
      exact .storeNext hc hpc
  | storeMsg e =>
    simp only [callStep, hpc, Option.some.injEq, Except.ok.injEq, Prod.mk.injEq] at h
    obtain ⟨rfl, rfl⟩ := h
    simp only [record, hpc]
    exact .storeMsg hc hpc
  | addSize e =>
    simp only [callStep, hpc, SafeInt64.add_eq, Option.some.injEq, Except.ok.injEq,
      Prod.mk.injEq] at h
    obtain ⟨rfl, rfl⟩ := h
    simp only [record, hpc]
    exact .addSize hc hpc
  | validDone e =>
    by_cases hv : (s.q.heap e).valid = 0
    · simp [callStep, hpc, hv] at h
    · simp only [callStep, hpc, hv, if_false, Option.some.injEq, Except.ok.injEq,
        Prod.mk.injEq] at h
      obtain ⟨rfl, rfl⟩ := h
      simp only [record, hpc]
      exact .validDone hc hpc hv
  | trimTest =>
    by_cases hs : s.q.size > L.maxsize
    · simp only [callStep, hpc, hs, if_true, Option.some.injEq, Except.ok.injEq,
        Prod.mk.injEq] at h
      obtain ⟨rfl, rfl⟩ := h
      simp only [record, hpc]
      exact .moves hc (hpc ▸ .trimTest hs)
    · simp only [callStep, hpc, hs, if_false, Option.some.injEq, Except.ok.injEq,
        Prod.mk.injEq] at h
      obtain ⟨rfl, rfl⟩ := h
      simp only [record, hpc]
      exact .moves hc (hpc ▸ .trimEnds (Int.not_lt.mp hs))
  | trimLoadOldest =>
    simp only [callStep, hpc, Option.some.injEq, Except.ok.injEq, Prod.mk.injEq] at h
    obtain ⟨rfl, rfl⟩ := h
    simp only [record, hpc]
    exact .moves hc (hpc ▸ .trimLoadOldest)
  | trimLoadNext e =>
    cases e with
    | none => simp [callStep, hpc] at h
    | some e =>
      simp only [callStep, hpc, Option.some.injEq, Except.ok.injEq, Prod.mk.injEq] at h
      obtain ⟨rfl, rfl⟩ := h
      simp only [record, hpc]
      exact .moves hc (hpc ▸ .trimLoadNext)
  | trimCas e new =>
    by_cases ho : s.q.oldest = some e
    · simp only [callStep, hpc, SafePointer.cas, ho, if_true, Option.some.injEq, Except.ok.injEq,
        Prod.mk.injEq] at h
      obtain ⟨rfl, rfl⟩ := h
      simp only [record, hpc, ho, if_true]
      exact .trimCas hc hpc ho
    · simp only [callStep, hpc, SafePointer.cas, ho, if_false, Option.some.injEq, Except.ok.injEq,
        Prod.mk.injEq] at h
      obtain ⟨rfl, rfl⟩ := h
      simp only [record, hpc, ho, if_false]
      exact .moves hc (hpc ▸ .trimCasFails ho)
  | trimSize e =>
    simp only [callStep, hpc, Option.some.injEq, Except.ok.injEq, Prod.mk.injEq] at h
    obtain ⟨rfl, rfl⟩ := h
    simp only [record, hpc]
    exact .moves hc (hpc ▸ .trimSize)
  | trimSub e n =>
    simp only [callStep, hpc, SafeInt64.sub_eq, Option.some.injEq, Except.ok.injEq,
      Prod.mk.injEq] at h
    obtain ⟨rfl, rfl⟩ := h
    simp only [record, hpc]
    exact .trimSub hc hpc
  | trimStale e =>
    simp only [callStep, hpc, Option.some.injEq, Except.ok.injEq, Prod.mk.injEq] at h
    obtain ⟨rfl, rfl⟩ := h
    simp only [record, hpc]
    exact .trimStale hc hpc
  | returned => simp [callStep, hpc] at h

theorem queueStep_of_act {s s' : QueueState} {a : QueueAction} (h : queueAct L s a = some s') :
    QueueStep L s a s' := by
  cases a with
  | append t m =>
    cases ht : s.calls t with
    | some c => simp [queueAct, ht] at h
    | none =>
      simp only [queueAct, ht, beginAppend, Option.some.injEq] at h
      subst h
      exact .append ht
  | listen l =>
    cases hl : s.listeners l with
    | some x => simp [queueAct, hl] at h
    | none =>
      simp only [queueAct, hl, Option.some.injEq] at h
      subst h
      exact .listen hl
  | listener l quit =>
    cases hl : s.listeners l with
    | none => simp [queueAct, hl] at h
    | some x =>
      cases hx : listenerStep s.q quit x.pc with
      | none => simp [queueAct, hl, hx] at h
      | some r =>
        cases r with
        | error p =>
          simp only [queueAct, hl, hx, Option.some.injEq] at h
          subst h
          exact .listenerPanics hl hx
        | ok pc =>
          simp only [queueAct, hl, hx, Option.some.injEq] at h
          subst h
          exact .listener hl hx
  | call t =>
    cases hc : s.calls t with
    | none => simp [queueAct, hc] at h
    | some c =>
      cases hx : callStep L s.q c with
      | none => simp [queueAct, hc, hx] at h
      | some r =>
        cases r with
        | error p =>
          simp only [queueAct, hc, hx, Option.some.injEq] at h
          subst h
          exact .callPanics hc hx
        | ok r =>
          simp only [queueAct, hc, hx, Option.some.injEq] at h
          subst h
          exact queueStep_of_callStep hc hx

/-- **Inversion** of the machine's step. -/
theorem queueStep_of_next {s s' : QueueState} {a : QueueAction} (h : queueNext L s a = some s') :
    s.panic = none ∧ QueueStep L s a s' := by
  unfold queueNext at h
  split at h
  · cases h
  · exact ⟨‹_›, queueStep_of_act h⟩

/-- A panic comes from the step that a call or a listener takes. -/
theorem panic_of_step {s s' : QueueState} {a : QueueAction} (h : QueueStep L s a s') :
    s'.panic = s.panic ∨ ∃ p, s'.panic = some p ∧
      ((∃ t c, s.calls t = some c ∧ callStep L s.q c = some (.error p)) ∨
        ∃ l quit x, s.listeners l = some x ∧ listenerStep s.q quit x.pc = some (.error p)) := by
  cases h with
  | callPanics hc hx => exact .inr ⟨_, rfl, .inl ⟨_, _, hc, hx⟩⟩
  | listenerPanics hl hx => exact .inr ⟨_, rfl, .inr ⟨_, _, _, hl, hx⟩⟩
  | _ => exact .inl rfl

end WebsocketHub
