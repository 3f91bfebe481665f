import WebsocketHub.Termination

/-!
# WebsocketHub.StressTest — `stresstest/stresstest.go`: workers that connect and send

`main` wants the address of the service; then it spawns its workers and the goroutine that hands out the
numbers of the connections, and waits for the workers.  A worker that meets an error stores it in `ret` and
dies.

* A number is handed over the unbuffered channel when a worker is there to take it (`hand`).
* A dial or a write returns, with an error or without: which of the two is the environment's choice.
  `url.Parse` and the network are outside.
* `log` is history: what has happened on each connection.
* Once `main` has exited no goroutine goes on.
-/

namespace WebsocketHub

section Defs

/-- What `stresstest` is started with. -/
structure StressConf where
  /-- `-C`, `-M` and `-N` -/
  concurrent : ℤ
  messages : ℤ
  connections : ℤ
  /-- `flag.Arg(0)`, which is empty when there is no argument -/
  addr : String
  /-- the scheme and the host that `url.Parse` finds in `addr` -/
  url : Option (String × String)

inductive MainPc
  /-- `if conf.addr == ""` -/
  | check
  /-- the loop that spawns the workers, and `wg.Add(1)` and `go` in it -/
  | loop (i : ℕ)
  | add (i : ℕ)
  | spawn (i : ℕ)
  /-- `go func() { ... }()` -/
  | produce
  | wait
  | exited (code : ℕ)
deriving DecidableEq, Repr

/-- The goroutine that hands out the numbers. -/
inductive ProducerPc
  | notSpawned
  | loop (i : ℕ)
  | send (i : ℕ)
  | close
  | returned
deriving DecidableEq, Repr

inductive WorkerPc
  /-- `for connid := range connectionIds` -/
  | range
  | connect (connid : ℕ)
  | write (connid msgid : ℕ)
  /-- the deferred `c.raw.Close()`, when `executeConnection` returns an error or none -/
  | close (connid : ℕ) (err : Bool)
  /-- `atomic.StoreInt32(&ret, 1)` -/
  | store
  /-- the deferred `wg.Done()` -/
  | done
  | returned
deriving DecidableEq, Repr

/-- What happens on a connection; `failed` is an error of its dial or of a write. -/
inductive ConnEvent
  | opened
  | wrote (msg : String)
  | failed
  | closed
deriving DecidableEq, Repr

structure StressState where
  main : MainPc
  producer : ProducerPc
  workers : List WorkerPc
  /-- the channel is closed -/
  chanClosed : Bool
  wg : ℤ
  ret : ℕ
  log : List (ℕ × ConnEvent)

inductive StressAction
  | main
  | producer
  /-- the producer sends and worker `w` receives -/
  | hand (w : ℕ)
  /-- `ok`: the dial, or the write, succeeds -/
  | worker (w : ℕ) (ok : Bool)
deriving DecidableEq, Repr

def StressState.init : StressState where
  main := .check
  producer := .notSpawned
  workers := []
  chanClosed := false
  wg := 0
  ret := 0
  log := []

variable (conf : StressConf)

/-- The host that `connectWebsocket` dials, unless it returns an error before. -/
def dialHost : Option String :=
  conf.url.bind fun (scheme, host) =>
    if scheme ≠ "ws" ∧ scheme ≠ "wss" then none
    else if ':' ∈ host.toList then some host
    else some (host ++ ":80")

/-- `connectWebsocket`, when the network would make the connection or not. -/
def connects (ok : Bool) : Bool := (dialHost conf).isSome && ok

/-- `fmt.Sprintf("Test conn #%d, msg %d/%d", connid, msgid+1, conf.messages)` -/
def testMessage (connid msgid : ℕ) : String :=
  "Test conn #" ++ toString connid ++ ", msg " ++ toString (msgid + 1) ++ "/" ++ toString conf.messages

def mainStep (s : StressState) : Option StressState :=
  match s.main with
  -- `log.Fatal` exits with 1
  | .check => some { s with main := if conf.addr = "" then .exited 1 else .loop 0 }
  | .loop i => some { s with main := if i < conf.concurrent then .add i else .produce }
  | .add i => some { s with wg := s.wg + 1, main := .spawn i }
  | .spawn i => some { s with workers := s.workers ++ [.range], main := .loop (i + 1) }
  | .produce => some { s with producer := .loop 0, main := .wait }
  | .wait => if s.wg = 0 then some { s with main := .exited s.ret } else none
  | .exited _ => none

def producerStep (s : StressState) : Option StressState :=
  match s.producer with
  | .loop i => some { s with producer := if i < conf.connections then .send i else .close }
  | .close => some { s with chanClosed := true, producer := .returned }
  | _ => none

def StressState.setWorker (s : StressState) (w : ℕ) (p : WorkerPc) : StressState :=
  { s with workers := s.workers.set w p }

def StressState.event (s : StressState) (connid : ℕ) (e : ConnEvent) : StressState :=
  { s with log := s.log ++ [(connid, e)] }

/-- The send of the producer and the receive of worker `w`. -/
def handStep (s : StressState) (w : ℕ) : Option StressState :=
  match s.producer, s.workers[w]? with
  | .send i, some .range => some { s.setWorker w (.connect i) with producer := .loop (i + 1) }
  | _, _ => none

def workerStep (s : StressState) (w : ℕ) (ok : Bool) : WorkerPc → Option StressState
  | .range => if s.chanClosed then some (s.setWorker w .done) else none
  | .connect connid =>
    if connects conf ok then some ((s.event connid .opened).setWorker w (.write connid 0))
    else some ((s.event connid .failed).setWorker w .store)
  | .write connid msgid =>
    if msgid < conf.messages then
      if ok then
        some ((s.event connid (.wrote (testMessage conf connid msgid))).setWorker w
          (.write connid (msgid + 1)))
      else some ((s.event connid .failed).setWorker w (.close connid true))
    else some (s.setWorker w (.close connid false))
  | .close connid err => some ((s.event connid .closed).setWorker w (if err then .store else .range))
  | .store => some ({ s with ret := 1 }.setWorker w .done)
  | .done => some ({ s with wg := s.wg - 1 }.setWorker w .returned)
  | .returned => none

def stressAct (s : StressState) : StressAction → Option StressState
  | .main => mainStep conf s
  | .producer => producerStep conf s
  | .hand w => handStep s w
  | .worker w ok => (s.workers[w]?).bind (workerStep conf s w ok)

def stressNext (s : StressState) (a : StressAction) : Option StressState :=
  match s.main with
  | .exited _ => none
  | _ => stressAct conf s a

def stressRun : Machine StressState StressAction where
  init := StressState.init
  next := stressNext conf

/-- What an action does. -/
inductive StressStep (s : StressState) : StressAction → StressState → Prop
  | fatal (hm : s.main = .check) (haddr : conf.addr = "") : StressStep s .main { s with main := .exited 1 }
  | start (hm : s.main = .check) (haddr : conf.addr ≠ "") : StressStep s .main { s with main := .loop 0 }
  | more {i : ℕ} (hm : s.main = .loop i) (hi : i < conf.concurrent.toNat) :
    StressStep s .main { s with main := .add i }
  | enough {i : ℕ} (hm : s.main = .loop i) (hi : conf.concurrent.toNat ≤ i) :
    StressStep s .main { s with main := .produce }
  | add {i : ℕ} (hm : s.main = .add i) : StressStep s .main { s with wg := s.wg + 1, main := .spawn i }
  | spawn {i : ℕ} (hm : s.main = .spawn i) :
    StressStep s .main { s with workers := s.workers ++ [.range], main := .loop (i + 1) }
  | produce (hm : s.main = .produce) : StressStep s .main { s with producer := .loop 0, main := .wait }
  | exit (hm : s.main = .wait) (hwg : s.wg = 0) : StressStep s .main { s with main := .exited s.ret }
  | next {i : ℕ} (hp : s.producer = .loop i) (hi : i < conf.connections.toNat) :
    StressStep s .producer { s with producer := .send i }
  | last {i : ℕ} (hp : s.producer = .loop i) (hi : conf.connections.toNat ≤ i) :
    StressStep s .producer { s with producer := .close }
  | close (hp : s.producer = .close) :
    StressStep s .producer { s with chanClosed := true, producer := .returned }
  | hand {w i : ℕ} (hp : s.producer = .send i) (hw : s.workers[w]? = some .range) :
    StressStep s (.hand w) { s.setWorker w (.connect i) with producer := .loop (i + 1) }
  | ends {w : ℕ} {ok : Bool} (hw : s.workers[w]? = some .range) (hc : s.chanClosed = true) :
    StressStep s (.worker w ok) (s.setWorker w .done)
  | connects {w connid : ℕ} {ok : Bool} (hw : s.workers[w]? = some (.connect connid))
    (hok : connects conf ok = true) :
    StressStep s (.worker w ok) ((s.event connid .opened).setWorker w (.write connid 0))
  | dialFails {w connid : ℕ} {ok : Bool} (hw : s.workers[w]? = some (.connect connid))
    (hok : connects conf ok = false) :
    StressStep s (.worker w ok) ((s.event connid .failed).setWorker w .store)
  | writes {w connid msgid : ℕ} (hw : s.workers[w]? = some (.write connid msgid))
    (hm : msgid < conf.messages.toNat) : StressStep s (.worker w true)
      ((s.event connid (.wrote (testMessage conf connid msgid))).setWorker w (.write connid (msgid + 1)))
  | writeFails {w connid msgid : ℕ} (hw : s.workers[w]? = some (.write connid msgid))
    (hm : msgid < conf.messages.toNat) :
    StressStep s (.worker w false) ((s.event connid .failed).setWorker w (.close connid true))
  | written {w connid msgid : ℕ} {ok : Bool} (hw : s.workers[w]? = some (.write connid msgid))
    (hm : conf.messages.toNat ≤ msgid) :
    StressStep s (.worker w ok) (s.setWorker w (.close connid false))
  | closes {w connid : ℕ} {err ok : Bool} (hw : s.workers[w]? = some (.close connid err)) :
    StressStep s (.worker w ok)
      ((s.event connid .closed).setWorker w (if err then .store else .range))
  | store {w : ℕ} {ok : Bool} (hw : s.workers[w]? = some .store) :
    StressStep s (.worker w ok) ({ s with ret := 1 }.setWorker w .done)
  | done {w : ℕ} {ok : Bool} (hw : s.workers[w]? = some .done) :
    StressStep s (.worker w ok) ({ s with wg := s.wg - 1 }.setWorker w .returned)

end Defs

variable {conf : StressConf} {s s' : StressState} {a : StressAction}

theorem stressStep_of_main (hn : mainStep conf s = some s') : StressStep conf s .main s' := by
  unfold mainStep at hn
  split at hn
  · next hmain =>
    obtain rfl := Option.some.inj hn
    by_cases haddr : conf.addr = ""
    · rw [if_pos haddr]
      exact .fatal hmain haddr
    · rw [if_neg haddr]
      exact .start hmain haddr
  · next i hmain =>
    obtain rfl := Option.some.inj hn
    by_cases hi : i < conf.concurrent.toNat
    · rw [if_pos (Int.lt_toNat.mp hi)]
      exact .more hmain hi
    · rw [if_neg (mt Int.lt_toNat.mpr hi)]
      exact .enough hmain (Nat.not_lt.mp hi)
  · next i hmain =>
    obtain rfl := Option.some.inj hn
    exact .add hmain
  · next i hmain =>
    obtain rfl := Option.some.inj hn
    exact .spawn hmain
  · next hmain =>
    obtain rfl := Option.some.inj hn
    exact .produce hmain
  · next hmain =>
    split_ifs at hn with hwg
    obtain rfl := Option.some.inj hn
    exact .exit hmain hwg
  · cases hn

theorem stressStep_of_producer (hn : producerStep conf s = some s') : StressStep conf s .producer s' := by
  unfold producerStep at hn
  split at hn
  · next i hp =>
    obtain rfl := Option.some.inj hn
    by_cases hi : i < conf.connections.toNat
    · rw [if_pos (Int.lt_toNat.mp hi)]
      exact .next hp hi
    · rw [if_neg (mt Int.lt_toNat.mpr hi)]
      exact .last hp (Nat.not_lt.mp hi)
  · next hp =>
    obtain rfl := Option.some.inj hn
    exact .close hp
  · cases hn

theorem stressStep_of_hand {w : ℕ} (hn : handStep s w = some s') : StressStep conf s (.hand w) s' := by
  unfold handStep at hn
  split at hn
  · next i hp hw =>
    obtain rfl := Option.some.inj hn
    exact .hand hp hw
  · cases hn

theorem stressStep_of_worker {w : ℕ} {ok : Bool} {p : WorkerPc} (hw : s.workers[w]? = some p)
    (hn : workerStep conf s w ok p = some s') : StressStep conf s (.worker w ok) s' := by
  cases p with
  | range =>
    obtain ⟨hc, rfl⟩ := Option.ite_some_none_eq_some.mp hn
    exact .ends hw hc
  | connect connid =>
    by_cases hok : connects conf ok = true
    · rw [workerStep, if_pos hok] at hn
      obtain rfl := Option.some.inj hn
      exact .connects hw hok
    · rw [workerStep, if_neg hok] at hn
      obtain rfl := Option.some.inj hn
      exact .dialFails hw (Bool.not_eq_true _ ▸ hok)
  | write connid msgid =>
    by_cases hi : msgid < conf.messages.toNat
    · rw [workerStep, if_pos (Int.lt_toNat.mp hi)] at hn
      cases ok with
      | true =>
        obtain rfl := Option.some.inj hn
        exact .writes hw hi
      | false =>
        obtain rfl := Option.some.inj hn
        exact .writeFails hw hi
    · rw [workerStep, if_neg (mt Int.lt_toNat.mpr hi)] at hn
      obtain rfl := Option.some.inj hn
      exact .written hw (Nat.not_lt.mp hi)
  | close connid err =>
    obtain rfl := Option.some.inj hn
    exact .closes hw
  | store =>
    obtain rfl := Option.some.inj hn
    exact .store hw
  | done =>
    obtain rfl := Option.some.inj hn
    exact .done hw
  | returned => cases hn

/-- **Inversion**. -/
theorem stressStep_of_next (hn : stressNext conf s a = some s') :
    (∀ code, s.main ≠ .exited code) ∧ StressStep conf s a s' := by
  unfold stressNext at hn
  split at hn
  · cases hn
  · next hm =>
    refine ⟨hm, ?_⟩
    cases a with
    | main => exact stressStep_of_main hn
    | producer => exact stressStep_of_producer hn
    | hand w => exact stressStep_of_hand hn
    | worker w ok =>
      obtain ⟨p, hw, hn⟩ := Option.bind_eq_some_iff.mp hn
      exact stressStep_of_worker hw hn

end WebsocketHub
