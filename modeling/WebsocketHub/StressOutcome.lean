import Mathlib.Algebra.GroupWithZero.Nat
import WebsocketHub.StressTest

/-!
# WebsocketHub.StressOutcome — what the exit code of `stresstest` says

Under every interleaving, and whether the dials and the writes succeed or fail, `main` exits.  It exits with 1
if and only if there has been an error, or there is no address.  A connection is made at most once, and its
messages are sent in their order; all connections are tried unless every worker has died, and all their
messages sent when the code is 0 (and there was a worker at all).
-/

namespace WebsocketHub

section Defs

/-- The connection that a worker is at. -/
def WorkerPc.on : WorkerPc → Option ℕ
  | .connect connid => some connid
  | .write connid _ => some connid
  | .close connid _ => some connid
  | _ => none

/-- The worker has met an error. -/
def WorkerPc.dying : WorkerPc → Bool
  | .close _ true => true
  | .store => true
  | _ => false

/-- It takes no more connection. -/
def WorkerPc.leaves : WorkerPc → Bool
  | .close _ true => true
  | .store => true
  | .done => true
  | .returned => true
  | _ => false

variable (conf : StressConf)

/-- A connection on which `k` messages have been sent. -/
def sentUpTo (connid k : ℕ) : List ConnEvent :=
  .opened :: (List.range k).map fun msgid => .wrote (testMessage conf connid msgid)

/-- All messages have been sent. -/
def Complete (connid : ℕ) (h : List ConnEvent) : Prop :=
  h = sentUpTo conf connid conf.messages.toNat ++ [.closed]

/-- There has been an error. -/
def Broken (connid : ℕ) (h : List ConnEvent) : Prop :=
  h = [.failed] ∨ ∃ k < conf.messages.toNat, h = sentUpTo conf connid k ++ [.failed, .closed]

/-- What has happened on the connection that a worker is at. -/
def WorkerPc.Matches (h : List ConnEvent) : WorkerPc → Prop
  | .connect _ => h = []
  | .write connid msgid => msgid ≤ conf.messages.toNat ∧ h = sentUpTo conf connid msgid
  | .close connid false => h = sentUpTo conf connid conf.messages.toNat
  | .close connid true => ∃ k < conf.messages.toNat, h = sentUpTo conf connid k ++ [.failed]
  | _ => True

/-- The numbers below this one have been handed out. -/
def ProducerPc.handed : ProducerPc → ℕ
  | .notSpawned => 0
  | .loop i => i
  | .send i => i
  | .close => conf.connections.toNat
  | .returned => conf.connections.toNat

def ProducerPc.Bounded : ProducerPc → Prop
  | .loop i => i ≤ conf.connections.toNat
  | .send i => i < conf.connections.toNat
  | _ => True

/-- The number of spawned workers. -/
def MainPc.spawned : MainPc → ℕ
  | .check => 0
  | .loop i => i
  | .add i => i
  | .spawn i => i
  | .exited _ => if conf.addr = "" then 0 else conf.concurrent.toNat
  | _ => conf.concurrent.toNat

def MainPc.Bounded : MainPc → Prop
  | .loop i => i ≤ conf.concurrent.toNat
  | .add i => i < conf.concurrent.toNat
  | .spawn i => i < conf.concurrent.toNat
  | _ => True

/-- The producer has been spawned. -/
def MainPc.produces : MainPc → Bool
  | .wait => true
  | .exited _ => conf.addr ≠ ""
  | _ => false

namespace StressState

/-- What has happened on a connection. -/
def history (s : StressState) (connid : ℕ) : List ConnEvent :=
  (s.log.filter fun e => e.1 = connid).map Prod.snd

def failures (s : StressState) : ℕ := s.log.countP fun e => e.2 = .failed

end StressState

/-- The steps that are left, with `N` connections of `M` messages. -/
def WorkerPc.price (M : ℕ) : WorkerPc → ℕ
  | .range => 2
  | .connect _ => M + 5
  | .write _ msgid => M - msgid + 4
  | .close _ _ => 3
  | .store => 2
  | .done => 1
  | .returned => 0

def ProducerPc.price (N M : ℕ) : ProducerPc → ℕ
  | .notSpawned => 0
  | .loop i => (N - i) * (M + 6) + 3
  | .send i => (N - i) * (M + 6) + 2
  | .close => 1
  | .returned => 0

def MainPc.price (C N M : ℕ) : MainPc → ℕ
  | .check => C * 6 + 5 + (N * (M + 6) + 5)
  | .loop i => (C - i) * 6 + 4 + (N * (M + 6) + 5)
  | .add i => (C - i) * 6 + 3 + (N * (M + 6) + 5)
  | .spawn i => (C - i) * 6 + 2 + (N * (M + 6) + 5)
  | .produce => N * (M + 6) + 5
  | .wait => 1
  | .exited _ => 0

def StressState.price (s : StressState) : ℕ :=
  s.main.price conf.concurrent.toNat conf.connections.toNat conf.messages.toNat +
    s.producer.price conf.connections.toNat conf.messages.toNat +
      (s.workers.map (WorkerPc.price conf.messages.toNat)).sum

/-- `main`, the producer and the `WaitGroup`. -/
structure Crew (s : StressState) : Prop where
  addr : conf.addr = "" → s.main = .check ∨ s.main = .exited 1
  main : s.main.Bounded conf
  producer : s.producer.Bounded conf
  workers : s.workers.length = s.main.spawned conf
  produces : s.producer ≠ .notSpawned ↔ s.main.produces conf = true
  closed : s.chanClosed = true ↔ s.producer = .returned
  wg : s.wg = s.workers.countP (· ≠ .returned) + if s.main = .spawn s.workers.length then 1 else 0
  exited : ∀ code, s.main = .exited code → (conf.addr ≠ "" → code = s.ret) ∧ ∀ p ∈ s.workers, p = .returned

/-- The connections and the workers that are at them. -/
structure Connections (s : StressState) : Prop where
  working : ∀ (w : ℕ) (p : WorkerPc) (connid : ℕ), s.workers[w]? = some p → p.on = some connid →
    connid < s.producer.handed conf ∧ p.Matches conf (s.history connid)
  unique : ∀ (w w' : ℕ) (p p' : WorkerPc) (connid : ℕ), s.workers[w]? = some p → s.workers[w']? = some p' →
    p.on = some connid → p'.on = some connid → w = w'
  idle : ∀ connid < s.producer.handed conf, (∀ p ∈ s.workers, p.on ≠ some connid) →
    Complete conf connid (s.history connid) ∨ Broken conf connid (s.history connid)
  later : ∀ connid, s.producer.handed conf ≤ connid → s.history connid = []

/-- The errors and `ret`. -/
structure Errors (s : StressState) : Prop where
  stored : s.ret = 0 ∨ s.ret = 1 ∧ 0 < s.failures
  dying : ∀ p ∈ s.workers, p.dying = true → 0 < s.failures
  failed : 0 < s.failures → s.ret = 1 ∨ ∃ p ∈ s.workers, p.dying = true
  /-- who leaves before the channel is closed has met an error -/
  leaves : s.chanClosed = false → s.workers.countP WorkerPc.leaves = s.failures
  dials : ∀ e ∈ s.log, e.2 = .opened → (dialHost conf).isSome = true

end Defs

variable {conf : StressConf} {s s' : StressState} {a : StressAction} {w w' connid : ℕ} {p p' : WorkerPc}
  {e : ConnEvent}

/-! ## One worker moves on -/

theorem getElem?_setWorker (hw : s.workers[w]? = some p) :
    (s.setWorker w p').workers[w']? = if w' = w then some p' else s.workers[w']? := by
  obtain ⟨hlt, -⟩ := List.getElem?_eq_some_iff.mp hw
  show (s.workers.set w p')[w']? = _
  rw [List.getElem?_set]
  by_cases heq : w = w'
  · rw [if_pos heq, if_pos hlt, if_pos heq.symm]
  · rw [if_neg heq, if_neg (Ne.symm heq)]

/-- A sum over a list in which one element is replaced. -/
theorem sum_map_set {α : Type*} (f : α → ℕ) {x y : α} : ∀ {l : List α} {i : ℕ}, l[i]? = some x →
    ((l.set i y).map f).sum + f x = (l.map f).sum + f y
  | z :: l, 0, h => by
    obtain rfl := Option.some.inj h
    simp only [List.set_cons_zero, List.map_cons, List.sum_cons]
    omega
  | z :: l, i + 1, h => by
    have hrest := sum_map_set f (y := y) (l := l) (i := i) h
    simp only [List.set_cons_succ, List.map_cons, List.sum_cons]
    omega

/-- What `List.countP_set` says, without a difference. -/
theorem countP_set_add {α : Type*} (f : α → Bool) {l : List α} {i : ℕ} {x y : α} (h : l[i]? = some x) :
    (l.set i y).countP f + (if f x = true then 1 else 0) = l.countP f + if f y = true then 1 else 0 := by
  obtain ⟨hi, rfl⟩ := List.getElem?_eq_some_iff.mp h
  rw [List.countP_set hi]
  by_cases hx : f l[i] = true
  · have hpos : 0 < l.countP f := List.countP_pos_iff.mpr ⟨_, List.getElem_mem hi, hx⟩
    rw [if_pos hx]
    omega
  · rw [if_neg hx]
    omega

theorem history_event : (s.event connid e).history w =
    s.history w ++ if connid = w then [e] else [] := by
  unfold StressState.history StressState.event
  rw [List.filter_append, List.map_append]
  congr 1
  by_cases heq : connid = w
  · rw [if_pos heq, List.filter_cons_of_pos (by rw [decide_eq_true_eq]; exact heq)]
    rfl
  · rw [if_neg heq, List.filter_cons_of_neg (by rw [decide_eq_true_eq]; exact heq)]
    rfl

/-! ## The crew -/

namespace Crew

theorem init : Crew conf StressState.init where
  addr := fun _ => .inl rfl
  main := trivial
  producer := trivial
  workers := rfl
  produces := iff_of_false (fun h => h rfl) Bool.false_ne_true
  closed := iff_of_false Bool.false_ne_true (by nofun)
  wg := rfl
  exited := by nofun

theorem addr_ne (h : Crew conf s) (hcheck : s.main ≠ .check) (hmain : ∀ code, s.main ≠ .exited code) :
    conf.addr ≠ "" :=
  fun hempty => (h.addr hempty).elim hcheck (hmain 1)

/-- A step of a worker. -/
theorem setWorker (h : Crew conf s) (hmain : ∀ code, s.main ≠ .exited code) (hw : s.workers[w]? = some p)
    (hworkers : s'.workers = s.workers.set w p')
    (hsame : s'.main = s.main ∧ s'.producer = s.producer ∧ s'.chanClosed = s.chanClosed)
    (hwg : s'.wg + (if p ≠ .returned then 1 else 0) = s.wg + if p' ≠ .returned then 1 else 0) :
    Crew conf s' := by
  obtain ⟨hm, hp, hc⟩ := hsame
  have hlength : s'.workers.length = s.workers.length := by rw [hworkers, List.length_set]
  refine ⟨hm ▸ h.addr, hm ▸ h.main, hp ▸ h.producer, ?_, ?_, ?_, ?_,
    fun code hcode => absurd (hm ▸ hcode) (hmain code)⟩
  · rw [hlength, hm]
    exact h.workers
  · rw [hp, hm]
    exact h.produces
  · rw [hc, hp]
    exact h.closed
  · have hcount := countP_set_add (fun p => decide (p ≠ .returned)) (y := p') hw
    simp only [decide_eq_true_eq] at hcount
    rw [hworkers, hm, List.length_set]
    have hwg₀ := h.wg
    split_ifs at hcount hwg <;> omega

/-- A step of a worker that does not return. -/
theorem moves (h : Crew conf s) (hmain : ∀ code, s.main ≠ .exited code) (hw : s.workers[w]? = some p)
    (hp : p ≠ .returned) (hp' : p' ≠ .returned) (hworkers : s'.workers = s.workers.set w p')
    (hsame : s'.main = s.main ∧ s'.producer = s.producer ∧ s'.chanClosed = s.chanClosed)
    (hwg : s'.wg = s.wg) : Crew conf s' := by
  refine h.setWorker hmain hw hworkers hsame ?_
  rw [if_pos hp, if_pos hp', hwg]

/-- A step of the producer. -/
theorem setProducer (h : Crew conf s) (hmain : ∀ code, s.main ≠ .exited code)
    (hsame : s'.main = s.main ∧ s'.workers = s.workers ∧ s'.wg = s.wg)
    (hbounded : s'.producer.Bounded conf) (hspawned : s'.producer ≠ .notSpawned)
    (hspawned₀ : s.producer ≠ .notSpawned)
    (hclosed : s'.chanClosed = true ↔ s'.producer = .returned) : Crew conf s' := by
  obtain ⟨hm, hw, hwg⟩ := hsame
  refine ⟨hm ▸ h.addr, hm ▸ h.main, hbounded, ?_, ?_, hclosed, ?_,
    fun code hcode => absurd (hm ▸ hcode) (hmain code)⟩
  · rw [hw, hm]
    exact h.workers
  · rw [hm]
    exact iff_of_true hspawned (h.produces.mp hspawned₀)
  · rw [hwg, hw, hm]
    exact h.wg

theorem notSpawned (h : Crew conf s) (hm : s.main.produces conf = false) : s.producer = .notSpawned := by
  by_contra hne
  rw [h.produces.mp hne] at hm
  cases hm

/-- A step of `main` up to its wait. -/
theorem setMain (h : Crew conf s) (haddr : conf.addr ≠ "") {m : MainPc} (hm : s'.main = m)
    (hbounded : m.Bounded conf) (hworkers : s'.workers.length = m.spawned conf)
    (hnot : m.produces conf = false) (hnot₀ : s.main.produces conf = false)
    (hsame : s'.producer = s.producer ∧ s'.chanClosed = s.chanClosed)
    (hwg : s'.wg = s'.workers.countP (· ≠ .returned) + if m = .spawn s'.workers.length then 1 else 0) :
    Crew conf s' := by
  obtain ⟨hp, hc⟩ := hsame
  have hproducer := h.notSpawned hnot₀
  refine ⟨fun hempty => absurd hempty haddr, hm ▸ hbounded, hp ▸ h.producer, hm ▸ hworkers, ?_, ?_,
    hm ▸ hwg, ?_⟩
  · rw [hp, hm, hnot]
    exact iff_of_false (fun hne => hne hproducer) Bool.false_ne_true
  · rw [hc, hp]
    exact h.closed
  · rintro code hcode
    rw [hm] at hcode
    rw [hcode] at hnot
    exact absurd (of_decide_eq_false hnot) (not_not_intro haddr)

/-- Without an address nothing is handed out. -/
theorem handed_of_addr (h : Crew conf s) (haddr : conf.addr = "") : s.producer.handed conf = 0 := by
  rw [h.notSpawned]
  · rfl
  · rcases h.addr haddr with hm | hm <;> simp [hm, MainPc.produces, haddr]

/-- There is no address, and nobody has been spawned. -/
theorem fatal (h : Crew conf s) (hm : s.main = .check) (haddr : conf.addr = "") :
    Crew conf { s with main := .exited 1 } := by
  have hwg := h.wg
  have hlength := h.workers
  rw [hm] at hwg hlength
  have hproducer := h.notSpawned (by rw [hm]; rfl)
  have hnone : s.workers = [] := List.eq_nil_of_length_eq_zero hlength
  refine ⟨fun _ => .inr rfl, trivial, h.producer, ?_, ?_, h.closed, hwg, fun code hcode => ?_⟩
  · rw [hnone]
    exact (if_pos haddr).symm
  · exact iff_of_false (fun hne => hne hproducer) (by simp [MainPc.produces, haddr])
  · refine ⟨fun hne => absurd haddr hne, fun p hp => ?_⟩
    rw [hnone] at hp
    cases hp

/-- When the `WaitGroup` is done, all workers have returned. -/
theorem exit (h : Crew conf s) (hm : s.main = .wait) (hz : s.wg = 0) :
    Crew conf { s with main := .exited s.ret } := by
  have hwg := h.wg
  have hlength := h.workers
  have hproduces := h.produces
  rw [hm] at hwg hlength hproduces
  have haddr := h.addr_ne (by rw [hm]; simp) (by rw [hm]; simp)
  refine ⟨fun hempty => absurd hempty haddr, trivial, h.producer, hlength.trans (if_neg haddr).symm, ?_,
    h.closed, hwg, fun code hcode => ?_⟩
  · exact hproduces.trans (iff_of_true rfl (decide_eq_true haddr))
  · refine ⟨fun _ => (MainPc.exited.inj hcode).symm, fun p hp => ?_⟩
    have hnone : s.workers.countP (· ≠ .returned) = 0 := by
      rw [hz, if_neg (by simp)] at hwg
      omega
    simpa using List.countP_eq_zero.mp hnone p hp

/-- **Step lemma**. -/
theorem step (h : Crew conf s) (hmain : ∀ code, s.main ≠ .exited code) (hs : StressStep conf s a s') :
    Crew conf s' := by
  have hwg := h.wg
  have hlength := h.workers
  have hbound := h.main
  cases hs with
  | fatal hm haddr => exact h.fatal hm haddr
  | start hm haddr =>
    rw [hm] at hwg hlength
    exact h.setMain haddr rfl (Nat.zero_le _) hlength rfl (by rw [hm]; rfl) ⟨rfl, rfl⟩ hwg
  | @more i hm hi =>
    rw [hm] at hwg hlength
    exact h.setMain (h.addr_ne (by rw [hm]; simp) hmain) rfl hi hlength rfl (by rw [hm]; rfl) ⟨rfl, rfl⟩ hwg
  | @enough i hm hi =>
    rw [hm] at hwg hlength hbound
    exact h.setMain (h.addr_ne (by rw [hm]; simp) hmain) rfl trivial
      (hlength.trans (Nat.le_antisymm hbound hi)) rfl (by rw [hm]; rfl) ⟨rfl, rfl⟩ hwg
  | @add i hm =>
    rw [hm] at hwg hlength hbound
    have hlength : s.workers.length = i := hlength
    refine h.setMain (h.addr_ne (by rw [hm]; simp) hmain) rfl hbound hlength rfl (by rw [hm]; rfl)
      ⟨rfl, rfl⟩ ?_
    show s.wg + 1 = (s.workers.countP (· ≠ .returned) : ℤ) +
      if MainPc.spawn i = .spawn s.workers.length then 1 else 0
    rw [hwg, if_neg (by simp), if_pos (by rw [hlength]), Int.add_zero]
  | @spawn i hm =>
    rw [hm] at hwg hlength hbound
    have hlength : s.workers.length = i := hlength
    refine h.setMain (h.addr_ne (by rw [hm]; simp) hmain) rfl hbound ?_ rfl (by rw [hm]; rfl) ⟨rfl, rfl⟩ ?_
    · rw [List.length_append, hlength]
      rfl
    · show s.wg = _
      rw [hwg, List.countP_append, if_pos (by rw [hlength]), if_neg (by simp)]
      rfl
  | produce hm =>
    rw [hm] at hwg hlength
    have hopen : s.chanClosed ≠ true := by
      rw [Ne, h.closed, h.notSpawned (by rw [hm]; rfl)]
      simp
    have haddr := h.addr_ne (by rw [hm]; simp) hmain
    exact ⟨fun hempty => absurd hempty haddr, trivial, Nat.zero_le _, hlength, by simp [MainPc.produces],
      iff_of_false hopen (by simp), hwg, by simp⟩
  | exit hm hz => exact h.exit hm hz
  | @next i hp hi =>
    have hclosed := h.closed
    rw [hp] at hclosed
    exact h.setProducer hmain ⟨rfl, rfl, rfl⟩ hi (by simp) (by simp [hp]) (hclosed.trans (by simp))
  | @last i hp hi =>
    have hclosed := h.closed
    rw [hp] at hclosed
    exact h.setProducer hmain ⟨rfl, rfl, rfl⟩ trivial (by simp) (by simp [hp]) (hclosed.trans (by simp))
  | close hp =>
    exact h.setProducer hmain ⟨rfl, rfl, rfl⟩ trivial (by simp) (by simp [hp]) (iff_of_true rfl rfl)
  | @hand w i hp hw =>
    have hclosed := h.closed
    have hbounded := h.producer
    rw [hp] at hclosed hbounded
    have hset : Crew conf (s.setWorker w (.connect i)) :=
      h.moves hmain hw (by simp) (by simp) rfl ⟨rfl, rfl, rfl⟩ rfl
    exact hset.setProducer hmain ⟨rfl, rfl, rfl⟩ hbounded (by simp) (by simp [StressState.setWorker, hp])
      (hclosed.trans (by simp))
  | done hw =>
    refine h.setWorker hmain hw rfl ⟨rfl, rfl, rfl⟩ ?_
    rw [if_pos (by simp), if_neg (by simp)]
    exact (Int.sub_add_cancel s.wg 1).trans (Int.add_zero s.wg).symm
  | @closes w connid err ok hw =>
    exact h.moves hmain hw (by simp) (by cases err <;> simp) rfl ⟨rfl, rfl, rfl⟩ rfl
  | ends hw hc => exact h.moves hmain hw (by simp) (by simp) rfl ⟨rfl, rfl, rfl⟩ rfl
  | connects hw hok => exact h.moves hmain hw (by simp) (by simp) rfl ⟨rfl, rfl, rfl⟩ rfl
  | dialFails hw hok => exact h.moves hmain hw (by simp) (by simp) rfl ⟨rfl, rfl, rfl⟩ rfl
  | writes hw hm => exact h.moves hmain hw (by simp) (by simp) rfl ⟨rfl, rfl, rfl⟩ rfl
  | writeFails hw hm => exact h.moves hmain hw (by simp) (by simp) rfl ⟨rfl, rfl, rfl⟩ rfl
  | written hw hm => exact h.moves hmain hw (by simp) (by simp) rfl ⟨rfl, rfl, rfl⟩ rfl
  | store hw => exact h.moves hmain hw (by simp) (by simp) rfl ⟨rfl, rfl, rfl⟩ rfl

end Crew

/-! ## The connections -/

theorem getElem?_set_of (hw : s.workers[w]? = some p) {workers : List WorkerPc}
    (hworkers : workers = s.workers.set w p') (v : ℕ) :
    workers[v]? = if v = w then some p' else s.workers[v]? := by
  rw [hworkers]
  exact getElem?_setWorker hw

namespace Connections

theorem init : Connections conf StressState.init where
  working := by
    rintro w p connid ⟨⟩
  unique := by
    rintro w w' p p' connid ⟨⟩
  idle := fun connid h => absurd h (Nat.not_lt_zero connid)
  later := fun _ _ => rfl

/-- A step that no connection takes part in. -/
theorem keep (h : Connections conf s)
    (hon : ∀ (w : ℕ) (p : WorkerPc) (connid : ℕ), p.on = some connid →
      (s'.workers[w]? = some p ↔ s.workers[w]? = some p))
    (hlog : s'.log = s.log) (hhanded : s'.producer.handed conf = s.producer.handed conf) :
    Connections conf s' := by
  have hhistory : ∀ connid, s'.history connid = s.history connid := by
    intro connid
    unfold StressState.history
    rw [hlog]
  refine ⟨fun w p connid hw hp => ?_, fun w w' p p' connid hw hw' hp hp' => ?_, fun connid hlt hfree => ?_,
    fun connid hle => ?_⟩
  · rw [hhanded, hhistory]
    exact h.working w p connid ((hon w p connid hp).mp hw) hp
  · exact h.unique w w' p p' connid ((hon w p connid hp).mp hw) ((hon w' p' connid hp').mp hw') hp hp'
  · rw [hhanded] at hlt
    rw [hhistory]
    refine h.idle connid hlt fun p hp heq => ?_
    obtain ⟨w, hw⟩ := List.getElem?_of_mem hp
    exact hfree p (List.mem_of_getElem? ((hon w p connid heq).mpr hw)) heq
  · rw [hhanded] at hle
    rw [hhistory]
    exact h.later connid hle

/-- A worker that is at no connection, before and after its step. -/
theorem pass (h : Connections conf s) (hw : s.workers[w]? = some p) (hp : p.on = none) (hp' : p'.on = none)
    (hworkers : s'.workers = s.workers.set w p') (hlog : s'.log = s.log)
    (hproducer : s'.producer = s.producer) : Connections conf s' := by
  refine h.keep (fun v q connid hq => ?_) hlog (by rw [hproducer])
  rw [getElem?_set_of hw hworkers]
  split
  · next heq =>
    rw [heq, hw]
    constructor
    · rintro ⟨⟩
      rw [hp'] at hq
      cases hq
    · rintro ⟨⟩
      rw [hp] at hq
      cases hq
  · exact .rfl

/-- A worker goes on with its connection, or leaves it. -/
theorem work (h : Connections conf s) (hw : s.workers[w]? = some p) (hp : p.on = some connid)
    (hworkers : s'.workers = s.workers.set w p') (hproducer : s'.producer = s.producer)
    (hother : ∀ d, d ≠ connid → s'.history d = s.history d)
    (hafter : p'.on = some connid ∧ p'.Matches conf (s'.history connid) ∨
      p'.on = none ∧ (Complete conf connid (s'.history connid) ∨ Broken conf connid (s'.history connid))) :
    Connections conf s' := by
  have hget := getElem?_set_of hw hworkers
  -- the other workers are at other connections
  have hne : ∀ {v : ℕ} {q : WorkerPc} {d : ℕ}, v ≠ w → s.workers[v]? = some q → q.on = some d →
      d ≠ connid := by
    rintro v q d hv hq hd rfl
    exact hv (h.unique v w q p d hq hw hd hp)
  have hself : ∀ {d}, p'.on = some d → d = connid := by
    intro d hd
    rcases hafter with ⟨hon, -⟩ | ⟨hon, -⟩
    · exact Option.some.inj (hd.symm.trans hon)
    · rw [hon] at hd
      cases hd
  refine ⟨fun v q d hv hd => ?_, fun v v' q q' d hv hv' hd hd' => ?_, fun d hlt hfree => ?_, fun d hle => ?_⟩
  · rw [hproducer]
    rw [hget] at hv
    split at hv
    · obtain rfl := Option.some.inj hv
      obtain rfl := hself hd
      refine ⟨(h.working w p d hw hp).1, ?_⟩
      rcases hafter with ⟨-, hmatches⟩ | ⟨hon, -⟩
      · exact hmatches
      · rw [hon] at hd
        cases hd
    · next hvw =>
      rw [hother d (hne hvw hv hd)]
      exact h.working v q d hv hd
  · rw [hget] at hv hv'
    split at hv
    · next hvw =>
      split at hv'
      · next hvw' => exact hvw.trans hvw'.symm
      · next hvw' =>
        obtain rfl := Option.some.inj hv
        exact absurd (hself hd) (hne hvw' hv' hd')
    · next hvw =>
      split at hv'
      · obtain rfl := Option.some.inj hv'
        exact absurd (hself hd') (hne hvw hv hd)
      · exact h.unique v v' q q' d hv hv' hd hd'
  · rw [hproducer] at hlt
    by_cases hd : d = connid
    · subst hd
      rcases hafter with ⟨hon, -⟩ | ⟨-, hdone⟩
      · exact absurd hon (hfree p' (List.mem_of_getElem? ((hget w).trans (if_pos rfl))))
      · exact hdone
    · rw [hother d hd]
      refine h.idle d hlt fun q hq heq => ?_
      obtain ⟨v, hv⟩ := List.getElem?_of_mem hq
      by_cases hvw : v = w
      · subst hvw
        obtain rfl := Option.some.inj (hw.symm.trans hv)
        exact hd (Option.some.inj (heq.symm.trans hp))
      · exact hfree q (List.mem_of_getElem? ((hget v).trans ((if_neg hvw).trans hv))) heq
  · rw [hproducer] at hle
    rw [hother d]
    · exact h.later d hle
    · rintro rfl
      exact absurd (h.working w p d hw hp).1 (Nat.not_lt.mpr hle)

/-- A worker takes the next connection. -/
theorem hand {i : ℕ} (h : Connections conf s) (hp : s.producer = .send i)
    (hw : s.workers[w]? = some .range) :
    Connections conf { s.setWorker w (.connect i) with producer := .loop (i + 1) } := by
  have hget : ∀ v, (s.setWorker w (.connect i)).workers[v]? =
      if v = w then some (.connect i) else s.workers[v]? := fun v => getElem?_setWorker hw
  have hhanded : s.producer.handed conf = i := by
    rw [hp]
    rfl
  -- nobody has been at it
  have hnew : ∀ {v : ℕ} {q : WorkerPc}, s.workers[v]? = some q → q.on ≠ some i := by
    intro v q hq hon
    have hlt := (h.working v q i hq hon).1
    rw [hhanded] at hlt
    exact Nat.lt_irrefl i hlt
  refine ⟨fun v q d hv hd => ?_, fun v v' q q' d hv hv' hd hd' => ?_, fun d hlt hfree => ?_, fun d hle => ?_⟩
  · replace hv := (hget v).symm.trans hv
    split at hv
    · obtain rfl := Option.some.inj hv
      obtain rfl := Option.some.inj hd
      exact ⟨Nat.lt_succ_self i, h.later i (Nat.le_of_eq hhanded)⟩
    · obtain ⟨hlt, hmatches⟩ := h.working v q d hv hd
      rw [hhanded] at hlt
      exact ⟨Nat.lt_succ_of_lt hlt, hmatches⟩
  · replace hv := (hget v).symm.trans hv
    replace hv' := (hget v').symm.trans hv'
    split at hv
    · next hvw =>
      obtain rfl := Option.some.inj hv
      obtain rfl := Option.some.inj hd
      split at hv'
      · next hvw' => exact hvw.trans hvw'.symm
      · exact absurd hd' (hnew hv')
    · split at hv'
      · obtain rfl := Option.some.inj hv'
        obtain rfl := Option.some.inj hd'
        exact absurd hd (hnew hv)
      · exact h.unique v v' q q' d hv hv' hd hd'
  · have hd : d ≠ i := by
      rintro rfl
      exact hfree (.connect d) (List.mem_of_getElem? ((hget w).trans (if_pos rfl))) rfl
    have hlt : d < i + 1 := hlt
    refine h.idle d (by rw [hhanded]; omega) fun q hq heq => ?_
    obtain ⟨v, hv⟩ := List.getElem?_of_mem hq
    by_cases hvw : v = w
    · rw [hvw, hw] at hv
      obtain rfl := Option.some.inj hv
      cases heq
    · exact hfree q (List.mem_of_getElem? ((hget v).trans ((if_neg hvw).trans hv))) heq
  · exact h.later d (by rw [hhanded]; exact Nat.le_of_succ_le hle)

/-- Something happens on the connection that a worker is at. -/
theorem act {e : ConnEvent} (h : Connections conf s) (hw : s.workers[w]? = some p) (hp : p.on = some connid)
    (hafter : p'.on = some connid ∧ p'.Matches conf (s.history connid ++ [e]) ∨
      p'.on = none ∧ (Complete conf connid (s.history connid ++ [e]) ∨
        Broken conf connid (s.history connid ++ [e]))) :
    Connections conf ((s.event connid e).setWorker w p') := by
  have hself : ((s.event connid e).setWorker w p').history connid = s.history connid ++ [e] :=
    history_event.trans (by rw [if_pos rfl])
  refine h.work hw hp rfl rfl (fun d hd => ?_) ?_
  · exact history_event.trans (by rw [if_neg (Ne.symm hd), List.append_nil])
  · rw [hself]
    exact hafter

/-- **Step lemma**. -/
theorem step (h : Connections conf s) (hcrew : Crew conf s) (hs : StressStep conf s a s') :
    Connections conf s' := by
  cases hs with
  | fatal hm haddr => exact h.keep (fun _ _ _ _ => .rfl) rfl rfl
  | start hm haddr => exact h.keep (fun _ _ _ _ => .rfl) rfl rfl
  | more hm hi => exact h.keep (fun _ _ _ _ => .rfl) rfl rfl
  | enough hm hi => exact h.keep (fun _ _ _ _ => .rfl) rfl rfl
  | add hm => exact h.keep (fun _ _ _ _ => .rfl) rfl rfl
  | exit hm hz => exact h.keep (fun _ _ _ _ => .rfl) rfl rfl
  | spawn hm =>
    refine h.keep (fun w p connid hp => ?_) rfl rfl
    show (s.workers ++ [.range])[w]? = some p ↔ _
    rw [List.getElem?_append]
    split
    · exact .rfl
    · next hge =>
      rw [List.getElem?_eq_none (Nat.not_lt.mp hge)]
      refine iff_of_false (fun hw => ?_) (by simp)
      obtain rfl := List.mem_singleton.mp (List.mem_of_getElem? hw)
      cases hp
  | produce hm =>
    refine h.keep (fun _ _ _ _ => .rfl) rfl ?_
    rw [hcrew.notSpawned (by rw [hm]; rfl)]
    rfl
  | next hp hi =>
    refine h.keep (fun _ _ _ _ => .rfl) rfl ?_
    rw [hp]
    rfl
  | last hp hi =>
    have hbounded := hcrew.producer
    rw [hp] at hbounded
    refine h.keep (fun _ _ _ _ => .rfl) rfl ?_
    rw [hp]
    exact Nat.le_antisymm hi hbounded
  | close hp =>
    refine h.keep (fun _ _ _ _ => .rfl) rfl ?_
    rw [hp]
    rfl
  | hand hp hw => exact h.hand hp hw
  | ends hw hc => exact h.pass hw rfl rfl rfl rfl rfl
  | store hw => exact h.pass hw rfl rfl rfl rfl rfl
  | done hw => exact h.pass hw rfl rfl rfl rfl rfl
  | @connects w connid ok hw hok =>
    obtain ⟨-, hmatches⟩ := h.working w _ connid hw rfl
    have hnil : s.history connid = [] := hmatches
    refine h.act hw rfl (.inl ⟨rfl, Nat.zero_le _, ?_⟩)
    rw [hnil]
    rfl
  | @dialFails w connid ok hw hok =>
    obtain ⟨-, hmatches⟩ := h.working w _ connid hw rfl
    have hnil : s.history connid = [] := hmatches
    exact h.act hw rfl (.inr ⟨rfl, .inr (.inl (by rw [hnil]; rfl))⟩)
  | @writes w connid msgid hw hm =>
    obtain ⟨-, -, hhistory⟩ := h.working w _ connid hw rfl
    refine h.act hw rfl (.inl ⟨rfl, hm, ?_⟩)
    rw [hhistory, sentUpTo, sentUpTo, List.range_succ, List.map_append]
    rfl
  | @writeFails w connid msgid hw hm =>
    obtain ⟨-, -, hhistory⟩ := h.working w _ connid hw rfl
    exact h.act hw rfl (.inl ⟨rfl, msgid, hm, by rw [hhistory]⟩)
  | @written w connid msgid ok hw hm =>
    obtain ⟨-, hle, hhistory⟩ := h.working w _ connid hw rfl
    refine h.work hw rfl rfl rfl (fun _ _ => rfl) (.inl ⟨rfl, ?_⟩)
    exact hhistory.trans (by rw [Nat.le_antisymm hle hm])
  | @closes w connid err ok hw =>
    obtain ⟨-, hmatches⟩ := h.working w _ connid hw rfl
    cases err with
    | true =>
      obtain ⟨k, hk, hhistory⟩ := hmatches
      exact h.act hw rfl (.inr ⟨rfl, .inr (.inr ⟨k, hk, by rw [hhistory, List.append_assoc]; rfl⟩)⟩)
    | false =>
      have hhistory : s.history connid = sentUpTo conf connid conf.messages.toNat := hmatches
      exact h.act hw rfl (.inr ⟨rfl, .inl (by rw [hhistory, Complete])⟩)

end Connections

/-! ## The errors -/

namespace Errors

theorem init : Errors conf StressState.init where
  stored := .inl rfl
  dying := fun _ hp => absurd hp List.not_mem_nil
  failed := fun h => absurd h (Nat.lt_irrefl 0)
  leaves := fun _ => rfl
  dials := fun _ he => absurd he List.not_mem_nil

theorem failures_event : (s.event connid e).failures = s.failures + if e = .failed then 1 else 0 := by
  unfold StressState.failures StressState.event
  rw [List.countP_append, List.countP_singleton]
  simp

/-- A step of a worker that meets no error. -/
theorem move (h : Errors conf s) (hw : s.workers[w]? = some p) (hworkers : s'.workers = s.workers.set w p')
    (hdying : p'.dying = p.dying) (hleaves : s.chanClosed = false → p'.leaves = p.leaves)
    (hclosed : s'.chanClosed = s.chanClosed)
    (hret : s'.ret = s.ret) (hfailures : s'.failures = s.failures)
    (hdials : ∀ e ∈ s'.log, e.2 = .opened → (dialHost conf).isSome = true) : Errors conf s' := by
  have hmem : p ∈ s.workers := List.mem_of_getElem? hw
  have hget := getElem?_set_of hw hworkers
  refine ⟨?_, fun q hq hd => ?_, fun hf => ?_, fun hc => ?_, hdials⟩
  · rw [hret, hfailures]
    exact h.stored
  · rw [hfailures]
    rw [hworkers] at hq
    rcases List.mem_or_eq_of_mem_set hq with hq | rfl
    · exact h.dying q hq hd
    · exact h.dying p hmem (hdying ▸ hd)
  · rw [hfailures] at hf
    rw [hret]
    refine (h.failed hf).imp_right ?_
    rintro ⟨q, hq, hd⟩
    obtain ⟨v, hv⟩ := List.getElem?_of_mem hq
    by_cases hvw : v = w
    · subst hvw
      obtain rfl := Option.some.inj (hw.symm.trans hv)
      exact ⟨p', List.mem_of_getElem? ((hget v).trans (if_pos rfl)), hdying.trans hd⟩
    · exact ⟨q, List.mem_of_getElem? ((hget v).trans ((if_neg hvw).trans hv)), hd⟩
  · rw [hclosed] at hc
    have hcount := countP_set_add WorkerPc.leaves (y := p') hw
    rw [hleaves hc] at hcount
    rw [hworkers, hfailures, ← h.leaves hc]
    exact Nat.add_right_cancel hcount

/-- An error. -/
theorem fail (h : Errors conf s) (hw : s.workers[w]? = some p) (hleaves : p.leaves = false)
    (hdying' : p'.dying = true) (hleaves' : p'.leaves = true) :
    Errors conf ((s.event connid .failed).setWorker w p') := by
  have hfailures : ((s.event connid .failed).setWorker w p').failures = s.failures + 1 := failures_event
  have hpos : 0 < ((s.event connid .failed).setWorker w p').failures := by
    rw [hfailures]
    exact Nat.succ_pos _
  refine ⟨h.stored.imp_right fun hs => ⟨hs.1, hpos⟩, fun _ _ _ => hpos, fun _ => .inr ⟨p', ?_, hdying'⟩,
    fun hc => ?_, fun e he ho => ?_⟩
  · exact List.mem_of_getElem? ((getElem?_setWorker hw).trans (if_pos rfl))
  · have hcount := countP_set_add WorkerPc.leaves (y := p') hw
    rw [hleaves, hleaves', h.leaves hc, if_pos rfl, if_neg Bool.false_ne_true] at hcount
    rw [hfailures]
    exact hcount
  · rcases List.mem_append.mp he with he | he
    · exact h.dials e he ho
    · rw [List.mem_singleton.mp he] at ho
      cases ho

/-- A step that no worker takes. -/
theorem keep (h : Errors conf s) (hworkers : s'.workers = s.workers)
    (hclosed : s'.chanClosed = false → s.chanClosed = false) (hret : s'.ret = s.ret)
    (hlog : s'.log = s.log) : Errors conf s' := by
  have hfailures : s'.failures = s.failures := by
    unfold StressState.failures
    rw [hlog]
  refine ⟨?_, ?_, ?_, fun hc => ?_, hlog ▸ h.dials⟩
  · rw [hret, hfailures]
    exact h.stored
  · rw [hworkers, hfailures]
    exact h.dying
  · rw [hret, hworkers, hfailures]
    exact h.failed
  · rw [hworkers, hfailures]
    exact h.leaves (hclosed hc)

/-- **Step lemma**. -/
theorem step (h : Errors conf s) (hs : StressStep conf s a s') : Errors conf s' := by
  have hother : ∀ {e : ConnEvent} {c : ℕ}, e ≠ .opened → ∀ d ∈ (s.event c e).log, d.2 = .opened →
      (dialHost conf).isSome = true := by
    intro e c hne d hd ho
    rcases List.mem_append.mp hd with hd | hd
    · exact h.dials d hd ho
    · rw [List.mem_singleton.mp hd] at ho
      exact absurd ho hne
  cases hs with
  | fatal hm haddr => exact h.keep rfl (fun hc => hc) rfl rfl
  | start hm haddr => exact h.keep rfl (fun hc => hc) rfl rfl
  | more hm hi => exact h.keep rfl (fun hc => hc) rfl rfl
  | enough hm hi => exact h.keep rfl (fun hc => hc) rfl rfl
  | add hm => exact h.keep rfl (fun hc => hc) rfl rfl
  | exit hm hz => exact h.keep rfl (fun hc => hc) rfl rfl
  | produce hm => exact h.keep rfl (fun hc => hc) rfl rfl
  | next hp hi => exact h.keep rfl (fun hc => hc) rfl rfl
  | last hp hi => exact h.keep rfl (fun hc => hc) rfl rfl
  | close hp => exact h.keep rfl (by simp) rfl rfl
  | spawn hm =>
    refine ⟨h.stored, fun p hp hd => ?_, fun hf => (h.failed hf).imp_right ?_, fun hc => ?_, h.dials⟩
    · rcases List.mem_append.mp hp with hp | hp
      · exact h.dying p hp hd
      · rw [List.mem_singleton.mp hp] at hd
        cases hd
    · rintro ⟨p, hp, hd⟩
      exact ⟨p, List.mem_append_left _ hp, hd⟩
    · rw [List.countP_append]
      exact h.leaves hc
  | @hand w i hp hw =>
    have hset : Errors conf (s.setWorker w (.connect i)) :=
      h.move hw rfl rfl (fun _ => rfl) rfl rfl rfl h.dials
    exact hset.keep rfl (fun hc => hc) rfl rfl
  | ends hw hc =>
    refine h.move hw rfl rfl (fun hopen => ?_) rfl rfl rfl h.dials
    rw [hc] at hopen
    cases hopen
  | store hw =>
    -- it has met an error before
    have hpos : 0 < s.failures := h.dying _ (List.mem_of_getElem? hw) rfl
    refine ⟨.inr ⟨rfl, hpos⟩, fun _ _ _ => hpos, fun _ => .inl rfl, fun hc => ?_, h.dials⟩
    have hcount := countP_set_add WorkerPc.leaves (y := .done) hw
    exact (Nat.add_right_cancel hcount).trans (h.leaves hc)
  | done hw => exact h.move hw rfl rfl (fun _ => rfl) rfl rfl rfl h.dials
  | @connects w connid ok hw hok =>
    refine h.move hw rfl rfl (fun _ => rfl) rfl rfl failures_event ?_
    rintro e he ho
    exact (Bool.and_eq_true_iff.mp hok).1
  | dialFails hw hok => exact h.fail hw rfl rfl rfl
  | writes hw hm => exact h.move hw rfl rfl (fun _ => rfl) rfl rfl failures_event (hother (by simp))
  | writeFails hw hm => exact h.fail hw rfl rfl rfl
  | written hw hm => exact h.move hw rfl rfl (fun _ => rfl) rfl rfl rfl h.dials
  | @closes w connid err ok hw =>
    cases err with
    | true => exact h.move hw rfl rfl (fun _ => rfl) rfl rfl failures_event (hother (by simp))
    | false => exact h.move hw rfl rfl (fun _ => rfl) rfl rfl failures_event (hother (by simp))

end Errors

/-! ## Every run ends -/

/-- A worker moves on. -/
theorem price_worker (hw : s.workers[w]? = some p) (hworkers : s'.workers = s.workers.set w p')
    (hmain : s'.main = s.main) (hproducer : s'.producer = s.producer)
    (hlt : p'.price conf.messages.toNat < p.price conf.messages.toNat) : s'.price conf < s.price conf := by
  have hsum := sum_map_set (WorkerPc.price conf.messages.toNat) (y := p') hw
  unfold StressState.price
  rw [hmain, hproducer, hworkers]
  omega

theorem price_step (hcrew : Crew conf s) (hs : StressStep conf s a s') : s'.price conf < s.price conf := by
  have hround : ∀ {i n k : ℕ}, i < n → (n - i) * k = (n - (i + 1)) * k + k := by
    intro i n k hi
    rw [← Nat.succ_mul]
    congr 1
    omega
  cases hs with
  | fatal hm haddr => simp only [StressState.price, hm, MainPc.price]; omega
  | start hm haddr => simp only [StressState.price, hm, MainPc.price, Nat.sub_zero]; omega
  | more hm hi => simp only [StressState.price, hm, MainPc.price]; omega
  | @enough i hm hi =>
    simp only [StressState.price, hm, MainPc.price, Nat.sub_eq_zero_of_le hi]
    omega
  | add hm => simp only [StressState.price, hm, MainPc.price]; omega
  | @spawn i hm =>
    have hbounded := hcrew.main
    rw [hm] at hbounded
    have hbounded : i < conf.concurrent.toNat := hbounded
    simp only [StressState.price, hm, MainPc.price, List.map_append, List.sum_append, List.map_singleton,
      List.sum_singleton, WorkerPc.price]
    omega
  | produce hm =>
    have hproducer := hcrew.notSpawned (by rw [hm]; rfl)
    simp only [StressState.price, hm, hproducer, MainPc.price, ProducerPc.price, Nat.sub_zero]
    omega
  | exit hm hz => simp only [StressState.price, hm, MainPc.price]; omega
  | next hp hi => simp only [StressState.price, hp, ProducerPc.price]; omega
  | last hp hi => simp only [StressState.price, hp, ProducerPc.price]; omega
  | close hp => simp only [StressState.price, hp, ProducerPc.price]; omega
  | @hand w i hp hw =>
    -- what the connection costs is in the price of the producer
    have hsum := sum_map_set (WorkerPc.price conf.messages.toNat) (y := .connect i) hw
    have hbounded := hcrew.producer
    rw [hp] at hbounded
    simp only [StressState.price, StressState.setWorker, hp, ProducerPc.price, hround hbounded]
    simp only [WorkerPc.price] at hsum
    omega
  | ends hw hc => exact price_worker hw rfl rfl rfl (by simp [WorkerPc.price])
  | connects hw hok => exact price_worker hw rfl rfl rfl (by simp [WorkerPc.price])
  | dialFails hw hok => exact price_worker hw rfl rfl rfl (by simp [WorkerPc.price])
  | writes hw hm => exact price_worker hw rfl rfl rfl (by simp only [WorkerPc.price]; omega)
  | writeFails hw hm => exact price_worker hw rfl rfl rfl (by simp only [WorkerPc.price]; omega)
  | written hw hm => exact price_worker hw rfl rfl rfl (by simp only [WorkerPc.price]; omega)
  | @closes w connid err ok hw => exact price_worker hw rfl rfl rfl (by cases err <;> simp [WorkerPc.price])
  | store hw => exact price_worker hw rfl rfl rfl (by simp [WorkerPc.price])
  | done hw => exact price_worker hw rfl rfl rfl (by simp [WorkerPc.price])

theorem crew_of_reachable (h : (stressRun conf).Reachable s) : Crew conf s := by
  refine h.invariant (I := Crew conf) Crew.init fun _ _ _ hI _ hn => ?_
  obtain ⟨hmain, hs⟩ := stressStep_of_next hn
  exact hI.step hmain hs

theorem connections_of_reachable (h : (stressRun conf).Reachable s) : Connections conf s :=
  h.invariant_of (I := Connections conf) (J := Crew conf) (fun _ hr => crew_of_reachable hr) Connections.init
    fun _ _ _ hcrew _ hI _ hn => hI.step hcrew (stressStep_of_next hn).2

theorem errors_of_reachable (h : (stressRun conf).Reachable s) : Errors conf s :=
  h.invariant (I := Errors conf) Errors.init fun _ _ _ hI _ hn => hI.step (stressStep_of_next hn).2

theorem price_lowers : (stressRun conf).Lowers (fun _ _ => true) (stressRun conf).Reachable
    (fun s => s.price conf) := by
  intro s a s' h _ hn
  exact ⟨h.step hn trivial, price_step (crew_of_reachable h) (stressStep_of_next hn).2⟩

/-- `main` does not wait for ever: as long as a worker has not returned, some goroutine can go on. -/
theorem exited_of_halted (h : (stressRun conf).Reachable s)
    (hhalt : (stressRun conf).Halted (fun _ _ => true) s) : ∃ code, s.main = .exited code := by
  by_contra hnot
  have hact : ∀ a, stressAct conf s a = none := by
    intro a
    have hnone : stressNext conf s a = none := hhalt a rfl
    rw [stressNext] at hnone
    split at hnone
    · next code hm => exact absurd ⟨code, hm⟩ hnot
    · exact hnone
  have hcrew := crew_of_reachable h
  have hmain := hact .main
  rw [stressAct, mainStep] at hmain
  cases hm : s.main with
  | wait =>
    rw [hm] at hmain
    have hwg : s.wg ≠ 0 := by
      intro hz
      simp [hz] at hmain
    -- a worker that has not returned waits for a connection
    have hrange : ∃ w : ℕ, s.workers[w]? = some WorkerPc.range ∧ s.chanClosed = false := by
      have hcount : 0 < s.workers.countP (· ≠ .returned) := by
        have hwg₀ := hcrew.wg
        rw [hm, if_neg (by simp)] at hwg₀
        omega
      obtain ⟨p, hp, hne⟩ := List.countP_pos_iff.mp hcount
      obtain ⟨w, hw⟩ := List.getElem?_of_mem hp
      have hstep := hact (.worker w true)
      rw [stressAct, hw, Option.bind_some] at hstep
      cases p with
      | range =>
        refine ⟨w, hw, ?_⟩
        by_contra hc
        rw [Bool.not_eq_false] at hc
        simp [workerStep, hc] at hstep
      | connect connid => simp [workerStep] at hstep; split at hstep <;> cases hstep
      | write connid msgid => simp [workerStep] at hstep; split at hstep <;> cases hstep
      | returned => simp at hne
      | _ => cases hstep
    obtain ⟨w, hw, hopen⟩ := hrange
    have hproducer := hact .producer
    have hhand := hact (.hand w)
    have hproduces := hcrew.produces
    rw [hm] at hproduces
    cases hp : s.producer with
    | notSpawned => exact hproduces.mpr rfl hp
    | send i =>
      rw [stressAct, handStep, hp, hw] at hhand
      cases hhand
    | returned =>
      rw [hcrew.closed.mpr hp] at hopen
      cases hopen
    | _ =>
      rw [stressAct, producerStep, hp] at hproducer
      cases hproducer
  | exited code => exact hnot ⟨code, hm⟩
  | _ =>
    rw [hm] at hmain
    cases hmain

/-! ## What the exit code says -/

/-- At the end all workers have returned. -/
theorem free_of_exited (h : Crew conf s) {code : ℕ} (hm : s.main = .exited code) (connid : ℕ) :
    ∀ p ∈ s.workers, p.on ≠ some connid := by
  intro p hp
  rw [(h.exited code hm).2 p hp]
  exact (Option.some_ne_none connid).symm

/-- The exit code. -/
theorem code_of_exited (hcrew : Crew conf s) (h : Errors conf s) {code : ℕ} (hm : s.main = .exited code) :
    code = if conf.addr ≠ "" ∧ s.failures = 0 then 0 else 1 := by
  obtain ⟨hcode, hreturned⟩ := hcrew.exited code hm
  by_cases haddr : conf.addr = ""
  · rw [if_neg fun hand => hand.1 haddr]
    rcases hcrew.addr haddr with hcheck | hexited
    · rw [hcheck] at hm
      cases hm
    · exact MainPc.exited.inj (hm.symm.trans hexited)
  rw [hcode haddr]
  split_ifs with hz
  · rcases h.stored with hret | ⟨-, hpos⟩
    · exact hret
    · omega
  · have hpos : 0 < s.failures := Nat.pos_of_ne_zero fun hzero => hz ⟨haddr, hzero⟩
    rcases h.failed hpos with hret | ⟨p, hp, hdying⟩
    · exact hret
    · rw [hreturned p hp] at hdying
      cases hdying

/-- Unless every worker has died all connections have been tried. -/
theorem tried_of_exited (hcrew : Crew conf s) (h : Errors conf s) (hconn : Connections conf s) {code : ℕ}
    (hm : s.main = .exited code) (haddr : conf.addr ≠ "") (hlt : s.failures < conf.concurrent.toNat)
    {connid : ℕ} (hc : connid < conf.connections.toNat) :
    Complete conf connid (s.history connid) ∨ Broken conf connid (s.history connid) := by
  have hclosed : s.chanClosed = true := by
    by_contra hopen
    rw [Bool.not_eq_true] at hopen
    have hall : s.workers.countP WorkerPc.leaves = s.workers.length := by
      rw [List.countP_eq_length]
      intro p hp
      rw [(hcrew.exited code hm).2 p hp]
      rfl
    have hlength := hcrew.workers
    rw [hm] at hlength
    have hlength : s.workers.length = conf.concurrent.toNat := hlength.trans (if_neg haddr)
    rw [← hlength, ← hall, h.leaves hopen] at hlt
    exact Nat.lt_irrefl _ hlt
  refine hconn.idle connid ?_ (free_of_exited hcrew hm connid)
  rw [hcrew.closed.mp hclosed]
  exact hc

/-- Without an error no connection is broken. -/
theorem not_broken (hz : s.failures = 0) : ¬Broken conf connid (s.history connid) := by
  intro hbroken
  have hmem : ConnEvent.failed ∈ s.history connid := by
    rcases hbroken with heq | ⟨k, -, heq⟩ <;> rw [heq] <;> simp
  obtain ⟨e, he, hfailed⟩ := List.mem_map.mp hmem
  have hcount := List.countP_eq_zero.mp hz e (List.mem_of_mem_filter he)
  exact hcount (decide_eq_true hfailed)

/-- The history of a connection is the beginning of a whole one. -/
theorem begins_of_reachable (h : (stressRun conf).Reachable s) (connid : ℕ) :
    ∃ l, (Complete conf connid l ∨ Broken conf connid l) ∧ s.history connid <+: l := by
  have hconn := connections_of_reachable h
  by_cases hon : ∃ p ∈ s.workers, p.on = some connid
  · obtain ⟨p, hp, hon⟩ := hon
    obtain ⟨w, hw⟩ := List.getElem?_of_mem hp
    obtain ⟨-, hmatches⟩ := hconn.working w p connid hw hon
    cases p with
    | connect c =>
      have hnil : s.history connid = [] := hmatches
      exact ⟨_, .inl rfl, by rw [hnil]; exact List.nil_prefix⟩
    | write c msgid =>
      obtain rfl := Option.some.inj hon
      obtain ⟨hle, hhistory⟩ := hmatches
      refine ⟨_, .inl rfl, ?_⟩
      rw [hhistory, sentUpTo, sentUpTo, List.cons_append, List.cons_prefix_cons]
      refine ⟨rfl, List.IsPrefix.trans ?_ (List.prefix_append _ _)⟩
      have htake : List.range msgid = (List.range conf.messages.toNat).take msgid := by
        rw [List.take_range, Nat.min_eq_left hle]
      rw [htake]
      exact (List.take_prefix _ _).map _
    | close c err =>
      obtain rfl := Option.some.inj hon
      cases err with
      | true =>
        obtain ⟨k, hk, hhistory⟩ := hmatches
        refine ⟨_, .inr (.inr ⟨k, hk, rfl⟩), ?_⟩
        rw [hhistory]
        exact ⟨[.closed], by rw [List.append_assoc]; rfl⟩
      | false => exact ⟨_, .inl rfl, by rw [show s.history c = _ from hmatches]; exact List.prefix_append _ _⟩
    | _ => cases hon
  · have hfree : ∀ p ∈ s.workers, p.on ≠ some connid := fun p hp heq => hon ⟨p, hp, heq⟩
    by_cases hlt : connid < s.producer.handed conf
    · exact ⟨_, hconn.idle connid hlt hfree, List.prefix_refl _⟩
    · exact ⟨_, .inl rfl, by rw [hconn.later connid (Nat.not_lt.mp hlt)]; exact List.nil_prefix⟩

theorem handed_le (h : Crew conf s) : s.producer.handed conf ≤ conf.connections.toNat := by
  have hbounded := h.producer
  cases hp : s.producer with
  | notSpawned => exact Nat.zero_le _
  | loop i =>
    rw [hp] at hbounded
    exact hbounded
  | send i =>
    rw [hp] at hbounded
    exact Nat.le_of_lt hbounded
  | _ => exact Nat.le_refl _

theorem passed_of_exited (h : (stressRun conf).Reachable s) (hm : s.main = .exited 0)
    (hpos : 0 < conf.concurrent) (hc : (connid : ℤ) < conf.connections) :
    Complete conf connid (s.history connid) := by
  have hcrew := crew_of_reachable h
  have herrors := errors_of_reachable h
  have hcode := code_of_exited hcrew herrors hm
  obtain ⟨haddr, hz⟩ : conf.addr ≠ "" ∧ s.failures = 0 := by
    by_contra hne
    rw [if_neg hne] at hcode
    cases hcode
  have hlt : s.failures < conf.concurrent.toNat := by
    rw [hz]
    exact Int.lt_toNat.mpr hpos
  have htried := tried_of_exited hcrew herrors (connections_of_reachable h) hm haddr hlt
    (Int.lt_toNat.mpr hc)
  exact htried.resolve_right (not_broken hz)

/-- What can be relied on. -/
structure StressTested (conf : StressConf) (M : Machine StressState StressAction) : Prop where
  /-- `main` exits, after boundedly many steps in whatever order. -/
  bounded : ∀ s, M.Reachable s → ∃ n, ∀ k s', M.RunsFor (fun _ _ => true) k s s' → k ≤ n
  exits : ∀ s, M.Reachable s → M.Halted (fun _ _ => true) s → ∃ code, s.main = .exited code
  /-- No connection is made twice, its messages are sent in their order, and there are no others. -/
  once : ∀ s (connid : ℕ), M.Reachable s →
    (∃ l, (Complete conf connid l ∨ Broken conf connid l) ∧ s.history connid <+: l) ∧
      (conf.addr = "" ∨ conf.connections ≤ connid → s.history connid = [])
  /-- The exit code tells whether there was an address and there has been no error. -/
  code : ∀ s code, M.Reachable s → s.main = .exited code →
    code = if conf.addr ≠ "" ∧ s.failures = 0 then 0 else 1
  /-- Unless every worker has died, every connection has been made, or its error been met, and is closed. -/
  tried : ∀ s code (connid : ℕ), M.Reachable s → s.main = .exited code → conf.addr ≠ "" →
    s.failures < conf.concurrent → (connid : ℤ) < conf.connections →
    Complete conf connid (s.history connid) ∨ Broken conf connid (s.history connid)
  /-- If there has been a worker, the exit code 0 says that all messages have been sent. -/
  passed : ∀ s (connid : ℕ), M.Reachable s → s.main = .exited 0 → 0 < conf.concurrent →
    (connid : ℤ) < conf.connections → Complete conf connid (s.history connid)
  /-- Without a host to dial, there is an error. -/
  dials : ∀ s code, M.Reachable s → s.main = .exited code → dialHost conf = none → 0 < conf.concurrent →
    0 < conf.connections → code = 1

/-- **Outcome** of a stress test. -/
theorem stress_tested (conf : StressConf) : StressTested conf (stressRun conf) where
  bounded := fun s h => ⟨s.price conf, fun k s' hrun => hrun.le price_lowers h⟩
  exits := fun s h hhalt => exited_of_halted h hhalt
  once := by
    intro s connid h
    have hcrew := crew_of_reachable h
    refine ⟨begins_of_reachable h connid, fun hno => (connections_of_reachable h).later connid ?_⟩
    rcases hno with haddr | hle
    · rw [hcrew.handed_of_addr haddr]
      exact Nat.zero_le connid
    · exact Nat.le_trans (handed_le hcrew) (Int.toNat_le.mpr hle)
  code := fun s code h hm => code_of_exited (crew_of_reachable h) (errors_of_reachable h) hm
  tried := by
    intro s code connid h hm haddr hlt hc
    exact tried_of_exited (crew_of_reachable h) (errors_of_reachable h) (connections_of_reachable h) hm
      haddr (Int.lt_toNat.mpr hlt) (Int.lt_toNat.mpr hc)
  passed := fun s connid h hm hpos hc => passed_of_exited h hm hpos hc
  dials := by
    intro s code h hm hdial hpos hconn
    have hcode := code_of_exited (crew_of_reachable h) (errors_of_reachable h) hm
    rw [hcode, if_neg]
    intro hgood
    rw [hcode, if_pos hgood] at hm
    -- the first connection would have been opened
    have hcomplete : Complete conf 0 (s.history 0) := passed_of_exited h hm hpos hconn
    have hmem : ConnEvent.opened ∈ s.history 0 := by
      rw [hcomplete]
      exact List.mem_cons_self
    obtain ⟨e, he, hopened⟩ := List.mem_map.mp hmem
    have hsome := (errors_of_reachable h).dials e (List.mem_of_mem_filter he) hopened
    rw [hdial] at hsome
    cases hsome

end WebsocketHub
