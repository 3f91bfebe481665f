import WebsocketHub.ChatroomDelivery
import WebsocketHub.ChatroomOrphan
import WebsocketHub.ChatroomRoster
import WebsocketHub.QueueWork
import Mathlib.Algebra.BigOperators.Group.Finset.Piecewise

/-!
# WebsocketHub.ChatroomWork — how much a room still has to do

`goes` are the steps that the goroutines of a room take by themselves: all but those of the server, which
brings clients and closes the room, and the reads, which wait for the network.  `work` counts what is left of
them: every goroutine has the steps up to its end or its next read, a listener those for the entries that it
has before it, and a call of `chatroom.Close` those of the deletions that it is going to spawn.  Every step
lowers it (`work_step`).
-/

namespace WebsocketHub

open ChatroomState QueueState

section Defs

/-- A step that a goroutine takes by itself. -/
def goes (s : ChatroomState) : ChatroomAction → Bool
  | .connect _ => false
  | .close _ => false
  | .reader c _ => (s.conns c).all fun x => x.reader ≠ .read
  | _ => true

def ClosePc.weight : ClosePc → ℕ
  | .check => 2
  | .act => 1
  | .returned _ => 0

def DelPc.weight : DelPc → ℕ
  | .lock => 6
  | .lookup => 5
  | .rawClose => 4
  | .delete => 3
  | .count => 2
  | .unlock => 1
  | .returned => 0

/-- With `k` calls of `chatroom.Close`, each of which may find the client in the map. -/
def ReaderPc.weight (k : ℕ) : ReaderPc → ℕ
  | .add .inc => 8 * k + 19
  | .add .lock => 8 * k + 18
  | .add .insert => 8 * k + 17
  | .add .unlock => 16
  | .add .watcher => 15
  | .add .writer => 12
  | .add .listen => 2
  | .add .count => 1
  | .read => 0
  | .append _ => 1
  | .close p => 6 + p.weight
  | .del p => p.weight
  | .returned => 0

def WatcherPc.weight : WatcherPc → ℕ
  | .notSpawned => 0
  | .wait => 2
  | .closeQuit => 1
  | .returned => 0

def WriterPc.weight : WriterPc → ℕ
  | .notSpawned => 0
  | .range => 9
  | .write _ => 10
  | .del p => 2 + p.weight
  | .close p => p.weight
  | .returned => 0

def Client.weight (k : ℕ) (x : Client) : ℕ := x.reader.weight k + x.watcher.weight + x.writer.weight

/-- With `n` entries altogether. -/
def Listener.weight (n : ℕ) (x : Listener) : ℕ :=
  match x.pc with
  | .start => 6 * n + 6
  | .loop _ => 6 * (n - (x.start + x.sent.length)) + 4
  | .wait _ => 6 * (n - (x.start + x.sent.length)) + 3
  | .readMsg _ => 6 * (n - (x.start + x.sent.length)) + 2
  | .select _ _ => 6 * (n - (x.start + x.sent.length)) + 1
  | .advance _ => 6 * (n - (x.start + x.sent.length)) + 5
  | .closed => 0
  | .quit => 0

/-- What a step to this statement costs: a message that is sent is still to be written. -/
def ListenerPc.price : ListenerPc → ℕ
  | .advance _ => 2
  | _ => 1

/-- With `m` entries in the map. -/
def CloserPc.weight (m : ℕ) : CloserPc → ℕ
  | .rlock => 8 * m + 2
  | .spawn todo => 8 * todo.length + 1
  | .returned => 0

namespace ChatroomState

variable (C : Finset Cid) (K : Finset Kid) (s : ChatroomState)

/-- A client with its listener, or the listener that it will have. -/
def clientWork (k n : ℕ) (c : Cid) : ℕ :=
  ((s.conns c).map (Client.weight k)).getD 0 +
    ((s.backlog.listeners c).map (Listener.weight n)).getD (6 * n + 7)

def closerWork (m : ℕ) (k : Kid) : ℕ := ((s.closers k).map (CloserPc.weight m)).getD 0

def delWork (d : Did) : ℕ := ((s.dels d).map fun y => y.pc.weight).getD 0

/-- The entries that the queue will have if nothing more is read. -/
def entries : ℕ := s.backlog.ahead (Finset.range s.nextCall)

def clientsWork : ℕ := ∑ c ∈ C, s.clientWork K.card s.entries c

def closersWork : ℕ := ∑ k ∈ K, s.closerWork s.clients.entries.length k

def delsWork : ℕ := ∑ d ∈ Finset.range s.nextDel, s.delWork d

def work : ℕ := (if s.panic = none then 1 else 0) + s.backlog.potential (Finset.range s.nextCall) +
  s.clientsWork C K + s.closersWork K + s.delsWork

/-- `C` are the clients of the room and `K` the calls of `chatroom.Close`. -/
structure Known : Prop where
  clients : ∀ c, s.conns c ≠ none → c ∈ C
  closers : ∀ k, s.closers k ≠ none → k ∈ K

end ChatroomState

end Defs

variable {verbose : Bool} {L : Limits} {s s' m : ChatroomState} {a : ChatroomAction} {c : Cid}
  {x x' : Client} {C : Finset Cid} {K : Finset Kid} {T : Thread} {n n' : ℕ} {q q' : QueueState}

/-! ## Listeners -/

theorem Listener.weight_succ (y : Listener) (n : ℕ) : y.weight (n + 1) ≤ y.weight n + 6 := by
  unfold Listener.weight
  split <;> omega

theorem Listener.weight_step {y : Listener} {quit : Bool} {pc : ListenerPc} (h : q.ListenerFacts y)
    (hstep : listenerStep q.q quit y.pc = some (.ok pc)) (hn : q.installed.length ≤ n) :
    (y.moveTo q.removers.length pc).weight n + pc.price ≤ y.weight n := by
  cases hpc : y.pc with
  | start =>
    rw [hpc] at hstep
    cases hstep
    simp [Listener.moveTo, Listener.weight, ListenerPc.price, hpc]
    omega
  | loop p =>
    rw [hpc, listenerStep] at hstep
    split at hstep <;> cases hstep <;> simp [Listener.moveTo, Listener.weight, ListenerPc.price, hpc]
  | wait p =>
    rw [hpc] at hstep
    cases p with
    | none => cases hstep
    | some e =>
      rw [listenerStep] at hstep
      split at hstep
      · cases hstep
        simp [Listener.moveTo, Listener.weight, ListenerPc.price, hpc]
      · cases hstep
  | readMsg e =>
    rw [hpc, listenerStep] at hstep
    split at hstep
    · cases hstep
    · cases hstep
      simp [Listener.moveTo, Listener.weight, ListenerPc.price, hpc]
  | select e msg =>
    rw [hpc] at hstep
    cases quit with
    | true =>
      cases hstep
      simp [Listener.moveTo, Listener.weight, ListenerPc.price, hpc]
    | false =>
      -- the entry that it sends is one of the entries before it
      have hfacts := h.pc
      rw [hpc] at hfacts
      have hlt := (List.getElem?_eq_some_iff.mp hfacts.1).1
      cases hstep
      simp [Listener.moveTo, Listener.weight, ListenerPc.price, hpc]
      omega
  | advance e =>
    rw [hpc] at hstep
    cases hstep
    simp [Listener.moveTo, Listener.weight, ListenerPc.price, hpc]
  | closed =>
    rw [hpc] at hstep
    cases hstep
  | quit =>
    rw [hpc] at hstep
    cases hstep

/-! ## One client moves on -/

theorem clientWork_eq (k n : ℕ) (hc : s.conns c = some x) : s.clientWork k n c =
    x.weight k + ((s.backlog.listeners c).map (Listener.weight n)).getD (6 * n + 7) := by
  unfold clientWork
  rw [hc]
  rfl

/-- The work of the other clients stays. -/
theorem clientsWork_fall {k : ℕ} (hin : c ∈ C) (hconns : ∀ d, d ≠ c → s'.conns d = s.conns d)
    (hlisteners : ∀ d, d ≠ c → s'.backlog.listeners d = s.backlog.listeners d)
    (hentries : s'.entries = s.entries)
    (hfall : s'.clientWork K.card s.entries c + k ≤ s.clientWork K.card s.entries c) :
    s'.clientsWork C K + k ≤ s.clientsWork C K := by
  unfold clientsWork
  rw [hentries]
  refine sum_fall hin (fun d _ hd => Nat.le_of_eq ?_) hfall
  unfold clientWork
  rw [hconns d hd, hlisteners d hd]

/-- The rest of the room is as it was. -/
structure SameRest (s s' : ChatroomState) : Prop where
  panic : s'.panic = s.panic
  clients : s'.clients = s.clients
  dels : s'.dels = s.dels
  nextDel : s'.nextDel = s.nextDel
  closers : s'.closers = s.closers
  nextCall : s'.nextCall = s.nextCall

theorem SameRest.closersWork (h : SameRest s s') : s'.closersWork K = s.closersWork K := by
  unfold ChatroomState.closersWork closerWork
  rw [h.clients, h.closers]

theorem SameRest.delsWork (h : SameRest s s') : s'.delsWork = s.delsWork := by
  unfold ChatroomState.delsWork delWork
  rw [h.dels, h.nextDel]

theorem closerWork_le {j : ℕ} (hclosers : s'.closers = s.closers) (hn : n' ≤ n + j) (k : Kid) :
    s'.closerWork n' k ≤ s.closerWork n k + 8 * j := by
  unfold closerWork
  rw [hclosers]
  cases s.closers k with
  | none => exact Nat.zero_le _
  | some p =>
    simp only [Option.map_some, Option.getD_some]
    cases p <;> simp only [CloserPc.weight] <;> omega

/-- One client moves on, and its listener may. -/
theorem work_client {k : ℕ} (hin : c ∈ C) (hrest : SameRest s s')
    (hconns : ∀ d, d ≠ c → s'.conns d = s.conns d)
    (hlisteners : ∀ d, d ≠ c → s'.backlog.listeners d = s.backlog.listeners d)
    (hentries : s'.entries = s.entries)
    (hqueue : s'.backlog.potential (Finset.range s.nextCall) ≤ s.backlog.potential (Finset.range s.nextCall))
    (hfall : s'.clientWork K.card s.entries c + (k + 1) ≤ s.clientWork K.card s.entries c) :
    s'.work C K < s.work C K := by
  have hclients := clientsWork_fall hin hconns hlisteners hentries hfall
  unfold work
  rw [hrest.panic, hrest.nextCall, hrest.closersWork, hrest.delsWork]
  omega

/-- One client moves on, and the queue stays. -/
theorem work_set (hin : c ∈ C) (hc : s.conns c = some x) (hrest : SameRest s s')
    (hconns : s'.conns = Function.update s.conns c (some x')) (hbacklog : s'.backlog = s.backlog)
    (hlt : x'.weight K.card < x.weight K.card) : s'.work C K < s.work C K := by
  have hc' : s'.conns c = some x' := by rw [hconns, Function.update_self]
  refine work_client (k := 0) hin hrest (fun d hd => ?_) (fun d _ => by rw [hbacklog]) ?_ ?_ ?_
  · rw [hconns, Function.update_of_ne hd]
  · unfold entries
    rw [hbacklog, hrest.nextCall]
  · rw [hbacklog]
  · rw [clientWork_eq _ _ hc, clientWork_eq _ _ hc', hbacklog]
    omega

/-- `l_addClient` puts a client into the map, where the calls of `chatroom.Close` may find it. -/
theorem work_insert (hin : c ∈ C) (hc : s.conns c = some x) (hr : x.reader = .add .insert) :
    ({ s with clients := s.clients.insert x.id c }.setConn c { x with reader := .add .unlock }).work C K <
      s.work C K := by
  let s' := { s with clients := s.clients.insert x.id c }.setConn c { x with reader := .add .unlock }
  have hc' : s'.conns c = some { x with reader := .add .unlock } := Function.update_self _ _ _
  have hclients : s'.clientsWork C K + (8 * K.card + 1) ≤ s.clientsWork C K := by
    refine clientsWork_fall hin (fun d hd => ?_) (fun d _ => rfl) rfl ?_
    · exact Function.update_of_ne hd _ _
    · rw [clientWork_eq _ _ hc, clientWork_eq _ _ hc']
      unfold Client.weight
      rw [hr, show s'.backlog = s.backlog from rfl]
      simp only [ReaderPc.weight]
      omega
  have hsize : s'.clients.entries.length ≤ s.clients.entries.length + 1 := by
    show ((s.clients.entries.kerase x.id).length + 1) ≤ _
    exact Nat.add_le_add_right (List.kerase_sublist _ _).length_le 1
  have hclosers : s'.closersWork K ≤ s.closersWork K + 8 * K.card := by
    unfold closersWork
    rw [Nat.mul_comm, ← Nat.nsmul_eq_mul, ← Finset.sum_const, ← Finset.sum_add_distrib]
    exact Finset.sum_le_sum fun k _ => closerWork_le (s := s) (j := 1) rfl hsize k
  have hwork : s'.work C K < s.work C K := by
    unfold work
    rw [show s'.panic = s.panic from rfl, show s'.backlog = s.backlog from rfl,
      show s'.nextCall = s.nextCall from rfl, show s'.delsWork = s.delsWork from rfl]
    omega
  exact hwork

/-! ## Deletions -/

/-- `l_delClient` itself. -/
theorem DelStep.weight {y : Deletion} {p : DelPc} (h : DelStep verbose s T y m p) :
    p.weight < y.pc.weight := by
  cases h with
  | lock hpc hfree => rw [hpc]; decide
  | found hpc hl => rw [hpc]; decide
  | absent hpc hl => rw [hpc]; decide
  | rawClose hpc => rw [hpc]; decide
  | delete hpc => rw [hpc]; cases verbose <;> decide
  | count hpc => rw [hpc]; decide
  | unlock hpc => rw [hpc]; decide

theorem DelStep.clientWork {y : Deletion} {p : DelPc} (h : DelStep verbose s T y m p) (k n : ℕ) (c : Cid) :
    m.clientWork k n c = s.clientWork k n c := by
  unfold ChatroomState.clientWork
  rw [h.frame.1]
  cases h with
  | rawClose hpc =>
    rw [conns_onConn]
    split
    · next heq =>
      rw [heq, Option.map_map]
      rfl
    · rfl
  | _ => rfl

theorem DelStep.work {y : Deletion} {p : DelPc} (h : DelStep verbose s T y m p) :
    m.work C K ≤ s.work C K := by
  obtain ⟨hbacklog, hpanic, hnextCall, hdels, hclosers⟩ := h.frame
  have hnextDel : m.nextDel = s.nextDel := by cases h <;> rfl
  have hentries : m.entries = s.entries := by
    unfold entries
    rw [hbacklog, hnextCall]
  have hclients : m.clientsWork C K = s.clientsWork C K := by
    unfold clientsWork
    rw [hentries]
    exact Finset.sum_congr rfl fun c _ => h.clientWork _ _ c
  have hsize : m.clients.entries.length ≤ s.clients.entries.length := by
    cases h with
    | delete hpc => exact (List.kerase_sublist _ _).length_le
    | _ => exact Nat.le_refl _
  have hcloser : m.closersWork K ≤ s.closersWork K :=
    Finset.sum_le_sum fun k _ => closerWork_le (j := 0) hclosers hsize k
  have hdel : m.delsWork = s.delsWork := by
    unfold delsWork delWork
    rw [hnextDel, hdels]
  unfold ChatroomState.work
  rw [hpanic, hbacklog, hnextCall]
  omega

theorem ReaderPc.weight_ofDel (k : ℕ) (p : DelPc) : (ReaderPc.ofDel p).weight k = p.weight := by
  cases p <;> rfl

theorem WriterPc.weight_ofDel (p : DelPc) : (WriterPc.ofDel p).weight = 2 + p.weight := by
  cases p <;> rfl

theorem onConn_eq (hc : s.conns c = some x) (f : Client → Client) : s.onConn c f = s.setConn c (f x) := by
  rw [onConn, hc]
  rfl

/-- A goroutine in `l_delClient` moves on. -/
theorem work_moveDel (hknown : m.Known C K) (hnew : NewDel m) {y : Deletion} {p : DelPc}
    (hy : m.delAt T = some y) (hlt : p.weight < y.pc.weight) : (m.moveDel p T).work C K < m.work C K := by
  have hin : ∀ {c x}, m.conns c = some x → c ∈ C := fun hc => hknown.clients _ (by simp [hc])
  cases T with
  | reader c =>
    obtain ⟨x, p', hc, hr, rfl⟩ := delAt_reader.mp hy
    rw [moveDel, onConn_eq hc]
    refine work_set (hin hc) hc ⟨rfl, rfl, rfl, rfl, rfl, rfl⟩ rfl rfl ?_
    unfold Client.weight
    rw [ReaderPc.weight_ofDel, hr]
    exact Nat.add_lt_add_right (Nat.add_lt_add_right hlt _) _
  | writer c =>
    obtain ⟨x, p', hc, hw, rfl⟩ := delAt_writer.mp hy
    rw [moveDel, onConn_eq hc]
    refine work_set (hin hc) hc ⟨rfl, rfl, rfl, rfl, rfl, rfl⟩ rfl rfl ?_
    unfold Client.weight
    rw [WriterPc.weight_ofDel, hw]
    exact Nat.add_lt_add_left (Nat.add_lt_add_left hlt 2) _
  | del d =>
    have hy : m.dels d = some y := hy
    have hd : d ∈ Finset.range m.nextDel := by
      rw [Finset.mem_range]
      by_contra hge
      rw [hnew d (Nat.not_lt.mp hge)] at hy
      cases hy
    have hget : ∀ e, (m.moveDel p (.del d)).dels e =
        if e = d then (m.dels d).map fun y => { y with pc := p } else m.dels e :=
      Function.update_apply _ _ _
    have hdels : (m.moveDel p (.del d)).delsWork + 1 ≤ m.delsWork := by
      refine sum_fall hd (fun e _ he => Nat.le_of_eq ?_) ?_
      · unfold delWork
        rw [hget, if_neg he]
      · unfold delWork
        rw [hget, if_pos rfl, hy]
        exact hlt
    unfold work
    rw [show (m.moveDel p (.del d)).panic = m.panic from rfl,
      show (m.moveDel p (.del d)).backlog = m.backlog from rfl,
      show (m.moveDel p (.del d)).nextCall = m.nextCall from rfl,
      show (m.moveDel p (.del d)).clientsWork C K = m.clientsWork C K from rfl,
      show (m.moveDel p (.del d)).closersWork K = m.closersWork K from rfl]
    omega

theorem work_runDel (hknown : s.Known C K) (hnew : NewDel s) (h : runDel verbose s T = some s') :
    s'.work C K < s.work C K := by
  obtain ⟨y, m, p, hy, hstep, rfl⟩ := runDel_cases h
  have hdels := hstep.frame.2.2.2.1
  have hnextDel : m.nextDel = s.nextDel := by cases hstep <;> rfl
  have hknown' : m.Known C K := by
    constructor
    · intro c hc
      obtain ⟨x', hx'⟩ := Option.ne_none_iff_exists'.mp hc
      obtain ⟨x, hx, -⟩ := hstep.conn hx'
      exact hknown.clients c (by simp [hx])
    · rw [hstep.frame.2.2.2.2]
      exact hknown.closers
  have hnew' : NewDel m := by
    unfold NewDel
    rw [hdels, hnextDel]
    exact hnew
  have hy' : m.delAt T = some y := (hstep.delAt_eq T).trans hy
  exact Nat.lt_of_lt_of_le (work_moveDel hknown' hnew' hy' hstep.weight) hstep.work

/-! ## Steps -/

/-- What is known of a room whose work is counted. -/
structure Counting (C : Finset Cid) (K : Finset Kid) (s : ChatroomState) : Prop where
  known : s.Known C K
  shape : s.backlog.Shape
  delivery : s.backlog.Delivery
  listens : Listens s
  nextCall : NextFresh s
  nextDel : NewDel s

theorem Counting.client_mem (h : Counting C K s) (hc : s.conns c = some x) : c ∈ C :=
  h.known.clients c (by simp [hc])

theorem Counting.call_mem (h : Counting C K s) {t : Tid} (ht : s.backlog.calls t ≠ none) :
    t ∈ Finset.range s.nextCall := by
  rw [Finset.mem_range]
  by_contra hge
  exact ht (h.nextCall t (Nat.not_lt.mp hge))

/-- A step of a call of `Append`. -/
theorem work_call (h : Counting C K s) (hlive : s.backlog.panic = none) {t : Tid}
    (hq : queueAct L s.backlog (.call t) = some q) : { s with backlog := q }.work C K < s.work C K := by
  let s' : ChatroomState := { s with backlog := q }
  have hstep := queueStep_of_act hq
  have ht := h.call_mem (begun_of_step hstep)
  have hfall := potential_step h.shape hlive ht hstep
  have hentries : s'.entries = s.entries := ahead_step ht hstep
  have hclients : s'.clientsWork C K = s.clientsWork C K := by
    unfold clientsWork
    rw [hentries]
    refine Finset.sum_congr rfl fun c _ => ?_
    unfold clientWork
    rw [show s'.backlog.listeners = s.backlog.listeners by cases hstep <;> rfl]
  have hwork : s'.work C K < s.work C K := by
    unfold work
    rw [hclients, show s'.panic = s.panic from rfl, show s'.nextCall = s.nextCall from rfl,
      show s'.backlog = q from rfl, show s'.closersWork K = s.closersWork K from rfl,
      show s'.delsWork = s.delsWork from rfl]
    omega
  exact hwork

/-- A step of a listener, and its client hears of it. -/
theorem work_listener {quit : Bool} {y : Listener} {pc : ListenerPc} (h : Counting C K s)
    (hc : s.conns c = some x) (hl : s.backlog.listeners c = some y)
    (hstep : listenerStep s.backlog.q quit y.pc = some (.ok pc))
    (hx : x'.weight K.card + 1 ≤ x.weight K.card + pc.price) :
    ({ s with backlog := s.backlog.setListener c (y.moveTo s.backlog.removers.length pc) }.setConn c
      x').work C K < s.work C K := by
  let q := s.backlog.setListener c (y.moveTo s.backlog.removers.length pc)
  let s' : ChatroomState := { s with backlog := q }.setConn c x'
  have hc' : s'.conns c = some x' := Function.update_self _ _ _
  have hl' : s'.backlog.listeners c = some (y.moveTo s.backlog.removers.length pc) :=
    Function.update_self _ _ _
  have hfall := Listener.weight_step (n := s.entries) (h.delivery c y hl) hstep (Nat.le_add_right _ _)
  have hwork : s'.work C K < s.work C K := by
    refine work_client (k := 0) (h.client_mem hc) ⟨rfl, rfl, rfl, rfl, rfl, rfl⟩
      (fun d hd => Function.update_of_ne hd _ _) (fun d hd => Function.update_of_ne hd _ _) rfl
      (potential_congr rfl rfl rfl rfl rfl).le ?_
    rw [clientWork_eq _ _ hc, clientWork_eq _ _ hc', hl, hl']
    simp only [Option.map_some, Option.getD_some]
    omega
  exact hwork

/-- The queue panics. -/
theorem work_panic {p : Panic} (hlive : s.backlog.panic = none) :
    { s with backlog := { s.backlog with panic := some p } }.work C K < s.work C K := by
  let s' : ChatroomState := { s with backlog := { s.backlog with panic := some p } }
  have hfall : s'.backlog.potential (Finset.range s.nextCall) + 1 =
      s.backlog.potential (Finset.range s.nextCall) := potential_panic hlive
  have hwork : s'.work C K < s.work C K := by
    unfold work
    rw [show s'.panic = s.panic from rfl, show s'.nextCall = s.nextCall from rfl,
      show s'.clientsWork C K = s.clientsWork C K from rfl,
      show s'.closersWork K = s.closersWork K from rfl, show s'.delsWork = s.delsWork from rfl]
    omega
  exact hwork

/-- A call of `c.Close()`. -/
theorem closeStep_weight {closed closed' : Bool} {p p' : ClosePc}
    (h : closeStep closed p = some (.ok (closed', p'))) : p'.weight < p.weight := by
  cases p with
  | check =>
    cases closed <;> cases h <;> decide
  | act =>
    cases closed
    · cases h
      decide
    · cases h
  | returned ok => cases h

theorem ReaderPc.weight_ofClose (k : ℕ) (p : ClosePc) : (ReaderPc.ofClose p).weight k = 6 + p.weight := by
  cases p <;> rfl

theorem WriterPc.weight_ofClose (p : ClosePc) : (WriterPc.ofClose p).weight = p.weight := by
  cases p <;> rfl

theorem Client.weight_readerCloses {k : ℕ} {p p' : ClosePc} {closed ok : Bool} (hr : x.reader = .close p)
    (hlt : p'.weight < p.weight) :
    { x with closed := closed, readerClose := ok, reader := .ofClose p' : Client }.weight k < x.weight k := by
  unfold Client.weight
  rw [hr, ReaderPc.weight_ofClose, show (ReaderPc.close p).weight k = 6 + p.weight from rfl]
  exact Nat.add_lt_add_right (Nat.add_lt_add_right (Nat.add_lt_add_left hlt 6) _) _

theorem Client.weight_writerCloses {k : ℕ} {p p' : ClosePc} {closed ok : Bool} (hw : x.writer = .close p)
    (hlt : p'.weight < p.weight) :
    { x with closed := closed, writerClose := ok, writer := .ofClose p' : Client }.weight k < x.weight k := by
  unfold Client.weight
  rw [hw, WriterPc.weight_ofClose]
  exact Nat.add_lt_add_left hlt _

/-- One client moves on, and the queue stays. -/
theorem Counting.set (h : Counting C K s) (hc : s.conns c = some x) (hrest : SameRest s s')
    (hconns : s'.conns = Function.update s.conns c (some x')) (hbacklog : s'.backlog = s.backlog)
    (hlt : x'.weight K.card < x.weight K.card) : s'.work C K < s.work C K :=
  work_set (h.client_mem hc) hc hrest hconns hbacklog hlt

/-- A panic of the room. -/
theorem work_lt_of_panic {e : Panic} (hp : s.panic = none) :
    { s with panic := some e }.work C K < s.work C K := by
  let s' : ChatroomState := { s with panic := some e }
  have hwork : s'.work C K < s.work C K := by
    unfold work
    rw [show s'.backlog = s.backlog from rfl, show s'.nextCall = s.nextCall from rfl,
      show s'.clientsWork C K = s.clientsWork C K from rfl,
      show s'.closersWork K = s.closersWork K from rfl, show s'.delsWork = s.delsWork from rfl,
      if_pos hp, if_neg (by simp [s'])]
    omega
  exact hwork

/-- `cr.backlog.Listen(msgs, quit)`. -/
theorem work_listen {r : ReaderPc} (h : Counting C K s) (hc : s.conns c = some x)
    (hr : x.reader = .add .listen) (hr' : r.weight K.card ≤ 1)
    (hq : queueAct L s.backlog (.listen c) = some q) :
    ({ s with backlog := q }.setConn c { x with reader := r }).work C K < s.work C K := by
  have hstep := queueStep_of_act hq
  cases hstep with
  | listen hl =>
    let s' : ChatroomState := { s with backlog := s.backlog.setListener c WebsocketHub.listen }.setConn c
      { x with reader := r }
    have hc' : s'.conns c = some { x with reader := r } := Function.update_self _ _ _
    have hl' : s'.backlog.listeners c = some WebsocketHub.listen := Function.update_self _ _ _
    have hwork : s'.work C K < s.work C K := by
      refine work_client (k := 0) (h.client_mem hc) ⟨rfl, rfl, rfl, rfl, rfl, rfl⟩
        (fun d hd => Function.update_of_ne hd _ _) (fun d hd => Function.update_of_ne hd _ _) rfl
        (potential_congr rfl rfl rfl rfl rfl).le ?_
      rw [clientWork_eq _ _ hc, clientWork_eq _ _ hc', hl, hl']
      simp only [Client.weight, hr, Option.map_some, Option.map_none, Option.getD_some, Option.getD_none,
        Listener.weight, WebsocketHub.listen, show (ReaderPc.add .listen).weight K.card = 2 from rfl]
      omega
    exact hwork

/-- A call of `chatroom.Close` moves on. -/
theorem closersWork_fall {k : Kid} {p p' : CloserPc} {j : ℕ} (h : Counting C K s) (hk : s.closers k = some p)
    (hclosers : s'.closers = Function.update s.closers k (some p')) (hclients : s'.clients = s.clients)
    (hfall : p'.weight s.clients.entries.length + j ≤ p.weight s.clients.entries.length) :
    s'.closersWork K + j ≤ s.closersWork K := by
  have hin : k ∈ K := h.known.closers k (by simp [hk])
  unfold closersWork
  rw [hclients]
  refine sum_fall hin (fun i _ hi => Nat.le_of_eq ?_) ?_
  · unfold closerWork
    rw [hclosers, Function.update_of_ne hi]
  · unfold closerWork
    rw [hclosers, Function.update_self, hk]
    exact hfall

theorem work_closer (hpanic : s'.panic = s.panic) (hbacklog : s'.backlog = s.backlog)
    (hnextCall : s'.nextCall = s.nextCall) (hconns : s'.conns = s.conns)
    (hlt : s'.closersWork K + s'.delsWork < s.closersWork K + s.delsWork) : s'.work C K < s.work C K := by
  have hclients : s'.clientsWork C K = s.clientsWork C K := by
    unfold clientsWork clientWork entries
    rw [hconns, hbacklog, hnextCall]
  unfold work
  rw [hpanic, hbacklog, hnextCall, hclients]
  omega

/-- `go cr.l_delClient(id, c)` -/
theorem work_spawn {k : Kid} {i : ℕ} {todo : List (UInt32 × Cid)} {e : UInt32 × Cid} (h : Counting C K s)
    (hk : s.closers k = some (.spawn todo)) (hi : todo[i]? = some e) :
    { s with
      dels := Function.update s.dels s.nextDel (some ⟨e.1, e.2, .lock⟩)
      nextDel := s.nextDel + 1
      closers := Function.update s.closers k (some (.spawn (todo.eraseIdx i))) }.work C K < s.work C K := by
  let s' : ChatroomState := { s with
    dels := Function.update s.dels s.nextDel (some ⟨e.1, e.2, .lock⟩)
    nextDel := s.nextDel + 1
    closers := Function.update s.closers k (some (.spawn (todo.eraseIdx i))) }
  obtain ⟨hlt, -⟩ := List.getElem?_eq_some_iff.mp hi
  have hclosers : s'.closersWork K + 8 ≤ s.closersWork K := by
    refine closersWork_fall h hk rfl rfl ?_
    simp only [CloserPc.weight, List.length_eraseIdx_of_lt hlt]
    omega
  have hdels : s'.delsWork = s.delsWork + 6 := by
    unfold delsWork
    rw [show s'.nextDel = s.nextDel + 1 from rfl, Finset.sum_range_succ]
    congr 1
    · refine Finset.sum_congr rfl fun d hd => ?_
      unfold delWork
      rw [show s'.dels d = s.dels d from Function.update_of_ne (Nat.ne_of_lt (Finset.mem_range.mp hd)) _ _]
    · unfold delWork
      rw [show s'.dels s.nextDel = some ⟨e.1, e.2, .lock⟩ from Function.update_self _ _ _]
      rfl
  have hwork : s'.work C K < s.work C K := work_closer rfl rfl rfl rfl (by omega)
  exact hwork

/-- **Step lemma**. -/
theorem work_step (h : Counting C K s) (hp : s.panic = none) (hlive : s.backlog.panic = none)
    (hgoes : goes s a = true) (hs : ChatStep verbose L s a s') : s'.work C K < s.work C K := by
  cases hs with
  | connect hc => cases hgoes
  | close hk => cases hgoes
  | addInc hc hr => 
    exact h.set hc ⟨rfl, rfl, rfl, rfl, rfl, rfl⟩ rfl rfl (by simp [Client.weight, ReaderPc.weight, hr])
  | addLock hc hr hfree =>
    exact h.set hc ⟨rfl, rfl, rfl, rfl, rfl, rfl⟩ rfl rfl (by simp [Client.weight, ReaderPc.weight, hr])
  | addInsert hc hr => exact work_insert (h.client_mem hc) hc hr
  | addUnlock hc hr =>
    exact h.set hc ⟨rfl, rfl, rfl, rfl, rfl, rfl⟩ rfl rfl (by simp [Client.weight, ReaderPc.weight, hr])
  | addWatcher hc hr =>
    refine h.set hc ⟨rfl, rfl, rfl, rfl, rfl, rfl⟩ rfl rfl ?_
    simp only [Client.weight, ReaderPc.weight, WatcherPc.weight, hr]
    omega
  | addWriter hc hr =>
    refine h.set hc ⟨rfl, rfl, rfl, rfl, rfl, rfl⟩ rfl rfl ?_
    simp only [Client.weight, ReaderPc.weight, WriterPc.weight, hr]
    omega
  | addListen hc hr hq => exact work_listen h hc hr (by cases verbose <;> simp [ReaderPc.weight]) hq
  | addCount hc hr =>
    exact h.set hc ⟨rfl, rfl, rfl, rfl, rfl, rfl⟩ rfl rfl (by simp [Client.weight, ReaderPc.weight, hr])
  | readFails hc hr => simp [goes, hc, hr] at hgoes
  | readMsg hc hr hq => simp [goes, hc, hr] at hgoes
  | appendStep hc hr hq => exact work_call h hlive hq
  | appendReturns hc hr hret =>
    exact h.set hc ⟨rfl, rfl, rfl, rfl, rfl, rfl⟩ rfl rfl (by simp [Client.weight, ReaderPc.weight, hr])
  | readerCloses hc hr hstep =>
    refine h.set hc ⟨rfl, rfl, rfl, rfl, rfl, rfl⟩ rfl rfl ?_
    exact Client.weight_readerCloses hr (closeStep_weight hstep)
  | readerClosePanics hc hr hstep => exact work_lt_of_panic hp
  | readerDel hd => exact work_runDel h.known h.nextDel hd
  | watcherWait hc hw hcl =>
    exact h.set hc ⟨rfl, rfl, rfl, rfl, rfl, rfl⟩ rfl rfl (by simp [Client.weight, WatcherPc.weight, hw])
  | watcherQuit hc hw =>
    exact h.set hc ⟨rfl, rfl, rfl, rfl, rfl, rfl⟩ rfl rfl (by simp [Client.weight, WatcherPc.weight, hw])
  | writerEnds hc hw hl =>
    exact h.set hc ⟨rfl, rfl, rfl, rfl, rfl, rfl⟩ rfl rfl
      (by simp [Client.weight, WriterPc.weight, ClosePc.weight, hw])
  | writeOk hc hw =>
    exact h.set hc ⟨rfl, rfl, rfl, rfl, rfl, rfl⟩ rfl rfl (by simp [Client.weight, WriterPc.weight, hw])
  | writeFails hc hw =>
    exact h.set hc ⟨rfl, rfl, rfl, rfl, rfl, rfl⟩ rfl rfl
      (by simp [Client.weight, WriterPc.weight, DelPc.weight, hw])
  | writerDel hd => exact work_runDel h.known h.nextDel hd
  | writerCloses hc hw hstep =>
    refine h.set hc ⟨rfl, rfl, rfl, rfl, rfl, rfl⟩ rfl rfl ?_
    exact Client.weight_writerCloses hw (closeStep_weight hstep)
  | writerClosePanics hc hw hstep => exact work_lt_of_panic hp
  | @send c x e msg q hc hl hw hq =>
    obtain ⟨y, hy, hpc⟩ := Option.map_eq_some_iff.mp hl
    cases queueStep_of_act hq with
    | listener hl' hstep =>
      obtain rfl := Option.some.inj (hy.symm.trans hl')
      refine work_listener h hc hy hstep ?_
      rw [hpc] at hstep
      cases hstep
      simp only [Client.weight, WriterPc.weight, ListenerPc.price, hw]
      omega
    | listenerPanics hl' hstep =>
      obtain rfl := Option.some.inj (hy.symm.trans hl')
      rw [hpc] at hstep
      cases hstep
  | @listens c quit q hl hq =>
    cases queueStep_of_act hq with
    | @listener _ _ y pc hy hstep =>
      obtain ⟨x, hc, -⟩ := h.listens c (by rw [hy]; simp)
      have hself : ∀ q, { s with backlog := q }.setConn c x = { s with backlog := q } := by
        intro q
        unfold setConn
        rw [show Function.update s.conns c (some x) = s.conns by rw [← hc, Function.update_eq_self]]
      rw [← hself]
      refine work_listener h hc hy hstep ?_
      cases pc <;> simp [ListenerPc.price]
    | listenerPanics hy hstep => exact work_panic hlive
  | del hd => exact work_runDel h.known h.nextDel hd
  | rlock hk hfree =>
    refine work_closer rfl rfl rfl rfl (Nat.add_lt_add_right ?_ _)
    exact closersWork_fall (j := 1) h hk rfl rfl (by simp [CloserPc.weight])
  | runlock hk =>
    refine work_closer rfl rfl rfl rfl (Nat.add_lt_add_right ?_ _)
    exact closersWork_fall (j := 1) h hk rfl rfl (by simp [CloserPc.weight])
  | spawn hk hi => exact work_spawn h hk hi

/-! ## Reads -/

/-- The work that a message brings with it. -/
def readPrice (C : Finset Cid) (n : ℕ) : ℕ := 4 * n + 6 * C.card + 18

/-- A message that is read: one entry more, which every listener has before it. -/
theorem work_read {msg : Bytes} (h : Counting C K s) (hc : s.conns c = some x) (hr : x.reader = .read)
    (hq : queueAct L s.backlog (.append s.nextCall msg) = some q) (hs' : s' =
      { s with backlog := q, nextCall := s.nextCall + 1 }.setConn c { x with reader := .append s.nextCall }) :
    s'.entries = s.entries + 1 ∧ s'.work C K ≤ s.work C K + readPrice C s.nextCall := by
  have hnew : s.nextCall ∉ Finset.range s.nextCall := Finset.notMem_range_self
  have hbegin : q = s.backlog.begin s.nextCall msg := by
    cases queueStep_of_act hq with
    | append ht => rfl
  have hnext : s'.nextCall = s.nextCall + 1 := by
    rw [hs']
    rfl
  have hqueue : s'.backlog = s.backlog.begin s.nextCall msg := by
    rw [hs', ← hbegin]
    rfl
  have hentries : s'.entries = s.entries + 1 := by
    unfold entries
    rw [hnext, hqueue, Finset.range_add_one]
    exact ahead_begin hnew
  have hpotential : s'.backlog.potential (Finset.range s'.nextCall) ≤
      s.backlog.potential (Finset.range s.nextCall) + 4 * s.nextCall + 17 := by
    have hle := potential_begin (s := s.backlog) (m := msg) hnew
    rwa [Finset.card_range, ← Finset.range_add_one, ← hnext, ← hqueue] at hle
  have hclient : ∀ d, s'.clientWork K.card s'.entries d ≤
      s.clientWork K.card s.entries d + 6 + if d = c then 1 else 0 := by
    intro d
    have hlistener : ((s'.backlog.listeners d).map (Listener.weight s'.entries)).getD (6 * s'.entries + 7) ≤
        ((s.backlog.listeners d).map (Listener.weight s.entries)).getD (6 * s.entries + 7) + 6 := by
      rw [hqueue, hentries, show (s.backlog.begin s.nextCall msg).listeners = s.backlog.listeners from rfl]
      cases s.backlog.listeners d with
      | none => exact Nat.le_of_eq rfl
      | some y => exact y.weight_succ s.entries
    unfold clientWork
    split_ifs with hd
    · subst hd
      rw [hc, show s'.conns d = some { x with reader := .append s.nextCall } by
        rw [hs']; exact Function.update_self _ _ _]
      simp only [Option.map_some, Option.getD_some, Client.weight, hr, ReaderPc.weight]
      omega
    · rw [show s'.conns d = s.conns d by rw [hs']; exact Function.update_of_ne hd _ _]
      omega
  have hclients : s'.clientsWork C K ≤ s.clientsWork C K + C.card * 6 + 1 := by
    have hsum := Finset.sum_le_sum fun d (_ : d ∈ C) => hclient d
    rwa [Finset.sum_add_distrib, Finset.sum_add_distrib, Finset.sum_const, Finset.sum_ite_eq',
      if_pos (h.client_mem hc), Nat.nsmul_eq_mul] at hsum
  refine ⟨hentries, ?_⟩
  unfold work readPrice
  rw [show s'.panic = s.panic by rw [hs']; rfl, show s'.closersWork K = s.closersWork K by rw [hs']; rfl,
    show s'.delsWork = s.delsWork by rw [hs']; rfl]
  omega

/-- A step that is no read leaves the number of entries to come. -/
theorem entries_of_goes (h : Counting C K s) (hgoes : goes s a = true) (hs : ChatStep verbose L s a s') :
    s'.entries = s.entries ∧ s'.nextCall = s.nextCall := by
  have hdel : ∀ {T}, runDel verbose s T = some s' → s'.entries = s.entries ∧ s'.nextCall = s.nextCall := by
    intro T hd
    obtain ⟨hbacklog, -, hnextCall, -⟩ := runDel_frame hd
    unfold entries
    rw [hbacklog, hnextCall]
    exact ⟨rfl, rfl⟩
  cases hs with
  | connect hc => cases hgoes
  | readMsg hc hr hq => simp [goes, hc, hr] at hgoes
  | readerDel hd => exact hdel hd
  | writerDel hd => exact hdel hd
  | del hd => exact hdel hd
  | appendStep hc hr hq =>
    have hstep := queueStep_of_act hq
    exact ⟨ahead_step (h.call_mem (begun_of_step hstep)) hstep, rfl⟩
  | addListen hc hr hq =>
    refine ⟨?_, rfl⟩
    cases queueStep_of_act hq
    rfl
  | send hc hl hw hq =>
    refine ⟨?_, rfl⟩
    cases queueStep_of_act hq <;> rfl
  | listens hl hq =>
    refine ⟨?_, rfl⟩
    cases queueStep_of_act hq <;> rfl
  | _ => exact ⟨rfl, rfl⟩

/-! ## Runs -/

namespace ChatroomState.Known

/-- A step that changes a client, or none. -/
theorem set (h : s.Known C K) (hc : s.conns c ≠ none) (hconns : ∀ d, d ≠ c → s'.conns d = s.conns d)
    (hclosers : s'.closers = s.closers) : s'.Known C K where
  clients := by
    intro d hd
    by_cases hdc : d = c
    · rw [hdc]
      exact h.clients c hc
    · rw [hconns d hdc] at hd
      exact h.clients d hd
  closers := by
    rw [hclosers]
    exact h.closers

theorem del (h : s.Known C K) (hd : runDel verbose s T = some s') : s'.Known C K where
  clients := by
    intro c hc
    obtain ⟨x', hx'⟩ := Option.ne_none_iff_exists'.mp hc
    obtain ⟨x, hx, -⟩ := runDel_conn hd hx'
    exact h.clients c (by simp [hx])
  closers := by
    rw [(runDel_frame hd).2.2.2]
    exact h.closers

theorem closer {k : Kid} {p : CloserPc} (h : s.Known C K) (hk : s.closers k ≠ none)
    (hconns : s'.conns = s.conns) (hclosers : s'.closers = Function.update s.closers k (some p)) :
    s'.Known C K where
  clients := by
    rw [hconns]
    exact h.clients
  closers := by
    intro i hi
    by_cases hik : i = k
    · rw [hik]
      exact h.closers k hk
    · rw [hclosers, Function.update_of_ne hik] at hi
      exact h.closers i hi

/-- **Step lemma**: only the server brings new ones. -/
theorem step (h : s.Known C K) (hconnect : ∀ c, a ≠ .connect c) (hclose : ∀ k, a ≠ .close k)
    (hs : ChatStep verbose L s a s') : s'.Known C K := by
  cases hs with
  | connect hc => exact absurd rfl (hconnect _)
  | close hk => exact absurd rfl (hclose _)
  | readerDel hd => exact h.del hd
  | writerDel hd => exact h.del hd
  | del hd => exact h.del hd
  | rlock hk hfree => exact h.closer (by simp [hk]) rfl rfl
  | runlock hk => exact h.closer (by simp [hk]) rfl rfl
  | spawn hk hi => exact h.closer (by simp [hk]) rfl rfl
  | appendStep hc hr hq => exact ⟨h.clients, h.closers⟩
  | readerClosePanics hc hr hx => exact ⟨h.clients, h.closers⟩
  | writerClosePanics hc hw hx => exact ⟨h.clients, h.closers⟩
  | listens hl hq => exact ⟨h.clients, h.closers⟩
  | _ => exact h.set (by simp [*]) (fun d hd => Function.update_of_ne hd _ _) rfl

end ChatroomState.Known

/-- The clients of a room and the calls of `chatroom.Close` are finitely many. -/
theorem exists_known {ok : ChatroomState → ChatroomAction → Prop} (h : (chatRun verbose L).Reaches ok s) :
    ∃ C K, s.Known C K := by
  refine h.invariant (I := fun s => ∃ C K, s.Known C K)
    ⟨∅, ∅, ⟨fun c hc => absurd rfl hc, fun k hk => absurd rfl hk⟩⟩ ?_
  rintro s a s' ⟨C, K, hknown⟩ - hn
  obtain ⟨-, -, hs⟩ := chatStep_of_next hn
  by_cases hconnect : ∃ c, a = .connect c
  · obtain ⟨c, rfl⟩ := hconnect
    refine ⟨insert c C, K, ?_, ?_⟩
    · intro d hd
      cases hs with
      | connect hc =>
        rw [conns_setConn] at hd
        split at hd
        · next hdc => exact hdc ▸ Finset.mem_insert_self c C
        · exact Finset.mem_insert_of_mem (hknown.clients d hd)
    · cases hs with
      | connect hc => exact hknown.closers
  · by_cases hclose : ∃ k, a = .close k
    · obtain ⟨k, rfl⟩ := hclose
      refine ⟨C, insert k K, ?_, ?_⟩
      · cases hs with
        | close hk => exact hknown.clients
      · intro i hi
        cases hs with
        | close hk =>
          by_cases hik : i = k
          · exact hik ▸ Finset.mem_insert_self k K
          · have hi : Function.update s.closers k (some .rlock) i ≠ none := hi
            rw [Function.update_of_ne hik] at hi
            exact Finset.mem_insert_of_mem (hknown.closers i hi)
    · exact ⟨C, K, hknown.step (fun c hc => hconnect ⟨c, hc⟩) (fun k hk => hclose ⟨k, hk⟩) hs⟩

theorem counting_of_reaches {ok : ChatroomState → ChatroomAction → Prop}
    (h : (chatRun verbose L).Reaches ok s) (hknown : s.Known C K) : Counting C K s where
  known := hknown
  shape := shape_of_reaches (backlog_path h.reachable)
  delivery := delivery_of_reaches (backlog_path h.reachable)
  listens := listens_of_reaches h
  nextCall := nextFresh_of_reaches h
  nextDel := newDel_of_reaches h

/-- Every step that a goroutine takes by itself lowers the work of the room. -/
theorem work_lowers : (chatRun verbose L).Lowers goes
    (fun s => (chatRun verbose L).Reachable s ∧ s.Known C K) (fun s => s.work C K) := by
  rintro s a s' ⟨hreach, hknown⟩ hgoes hn
  obtain ⟨hp, hlive, hs⟩ := chatStep_of_next hn
  refine ⟨⟨hreach.step hn trivial, hknown.step ?_ ?_ hs⟩,
    work_step (counting_of_reaches hreach hknown) hp hlive hgoes hs⟩
  · rintro c rfl
    cases hgoes
  · rintro k rfl
    cases hgoes

end WebsocketHub
