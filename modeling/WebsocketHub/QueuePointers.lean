import WebsocketHub.QueueJoin

/-!
# WebsocketHub.QueuePointers — when `q.oldest` stays away from nil

`Append` publishes the new tail before it links the entry the tail was published from.  A `trim` that
reaches that entry in between loads a nil `next` and makes it the head of the queue; every later trim
and every later listener dereferences it.  `loadsLinked` is the step condition under which this does
not happen, `NoNil` the invariant of the runs that meet it.
-/

namespace WebsocketHub

namespace QueueState

section Defs

variable (s : QueueState)

/-- The call that takes the step `a`. -/
def stepping : QueueAction → Option Call
  | .call t => s.calls t
  | _ => none

/-- The call that fills the entry `e`: the one whose CAS replaced it in `q.newest`. -/
def ownerCall (e : Addr) : Option Call :=
  (s.appenders[s.installed.idxOf e]?).bind s.calls

/-- The owner of `e` has stored `e.next`. -/
def linked (e : Addr) : Bool := (s.ownerCall e).any fun c => 2 ≤ c.pc.stage

/-- A trim loads the `next` of an entry that its owner has linked. -/
def loadsLinked (a : QueueAction) : Bool :=
  (s.stepping a).all fun c =>
    match c.pc with
    | .trimLoadNext (some e) => s.linked e
    | _ => true

/-- No call of `trim` has a nil pointer in hand. -/
def PcNoNil : Pc → Prop
  | .trimLoadNext old => old ≠ none
  | .trimCas _ new => new ≠ none
  | _ => True

structure NoNil : Prop where
  oldest : s.q.oldest ≠ none
  calls : ∀ t c, s.calls t = some c → PcNoNil c.pc
  listeners : ∀ l x, s.listeners l = some x → x.pc ≠ .loop none ∧ x.pc ≠ .wait none
  panic : s.panic = none

end Defs

variable {s s' : QueueState} {L : Limits}

theorem Shape.ownerCall_eq (h : s.Shape) {i : ℕ} {e : Addr} (he : s.IsEntry i e) :
    s.ownerCall e = (s.appenders[i]?).bind s.calls := by
  obtain ⟨hi, rfl⟩ := List.getElem?_eq_some_iff.mp he
  rw [ownerCall, List.Nodup.idxOf_getElem h.nodup i hi]

/-- The entries whose owner has got to stage `n`. -/
theorem Shape.owner_of_stage (h : s.Shape) {i n : ℕ} {e : Addr} (he : s.IsEntry i e)
    (hst : ((s.ownerCall e).any fun c => n ≤ c.pc.stage) = true) :
    ∃ t c, s.Owns t i ∧ s.calls t = some c ∧ n ≤ c.pc.stage := by
  obtain ⟨c, hc, hn⟩ := (Option.any_eq_true _ _).mp hst
  rw [h.ownerCall_eq he] at hc
  obtain ⟨t, ht, hc⟩ := Option.bind_eq_some_iff.mp hc
  exact ⟨t, c, ht, hc, of_decide_eq_true hn⟩

/-- What `loadsLinked` says about the step it is a condition of. -/
theorem Shape.next_of_loadsLinked (h : s.Shape) {t : Tid} {c : Call} {e : Addr}
    (hok : s.loadsLinked (.call t) = true) (hc : s.calls t = some c)
    (hpc : c.pc = .trimLoadNext (some e)) : (s.q.heap e).next ≠ none := by
  obtain ⟨i, -, he⟩ : ∃ i, i ≤ s.removers.length ∧ s.IsEntry i e :=
    (hpc ▸ h.pcFacts t c hc : s.PcFacts t (.trimLoadNext (some e))) e rfl
  have hlink : s.linked e = true := by simpa [loadsLinked, stepping, hc, hpc] using hok
  obtain ⟨u, d, ho, hd, hst⟩ := h.owner_of_stage he hlink
  exact h.linked i u d e ho hd he hst

theorem noNil_init : init.NoNil where
  oldest := by simp [init, newQueue]
  calls := by simp [init]
  listeners := by simp [init]
  panic := rfl

/-- Moving a call. -/
theorem pcNoNil_setCall {t : Tid} {c' : Call} (h : ∀ u d, s.calls u = some d → PcNoNil d.pc)
    (hc' : PcNoNil c'.pc) : ∀ u d, (s.setCall t c').calls u = some d → PcNoNil d.pc := by
  intro u d hd
  rw [setCall_calls] at hd
  split at hd
  · cases hd
    exact hc'
  · exact h u d hd

/-- The pointers a listener comes to hold: `q.oldest`, and the link of an entry it has delivered. -/
theorem NoNil.listenerStep (h : s.NoNil) (hs : s.Shape) (hd : s.Delivery) {l : Lid} {x : Listener}
    {quit : Bool} {pc : ListenerPc} (hl : s.listeners l = some x)
    (hx : listenerStep s.q quit x.pc = some (.ok pc)) : pc ≠ .loop none ∧ pc ≠ .wait none := by
  have hfacts := (hd l x hl).pc
  have hnn := h.listeners l x hl
  cases hp : x.pc with
  | start =>
    rw [hp] at hx
    obtain rfl : .loop s.q.oldest = pc := by simpa [WebsocketHub.listenerStep] using hx
    exact ⟨fun heq => h.oldest (ListenerPc.loop.inj heq), by simp⟩
  | loop p =>
    rw [hp] at hx hnn
    by_cases hst : p = some staleEntry
    · obtain rfl : .closed = pc := by simpa [WebsocketHub.listenerStep, hst] using hx
      simp
    · obtain rfl : .wait p = pc := by simpa [WebsocketHub.listenerStep, hst] using hx
      exact ⟨by simp, fun heq => hnn.1 (by rw [ListenerPc.wait.inj heq])⟩
  | advance e =>
    rw [hp] at hx hfacts
    obtain ⟨k, -, he, hv, -⟩ := hfacts
    obtain rfl : .loop (s.q.heap e).next = pc := by simpa [WebsocketHub.listenerStep] using hx
    -- the owner of a released entry has linked it
    obtain ⟨t, c, ho, hc, hst⟩ := hs.ready he hv
    have hnext := hs.linked k t c e ho hc he (by omega)
    exact ⟨fun heq => hnext (ListenerPc.loop.inj heq), by simp⟩
  | wait p =>
    rw [hp] at hx
    unfold WebsocketHub.listenerStep at hx
    grind
  | readMsg e =>
    rw [hp] at hx
    unfold WebsocketHub.listenerStep at hx
    grind
  | select e m =>
    rw [hp] at hx
    unfold WebsocketHub.listenerStep at hx
    grind
  | closed => simp [WebsocketHub.listenerStep, hp] at hx
  | quit => simp [WebsocketHub.listenerStep, hp] at hx

/-- **Step lemma**: a step that meets `loadsLinked` brings no nil pointer into play. -/
theorem NoNil.step (hs : s.Shape) (hd : s.Delivery) (h : s.NoNil) {a : QueueAction}
    (hok : s.loadsLinked a = true) (hstep : QueueStep L s a s') : s'.NoNil := by
  cases hstep with
  | append ht => exact { h with calls := pcNoNil_setCall (s := s) h.calls trivial }
  | @moves t c pc hc hl =>
    refine { h with calls := pcNoNil_setCall h.calls ?_ }
    have hf := h.calls t c hc
    show PcNoNil pc
    generalize hp : c.pc = p at hl hf
    cases hl with
    | trimLoadOldest => exact h.oldest
    | trimLoadNext => exact hs.next_of_loadsLinked hok hc hp
    | _ => trivial
  | casNewest hc hpc => exact { h with calls := pcNoNil_setCall (s := s) h.calls trivial }
  | storeNext hc hpc => exact { h with calls := pcNoNil_setCall (s := s) h.calls trivial }
  | storeMsg hc hpc => exact { h with calls := pcNoNil_setCall (s := s) h.calls trivial }
  | addSize hc hpc => exact { h with calls := pcNoNil_setCall (s := s) h.calls trivial }
  | validDone hc hpc => exact { h with calls := pcNoNil_setCall (s := s) h.calls trivial }
  | @trimCas t c e new hc hpc hold =>
    have hnew : PcNoNil (.trimCas e new) := hpc ▸ h.calls t c hc
    exact { h with oldest := hnew, calls := pcNoNil_setCall (s := s) h.calls trivial }
  | trimSub hc hpc => exact { h with calls := pcNoNil_setCall (s := s) h.calls trivial }
  | trimStale hc hpc => exact { h with calls := pcNoNil_setCall (s := s) h.calls trivial }
  | listen hl =>
    refine { h with listeners := fun l x hx => ?_ }
    rw [setListener_listeners] at hx
    split at hx
    · cases hx
      exact ⟨by simp [WebsocketHub.listen], by simp [WebsocketHub.listen]⟩
    · exact h.listeners l x hx
  | @listener k quit y pc hk hy =>
    refine { h with listeners := fun l x hx => ?_ }
    rw [setListener_listeners] at hx
    split at hx
    · cases hx
      rw [moveTo_pc]
      exact h.listenerStep hs hd hk hy
    · exact h.listeners l x hx
  | callPanics hc hx =>
    obtain ⟨rfl, hpc⟩ := hs.call_panics hc hx
    have hf := h.calls _ _ hc
    rw [hpc] at hf
    exact absurd rfl hf
  | listenerPanics hl hx =>
    obtain ⟨rfl, hpc⟩ := hd.listener_panics hs hl hx
    exact absurd hpc (h.listeners _ _ hl).2

theorem noNil_of_reaches (h : (queueRun L).Reaches (fun s a => s.loadsLinked a = true) s) :
    s.NoNil := by
  refine h.invariant_of (J := fun s => s.Shape ∧ s.Delivery)
    (fun _ hr => ⟨shape_of_reaches hr, delivery_of_reaches hr⟩) noNil_init ?_
  rintro s a s' ⟨hshape, hdel⟩ - hI hok hn
  exact hI.step hshape hdel hok (queueStep_of_next hn).2

/-- **Pointer safety** of the runs in which no trim loads the `next` of an entry that has not been
linked: `q.oldest` is never nil, and no step of a trim or of a listener dereferences a nil pointer. -/
theorem pointer_safety (h : (queueRun L).Reaches (fun s a => s.loadsLinked a = true) s) :
    s.q.oldest ≠ none ∧ s.panic = none :=
  ⟨(noNil_of_reaches h).oldest, (noNil_of_reaches h).panic⟩

/-- Call 0 stands between the link and the message of its entry when call 1 trims that entry. -/
theorem pointer_safety_of_overtaken_append :
    ∃ s, (queueRun (backlogOf 0)).Reaches (fun s a => s.loadsLinked a = true) s ∧
      s.removers = [1, 1] ∧ s.q.oldest ≠ none ∧ s.panic = none := by
  obtain ⟨s, h, hrem⟩ := Machine.exists_of_runIf (queueRun (backlogOf 0)) loadsLinked init
    (.append 0 [7] :: List.replicate 3 (.call 0) ++ appendSteps 1 [8] ++ List.replicate 14 (.call 1))
    (fun s => s.removers = [1, 1]) (by decide)
  exact ⟨s, h, of_decide_eq_true hrem, pointer_safety h⟩

/-- **The unlinked tail**: call 0 has published the new tail and not yet linked its entry, which call 1
removes.  The head of the queue becomes nil, and the same trim dereferences it. -/
theorem nil_head : ¬ ∀ (L : Limits) (s : QueueState), (queueRun L).Reachable s →
    s.q.oldest ≠ none ∧ s.panic ≠ some .nilDeref := by
  intro hall
  obtain ⟨s, h, hc⟩ := Machine.exists_of_run (queueRun (backlogOf 0)) init
    (.append 0 [7] :: List.replicate 2 (.call 0) ++ appendSteps 1 [8] ++ List.replicate 10 (.call 1))
    (fun s => s.q.oldest = none && s.panic = some .nilDeref) (by decide)
  simp only [Bool.and_eq_true, decide_eq_true_eq] at hc
  exact (hall (backlogOf 0) s h).1 hc.1

end QueueState

end WebsocketHub
