import WebsocketHub.QueueShape

/-!
# WebsocketHub.QueueDelivery — what a listener has sent

`Grows s s'` collects what no step takes back: the three history lists only grow, a stored message, a
link and a released `valid` stay.  With it `ListenerFacts` follows a listener through its loop: the
entry it stands at is the successor of the last one it has delivered.
-/

namespace WebsocketHub

/-- `a` comes before `b` in `l`. -/
def Before {α : Type*} (a b : α) (l : List α) : Prop :=
  ∃ i j : ℕ, i < j ∧ l[i]? = some a ∧ l[j]? = some b

namespace QueueState

/-- What no step takes back. -/
structure Grows (s s' : QueueState) : Prop where
  installed : s.installed <+: s'.installed
  appenders : s.appenders <+: s'.appenders
  removers : s.removers <+: s'.removers
  calls : ∀ t c, s.calls t = some c → ∃ c', s'.calls t = some c' ∧ c'.msg = c.msg ∧
    c'.prepared = c.prepared ∧ c.pc.stage ≤ c'.pc.stage
  valid : ∀ e ∈ s.installed, (s.q.heap e).valid = 0 → (s'.q.heap e).valid = 0
  msg : ∀ e ∈ s.installed, ∀ m, (s.q.heap e).msg = some m → (s'.q.heap e).msg = some m
  next : ∀ e ∈ s.installed, (s.q.heap e).next ≠ none → (s'.q.heap e).next ≠ none

variable {s s' s'' : QueueState} {t : Tid} {c : Call} {L : Limits}

theorem Grows.refl (s : QueueState) : Grows s s where
  installed := List.prefix_refl _
  appenders := List.prefix_refl _
  removers := List.prefix_refl _
  calls := fun _ c hc => ⟨c, hc, rfl, rfl, Nat.le_refl _⟩
  valid := fun _ _ h => h
  msg := fun _ _ _ h => h
  next := fun _ _ h => h

theorem Grows.trans (h : Grows s s') (h' : Grows s' s'') : Grows s s'' where
  installed := h.installed.trans h'.installed
  appenders := h.appenders.trans h'.appenders
  removers := h.removers.trans h'.removers
  calls := by
    intro t c hc
    obtain ⟨c', hc', h1, h2, h3⟩ := h.calls t c hc
    obtain ⟨c'', hc'', h1', h2', h3'⟩ := h'.calls t c' hc'
    exact ⟨c'', hc'', h1'.trans h1, h2'.trans h2, Nat.le_trans h3 h3'⟩
  valid := fun e he hv => h'.valid e (h.installed.subset he) (h.valid e he hv)
  msg := fun e he m hm => h'.msg e (h.installed.subset he) m (h.msg e he m hm)
  next := fun e he hn => h'.next e (h.installed.subset he) (h.next e he hn)

theorem grows_setCall {c' : Call} (hc : s.calls t = some c) (hmsg : c'.msg = c.msg)
    (hprep : c'.prepared = c.prepared) (hst : c.pc.stage ≤ c'.pc.stage) :
    ∀ u d, s.calls u = some d → ∃ d', (s.setCall t c').calls u = some d' ∧ d'.msg = d.msg ∧
      d'.prepared = d.prepared ∧ d.pc.stage ≤ d'.pc.stage := by
  intro u d hd
  by_cases hut : u = t
  · subst hut
    obtain rfl := Option.some.inj (hc.symm.trans hd)
    exact ⟨c', by simp [setCall_calls], hmsg, hprep, hst⟩
  · exact ⟨d, by simp [setCall_calls, hut, hd], rfl, rfl, Nat.le_refl _⟩

/-- A store to one entry that takes nothing back. -/
theorem grows_touch {e : Addr} {x : QueueEntry} {pc : Pc} (hc : s.calls t = some c)
    (hst : c.pc.stage ≤ pc.stage) (hvalid : (s.q.heap e).valid = 0 → x.valid = 0)
    (hmsg : ∀ m, (s.q.heap e).msg = some m → x.msg = some m)
    (hnext : (s.q.heap e).next ≠ none → x.next ≠ none) : Grows s (s.touch t c e x pc) :=
  { Grows.refl s with
    calls := grows_setCall hc rfl rfl hst
    valid := by
      intro a _ ha
      simp only [QueueState.touch, setCall_q, MessageQueue.write_heap]
      split
      · subst a; exact hvalid ha
      · exact ha
    msg := by
      intro a _ m ha
      simp only [QueueState.touch, setCall_q, MessageQueue.write_heap]
      split
      · subst a; exact hmsg m ha
      · exact ha
    next := by
      intro a _ ha
      simp only [QueueState.touch, setCall_q, MessageQueue.write_heap]
      split
      · subst a; exact hnext ha
      · exact ha }

/-- **Step lemma**: no step takes anything back. -/
theorem Shape.grows (h : s.Shape) {a : QueueAction} (hs : QueueStep L s a s') : Grows s s' := by
  cases hs with
  | @append t m ht =>
    have hheap : ∀ e ∈ s.installed, (s.begin t m).q.heap e = s.q.heap e := by
      intro e he
      refine (s.q.write_heap s.q.fresh e newQueueEntry).trans (if_neg ?_)
      exact Nat.ne_of_lt (h.alive e he).2
    exact
    { Grows.refl s with
      calls := by
        intro u d hd
        have hut : u ≠ t := by rintro rfl; simp [ht] at hd
        exact ⟨d, by simp [QueueState.begin, setCall_calls, hut, hd], rfl, rfl, Nat.le_refl _⟩
      valid := fun e he hv => (hheap e he) ▸ hv
      msg := fun e he m hm => (hheap e he) ▸ hm
      next := fun e he hn => (hheap e he) ▸ hn }
  | @moves t c pc hc hl =>
    refine { Grows.refl s with calls := grows_setCall hc rfl rfl ?_ }
    rw [Call.goto_pc]
    generalize c.pc = p at hl
    cases hl <;> exact Nat.le_refl _
  | casNewest hc hpc =>
    refine { Grows.refl s with
      installed := List.prefix_append _ _
      appenders := List.prefix_append _ _
      calls := grows_setCall hc rfl rfl ?_ }
    simp [hpc, Pc.stage]
  | storeNext hc hpc => exact grows_touch hc (by simp [hpc, Pc.stage]) id (fun _ => id) (by simp)
  | @storeMsg t c e hc hpc =>
    refine grows_touch hc (by simp [hpc, Pc.stage]) id ?_ id
    -- the message of an entry is stored once: until now it is nil
    intro m hm
    obtain ⟨i, ho, he⟩ : s.PcFacts t (.storeMsg e) := hpc ▸ h.pcFacts t c hc
    have hnil := h.msg i t c e ho hc he
    rw [hpc, hm] at hnil
    simp [Pc.stage] at hnil
  | addSize hc hpc =>
    exact { Grows.refl s with calls := grows_setCall hc rfl rfl (by simp [hpc, Pc.stage]) }
  | validDone hc hpc hv =>
    exact grows_touch hc (by simp [hpc, Pc.stage]) (fun h0 => absurd h0 hv) (fun _ => id) id
  | trimCas hc hpc =>
    refine { Grows.refl s with
      removers := List.prefix_append _ _
      calls := grows_setCall hc rfl rfl ?_ }
    simp [hpc, Pc.stage]
  | trimSub hc hpc =>
    exact { Grows.refl s with calls := grows_setCall hc rfl rfl (by simp [hpc, Pc.stage]) }
  | trimStale hc hpc => exact grows_touch hc (by simp [hpc, Pc.stage]) id (fun _ => id) (by simp)
  | listen => exact { Grows.refl s with }
  | listener => exact { Grows.refl s with }
  | callPanics => exact { Grows.refl s with }
  | listenerPanics => exact { Grows.refl s with }

/-- **Run lemma**: nothing is taken back along a run. -/
theorem grows_of_path {ok : QueueState → QueueAction → Prop} (h : s.Shape)
    (hp : (queueRun L).Path ok s s') : s'.Shape ∧ Grows s s' := by
  refine ⟨hp.invariant (fun _ _ _ hI _ hn => hI.step (queueStep_of_next hn).2) h, ?_⟩
  refine hp.rel (I := Shape) h ?_ Grows.refl (fun _ _ _ => Grows.trans)
  intro s a s' hI _ hn
  have hs := (queueStep_of_next hn).2
  exact ⟨hI.step hs, hI.grows hs⟩

/-! ## Listeners -/

section Defs

variable (s : QueueState)

/-- The entry a listener stands at, by where it stands: `e_{start + n}` after `n` sends. -/
def ListenerPcFacts (x : Listener) : ListenerPc → Prop
  | .start => x.sent = []
  | .loop p => (∀ a, p = some a → a = staleEntry ∨ s.IsEntry (x.start + x.sent.length) a) ∧
      (x.sent = [] → p = x.first)
  | .wait p => (∀ a, p = some a → s.IsEntry (x.start + x.sent.length) a) ∧
      (x.sent = [] → p = x.first)
  | .readMsg e => s.IsEntry (x.start + x.sent.length) e ∧ (s.q.heap e).valid = 0 ∧ x.first ≠ none
  | .select e m => s.IsEntry (x.start + x.sent.length) e ∧ (s.q.heap e).valid = 0 ∧
      (s.q.heap e).msg = some m ∧ x.first ≠ none
  | .advance e => ∃ k, x.start + x.sent.length = k + 1 ∧ s.IsEntry k e ∧ (s.q.heap e).valid = 0 ∧
      x.sent ≠ []
  | .closed => True
  | .quit => True

/-- What a listener has read and sent. -/
structure ListenerFacts (x : Listener) : Prop where
  pc : s.ListenerPcFacts x x.pc
  first : ∀ e, x.first = some e → s.IsEntry x.start e
  first_some : x.sent ≠ [] → x.first ≠ none
  sent : ∀ i e m, x.sent[i]? = some (e, m) → s.IsEntry (x.start + i) e ∧ (s.q.heap e).msg = some m

/-- The facts of all listeners. -/
def Delivery : Prop := ∀ l x, s.listeners l = some x → s.ListenerFacts x

end Defs

theorem ListenerFacts.mono {x : Listener} (h : s.ListenerFacts x) (hg : Grows s s') :
    s'.ListenerFacts x where
  pc := by
    have hE : ∀ i e, s.IsEntry i e → s'.IsEntry i e := fun _ _ => isEntry_mono hg.installed
    have hV : ∀ i e, s.IsEntry i e → (s.q.heap e).valid = 0 → (s'.q.heap e).valid = 0 :=
      fun i e he => hg.valid e (List.mem_of_getElem? he)
    have hM : ∀ i e m, s.IsEntry i e → (s.q.heap e).msg = some m → (s'.q.heap e).msg = some m :=
      fun i e m he => hg.msg e (List.mem_of_getElem? he) m
    have hpc := h.pc
    cases hx : x.pc <;> rw [hx] at hpc <;> simp only [ListenerPcFacts] at hpc ⊢ <;> grind
  first := fun e he => isEntry_mono hg.installed (h.first e he)
  first_some := h.first_some
  sent := by
    intro i e m hm
    obtain ⟨he, hmsg⟩ := h.sent i e m hm
    exact ⟨isEntry_mono hg.installed he, hg.msg e (List.mem_of_getElem? he) m hmsg⟩

theorem listenerFacts_listen : s.ListenerFacts listen where
  pc := rfl
  first := by simp [WebsocketHub.listen]
  first_some := by simp [WebsocketHub.listen]
  sent := by simp [WebsocketHub.listen]

/-- A step that is neither the read of `q.oldest` nor a send leaves no trace. -/
theorem moveTo_eq {x : Listener} {n : ℕ} {pc : ListenerPc} (h1 : x.pc ≠ .start)
    (h2 : ∀ e m e', x.pc = .select e m → pc ≠ .advance e') : x.moveTo n pc = { x with pc := pc } := by
  unfold Listener.moveTo
  split
  · contradiction
  · next e m e' hp => exact absurd rfl (h2 e m e' hp)
  · rfl

/-- **Step lemma** of a listener. -/
theorem ListenerFacts.step (hs : s.Shape) {x : Listener} {quit : Bool} {pc : ListenerPc}
    (h : s.ListenerFacts x) (hx : listenerStep s.q quit x.pc = some (.ok pc)) :
    s.ListenerFacts (x.moveTo s.removers.length pc) := by
  have hpc := h.pc
  cases hp : x.pc with
  | start =>
    rw [hp] at hpc hx
    obtain rfl : .loop s.q.oldest = pc := by simpa [listenerStep] using hx
    have hmove : x.moveTo s.removers.length (.loop s.q.oldest) =
        { x with pc := .loop s.q.oldest, first := s.q.oldest, start := s.removers.length } := by
      simp [Listener.moveTo, hp]
    have hnil : x.sent = [] := hpc
    rw [hmove]
    refine ⟨⟨fun a ha => .inr ?_, fun _ => rfl⟩, hs.oldest, ?_, ?_⟩
    · simpa [hnil] using hs.oldest a ha
    · simp [hnil]
    · simp [hnil]
  | loop p =>
    rw [hp] at hpc hx
    by_cases hst : p = some staleEntry
    · obtain rfl : .closed = pc := by simpa [listenerStep, hst] using hx
      rw [moveTo_eq (by simp [hp]) (by simp)]
      exact ⟨trivial, h.first, h.first_some, h.sent⟩
    · obtain rfl : .wait p = pc := by simpa [listenerStep, hst] using hx
      rw [moveTo_eq (by simp [hp]) (by simp)]
      refine ⟨⟨fun a ha => ?_, hpc.2⟩, h.first, h.first_some, h.sent⟩
      rcases hpc.1 a ha with rfl | he
      · exact absurd ha hst
      · exact he
  | wait p =>
    rw [hp] at hpc hx
    cases p with
    | none => simp [listenerStep] at hx
    | some e =>
      by_cases hv : (s.q.heap e).valid = 0
      · obtain rfl : .readMsg e = pc := by simpa [listenerStep, hv] using hx
        rw [moveTo_eq (by simp [hp]) (by simp)]
        refine ⟨⟨hpc.1 e rfl, hv, ?_⟩, h.first, h.first_some, h.sent⟩
        by_cases hnil : x.sent = []
        · exact hpc.2 hnil ▸ Option.some_ne_none e
        · exact h.first_some hnil
      · simp [listenerStep, hv] at hx
  | readMsg e =>
    rw [hp] at hpc hx
    obtain ⟨he, hv, hf⟩ := hpc
    cases hm : (s.q.heap e).msg with
    | none => simp [listenerStep, hm] at hx
    | some m =>
      obtain rfl : .select e m = pc := by simpa [listenerStep, hm] using hx
      rw [moveTo_eq (by simp [hp]) (by simp)]
      exact ⟨⟨he, hv, hm, hf⟩, h.first, h.first_some, h.sent⟩
  | select e m =>
    rw [hp] at hpc hx
    obtain ⟨he, hv, hm, hf⟩ := hpc
    cases quit with
    | true =>
      obtain rfl : .quit = pc := by simpa [listenerStep] using hx
      rw [moveTo_eq (by simp [hp]) (by simp)]
      exact ⟨trivial, h.first, h.first_some, h.sent⟩
    | false =>
      obtain rfl : .advance e = pc := by simpa [listenerStep] using hx
      have hmove : x.moveTo s.removers.length (.advance e) =
          { x with pc := .advance e, sent := x.sent ++ [(e, m)] } := by simp [Listener.moveTo, hp]
      rw [hmove]
      refine ⟨⟨x.start + x.sent.length, ?_, he, hv, by simp⟩, h.first, fun _ => hf, ?_⟩
      · simp only [List.length_append, List.length_singleton, Nat.add_assoc]
      · intro i e' m' hm'
        rcases getElem?_concat hm' with hi | ⟨rfl, heq⟩
        · exact h.sent i e' m' hi
        · cases heq
          exact ⟨he, hm⟩
  | advance e =>
    rw [hp] at hpc hx
    obtain ⟨k, hk, he, hv, hnil⟩ := hpc
    obtain rfl : .loop (s.q.heap e).next = pc := by simpa [listenerStep] using hx
    rw [moveTo_eq (by simp [hp]) (by simp)]
    refine ⟨⟨fun a ha => ?_, fun h0 => absurd h0 hnil⟩, h.first, h.first_some, h.sent⟩
    -- the link leads to the next entry, unless a trim has cut it
    rcases hs.next k e a he ha with hn | ⟨hn, -⟩
    · exact .inr (hk ▸ hn)
    · exact .inl hn
  | closed => simp [listenerStep, hp] at hx
  | quit => simp [listenerStep, hp] at hx

/-- A listener of `s'` is a listener of `s`, the one that has taken a step, or a new one. -/
theorem listeners_of_step {a : QueueAction} (hs : QueueStep L s a s') {l : Lid} {x : Listener}
    (hl : s'.listeners l = some x) :
    s.listeners l = some x ∨ x = WebsocketHub.listen ∨ ∃ y quit pc, s.listeners l = some y ∧
      listenerStep s.q quit y.pc = some (.ok pc) ∧ x = y.moveTo s.removers.length pc := by
  cases hs with
  | @listen k hk =>
    rw [setListener_listeners] at hl
    split at hl
    · exact .inr (.inl (Option.some.inj hl).symm)
    · exact .inl hl
  | @listener k quit y pc hk hy =>
    rw [setListener_listeners] at hl
    split at hl
    · subst l
      exact .inr (.inr ⟨y, quit, pc, hk, hy, (Option.some.inj hl).symm⟩)
    · exact .inl hl
  | _ => exact .inl hl

/-- A listener of `s` is a listener of `s'`; what it remembers changes with its own steps only. -/
theorem listener_of_step {a : QueueAction} (hs : QueueStep L s a s') {l : Lid} {x : Listener}
    (hl : s.listeners l = some x) :
    s'.listeners l = some x ∨ ∃ quit pc, a = .listener l quit ∧
      listenerStep s.q quit x.pc = some (.ok pc) ∧
      s'.listeners l = some (x.moveTo s.removers.length pc) ∧ s'.appenders = s.appenders := by
  cases hs with
  | @listen k hk =>
    left
    rw [setListener_listeners, if_neg (by rintro rfl; simp [hk] at hl)]
    exact hl
  | @listener k quit y pc hk hy =>
    rw [setListener_listeners]
    split
    · next heq =>
      subst heq
      obtain rfl := Option.some.inj (hk.symm.trans hl)
      exact .inr ⟨quit, pc, rfl, hy, rfl, rfl⟩
    · exact .inl hl
  | _ => exact .inl hl

theorem moveTo_start {x : Listener} {n : ℕ} {pc : ListenerPc} (h : x.pc ≠ .start) :
    (x.moveTo n pc).first = x.first ∧ (x.moveTo n pc).start = x.start := by
  unfold Listener.moveTo
  split
  · contradiction
  · exact ⟨rfl, rfl⟩
  · exact ⟨rfl, rfl⟩

theorem moveTo_pc (x : Listener) (n : ℕ) (pc : ListenerPc) : (x.moveTo n pc).pc = pc := by
  unfold Listener.moveTo
  split <;> rfl

/-- No step leads back to the read of `q.oldest`. -/
theorem listenerStep_ne_start {q : MessageQueue} {quit : Bool} {pc pc' : ListenerPc}
    (h : listenerStep q quit pc = some (.ok pc')) : pc' ≠ .start := by
  unfold listenerStep at h
  grind

/-- **Step lemma** of the facts about listeners. -/
theorem Delivery.step (hs : s.Shape) (h : s.Delivery) {a : QueueAction} (hstep : QueueStep L s a s') :
    s'.Delivery := by
  intro l x hl
  refine ListenerFacts.mono ?_ (hs.grows hstep)
  rcases listeners_of_step hstep hl with hl | rfl | ⟨y, quit, pc, hy, hx, rfl⟩
  · exact h l x hl
  · exact listenerFacts_listen
  · exact (h l y hy).step hs hx

theorem delivery_of_reaches {ok : QueueState → QueueAction → Prop}
    (h : (queueRun L).Reaches ok s) : s.Delivery := by
  refine h.invariant_of (fun _ => shape_of_reaches) (fun l x hl => by cases hl) ?_
  intro s a s' hs _ hI _ hn
  exact hI.step hs (queueStep_of_next hn).2

/-! ## What follows -/

/-- A call panics only in `trim`, on a nil pointer. -/
theorem Shape.call_panics (h : s.Shape) {p : Panic} (hc : s.calls t = some c)
    (hx : callStep L s.q c = some (.error p)) : p = .nilDeref ∧ c.pc = .trimLoadNext none := by
  rcases callStep_error hx with ⟨rfl, hpc | hpc⟩ | ⟨-, e, hpc, hv⟩
  · obtain ⟨i, e, he, -⟩ : s.PcFacts t (.storeNext none) := hpc ▸ h.pcFacts t c hc
    cases he
  · exact ⟨rfl, hpc⟩
  · -- the counter is released by the owner of the entry only, once
    obtain ⟨i, ho, he⟩ : s.PcFacts t (.validDone e) := hpc ▸ h.pcFacts t c hc
    have hval := h.valid i t c e ho hc he
    rw [hv, hpc] at hval
    cases hval

/-- A listener panics only on a nil pointer. -/
theorem Delivery.listener_panics (hs : s.Shape) (h : s.Delivery) {l : Lid} {x : Listener}
    {quit : Bool} {p : Panic} (hl : s.listeners l = some x)
    (hx : listenerStep s.q quit x.pc = some (.error p)) : p = .nilDeref ∧ x.pc = .wait none := by
  rcases listenerStep_error hx with ⟨rfl, hpc⟩ | ⟨-, e, hpc, hm⟩
  · exact ⟨rfl, hpc⟩
  · -- a released entry holds a message
    obtain ⟨he, hv, -⟩ : s.ListenerPcFacts x (.readMsg e) := hpc ▸ (h l x hl).pc
    obtain ⟨t, c, ho, hc, hst⟩ := hs.ready he hv
    have hmsg := hs.msg _ t c e ho hc he
    rw [hm, if_pos (by omega)] at hmsg
    cases hmsg

/-- The only panic a run can meet is the dereference of a nil pointer. -/
theorem panic_of_reaches {ok : QueueState → QueueAction → Prop} {p : Panic}
    (h : (queueRun L).Reaches ok s) (hp : s.panic = some p) : p = .nilDeref := by
  suffices key : ∀ p, s.panic = some p → p = .nilDeref from key p hp
  refine h.invariant_of (I := fun s => ∀ p, s.panic = some p → p = .nilDeref)
    (J := fun s => s.Shape ∧ s.Delivery)
    (fun _ hr => ⟨shape_of_reaches hr, delivery_of_reaches hr⟩) (fun p hp => by cases hp) ?_
  rintro s a s' ⟨hshape, hdel⟩ - - - hn p hp
  obtain ⟨hnone, hstep⟩ := queueStep_of_next hn
  rcases panic_of_step hstep with heq | ⟨p', hp', ⟨t, c, hc, hx⟩ | ⟨l, quit, x, hl, hx⟩⟩
  · rw [heq, hnone] at hp
    cases hp
  · obtain rfl := Option.some.inj (hp'.symm.trans hp)
    exact (hshape.call_panics hc hx).1
  · obtain rfl := Option.some.inj (hp'.symm.trans hp)
    exact (hdel.listener_panics hshape hl hx).1

/-- The entries of the chain with their messages, in the order of the CASes that installed them. -/
def history (s : QueueState) : List (Addr × Option Bytes) :=
  s.installed.map fun e => (e, (s.q.heap e).msg)

/-- What a listener has sent is a segment of the history; it starts where `q.oldest` pointed when
the listener read it. -/
theorem sent_eq_segment (h : s.Delivery) {l : Lid} {x : Listener} (hl : s.listeners l = some x) :
    x.sent.map (fun r => (r.1, some r.2)) = (s.history.drop x.start).take x.sent.length := by
  obtain ⟨-, -, -, hsent⟩ := h l x hl
  apply List.ext_getElem?
  intro i
  rw [List.getElem?_map]
  by_cases hi : i < x.sent.length
  · obtain ⟨he, hm⟩ := hsent i x.sent[i].1 x.sent[i].2 (List.getElem?_eq_getElem hi)
    rw [List.getElem?_take_of_lt hi, List.getElem?_drop, history, List.getElem?_map, he,
      List.getElem?_eq_getElem hi]
    simp [hm]
  · rw [List.getElem?_eq_none (Nat.not_lt.mp hi)]
    symm
    rw [Option.map_none, List.getElem?_eq_none_iff, List.length_take]
    omega

/-- **Real-time order**: the CAS of a call that has returned comes before the CAS of a call that has
not begun. -/
theorem owns_lt_of_returned {ok : QueueState → QueueAction → Prop} (h : s.Shape)
    (hp : (queueRun L).Path ok s s') {t t' : Tid} {i j : ℕ} (hc : s.calls t = some c)
    (hret : c.pc = .returned) (ht' : s.calls t' = none) (hi : s'.Owns t i) (hj : s'.Owns t' j) :
    i < j := by
  obtain ⟨h', hg⟩ := grows_of_path h hp
  obtain ⟨k, hk⟩ := List.mem_iff_getElem?.mp ((h.started t).mpr ⟨c, hc, by simp [hret, Pc.stage]⟩)
  obtain rfl : k = i := h'.owns_inj (getElem?_mono hg.appenders hk) hi
  have hk' := (List.getElem?_eq_some_iff.mp hk).1
  by_contra hle
  -- an owner of an earlier entry had performed its CAS before
  have hjs : s.Owns s.appenders[j] j := List.getElem?_eq_getElem (by omega)
  have heq := (getElem?_mono hg.appenders hjs).symm.trans hj
  obtain ⟨d, hd, -⟩ := (h.started _).mp (List.mem_of_getElem? hjs)
  rw [Option.some.inj heq, ht'] at hd
  cases hd

/-- Any two listeners deliver two messages that both deliver in the same order. -/
theorem before_of_before (h : s.Shape) (hd : s.Delivery) {l l' : Lid} {x y : Listener}
    (hx : s.listeners l = some x) (hy : s.listeners l' = some y) {r r' : Addr × Bytes}
    (hxr : Before r r' x.sent) (hr : r ∈ y.sent) (hr' : r' ∈ y.sent) : Before r r' y.sent := by
  obtain ⟨i, j, hij, hi, hj⟩ := hxr
  obtain ⟨p, hp⟩ := List.mem_iff_getElem?.mp hr
  obtain ⟨p', hp'⟩ := List.mem_iff_getElem?.mp hr'
  have h1 := h.entry_inj ((hd l x hx).sent i _ _ hi).1 ((hd l' y hy).sent p _ _ hp).1
  have h2 := h.entry_inj ((hd l x hx).sent j _ _ hj).1 ((hd l' y hy).sent p' _ _ hp').1
  exact ⟨p, p', by omega, hp, hp'⟩

end QueueState

end WebsocketHub
