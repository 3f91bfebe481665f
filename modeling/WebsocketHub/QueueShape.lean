import WebsocketHub.QueueRun
import Mathlib.Data.List.Nodup

/-!
# WebsocketHub.QueueShape — what the heap looks like in every reachable state

`Shape s` relates every entry to how far its appender and its remover have got: the message is there
once the appender has stored it, the link to the successor once it has linked it, and `staleEntry` is
found only in the link of a removed entry.  `shape_of_reachable` is the invariant of all runs; every
later module starts from it.
-/

namespace WebsocketHub

/-- How far a call has got with the entry it fills. -/
def Pc.stage : Pc → ℕ
  | .loadNewest => 0
  | .casNewest _ => 0
  | .storeNext _ => 1
  | .storeMsg _ => 2
  | .addSize _ => 3
  | .validDone _ => 4
  | _ => 5

namespace QueueState

section Defs

variable (s : QueueState)

/-- `e` is `e_i`. -/
abbrev IsEntry (i : ℕ) (e : Addr) : Prop := s.installed[i]? = some e

/-- The CAS of call `t` replaced `e_i`, so `t` fills it. -/
abbrev Owns (t : Tid) (i : ℕ) : Prop := s.appenders[i]? = some t

/-- The trim of call `t` removed `e_i`. -/
abbrev Removed (t : Tid) (i : ℕ) : Prop := s.removers[i]? = some t

/-- What a call knows about the entries it is about to touch. -/
def PcFacts (t : Tid) : Pc → Prop
  | .storeNext old => ∃ i e, old = some e ∧ s.Owns t i ∧ s.IsEntry i e
  | .storeMsg e => ∃ i, s.Owns t i ∧ s.IsEntry i e
  | .addSize e => ∃ i, s.Owns t i ∧ s.IsEntry i e
  | .validDone e => ∃ i, s.Owns t i ∧ s.IsEntry i e
  | .trimLoadNext old => ∀ e, old = some e → ∃ i, i ≤ s.removers.length ∧ s.IsEntry i e
  | .trimCas e new => ∃ i, i ≤ s.removers.length ∧ s.IsEntry i e ∧
      ∀ a, new = some a → s.IsEntry (i + 1) a ∨ (a = staleEntry ∧ i < s.removers.length)
  | .trimSize e => ∃ i, s.Removed t i ∧ s.IsEntry i e
  | .trimSub e _ => ∃ i, s.Removed t i ∧ s.IsEntry i e
  | .trimStale e => ∃ i, s.Removed t i ∧ s.IsEntry i e
  | _ => True

/-- The shape of the queue: the lists of entries, appenders and removers, then the heap. -/
structure Shape : Prop where
  fresh_pos : staleEntry < s.q.fresh
  length : s.installed.length = s.appenders.length + 1
  nodup : s.installed.Nodup
  appenders_nodup : s.appenders.Nodup
  alive : ∀ a ∈ s.installed, a ≠ staleEntry ∧ a < s.q.fresh
  prepared_alive : ∀ t c, s.calls t = some c → c.prepared ≠ staleEntry ∧ c.prepared < s.q.fresh
  prepared_inj : ∀ t t' c c', s.calls t = some c → s.calls t' = some c' →
    c.prepared = c'.prepared → t = t'
  prepared_installed : ∀ t c, s.calls t = some c → (c.prepared ∈ s.installed ↔ 1 ≤ c.pc.stage)
  started : ∀ t, t ∈ s.appenders ↔ ∃ c, s.calls t = some c ∧ 1 ≤ c.pc.stage
  owner : ∀ i t c, s.Owns t i → s.calls t = some c → s.IsEntry (i + 1) c.prepared
  newest : s.q.newest = s.installed[s.appenders.length]?
  oldest : ∀ a, s.q.oldest = some a → s.IsEntry s.removers.length a
  removed : s.removers.length ≤ s.installed.length
  stale : s.q.heap staleEntry = zeroEntry
  prepared : ∀ t c, s.calls t = some c → c.pc.stage = 0 → s.q.heap c.prepared = newQueueEntry
  last : ∀ e, s.IsEntry s.appenders.length e →
    (s.q.heap e).msg = none ∧ (s.q.heap e).valid = 1
  msg : ∀ i t c e, s.Owns t i → s.calls t = some c → s.IsEntry i e →
    (s.q.heap e).msg = if 3 ≤ c.pc.stage then some c.msg else none
  valid : ∀ i t c e, s.Owns t i → s.calls t = some c → s.IsEntry i e →
    (s.q.heap e).valid = if 5 ≤ c.pc.stage then 0 else 1
  linked : ∀ i t c e, s.Owns t i → s.calls t = some c → s.IsEntry i e →
    2 ≤ c.pc.stage → (s.q.heap e).next ≠ none
  next : ∀ i e a, s.IsEntry i e → (s.q.heap e).next = some a →
    s.IsEntry (i + 1) a ∨ (a = staleEntry ∧ i < s.removers.length)
  pcFacts : ∀ t c, s.calls t = some c → s.PcFacts t c.pc

end Defs

variable {s s' : QueueState} {t : Tid} {c : Call}

/-! ## Positions -/

theorem getElem?_mono {α : Type*} {l l' : List α} (h : l <+: l') {i : ℕ} {a : α}
    (ha : l[i]? = some a) : l'[i]? = some a := by
  obtain ⟨r, rfl⟩ := h
  rw [List.getElem?_append_left (List.getElem?_eq_some_iff.mp ha).1]
  exact ha

theorem getElem?_concat {α : Type*} {l : List α} {x a : α} {i : ℕ} (h : (l ++ [x])[i]? = some a) :
    l[i]? = some a ∨ (i = l.length ∧ a = x) := by
  grind

theorem isEntry_mono (h : s.installed <+: s'.installed) {i : ℕ} {e : Addr} (he : s.IsEntry i e) :
    s'.IsEntry i e := getElem?_mono h he

theorem Shape.entry_inj (h : s.Shape) {i j : ℕ} {e : Addr} (hi : s.IsEntry i e)
    (hj : s.IsEntry j e) : i = j :=
  (List.getElem?_inj (List.getElem?_eq_some_iff.mp hi).1 h.nodup).mp (hi.trans hj.symm)

theorem Shape.owns_inj (h : s.Shape) {i j : ℕ} (hi : s.Owns t i) (hj : s.Owns t j) : i = j :=
  (List.getElem?_inj (List.getElem?_eq_some_iff.mp hi).1 h.appenders_nodup).mp (hi.trans hj.symm)

/-- A call that has not begun owns nothing. -/
theorem Shape.not_begun (h : s.Shape) (ht : s.calls t = none) : t ∉ s.appenders := by
  intro hin
  obtain ⟨c, hc, -⟩ := (h.started t).mp hin
  rw [ht] at hc
  cases hc

/-- Nor does a call before its CAS, and its container is not in the chain. -/
theorem Shape.not_started (h : s.Shape) (hc : s.calls t = some c) (hst : c.pc.stage = 0) :
    t ∉ s.appenders ∧ c.prepared ∉ s.installed := by
  constructor
  · intro hin
    obtain ⟨d, hd, hd1⟩ := (h.started t).mp hin
    obtain rfl := Option.some.inj (hc.symm.trans hd)
    omega
  · rw [h.prepared_installed t c hc]
    omega

/-- Every entry but the placeholder has a running or returned call that owns it. -/
theorem Shape.exists_owner (h : s.Shape) {i : ℕ} (hi : i < s.appenders.length) :
    ∃ t c, s.Owns t i ∧ s.calls t = some c ∧ 1 ≤ c.pc.stage := by
  have ho : s.Owns s.appenders[i] i := List.getElem?_eq_getElem hi
  obtain ⟨c, hc, hst⟩ := (h.started _).mp (List.mem_of_getElem? ho)
  exact ⟨_, c, ho, hc, hst⟩

theorem Shape.lt_or_eq (h : s.Shape) {i : ℕ} {e : Addr} (he : s.IsEntry i e) :
    i < s.appenders.length ∨ i = s.appenders.length := by
  have := (List.getElem?_eq_some_iff.mp he).1
  have := h.length
  omega

/-- An entry whose `valid` is released has been filled and linked by its owner. -/
theorem Shape.ready (h : s.Shape) {i : ℕ} {e : Addr} (he : s.IsEntry i e)
    (hv : (s.q.heap e).valid = 0) : ∃ t c, s.Owns t i ∧ s.calls t = some c ∧ 5 ≤ c.pc.stage := by
  rcases h.lt_or_eq he with hi | rfl
  · obtain ⟨t, c, ho, hc, -⟩ := h.exists_owner hi
    have hval := h.valid i t c e ho hc he
    refine ⟨t, c, ho, hc, ?_⟩
    by_contra hlt
    rw [hv, if_neg hlt] at hval
    cases hval
  · rw [(h.last e he).2] at hv
    cases hv

/-- What a call knows survives as long as the three lists only grow. -/
theorem PcFacts.mono {pc : Pc} (h : s.PcFacts t pc) (hi : s.installed <+: s'.installed)
    (ha : s.appenders <+: s'.appenders) (hr : s.removers <+: s'.removers) : s'.PcFacts t pc := by
  have hE : ∀ i e, s.IsEntry i e → s'.IsEntry i e := fun _ _ => isEntry_mono hi
  have hA : ∀ i, s.Owns t i → s'.Owns t i := fun _ => getElem?_mono ha
  have hR : ∀ i, s.Removed t i → s'.Removed t i := fun _ => getElem?_mono hr
  have hl := hr.length_le
  cases pc <;> simp only [PcFacts] at h ⊢ <;> grind

/-! ## The steps -/

theorem shape_init : init.Shape := by
  constructor <;>
    simp [init, newQueue, zeroEntry, newQueueEntry, initialEntry, staleEntry] <;> grind

/-- A step of `t` leaves alone what the other calls know. -/
theorem pcFacts_setCall {d : Call} (h : ∀ t c, s.calls t = some c → s'.PcFacts t c.pc)
    (hd : s'.PcFacts t d.pc) (hs : s'.calls = (s.setCall t d).calls) :
    ∀ u x, s'.calls u = some x → s'.PcFacts u x.pc := by
  intro u x hu
  rw [hs, setCall_calls] at hu
  by_cases hut : u = t
  · rw [if_pos hut] at hu
    cases hu
    exact hut ▸ hd
  · rw [if_neg hut] at hu
    exact h u x hu

/-- Behind a call of `s'` there is a call of `s` with its message and container, when `t` only moves. -/
theorem call_of_move {d : Call} (hc : s.calls t = some c)
    (hcalls : ∀ u, s'.calls u = if u = t then some d else s.calls u) (hmsg : d.msg = c.msg)
    (hprep : d.prepared = c.prepared) {u : Tid} {x : Call} (hu : s'.calls u = some x) :
    ∃ y, s.calls u = some y ∧ x.msg = y.msg ∧ x.prepared = y.prepared ∧
      (x = y ∨ u = t ∧ x = d ∧ y = c) := by
  rw [hcalls] at hu
  split at hu
  · next hut =>
    obtain rfl := Option.some.inj hu
    exact ⟨c, hut ▸ hc, hmsg, hprep, .inr ⟨hut, rfl, rfl⟩⟩
  · exact ⟨x, hu, rfl, rfl, .inl rfl⟩

/-- What ties the calls to the lists survives a move of `t` that neither installs nor begins. -/
theorem Shape.kept_calls (h : s.Shape) {d : Call} (hc : s.calls t = some c)
    (hcalls : ∀ u, s'.calls u = if u = t then some d else s.calls u) (hmsg : d.msg = c.msg)
    (hprep : d.prepared = c.prepared) (h1 : 1 ≤ d.pc.stage ↔ 1 ≤ c.pc.stage)
    (hin : s'.installed = s.installed) (hap : s'.appenders = s.appenders) :
    (∀ u x, s'.calls u = some x → x.prepared ≠ staleEntry ∧ x.prepared < s.q.fresh) ∧
    (∀ u u' x x', s'.calls u = some x → s'.calls u' = some x' → x.prepared = x'.prepared → u = u') ∧
    (∀ u x, s'.calls u = some x → (x.prepared ∈ s'.installed ↔ 1 ≤ x.pc.stage)) ∧
    (∀ u, u ∈ s'.appenders ↔ ∃ x, s'.calls u = some x ∧ 1 ≤ x.pc.stage) ∧
    ∀ i u x, s'.Owns u i → s'.calls u = some x → s'.IsEntry (i + 1) x.prepared := by
  have hback : ∀ u x, s'.calls u = some x → ∃ y, s.calls u = some y ∧ x.prepared = y.prepared ∧
      (1 ≤ x.pc.stage ↔ 1 ≤ y.pc.stage) := by
    intro u x hu
    obtain ⟨y, hy, -, hp, rfl | ⟨-, rfl, rfl⟩⟩ := call_of_move hc hcalls hmsg hprep hu
    · exact ⟨x, hy, rfl, Iff.rfl⟩
    · exact ⟨y, hy, hp, h1⟩
  refine ⟨?_, ?_, ?_, ?_, ?_⟩
  · intro u x hu
    obtain ⟨y, hy, hp, -⟩ := hback u x hu
    rw [hp]
    exact h.prepared_alive u y hy
  · intro u u' x x' hu hu' heq
    obtain ⟨y, hy, hp, -⟩ := hback u x hu
    obtain ⟨y', hy', hp', -⟩ := hback u' x' hu'
    exact h.prepared_inj u u' y y' hy hy' (hp.symm.trans (heq.trans hp'))
  · intro u x hu
    obtain ⟨y, hy, hp, hst⟩ := hback u x hu
    rw [hin, hp, hst]
    exact h.prepared_installed u y hy
  · intro u
    rw [hap, h.started u, hcalls]
    by_cases hut : u = t
    · subst hut
      rw [if_pos rfl, hc]
      constructor
      · rintro ⟨_, ⟨⟩, hst⟩
        exact ⟨d, rfl, h1.mpr hst⟩
      · rintro ⟨_, ⟨⟩, hst⟩
        exact ⟨c, rfl, h1.mp hst⟩
    · rw [if_neg hut]
  · intro i u x ho hu
    obtain ⟨y, hy, hp, -⟩ := hback u x hu
    rw [Owns, hap] at ho
    rw [IsEntry, hin, hp]
    exact h.owner i u y ho hy

/-- A step that only moves a call, between two stages that say the same about its entry. -/
theorem Shape.moveCall (h : s.Shape) {pc : Pc} (hc : s.calls t = some c)
    (h1 : 1 ≤ pc.stage ↔ 1 ≤ c.pc.stage) (h2 : 2 ≤ pc.stage ↔ 2 ≤ c.pc.stage)
    (h3 : 3 ≤ pc.stage ↔ 3 ≤ c.pc.stage) (h5 : 5 ≤ pc.stage ↔ 5 ≤ c.pc.stage)
    (hpc : s.PcFacts t pc) : (s.setCall t (c.goto pc)).Shape := by
  have hcalls : ∀ u, (s.setCall t (c.goto pc)).calls u =
    if u = t then some (c.goto pc) else s.calls u := fun u => setCall_calls s t (c.goto pc) u
  obtain ⟨halive, hinj, hinst, hstart, howner⟩ :=
    h.kept_calls hc hcalls rfl rfl h1 (setCall_installed s t _) (setCall_appenders s t _)
  have hback : ∀ u x, (s.setCall t (c.goto pc)).calls u = some x → ∃ y, s.calls u = some y ∧
      x.msg = y.msg ∧ x.prepared = y.prepared ∧ (1 ≤ x.pc.stage ↔ 1 ≤ y.pc.stage) ∧
      (2 ≤ x.pc.stage ↔ 2 ≤ y.pc.stage) ∧ (3 ≤ x.pc.stage ↔ 3 ≤ y.pc.stage) ∧
      (5 ≤ x.pc.stage ↔ 5 ≤ y.pc.stage) := by
    intro u x hu
    obtain ⟨y, hy, hm, hp, rfl | ⟨-, rfl, rfl⟩⟩ := call_of_move hc hcalls rfl rfl hu
    · exact ⟨x, hy, rfl, rfl, Iff.rfl, Iff.rfl, Iff.rfl, Iff.rfl⟩
    · exact ⟨y, hy, hm, hp, h1, h2, h3, h5⟩
  exact
  { h with
    prepared_alive := halive
    prepared_inj := hinj
    prepared_installed := hinst
    started := hstart
    owner := howner
    prepared := by
      intro u x hu hx
      obtain ⟨y, hy, -, hp, hst, -⟩ := hback u x hu
      rw [hp]
      exact h.prepared u y hy (by omega)
    msg := by
      intro i u x e ho hu he
      obtain ⟨y, hy, hm, -, -, -, hst, -⟩ := hback u x hu
      rw [hm]
      simp only [hst]
      exact h.msg i u y e ho hy he
    valid := by
      intro i u x e ho hu he
      obtain ⟨y, hy, -, -, -, -, -, hst⟩ := hback u x hu
      simp only [hst]
      exact h.valid i u y e ho hy he
    linked := by
      intro i u x e ho hu he hx
      obtain ⟨y, hy, -, -, -, hst, -⟩ := hback u x hu
      exact h.linked i u y e ho hy he (hst.mp hx)
    pcFacts := pcFacts_setCall (d := c.goto pc) h.pcFacts hpc rfl }

theorem Shape.begin (h : s.Shape) (m : Bytes) (ht : s.calls t = none) : (s.begin t m).Shape := by
  have hnew := h.not_begun ht
  have hfresh : s.q.fresh ∉ s.installed := fun ha => Nat.lt_irrefl _ (h.alive _ ha).2
  have hmem : ∀ i e, s.IsEntry i e → e ≠ s.q.fresh := fun i e he =>
    Nat.ne_of_lt (h.alive e (List.mem_of_getElem? he)).2
  have hheap : ∀ a, (s.begin t m).q.heap a = if a = s.q.fresh then newQueueEntry else s.q.heap a :=
    fun a => s.q.write_heap s.q.fresh a newQueueEntry
  have hkeep : ∀ i e, s.IsEntry i e → (s.begin t m).q.heap e = s.q.heap e := fun i e he =>
    (hheap e).trans (if_neg (hmem i e he))
  -- a call is the new one, with the fresh container, or an old one
  have hcalls : ∀ u x, (s.begin t m).calls u = some x →
      (u = t ∧ x = ⟨m, s.q.fresh, .loadNewest⟩) ∨ (u ≠ t ∧ s.calls u = some x) := by
    intro u x hu
    rw [QueueState.begin, setCall_calls] at hu
    split at hu
    · exact .inl ⟨‹_›, (Option.some.inj hu).symm⟩
    · exact .inr ⟨‹_›, hu⟩
  have hother : ∀ u, u ≠ t → (s.begin t m).calls u = s.calls u := by
    intro u hut
    rw [QueueState.begin, setCall_calls, if_neg hut]
  have howned : ∀ i u x, s.Owns u i → (s.begin t m).calls u = some x → s.calls u = some x := by
    intro i u x ho hu
    rcases hcalls u x hu with ⟨rfl, -⟩ | ⟨-, hu⟩
    · exact absurd (List.mem_of_getElem? ho) hnew
    · exact hu
  exact
  { h with
    fresh_pos := Nat.lt_succ_of_lt h.fresh_pos
    alive := fun a ha => ⟨(h.alive a ha).1, Nat.lt_succ_of_lt (h.alive a ha).2⟩
    prepared_alive := by
      intro u x hu
      rcases hcalls u x hu with ⟨-, rfl⟩ | ⟨-, hu⟩
      · exact ⟨Ne.symm (Nat.ne_of_lt h.fresh_pos), Nat.lt_succ_self _⟩
      · obtain ⟨h1, h2⟩ := h.prepared_alive u x hu
        exact ⟨h1, Nat.lt_succ_of_lt h2⟩
    prepared_inj := by
      intro u u' x x' hu hu' heq
      rcases hcalls u x hu with ⟨hut, rfl⟩ | ⟨-, hold⟩ <;>
        rcases hcalls u' x' hu' with ⟨hut', rfl⟩ | ⟨-, hold'⟩
      · rw [hut, hut']
      · exact absurd heq (Nat.ne_of_gt (h.prepared_alive u' x' hold').2)
      · exact absurd heq (Nat.ne_of_lt (h.prepared_alive u x hold).2)
      · exact h.prepared_inj u u' x x' hold hold' heq
    prepared_installed := by
      intro u x hu
      rcases hcalls u x hu with ⟨-, rfl⟩ | ⟨-, hu⟩
      · exact ⟨fun hin => absurd hin hfresh, fun hst => absurd hst (by simp [Pc.stage])⟩
      · exact h.prepared_installed u x hu
    started := by
      intro u
      by_cases hut : u = t
      · subst hut
        refine ⟨fun hin => absurd hin hnew, ?_⟩
        rintro ⟨x, hu, hst⟩
        rcases hcalls u x hu with ⟨-, rfl⟩ | ⟨hne, -⟩
        · exact absurd hst (by simp [Pc.stage])
        · exact absurd rfl hne
      · rw [hother u hut]
        exact h.started u
    owner := fun i u x ho hu => h.owner i u x ho (howned i u x ho hu)
    stale := by rw [hheap, if_neg (Nat.ne_of_lt h.fresh_pos)]; exact h.stale
    prepared := by
      intro u x hu hst
      rcases hcalls u x hu with ⟨-, rfl⟩ | ⟨-, hu⟩
      · rw [hheap, if_pos rfl]
      · rw [hheap, if_neg (Nat.ne_of_lt (h.prepared_alive u x hu).2)]
        exact h.prepared u x hu hst
    last := by
      intro e he
      rw [hkeep _ e he]
      exact h.last e he
    msg := by
      intro i u x e ho hu he
      rw [hkeep i e he]
      exact h.msg i u x e ho (howned i u x ho hu) he
    valid := by
      intro i u x e ho hu he
      rw [hkeep i e he]
      exact h.valid i u x e ho (howned i u x ho hu) he
    linked := by
      intro i u x e ho hu he hst
      rw [hkeep i e he]
      exact h.linked i u x e ho (howned i u x ho hu) he hst
    next := by
      intro i e a he
      rw [hkeep i e he]
      exact h.next i e a he
    pcFacts := pcFacts_setCall (d := ⟨m, s.q.fresh, .loadNewest⟩) h.pcFacts trivial rfl }

/-- A call after the CAS of `t` is `t`, with the same container, or another one. -/
theorem call_of_install {old : Ptr} {u : Tid} {x : Call}
    (hu : (s.install t c old).calls u = some x) :
    (u = t ∧ x.prepared = c.prepared ∧ x.pc.stage = 1) ∨ (u ≠ t ∧ s.calls u = some x) := by
  rw [QueueState.install, setCall_calls] at hu
  split at hu
  · next hut =>
    obtain rfl := Option.some.inj hu
    exact .inl ⟨hut, rfl, rfl⟩
  · next hut => exact .inr ⟨hut, hu⟩

/-- An owned entry is an old one, or the placeholder that `t` has just replaced. -/
theorem Shape.owns_of_install (h : s.Shape) {old : Ptr} {i : ℕ} {u : Tid} {e : Addr}
    (ho : (s.install t c old).Owns u i) (he : (s.install t c old).IsEntry i e) :
    (s.Owns u i ∧ s.IsEntry i e) ∨ (i = s.appenders.length ∧ u = t ∧ s.IsEntry i e) := by
  have hin : (s.install t c old).installed = s.installed ++ [c.prepared] := rfl
  have hap : (s.install t c old).appenders = s.appenders ++ [t] := rfl
  -- the new placeholder has no owner
  have hlt : i < s.installed.length := by
    have := (List.getElem?_eq_some_iff.mp ho).1
    rw [hap, List.length_append, List.length_singleton] at this
    rw [h.length]
    exact this
  rw [IsEntry, hin, List.getElem?_append_left hlt] at he
  rcases getElem?_concat ho with ho | ⟨rfl, rfl⟩
  · exact .inl ⟨ho, he⟩
  · exact .inr ⟨rfl, rfl, he⟩

/-- A successful CAS on `q.newest`: the placeholder becomes the entry of `t`, and the container of
`t` the new placeholder. -/
theorem Shape.install (h : s.Shape) {old : Ptr} (hc : s.calls t = some c)
    (hpc : c.pc = .casNewest old) (hold : s.q.newest = old) : (s.install t c old).Shape := by
  have hst : c.pc.stage = 0 := by rw [hpc]; rfl
  obtain ⟨hnew, hmem⟩ := h.not_started hc hst
  have hlen := h.length
  have hcont := h.prepared t c hc hst
  have hheap : ∀ a, (s.install t c old).q.heap a = s.q.heap a := fun _ => rfl
  have hin : (s.install t c old).installed = s.installed ++ [c.prepared] := rfl
  have hap : (s.install t c old).appenders = s.appenders ++ [t] := rfl
  have hcalls : ∀ u, (s.install t c old).calls u =
    if u = t then some (c.goto (.storeNext old)) else s.calls u := fun u => setCall_calls _ _ _ u
  have hst1 : ∀ d, (s.install t c old).calls t = some d → d.pc.stage = 1 := by
    intro d hd
    rw [hcalls, if_pos rfl] at hd
    cases hd
    rfl
  have howned : ∀ i u x, s.Owns u i → (s.install t c old).calls u = some x → s.calls u = some x := by
    intro i u x ho hu
    rcases call_of_install hu with ⟨rfl, -⟩ | ⟨-, hu⟩
    · exact absurd (List.mem_of_getElem? ho) hnew
    · exact hu
  exact
  { h with
    length := by simp [QueueState.install, h.length]
    nodup := by
      rw [hin]
      exact List.nodup_append.mpr ⟨h.nodup, List.nodup_singleton _, fun a ha b hb heq =>
        hmem (List.mem_singleton.mp hb ▸ heq ▸ ha)⟩
    appenders_nodup := by
      rw [hap]
      exact List.nodup_append.mpr ⟨h.appenders_nodup, List.nodup_singleton _, fun a ha b hb heq =>
        hnew (List.mem_singleton.mp hb ▸ heq ▸ ha)⟩
    alive := by
      intro a ha
      rcases List.mem_append.mp ha with ha | ha
      · exact h.alive a ha
      · exact (List.mem_singleton.mp ha) ▸ h.prepared_alive t c hc
    prepared_alive := by
      intro u x hu
      rcases call_of_install hu with ⟨-, hp, -⟩ | ⟨-, hu⟩
      · exact hp ▸ h.prepared_alive t c hc
      · exact h.prepared_alive u x hu
    prepared_inj := by
      intro u u' x x' hu hu' heq
      rcases call_of_install hu with ⟨hut, hp, -⟩ | ⟨-, hold⟩ <;>
        rcases call_of_install hu' with ⟨hut', hp', -⟩ | ⟨-, hold'⟩
      · rw [hut, hut']
      · exact hut.trans (h.prepared_inj t u' c x' hc hold' (hp.symm.trans heq))
      · exact (h.prepared_inj u t x c hold hc (heq.trans hp')).trans hut'.symm
      · exact h.prepared_inj u u' x x' hold hold' heq
    prepared_installed := by
      intro u x hu
      rw [hin, List.mem_append, List.mem_singleton]
      rcases call_of_install hu with ⟨-, hp, hx⟩ | ⟨hut, hu⟩
      · exact ⟨fun _ => Nat.le_of_eq hx.symm, fun _ => .inr hp⟩
      · rw [h.prepared_installed u x hu]
        exact or_iff_left fun heq => hut (h.prepared_inj u t x c hu hc heq)
    started := by
      intro u
      rw [hap, List.mem_append, List.mem_singleton]
      by_cases hut : u = t
      · subst hut
        exact ⟨fun _ => ⟨_, (hcalls u).trans (if_pos rfl), Nat.le_refl 1⟩, fun _ => .inr rfl⟩
      · rw [hcalls, if_neg hut, ← h.started u]
        exact or_iff_left hut
    owner := by
      intro i u x ho hu
      rw [IsEntry, hin]
      rcases call_of_install hu with ⟨hut, hp, -⟩ | ⟨hut, hold⟩
      · rcases getElem?_concat ho with ho | ⟨rfl, -⟩
        · exact absurd (hut ▸ List.mem_of_getElem? ho) hnew
        · rw [hp, ← hlen]
          exact List.getElem?_concat_length
      · rcases getElem?_concat ho with ho | ⟨-, heq⟩
        · exact getElem?_mono (List.prefix_append _ _) (h.owner i u x ho hold)
        · exact absurd heq hut
    newest := by
      rw [hin, hap, List.length_append, List.length_singleton, ← hlen]
      exact List.getElem?_concat_length.symm
    oldest := fun a ha => getElem?_mono (List.prefix_append _ _) (h.oldest a ha)
    removed := by
      rw [hin, List.length_append]
      exact Nat.le_add_right_of_le h.removed
    prepared := by
      intro u x hu hx
      rcases call_of_install hu with ⟨-, -, hx1⟩ | ⟨-, hu⟩
      · omega
      · exact h.prepared u x hu hx
    last := by
      intro e he
      have he : c.prepared = e := by simpa [IsEntry, hin, hap, ← hlen] using he
      rw [hheap, ← he, hcont]
      exact ⟨rfl, rfl⟩
    msg := by
      intro i u d e ho hu he
      rcases h.owns_of_install ho he with ⟨ho, he'⟩ | ⟨rfl, rfl, he'⟩
      · exact h.msg i u d e ho (howned i u d ho hu) he'
      · rw [hst1 d hu, hheap, (h.last e he').1]
        rfl
    valid := by
      intro i u d e ho hu he
      rcases h.owns_of_install ho he with ⟨ho, he'⟩ | ⟨rfl, rfl, he'⟩
      · exact h.valid i u d e ho (howned i u d ho hu) he'
      · rw [hst1 d hu, hheap, (h.last e he').2]
        rfl
    linked := by
      intro i u d e ho hu he hd
      rcases h.owns_of_install ho he with ⟨ho, he'⟩ | ⟨rfl, rfl, he'⟩
      · exact h.linked i u d e ho (howned i u d ho hu) he' hd
      · have := hst1 d hu
        omega
    next := by
      intro i e a he hnext
      rw [hheap] at hnext
      rw [IsEntry, hin] at he ⊢
      rcases getElem?_concat he with he | ⟨-, rfl⟩
      · rcases h.next i e a he hnext with hs | hs
        · exact .inl (getElem?_mono (List.prefix_append _ _) hs)
        · exact .inr hs
      · rw [hcont] at hnext
        cases hnext
    pcFacts := by
      refine pcFacts_setCall (s := s) (d := c.goto (.storeNext old)) ?_ ?_ rfl
      · exact fun u d hu => (h.pcFacts u d hu).mono ⟨_, rfl⟩ ⟨_, rfl⟩ ⟨[], List.append_nil _⟩
      · refine ⟨s.appenders.length, s.installed[s.appenders.length], ?_, ?_, ?_⟩
        · rw [← hold, h.newest, List.getElem?_eq_getElem]
        · exact List.getElem?_concat_length
        · exact getElem?_mono ⟨_, rfl⟩ (List.getElem?_eq_getElem _) }

/-- A store to the entry `e_i` by a call past its CAS. -/
theorem Shape.touch (h : s.Shape) {i : ℕ} {e : Addr} {x : QueueEntry} {pc : Pc}
    (hc : s.calls t = some c) (he : s.IsEntry i e) (hst : 1 ≤ c.pc.stage) (hst' : 1 ≤ pc.stage)
    (hown : s.Owns t i ∨ pc.stage = c.pc.stage)
    (hlast : i = s.appenders.length → x.msg = none ∧ x.valid = 1)
    (hx : ∀ u d, s.Owns u i → (s.touch t c e x pc).calls u = some d →
      (x.msg = if 3 ≤ d.pc.stage then some d.msg else none) ∧
      (x.valid = if 5 ≤ d.pc.stage then 0 else 1) ∧ (2 ≤ d.pc.stage → x.next ≠ none))
    (hnext : ∀ a, x.next = some a → s.IsEntry (i + 1) a ∨ (a = staleEntry ∧ i < s.removers.length))
    (hpc : s.PcFacts t pc) : (s.touch t c e x pc).Shape := by
  have hne : e ≠ staleEntry := (h.alive e (List.mem_of_getElem? he)).1
  have hheap : ∀ a, (s.touch t c e x pc).q.heap a = if a = e then x else s.q.heap a :=
    fun a => s.q.write_heap e a x
  have hcalls : ∀ u, (s.touch t c e x pc).calls u =
    if u = t then some (c.goto pc) else s.calls u := fun u => setCall_calls _ _ _ u
  -- the entry of an owner whose stage has changed is `e`
  have hother : ∀ j u d a, s.Owns u j → (s.touch t c e x pc).calls u = some d → s.IsEntry j a →
      a ≠ e → ∃ d', s.calls u = some d' ∧ d'.msg = d.msg ∧ d'.pc.stage = d.pc.stage := by
    intro j u d a ho hu ha hae
    by_cases hut : u = t
    · subst hut
      rw [hcalls, if_pos rfl] at hu
      cases hu
      rcases hown with ho' | hs
      · obtain rfl := h.owns_inj ho ho'
        exact absurd (Option.some.inj (ha.symm.trans he)) hae
      · exact ⟨c, hc, rfl, hs.symm⟩
    · rw [hcalls, if_neg hut] at hu
      exact ⟨d, hu, rfl, rfl⟩
  obtain ⟨halive, hinj, hinst, hstart, howner⟩ :=
    h.kept_calls hc hcalls rfl rfl ⟨fun _ => hst, fun _ => hst'⟩ rfl rfl
  exact
  { h with
    prepared_alive := halive
    prepared_inj := hinj
    prepared_installed := hinst
    started := hstart
    owner := howner
    stale := by rw [hheap, if_neg hne.symm]; exact h.stale
    prepared := by
      intro u d hu hd
      have hut : u ≠ t := by
        rintro rfl
        rw [hcalls, if_pos rfl] at hu
        obtain rfl := Option.some.inj hu
        rw [Call.goto_pc] at hd
        omega
      rw [hcalls, if_neg hut] at hu
      have hde : d.prepared ≠ e := by
        rintro rfl
        have := (h.prepared_installed u d hu).mp (List.mem_of_getElem? he)
        omega
      rw [hheap, if_neg hde]
      exact h.prepared u d hu hd
    last := by
      intro a ha
      rw [hheap]
      split
      · subst a
        exact hlast (h.entry_inj he ha)
      · exact h.last a ha
    msg := by
      intro j u d a ho hu ha
      by_cases hae : a = e
      · subst hae
        rw [hheap, if_pos rfl]
        exact (hx u d (h.entry_inj ha he ▸ ho) hu).1
      · obtain ⟨d', hd', h1, h2⟩ := hother j u d a ho hu ha hae
        rw [hheap, if_neg hae, h.msg j u d' a ho hd' ha, h1, h2]
    valid := by
      intro j u d a ho hu ha
      by_cases hae : a = e
      · subst hae
        rw [hheap, if_pos rfl]
        exact (hx u d (h.entry_inj ha he ▸ ho) hu).2.1
      · obtain ⟨d', hd', h1, h2⟩ := hother j u d a ho hu ha hae
        rw [hheap, if_neg hae, h.valid j u d' a ho hd' ha, h2]
    linked := by
      intro j u d a ho hu ha hd
      by_cases hae : a = e
      · subst hae
        rw [hheap, if_pos rfl]
        exact (hx u d (h.entry_inj ha he ▸ ho) hu).2.2 hd
      · obtain ⟨d', hd', h1, h2⟩ := hother j u d a ho hu ha hae
        rw [hheap, if_neg hae]
        exact h.linked j u d' a ho hd' ha (h2 ▸ hd)
    next := by
      intro j a b ha hb
      by_cases hae : a = e
      · subst hae
        rw [hheap, if_pos rfl] at hb
        exact h.entry_inj he ha ▸ hnext b hb
      · rw [hheap, if_neg hae] at hb
        exact h.next j a b ha hb
    pcFacts := pcFacts_setCall (d := c.goto pc) h.pcFacts hpc rfl }

/-- A store of a call to the entry it fills. -/
theorem Shape.touchOwn (h : s.Shape) {i : ℕ} {e : Addr} {x : QueueEntry} {pc : Pc}
    (hc : s.calls t = some c) (ho : s.Owns t i) (he : s.IsEntry i e) (hst : 1 ≤ c.pc.stage)
    (hst' : 1 ≤ pc.stage) (hmsg : x.msg = if 3 ≤ pc.stage then some c.msg else none)
    (hvalid : x.valid = if 5 ≤ pc.stage then 0 else 1) (hlinked : 2 ≤ pc.stage → x.next ≠ none)
    (hnext : ∀ a, x.next = some a → s.IsEntry (i + 1) a ∨ (a = staleEntry ∧ i < s.removers.length))
    (hpc : s.PcFacts t pc) : (s.touch t c e x pc).Shape := by
  refine h.touch hc he hst hst' (.inl ho) ?_ ?_ hnext hpc
  · rintro rfl
    exact absurd (List.getElem?_eq_some_iff.mp ho).1 (Nat.lt_irrefl _)
  · intro u d ho' hu
    obtain rfl : u = t := Option.some.inj (ho'.symm.trans ho)
    obtain rfl : c.goto pc = d := by simpa [QueueState.touch, setCall_calls] using hu
    exact ⟨hmsg, hvalid, hlinked⟩

/-- A successful CAS on `q.oldest`: the head is `e_o`, and what replaces it is `e_{o+1}` or nil. -/
theorem Shape.remove (h : s.Shape) {e : Addr} {new : Ptr} (hc : s.calls t = some c)
    (hpc : c.pc = .trimCas e new) (hold : s.q.oldest = some e) : (s.remove t c e new).Shape := by
  have hhead := h.oldest e hold
  have hlt := (List.getElem?_eq_some_iff.mp hhead).1
  have hrem : (s.remove t c e new).removers = s.removers ++ [t] := rfl
  obtain ⟨i, hi, hei, hnew⟩ : s.PcFacts t (.trimCas e new) := hpc ▸ h.pcFacts t c hc
  obtain rfl := h.entry_inj hei hhead
  -- first the queue, then the call
  have h1 : QueueState.Shape { s with
      q := { s.q with oldest := new }, removers := s.removers ++ [t] } :=
    { h with
      oldest := by
        intro a ha
        rcases hnew a ha with hn | ⟨-, hn⟩
        · rw [IsEntry, List.length_append]
          exact hn
        · exact absurd hn (Nat.lt_irrefl _)
      removed := by
        rw [List.length_append]
        exact hlt
      next := by
        intro j a b ha hb
        rcases h.next j a b ha hb with hn | ⟨hn1, hn2⟩
        · exact .inl hn
        · refine .inr ⟨hn1, ?_⟩
          rw [List.length_append]
          omega
      pcFacts := fun u d hu =>
        (h.pcFacts u d hu).mono (List.prefix_refl _) (List.prefix_refl _) ⟨_, rfl⟩ }
  refine h1.moveCall hc ?_ ?_ ?_ ?_ ⟨s.removers.length, List.getElem?_concat_length, hhead⟩ <;>
    simp [hpc, Pc.stage]

variable {L : Limits}

theorem Shape.localStep (h : s.Shape) {pc : Pc} (hc : s.calls t = some c)
    (hl : LocalStep L s.q c.pc pc) : (s.setCall t (c.goto pc)).Shape := by
  have hf := h.pcFacts t c hc
  generalize hp : c.pc = p at hl hf
  have hstage : pc.stage = p.stage := by cases hl <;> rfl
  refine h.moveCall hc ?_ ?_ ?_ ?_ ?_
  · rw [hstage, hp]
  · rw [hstage, hp]
  · rw [hstage, hp]
  · rw [hstage, hp]
  · cases hl with
    | trimLoadOldest => exact fun e he => ⟨_, Nat.le_refl _, h.oldest e he⟩
    | trimLoadNext =>
      obtain ⟨i, hi, he⟩ := hf _ rfl
      refine ⟨i, hi, he, fun a ha => ?_⟩
      exact h.next i _ a he ha
    | trimSize => exact hf
    | _ => trivial

theorem Shape.storeNext (h : s.Shape) {e : Addr} (hc : s.calls t = some c)
    (hpc : c.pc = .storeNext (some e)) :
    (s.touch t c e { s.q.heap e with next := some c.prepared } (.storeMsg e)).Shape := by
  obtain ⟨i, e', he', ho, he⟩ : s.PcFacts t (.storeNext (some e)) := hpc ▸ h.pcFacts t c hc
  cases he'
  have hm := h.msg i t c e ho hc he
  have hv := h.valid i t c e ho hc he
  rw [hpc] at hm hv
  refine h.touchOwn hc ho he ?_ ?_ hm hv ?_ ?_ ⟨i, ho, he⟩
  · simp [hpc, Pc.stage]
  · simp [Pc.stage]
  · simp
  · intro a ha
    cases ha
    exact .inl (h.owner i t c ho hc)

theorem Shape.storeMsg (h : s.Shape) {e : Addr} (hc : s.calls t = some c)
    (hpc : c.pc = .storeMsg e) :
    (s.touch t c e { s.q.heap e with msg := some c.msg } (.addSize e)).Shape := by
  obtain ⟨i, ho, he⟩ : s.PcFacts t (.storeMsg e) := hpc ▸ h.pcFacts t c hc
  have hv := h.valid i t c e ho hc he
  have hl := h.linked i t c e ho hc he
  rw [hpc] at hv hl
  refine h.touchOwn hc ho he ?_ ?_ rfl hv (fun _ => hl (Nat.le_refl _)) ?_ ⟨i, ho, he⟩
  · simp [hpc, Pc.stage]
  · simp [Pc.stage]
  · exact fun a ha => h.next i e a he ha

theorem Shape.validDone (h : s.Shape) {e : Addr} (hc : s.calls t = some c)
    (hpc : c.pc = .validDone e) :
    (s.touch t c e { s.q.heap e with valid := (s.q.heap e).valid - 1 } .trimTest).Shape := by
  obtain ⟨i, ho, he⟩ : s.PcFacts t (.validDone e) := hpc ▸ h.pcFacts t c hc
  have hm := h.msg i t c e ho hc he
  have hv := h.valid i t c e ho hc he
  have hl := h.linked i t c e ho hc he
  rw [hpc] at hm hv hl
  refine h.touchOwn hc ho he ?_ ?_ hm ?_ (fun _ => hl (by simp [Pc.stage])) ?_ trivial
  · simp [hpc, Pc.stage]
  · simp [Pc.stage]
  · show (s.q.heap e).valid - 1 = 0
    rw [hv]
    rfl
  · exact fun a ha => h.next i e a he ha

/-- The removed entry is cut off from its successor; its appender may still be at work on it. -/
theorem Shape.trimStale (h : s.Shape) {e : Addr} (hc : s.calls t = some c)
    (hpc : c.pc = .trimStale e) :
    (s.touch t c e { s.q.heap e with next := some staleEntry } .trimTest).Shape := by
  obtain ⟨i, hr, he⟩ : s.PcFacts t (.trimStale e) := hpc ▸ h.pcFacts t c hc
  have hst : c.pc.stage = 5 := by rw [hpc]; rfl
  refine h.touch hc he ?_ ?_ (.inr hst.symm) ?_ ?_ ?_ trivial
  · omega
  · simp [Pc.stage]
  · rintro rfl
    exact h.last e he
  · intro u d ho hu
    obtain ⟨d', hd', hmsg, hstage⟩ : ∃ d', s.calls u = some d' ∧ d'.msg = d.msg ∧
        d'.pc.stage = d.pc.stage := by
      by_cases hut : u = t
      · subst hut
        obtain rfl : c.goto .trimTest = d := by simpa [QueueState.touch, setCall_calls] using hu
        exact ⟨c, hc, rfl, hst⟩
      · exact ⟨d, by simpa [QueueState.touch, setCall_calls, hut] using hu, rfl, rfl⟩
    rw [← hmsg, ← hstage]
    exact ⟨h.msg i u d' e ho hd' he, h.valid i u d' e ho hd' he, by simp⟩
  · intro a ha
    cases ha
    exact .inr ⟨rfl, (List.getElem?_eq_some_iff.mp hr).1⟩

/-- The shape says nothing about `q.size`. -/
theorem Shape.account (h : s.Shape) {e : Addr} (n : ℤ) (hc : s.calls t = some c)
    (hpc : c.pc = .addSize e) : (s.account t c e n).Shape := by
  have hf : s.PcFacts t (.addSize e) := hpc ▸ h.pcFacts t c hc
  have h1 : QueueState.Shape { s with q := { s.q with size := s.q.size + n } } := { h with }
  refine h1.moveCall hc ?_ ?_ ?_ ?_ hf <;> simp [hpc, Pc.stage]

theorem Shape.subtract (h : s.Shape) {e : Addr} {n : ℤ} (hc : s.calls t = some c)
    (hpc : c.pc = .trimSub e n) : (s.subtract t c e n).Shape := by
  have hf : s.PcFacts t (.trimSub e n) := hpc ▸ h.pcFacts t c hc
  have h1 : QueueState.Shape { s with
      q := { s.q with size := s.q.size - n }, taken := Function.update s.taken e (some n) } :=
    { h with }
  refine h1.moveCall hc ?_ ?_ ?_ ?_ hf <;> simp [hpc, Pc.stage]

/-- **Step lemma**: every step keeps the shape. -/
theorem Shape.step (h : s.Shape) {a : QueueAction} (hs : QueueStep L s a s') : s'.Shape := by
  cases hs with
  | append ht => exact h.begin _ ht
  | moves hc hl => exact h.localStep hc hl
  | casNewest hc hpc hold => exact h.install hc hpc hold
  | storeNext hc hpc => exact h.storeNext hc hpc
  | storeMsg hc hpc => exact h.storeMsg hc hpc
  | addSize hc hpc => exact h.account _ hc hpc
  | validDone hc hpc => exact h.validDone hc hpc
  | trimCas hc hpc hold => exact h.remove hc hpc hold
  | trimSub hc hpc => exact h.subtract hc hpc
  | trimStale hc hpc => exact h.trimStale hc hpc
  | listen => exact { h with }
  | listener => exact { h with }
  | callPanics => exact { h with }
  | listenerPanics => exact { h with }

theorem shape_of_reaches {ok : QueueState → QueueAction → Prop} (h : (queueRun L).Reaches ok s) :
    s.Shape :=
  h.invariant shape_init fun _ _ _ hI _ hn => hI.step (queueStep_of_next hn).2

end QueueState

end WebsocketHub
