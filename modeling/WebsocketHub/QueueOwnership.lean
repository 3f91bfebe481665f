import WebsocketHub.QueueSequential

/-!
# WebsocketHub.QueueOwnership — every entry is filled by one append and removed by one trim

The two ends of the queue are moved by CAS only.  The successful CASes on `q.newest` hand the entries
out to the appends, the successful CASes on `q.oldest` to the trims; `Filled` and `RemovedInOrder`
collect what follows for the entries, in every state and from there on.
-/

namespace WebsocketHub

namespace QueueState

section Defs

variable (L : Limits) (s : QueueState)

/-- The CASes on `q.newest`, and what is written to the entries they hand out. -/
structure Filled : Prop where
  /-- `e_0, e_1, …, e_n` are distinct, and `q.newest` is `e_n`. -/
  initial : s.IsEntry 0 initialEntry
  nodup : s.installed.Nodup
  newest : s.q.newest = s.installed[s.appenders.length]?
  length : s.installed.length = s.appenders.length + 1
  /-- The call whose CAS replaces `e_n` owns it from then on, and installs the next entry. -/
  hands : ∀ t c old s', s.calls t = some c → c.pc = .casNewest old → s.q.newest = old →
    queueNext L s (.call t) = some s' → ∃ e, old = some e ∧ s.IsEntry s.appenders.length e ∧
      s'.Owns t s.appenders.length ∧ s'.installed = s.installed ++ [c.prepared]
  /-- Every entry but the last one has an owner, which owns no other entry. -/
  owner : ∀ i < s.appenders.length, ∃ t c, s.Owns t i ∧ s.calls t = some c ∧
    ∀ j, s.Owns t j → j = i
  /-- Only its owner stores the message of an entry, once. -/
  storeMsg : ∀ t c e, s.calls t = some c → c.pc = .storeMsg e →
    (∃ i, s.Owns t i ∧ s.IsEntry i e) ∧ (s.q.heap e).msg = none
  written : ∀ a s' e, queueNext L s a = some s' → e < s.q.fresh →
    (s'.q.heap e).msg ≠ (s.q.heap e).msg →
    ∃ t c, a = .call t ∧ s.calls t = some c ∧ c.pc = .storeMsg e ∧
      (s'.q.heap e).msg = some c.msg
  /-- Its owner marks it valid, when it is linked and filled, once. -/
  validDone : ∀ t c e, s.calls t = some c → c.pc = .validDone e →
    (∃ i, s.Owns t i ∧ s.IsEntry i e) ∧ (s.q.heap e).valid = 1 ∧ (s.q.heap e).next ≠ none ∧
      (s.q.heap e).msg = some c.msg
  done_once : ∀ t c e s₁ s₂, s.calls t = some c → c.pc = .validDone e →
    queueNext L s (.call t) = some s₁ → (queueRun L).Path (fun _ _ => True) s₁ s₂ →
    (s₂.q.heap e).valid = 0 ∧ ∀ u d, s₂.calls u = some d → d.pc ≠ .validDone e
  nonneg : s.panic ≠ some .negativeWaitGroup
  /-- The last entry is not valid. -/
  last : ∀ e, s.IsEntry s.appenders.length e → (s.q.heap e).valid = 1
  /-- When all have returned, the entries hold what has been appended. -/
  messages : s.Quiescent →
    (s.installed.take s.appenders.length).map (fun e => (s.q.heap e).msg) =
      s.appenders.map (fun t => (s.calls t).map Call.msg) ∧
    s.appenders.Nodup ∧ ∀ t, t ∈ s.appenders ↔ (s.calls t).isSome = true

/-- The CASes on `q.oldest`, and the subtractions of the trims. -/
structure RemovedInOrder : Prop where
  /-- `q.oldest` is the first entry that has not been removed, or nil. -/
  oldest : ∀ e, s.q.oldest = some e → s.IsEntry s.removers.length e
  not_stale : s.q.oldest ≠ some staleEntry
  /-- The CAS number `k` removes `e_k`, and brings `e_{k+1}` or nil to the head. -/
  removes : ∀ t c e new s', s.calls t = some c → c.pc = .trimCas e new → s.q.oldest = some e →
    queueNext L s (.call t) = some s' → s.IsEntry s.removers.length e ∧
      s'.removers = s.removers ++ [t] ∧ s'.q.oldest = new ∧
      ∀ a, new = some a → s.IsEntry (s.removers.length + 1) a
  /-- Nothing else moves `q.oldest`. -/
  only : ∀ a s', queueNext L s a = some s' → s'.q.oldest ≠ s.q.oldest →
    ∃ t c e new, a = .call t ∧ s.calls t = some c ∧ c.pc = .trimCas e new ∧ s.q.oldest = some e
  /-- An entry that has been removed does not come back, and nil stays. -/
  removed_once : ∀ t c e new s₁ s₂, s.calls t = some c → c.pc = .trimCas e new →
    s.q.oldest = some e → queueNext L s (.call t) = some s₁ →
    (queueRun L).Path (fun _ _ => True) s₁ s₂ → s₂.q.oldest ≠ some e
  forward : ∀ s' i j a b, (queueRun L).Path (fun _ _ => True) s s' → s.q.oldest = some a →
    s'.q.oldest = some b → s'.IsEntry i a → s'.IsEntry j b → i ≤ j
  nil_stays : ∀ s', (queueRun L).Path (fun _ _ => True) s s' → s.q.oldest = none →
    s'.q.oldest = none
  /-- A trim subtracts for the entries it has removed, once for each. -/
  subtracts : ∀ t c e n, s.calls t = some c → c.pc = .trimSub e n →
    ∃ i, s.Removed t i ∧ s.IsEntry i e
  subtracted_once : ∀ t c e n s₁ s₂, s.calls t = some c → c.pc = .trimSub e n →
    queueNext L s (.call t) = some s₁ → (queueRun L).Path (fun _ _ => True) s₁ s₂ →
    ∀ u d m, s₂.calls u = some d → d.pc ≠ .trimSub e m

end Defs

variable {s s' : QueueState} {t : Tid} {c : Call} {L : Limits} {e : Addr}

/-- The queue starts with the entry `newQueue` allocates. -/
theorem initial_of_reaches {ok : QueueState → QueueAction → Prop} (h : (queueRun L).Reaches ok s) :
    s.IsEntry 0 initialEntry :=
  isEntry_mono (s := init) (grows_of_path shape_init h).2.installed rfl

/-- Where a message is written. -/
theorem written_of_step {a : QueueAction} (hs : QueueStep L s a s') (he : e < s.q.fresh)
    (hne : (s'.q.heap e).msg ≠ (s.q.heap e).msg) : ∃ t c, a = .call t ∧ s.calls t = some c ∧
      c.pc = .storeMsg e ∧ (s'.q.heap e).msg = some c.msg := by
  -- a step that writes an entry and keeps its message
  have htouch : ∀ {t : Tid} {c : Call} {b : Addr} {x : QueueEntry} {pc : Pc},
      x.msg = (s.q.heap b).msg → ((s.touch t c b x pc).q.heap e).msg = (s.q.heap e).msg := by
    intro t c b x pc hx
    show ((s.q.write b x).heap e).msg = _
    rw [MessageQueue.write_heap]
    split
    · next heq => rw [heq, hx]
    · rfl
  cases hs with
  | @append t m ht =>
    refine absurd ?_ hne
    show ((s.q.write s.q.fresh newQueueEntry).heap e).msg = _
    rw [MessageQueue.write_heap, if_neg (Nat.ne_of_lt he)]
  | storeNext hc hpc =>
    refine absurd (htouch ?_) hne
    rfl
  | @storeMsg t c b hc hpc =>
    have hheap : (s.touch t c b { s.q.heap b with msg := some c.msg } (.addSize b)).q.heap e =
        if e = b then { s.q.heap b with msg := some c.msg } else s.q.heap e :=
      s.q.write_heap b e _
    rw [hheap] at hne ⊢
    by_cases heq : e = b
    · subst heq
      rw [if_pos rfl]
      exact ⟨t, c, rfl, hc, hpc, rfl⟩
    · rw [if_neg heq] at hne
      exact absurd rfl hne
  | validDone hc hpc hv =>
    refine absurd (htouch ?_) hne
    rfl
  | trimStale hc hpc =>
    refine absurd (htouch ?_) hne
    rfl
  | _ => exact absurd rfl hne

/-- The state of an entry when its owner is about to mark it valid. -/
theorem Shape.validDone_ready (h : s.Shape) (hc : s.calls t = some c) (hpc : c.pc = .validDone e) :
    (∃ i, s.Owns t i ∧ s.IsEntry i e) ∧ (s.q.heap e).valid = 1 ∧ (s.q.heap e).next ≠ none ∧
      (s.q.heap e).msg = some c.msg := by
  obtain ⟨i, ho, he⟩ : s.PcFacts t (.validDone e) := hpc ▸ h.pcFacts t c hc
  have hst : c.pc.stage = 4 := by rw [hpc]; rfl
  refine ⟨⟨i, ho, he⟩, ?_, h.linked i t c e ho hc he (by omega), ?_⟩
  · rw [h.valid i t c e ho hc he, if_neg (by omega)]
  · rw [h.msg i t c e ho hc he, if_pos (by omega)]

/-- An entry that has been marked valid is never marked again. -/
theorem Shape.done_once (h : s.Shape) (hc : s.calls t = some c) (hpc : c.pc = .validDone e)
    {s₁ s₂ : QueueState} (hn : queueNext L s (.call t) = some s₁)
    (hp : (queueRun L).Path (fun _ _ => True) s₁ s₂) :
    (s₂.q.heap e).valid = 0 ∧ ∀ u d, s₂.calls u = some d → d.pc ≠ .validDone e := by
  obtain ⟨⟨i, -, he⟩, hv, -⟩ := h.validDone_ready hc hpc
  have hnone : s.panic = none := (queueStep_of_next hn).1
  have hs₁ : s₁ = s.touch t c e { s.q.heap e with valid := (s.q.heap e).valid - 1 } .trimTest := by
    have hstep : callStep L s.q c = some (.ok (s.q.done e, c.goto .trimTest)) := by
      rw [callStep, hpc]
      dsimp only
      rw [if_neg (by omega)]
    rw [queueNext_call hnone hc hstep] at hn
    rw [← Option.some.inj hn, record, hpc]
    rfl
  have hv₁ : (s₁.q.heap e).valid = 0 := by
    rw [hs₁]
    show ((s.q.write e _).heap e).valid = 0
    rw [MessageQueue.write_heap, if_pos rfl]
    show (s.q.heap e).valid - 1 = 0
    omega
  have hshape₁ : s₁.Shape := h.step (queueStep_of_next hn).2
  have hin : e ∈ s₁.installed := by
    rw [hs₁]
    exact List.mem_of_getElem? he
  obtain ⟨hshape₂, hg⟩ := grows_of_path hshape₁ hp
  have hv₂ := hg.valid e hin hv₁
  refine ⟨hv₂, fun u d hd hpc' => ?_⟩
  have := (hshape₂.validDone_ready hd hpc').2.1
  omega

/-- A successful CAS on `q.newest`. -/
theorem queueNext_casNewest {old : Ptr} (hc : s.calls t = some c) (hpc : c.pc = .casNewest old)
    (hold : s.q.newest = old) (hn : queueNext L s (.call t) = some s') : s' = s.install t c old := by
  have hstep : callStep L s.q c =
      some (.ok ({ s.q with newest := some c.prepared }, c.goto (.storeNext old))) := by
    rw [callStep, hpc]
    simp only [SafePointer.cas, hold, if_true]
  rw [queueNext_call (queueStep_of_next hn).1 hc hstep] at hn
  rw [← Option.some.inj hn, record, hpc]
  dsimp only
  rw [if_pos hold]
  rfl

/-- The entries of a quiescent state hold the messages of their owners. -/
theorem Shape.messages (h : s.Shape) (hq : s.Quiescent) :
    (s.installed.take s.appenders.length).map (fun e => (s.q.heap e).msg) =
      s.appenders.map fun t => (s.calls t).map Call.msg := by
  have hlen := h.length
  apply List.ext_getElem?
  intro i
  rw [List.getElem?_map, List.getElem?_map]
  rcases Nat.lt_or_ge i s.appenders.length with hi | hi
  · obtain ⟨t, c, ho, hc, hst⟩ := owner_of_quiescent h hq hi
    have he : s.IsEntry i s.installed[i] := List.getElem?_eq_getElem (by omega)
    rw [List.getElem?_take_of_lt hi, he, ho]
    show some (s.q.heap s.installed[i]).msg = some ((s.calls t).map Call.msg)
    rw [h.msg i t c _ ho hc he, if_pos (by omega), hc]
    rfl
  · rw [List.getElem?_eq_none (Nat.le_trans (List.length_take_le _ _) hi),
      List.getElem?_eq_none hi]
    rfl

/-- **Appends lose and duplicate nothing**, however their steps interleave. -/
theorem appends_lose_nothing (h : (queueRun L).Reachable s) : s.Filled L := by
  have hs := shape_of_reaches h
  refine
  { initial := initial_of_reaches h
    nodup := hs.nodup
    newest := hs.newest
    length := hs.length
    hands := ?_
    owner := ?_
    storeMsg := ?_
    written := fun a s' e hn he hne => written_of_step (queueStep_of_next hn).2 he hne
    validDone := fun t c e hc hpc => hs.validDone_ready hc hpc
    done_once := fun t c e s₁ s₂ hc hpc hn hp => hs.done_once hc hpc hn hp
    nonneg := ?_
    last := fun e he => (hs.last e he).2
    messages := ?_ }
  · intro t c old s' hc hpc hold hn
    obtain rfl := queueNext_casNewest hc hpc hold hn
    have hlt : s.appenders.length < s.installed.length := by
      have := hs.length
      omega
    refine ⟨s.installed[s.appenders.length], ?_, List.getElem?_eq_getElem hlt, ?_, rfl⟩
    · rw [← hold, hs.newest, List.getElem?_eq_getElem hlt]
    · exact List.getElem?_concat_length
  · intro i hi
    obtain ⟨t, c, ho, hc, -⟩ := hs.exists_owner hi
    exact ⟨t, c, ho, hc, fun j hj => hs.owns_inj hj ho⟩
  · intro t c e hc hpc
    obtain ⟨i, ho, he⟩ : s.PcFacts t (.storeMsg e) := hpc ▸ hs.pcFacts t c hc
    refine ⟨⟨i, ho, he⟩, ?_⟩
    rw [hs.msg i t c e ho hc he, hpc]
    rfl
  · intro hp
    cases panic_of_reaches h hp
  · intro hq
    refine ⟨hs.messages hq, hs.appenders_nodup, fun t => ?_⟩
    rw [hs.started t, Option.isSome_iff_exists]
    constructor
    · rintro ⟨c, hc, -⟩
      exact ⟨c, hc⟩
    · rintro ⟨c, hc⟩
      exact ⟨c, hc, by rw [hq t c hc]; exact Nat.one_le_of_lt (Nat.lt_succ_self 4)⟩

/-- Call 0 has installed its entry when call 1 overtakes it. -/
theorem overtaken_append_loses_nothing :
    ∃ s, (queueRun (backlogOf 100)).Reachable s ∧ s.appenders = [0, 1] ∧
      s.Filled (backlogOf 100) := by
  obtain ⟨s, h, hap⟩ := Machine.exists_of_run (queueRun (backlogOf 100)) init
    (.append 0 [7] :: List.replicate 2 (.call 0) ++ appendSteps 1 [8] ++
      List.replicate 5 (.call 0)) (fun s => s.appenders = [0, 1]) (by decide)
  exact ⟨s, h, of_decide_eq_true hap, appends_lose_nothing h⟩

/-! ## The trims -/

/-- A successful CAS on `q.oldest`. -/
theorem queueNext_trimCas {new : Ptr} (hc : s.calls t = some c) (hpc : c.pc = .trimCas e new)
    (hold : s.q.oldest = some e) (hn : queueNext L s (.call t) = some s') :
    s' = s.remove t c e new := by
  have hstep : callStep L s.q c = some (.ok ({ s.q with oldest := new }, c.goto (.trimSize e))) := by
    rw [callStep, hpc]
    simp only [SafePointer.cas, hold, if_true]
  rw [queueNext_call (queueStep_of_next hn).1 hc hstep] at hn
  rw [← Option.some.inj hn, record, hpc]
  dsimp only
  rw [if_pos hold]
  rfl

theorem queueNext_trimSub {n : ℤ} (hc : s.calls t = some c) (hpc : c.pc = .trimSub e n)
    (hn : queueNext L s (.call t) = some s') : s' = s.subtract t c e n := by
  have hstep : callStep L s.q c =
      some (.ok ({ s.q with size := SafeInt64.sub s.q.size n }, c.goto (.trimStale e))) := by
    rw [callStep, hpc]
  rw [queueNext_call (queueStep_of_next hn).1 hc hstep, SafeInt64.sub_eq] at hn
  rw [← Option.some.inj hn, record, hpc]
  rfl

/-- What moves `q.oldest`. -/
theorem oldest_of_step {a : QueueAction} (hs : QueueStep L s a s') (hne : s'.q.oldest ≠ s.q.oldest) :
    ∃ t c e new, a = .call t ∧ s.calls t = some c ∧ c.pc = .trimCas e new ∧
      s.q.oldest = some e := by
  cases hs with
  | trimCas hc hpc hold => exact ⟨_, _, _, _, rfl, hc, hpc, hold⟩
  | _ => exact absurd rfl hne

/-- The `next` that a successful CAS installs as the head: `staleEntry` was loaded only from an entry
that has been removed since. -/
theorem Shape.next_of_trimCas (h : s.Shape) {new : Ptr} (hc : s.calls t = some c)
    (hpc : c.pc = .trimCas e new) (hold : s.q.oldest = some e) :
    ∀ a, new = some a → s.IsEntry (s.removers.length + 1) a := by
  intro a ha
  obtain ⟨i, -, he, hnext⟩ : s.PcFacts t (.trimCas e new) := hpc ▸ h.pcFacts t c hc
  obtain rfl := h.entry_inj he (h.oldest e hold)
  exact (hnext a ha).resolve_right fun hst => Nat.lt_irrefl _ hst.2

/-- Once its size has been subtracted, an entry stays paid for. -/
theorem taken_of_path (hp : (queueRun L).Path (fun _ _ => True) s s') (h : s.taken e ≠ none) :
    s'.taken e ≠ none := by
  refine hp.invariant (I := fun s => s.taken e ≠ none) ?_ h
  intro s a s' hI _ hn
  cases (queueStep_of_next hn).2 with
  | @trimSub t c b n hc hpc =>
    show Function.update s.taken b (some n) e ≠ none
    rw [Function.update_apply]
    split
    · simp
    · exact hI
  | _ => exact hI

theorem oldest_none_of_path (hp : (queueRun L).Path (fun _ _ => True) s s')
    (h : s.q.oldest = none) : s'.q.oldest = none := by
  refine hp.invariant (I := fun s => s.q.oldest = none) ?_ h
  intro s a s' hI _ hn
  by_contra hne
  obtain ⟨t, c, e, new, -, -, -, hold⟩ :=
    oldest_of_step (queueStep_of_next hn).2 (by rw [hI]; exact hne)
  rw [hI] at hold
  cases hold

/-- **Every entry is removed at most once, in the order of the appends**, however the steps of the
trims interleave. -/
theorem removed_in_order (h : (queueRun L).Reachable s) : s.RemovedInOrder L := by
  have hs := shape_of_reaches h
  refine
  { oldest := hs.oldest
    not_stale := ?_
    removes := ?_
    only := fun a s' hn hne => oldest_of_step (queueStep_of_next hn).2 hne
    removed_once := ?_
    forward := ?_
    nil_stays := fun s' hp hnil => oldest_none_of_path hp hnil
    subtracts := ?_
    subtracted_once := ?_ }
  · intro hst
    exact (hs.alive _ (List.mem_of_getElem? (hs.oldest _ hst))).1 rfl
  · intro t c e new s' hc hpc hold hn
    obtain rfl := queueNext_trimCas hc hpc hold hn
    exact ⟨hs.oldest e hold, rfl, rfl, hs.next_of_trimCas hc hpc hold⟩
  · intro t c e new s₁ s₂ hc hpc hold hn hp hback
    have hr₁ : s₁.removers = s.removers ++ [t] := by rw [queueNext_trimCas hc hpc hold hn]; rfl
    have hg₁ := hs.grows (queueStep_of_next hn).2
    obtain ⟨hs₂, hg₂⟩ := grows_of_path (hs.step (queueStep_of_next hn).2) hp
    -- its position has been passed
    have he := isEntry_mono hg₂.installed (isEntry_mono hg₁.installed (hs.oldest e hold))
    have hpos := hs₂.entry_inj he (hs₂.oldest e hback)
    have hle := hg₂.removers.length_le
    rw [hr₁, List.length_append, List.length_singleton] at hle
    omega
  · intro s' i j a b hp ha hb hi hj
    obtain ⟨hs', hg⟩ := grows_of_path hs hp
    have h1 := hs'.entry_inj hi (isEntry_mono hg.installed (hs.oldest a ha))
    have h2 := hs'.entry_inj hj (hs'.oldest b hb)
    have hle := hg.removers.length_le
    omega
  · intro t c e n hc hpc
    exact (hpc ▸ hs.pcFacts t c hc : s.PcFacts t (.trimSub e n))
  · intro t c e n s₁ s₂ hc hpc hn hp u d m hd hpc'
    have h₁ : s₁.taken e ≠ none := by
      rw [queueNext_trimSub hc hpc hn]
      show Function.update s.taken e (some n) e ≠ none
      simp
    have hr₂ : (queueRun L).Reachable s₂ := (h.step hn trivial).path hp
    have hs₂ := shape_of_reaches hr₂
    obtain ⟨i, hrem, he⟩ : s₂.PcFacts u (.trimSub e m) := hpc' ▸ hs₂.pcFacts u d hd
    refine taken_of_path hp h₁ (((ledger_of_reaches hr₂).pending i u e hrem he).mpr ⟨d, hd, ?_⟩)
    rw [hpc']
    rfl

/-- Call 1 removes the entry of call 0 and its own. -/
theorem two_removals_in_order :
    ∃ s, (queueRun (backlogOf 0)).Reachable s ∧ s.removers = [1, 1] ∧
      s.RemovedInOrder (backlogOf 0) := by
  obtain ⟨s, h, hrem⟩ := Machine.exists_of_run (queueRun (backlogOf 0)) init
    (.append 0 [7] :: List.replicate 3 (.call 0) ++ appendSteps 1 [8] ++ List.replicate 14 (.call 1))
    (fun s => s.removers = [1, 1]) (by decide)
  exact ⟨s, h, of_decide_eq_true hrem, removed_in_order h⟩

end QueueState

end WebsocketHub
