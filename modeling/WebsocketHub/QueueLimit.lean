import WebsocketHub.QueueBytes

/-!
# WebsocketHub.QueueLimit — what the trims leave behind

A trim that loses its CAS stops although the backlog may still be too large.  `Watched` is the
invariant behind that: as long as the counter exceeds the limit, some call is responsible, and a
lost CAS means that another one is.  In the other direction, trims may remove too much when they act
on a counter from which removed entries have not been subtracted yet; `removesExcess` is the step
condition that excludes it.
-/

namespace WebsocketHub

namespace QueueState

section Defs

variable (s : QueueState) (L : Limits)

/-- A call that will look at the counter again before it returns.  A trim that stands before its CAS
on `q.oldest` counts as long as the CAS can succeed. -/
def Responsible : Pc → Prop
  | .trimLoadNext old => s.q.oldest = old
  | .trimCas e _ => s.q.oldest = some e
  | .returned => False
  | _ => True

/-- Above the limit, some call is responsible. -/
def Watched : Prop := L.maxsize < s.q.size → ∃ t c, s.calls t = some c ∧ s.Responsible c.pc

end Defs

variable {s s' : QueueState} {t : Tid} {c : Call} {L : Limits} {i : ℕ} {e : Addr}

/-- A call that has moved to where it is responsible. -/
theorem watched_setCall {d : Call} (h : (s.setCall t d).Responsible d.pc) :
    (s.setCall t d).Watched L :=
  fun _ => ⟨t, d, by rw [setCall_calls, if_pos rfl], h⟩

/-- **Step lemma**: responsibility is handed on. -/
theorem Watched.step (h : s.Watched L) {a : QueueAction} (hstep : QueueStep L s a s') :
    s'.Watched L := by
  cases hstep with
  | append ht => exact watched_setCall trivial
  | @moves t c pc hc hl =>
    intro hsize
    obtain ⟨u, d, hu, hres⟩ := h hsize
    by_cases hut : u = t
    · -- the step of a responsible call: it does not return above the limit
      subst hut
      obtain rfl := Option.some.inj (hc.symm.trans hu)
      refine ⟨u, c.goto pc, by rw [setCall_calls, if_pos rfl], ?_⟩
      rw [Call.goto_pc]
      generalize c.pc = p at hl hres
      cases hl with
      | trimEnds hle => exact absurd hsize (Int.not_lt.mpr hle)
      | trimLoadOldest => exact rfl
      | trimLoadNext => exact hres
      | trimCasFails hne => exact absurd hres hne
      | _ => trivial
    · refine ⟨u, d, ?_, hres⟩
      rw [setCall_calls, if_neg hut]
      exact hu
  | casNewest hc hpc => exact watched_setCall trivial
  | storeNext hc hpc => exact watched_setCall trivial
  | storeMsg hc hpc => exact watched_setCall trivial
  | addSize hc hpc => exact watched_setCall trivial
  | validDone hc hpc => exact watched_setCall trivial
  | trimCas hc hpc => exact watched_setCall trivial
  | trimSub hc hpc => exact watched_setCall trivial
  | trimStale hc hpc => exact watched_setCall trivial
  | listen hl => exact h
  | listener hl hx => exact h
  | callPanics hc hx => exact h
  | listenerPanics hl hx => exact h

theorem watched_init : init.Watched L := by
  intro hsize
  exact absurd hsize (Int.not_lt.mpr L.maxsize_nonneg)

theorem watched_of_reaches {ok : QueueState → QueueAction → Prop} (h : (queueRun L).Reaches ok s) :
    s.Watched L :=
  h.invariant (I := fun s => s.Watched L) watched_init fun _ _ _ hI _ hn =>
    hI.step (queueStep_of_next hn).2

/-- **Giving up on a failed CAS** never leaves the backlog over its limit. -/
theorem backlog_within_limit (h : (queueRun L).Reachable s) (hq : s.Quiescent) :
    s.q.size ≤ L.maxsize ∧ s.q.chainSize L ≤ L.maxsize := by
  have hs := shape_of_reaches h
  have hsize : s.q.size ≤ L.maxsize := by
    by_contra hgt
    obtain ⟨t, c, hc, hres⟩ := watched_of_reaches h (Int.not_le.mp hgt)
    rw [hq t c hc] at hres
    exact hres
  refine ⟨hsize, ?_⟩
  cases hold : s.q.oldest with
  | none =>
    rw [MessageQueue.chainSize, chain_eq_nil hold]
    exact L.maxsize_nonneg
  | some e => exact Int.le_trans (chainSize_le (ledger_of_reaches h) hs hq hold) hsize

/-- Two trims load the same head; the one that loses gives up, and the other removes both
messages. -/
theorem backlog_within_limit_of_lost_cas : ∃ s, (queueRun (backlogOf 0)).Reachable s ∧
    s.removers = [1, 1] ∧ s.q.size ≤ (backlogOf 0).maxsize ∧
    s.q.chainSize (backlogOf 0) ≤ (backlogOf 0).maxsize := by
  obtain ⟨s, h, hc⟩ := Machine.exists_of_run (queueRun (backlogOf 0)) init
    (appendSteps 0 [7] ++ appendSteps 1 [8] ++ List.replicate 3 (.call 0) ++
      List.replicate 15 (.call 1) ++ [.call 0])
    (fun s => s.quiescentCheck && s.removers = [1, 1]) (by decide)
  obtain ⟨hq, hrem⟩ := Bool.and_eq_true_iff.mp hc
  exact ⟨s, h, of_decide_eq_true hrem,
    backlog_within_limit h (quiescent_of_check (shape_of_reaches h) hq)⟩

/-! ## Removing no more than necessary -/

section Defs

variable (s : QueueState) (L : Limits)

/-- The size of a removed entry that has not been subtracted yet. -/
def pendingSize (i : ℕ) : ℤ :=
  match s.installed[i]? with
  | some e => if s.taken e = none then (s.q.heap e).size L else 0
  | none => 0

/-- The sizes of all entries removed and not subtracted yet. -/
def outstanding : ℤ := ∑ i ∈ Finset.range s.removers.length, s.pendingSize L i

/-- When a trim removes an entry, the counter exceeds the limit even without the entries that have
been removed and not subtracted yet. -/
def removesExcess (a : QueueAction) : Bool :=
  (s.stepping a).all fun c =>
    match c.pc with
    | .trimCas e _ => s.q.oldest ≠ some e || L.maxsize < s.q.size - s.outstanding L
    | _ => true

/-- The total `Size()` of message `i` and of all messages after it. -/
def suffixSize (i : ℕ) : ℤ := ∑ j ∈ Finset.Ico i s.appenders.length, s.msgSize L j

/-- Every removed message exceeds the limit together with those after it. -/
def RemovedExcess : Prop := ∀ i < s.removers.length, L.maxsize < s.suffixSize L i

end Defs

/-- What has been added for a removed entry is covered by what has been subtracted or is
outstanding. -/
theorem credit_sub_debit_le (hex : s.Exact L) (hs : s.Shape) (hi : i < s.removers.length) :
    s.credit L i - s.debit i ≤ s.pendingSize L i := by
  have hlen := hs.removed
  have he : s.IsEntry i s.installed[i] := List.getElem?_eq_getElem (by omega)
  rw [debit, pendingSize, he]
  show s.credit L i - (s.taken s.installed[i]).getD 0 ≤
    if s.taken s.installed[i] = none then (s.q.heap s.installed[i]).size L else 0
  -- the credit is that of a stored message
  have hcredit : ∀ m, (s.q.heap s.installed[i]).msg = some m → s.credit L i ≤ L.sizeOf m.length := by
    intro m hm
    refine Int.le_trans (credit_le s L i) ?_
    cases ho : s.owner i with
    | none =>
      rw [msgSize, ho]
      exact Int.le_of_lt (sizeOf_pos L _)
    | some c =>
      obtain ⟨t, ht, hc⟩ := Option.bind_eq_some_iff.mp ho
      have hmsg := hs.msg i t c _ ht hc he
      rw [hm] at hmsg
      split at hmsg
      · rw [msgSize_of_owner ho, Option.some.inj hmsg]
      · cases hmsg
  cases ht : s.taken s.installed[i] with
  | none =>
    rw [if_pos rfl]
    show s.credit L i - 0 ≤ _
    rw [Int.sub_zero]
    cases hm : (s.q.heap s.installed[i]).msg with
    | some m =>
      rw [QueueEntry.size, hm]
      exact hcredit m hm
    | none =>
      -- the owner has not got to the addition
      have hzero : s.credit L i = 0 := by
        cases ho : s.owner i with
        | none => rw [credit, ho]; rfl
        | some c =>
          obtain ⟨t, ht, hc⟩ := Option.bind_eq_some_iff.mp ho
          have hmsg := hs.msg i t c _ ht hc he
          rw [hm] at hmsg
          rw [credit_of_owner ho, if_neg]
          intro h4
          rw [if_pos (by omega)] at hmsg
          cases hmsg
      rw [hzero, QueueEntry.size]
      exact Int.le_of_lt (sizeOf_pos L _)
  | some n =>
    obtain ⟨m, hm, rfl⟩ := hex.taken _ n ht
    have := hcredit m hm
    rw [if_neg (by simp)]
    show s.credit L i - L.sizeOf m.length ≤ 0
    omega

/-- The counter without what is outstanding is at most the total from the head on. -/
theorem size_sub_outstanding_le (hex : s.Exact L) (hs : s.Shape) (hl : s.Ledger L)
    (hle : s.removers.length ≤ s.appenders.length) :
    s.q.size - s.outstanding L ≤ s.suffixSize L s.removers.length := by
  have h1 : ∑ i ∈ Finset.range s.removers.length, (s.credit L i - s.debit i) ≤ s.outstanding L :=
    Finset.sum_le_sum fun i hi => credit_sub_debit_le hex hs (Finset.mem_range.mp hi)
  have h2 : ∑ i ∈ Finset.Ico s.removers.length s.appenders.length, s.credit L i ≤
      s.suffixSize L s.removers.length := Finset.sum_le_sum fun i _ => credit_le s L i
  have h3 := hl.size_eq hs hle
  omega

theorem msgSize_eq (hs : s.Shape) (hg : Grows s s') (hi : i < s.appenders.length) :
    s'.msgSize L i = s.msgSize L i := by
  obtain ⟨t, c, ho, hc, -⟩ := hs.exists_owner hi
  obtain ⟨c', hc', hmsg, -, -⟩ := hg.calls t c hc
  rw [msgSize_of_owner (owner_eq (getElem?_mono hg.appenders ho) hc'),
    msgSize_of_owner (owner_eq ho hc), hmsg]

/-- More messages after it, more in total. -/
theorem suffixSize_le (hs : s.Shape) (hg : Grows s s') (i : ℕ) :
    s.suffixSize L i ≤ s'.suffixSize L i := by
  have hsame : s.suffixSize L i = ∑ j ∈ Finset.Ico i s.appenders.length, s'.msgSize L j := by
    refine Finset.sum_congr rfl fun j hj => ?_
    exact (msgSize_eq hs hg (Finset.mem_Ico.mp hj).2).symm
  rw [hsame]
  refine Finset.sum_le_sum_of_subset_of_nonneg ?_ fun j _ _ => msgSize_nonneg s' L j
  exact Finset.Ico_subset_Ico_right hg.appenders.length_le

/-- **Step lemma**: a trim that removes an excess. -/
theorem RemovedExcess.step (h : s.RemovedExcess L) (hs : s.Shape) (hl : s.Ledger L)
    (hex : s.Exact L) {a : QueueAction} (hok : s.removesExcess L a = true)
    (hstep : QueueStep L s a s') : s'.RemovedExcess L := by
  have hg := hs.grows hstep
  have hold : ∀ i < s.removers.length, L.maxsize < s'.suffixSize L i :=
    fun i hi => Int.lt_of_lt_of_le (h i hi) (suffixSize_le hs hg i)
  cases hstep with
  | @trimCas t c e new hc hpc hhead =>
    intro i hi
    have hi : i < (s.removers ++ [t]).length := hi
    rw [List.length_append, List.length_singleton] at hi
    rcases Nat.lt_or_eq_of_le (Nat.le_of_lt_succ hi) with hi | rfl
    · exact hold i hi
    · have hle : s.removers.length ≤ s.appenders.length := by
        have hlt := (List.getElem?_eq_some_iff.mp (hs.oldest e hhead)).1
        have hlen := hs.length
        omega
      have hexcess : L.maxsize < s.q.size - s.outstanding L := by
        simpa [removesExcess, stepping, hc, hpc, hhead] using hok
      refine Int.lt_of_lt_of_le hexcess ?_
      exact Int.le_trans (size_sub_outstanding_le hex hs hl hle) (suffixSize_le hs hg _)
  | _ => exact hold

/-- The condition under which trims remove no more than they should: they load the `next` of linked
entries, read the size of filled ones, and remove only what exceeds the limit. -/
def trimsInTurn (L : Limits) (s : QueueState) (a : QueueAction) : Bool :=
  s.loadsLinked a && s.readsFilled a && s.removesExcess L a

theorem removedExcess_of_reaches
    (h : (queueRun L).Reaches (fun s a => s.trimsInTurn L a = true) s) : s.RemovedExcess L := by
  refine h.invariant_of (I := fun s => s.RemovedExcess L)
    (J := fun s => s.Shape ∧ s.Ledger L ∧ s.Exact L) (fun _ hr => ⟨shape_of_reaches hr,
      ledger_of_reaches hr, exact_of_reaches hr fun s a ha => ?_⟩) ?_ ?_
  · simp only [trimsInTurn, Bool.and_eq_true] at ha
    exact ha.1.2
  · exact fun i hi => absurd hi (Nat.not_lt_zero i)
  · rintro s a s' ⟨hs, hl, hex⟩ - hI ha hn
    simp only [trimsInTurn, Bool.and_eq_true] at ha
    exact hI.step hs hl hex ha.2 (queueStep_of_next hn).2

/-- **No history is discarded that fits**: a message that is not on the chain exceeds the limit
together with the messages after it. -/
theorem discarded_exceeds_limit
    (h : (queueRun L).Reaches (fun s a => s.trimsInTurn L a = true) s) (hq : s.Quiescent)
    (he : s.IsEntry i e) (hi : i < s.appenders.length) (hgone : e ∉ s.q.chain) :
    L.maxsize < s.suffixSize L i := by
  have hs := shape_of_reaches h
  refine removedExcess_of_reaches h i ?_
  -- what has not been removed is on the chain
  by_contra hle
  have hnn := noNil_of_reaches (h.mono fun s a ha => by
    simp only [trimsInTurn, Bool.and_eq_true] at ha
    exact ha.1.1)
  obtain ⟨a, hold⟩ := Option.ne_none_iff_exists'.mp hnn.oldest
  exact hgone (hs.mem_chain (allLinked_of_quiescent hs hq) hold (by omega) he (by omega) hi)

/-- Two overlapping calls; the trim of one removes the first message, and both messages together
exceed the limit. -/
theorem discarded_exceeds_limit_of_two_appends :
    ∃ s, (queueRun (backlogOf 49)).Reaches (fun s a => s.trimsInTurn (backlogOf 49) a = true) s ∧
      s.q.chain = [2] ∧ (backlogOf 49).maxsize < s.suffixSize (backlogOf 49) 0 := by
  obtain ⟨s, h, hc⟩ := Machine.exists_of_runIf (queueRun (backlogOf 49))
    (fun s a => s.trimsInTurn (backlogOf 49) a) init
    (appendSteps 0 [7] ++ appendSteps 1 [8] ++ List.replicate 3 (.call 0) ++
      List.replicate 8 (.call 1) ++ [.call 0])
    (fun s => s.quiescentCheck && s.q.chain = [2] && s.installed[0]? = some 1 &&
      s.appenders.length = 2) (by decide)
  simp only [Bool.and_eq_true, decide_eq_true_eq] at hc
  obtain ⟨⟨⟨hq, hchain⟩, he⟩, hlen⟩ := hc
  refine ⟨s, h, hchain, ?_⟩
  refine discarded_exceeds_limit h (quiescent_of_check (shape_of_reaches h) hq) he ?_ ?_
  · rw [hlen]
    exact Nat.zero_lt_two
  · rw [hchain]
    simp

/-- **The stale counter**: call 0 has removed the first message and not subtracted it yet; call 1
still reads the full counter and removes the second one, which would have fitted. -/
theorem fitting_history_discarded : ¬ ∀ (L : Limits) (s : QueueState) (i : ℕ) (e : Addr),
    (queueRun L).Reachable s → s.Quiescent → s.IsEntry i e → i < s.appenders.length →
    e ∉ s.q.chain → L.maxsize < s.suffixSize L i := by
  intro hall
  obtain ⟨s, h, hc⟩ := Machine.exists_of_run (queueRun (backlogOf 49)) init
    (appendSteps 0 [7] ++ appendSteps 1 [8] ++ List.replicate 4 (.call 0) ++
      List.replicate 8 (.call 1) ++ List.replicate 4 (.call 0))
    (fun s => s.quiescentCheck && s.q.chain = [] && s.installed[1]? = some 2 &&
      s.appenders.length = 2 && s.suffixSize (backlogOf 49) 1 = 49) (by decide)
  simp only [Bool.and_eq_true, decide_eq_true_eq] at hc
  obtain ⟨⟨⟨⟨hq, hchain⟩, he⟩, hlen⟩, hsuffix⟩ := hc
  have hlt := hall (backlogOf 49) s 1 2 h (quiescent_of_check (shape_of_reaches h) hq) he
    (by omega) (by rw [hchain]; simp)
  rw [hsuffix] at hlt
  exact absurd hlt (by decide)

end QueueState

end WebsocketHub
