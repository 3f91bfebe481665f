import WebsocketHub.QueueAccounting

/-!
# WebsocketHub.QueueBytes — when the byte counter is exact

`readsFilled` is the step condition under which the size a trim subtracts is the size the appender
adds: the trim reads `len(e.msg)` after the message has been stored.  `Exact` is the invariant of the
runs that meet it.  Together with `loadsLinked` it makes the counter exact in every quiescent state.
-/

namespace WebsocketHub

namespace QueueState

section Defs

variable (s : QueueState) (L : Limits)

/-- The owner of `e` has stored `e.msg`. -/
def filled (e : Addr) : Bool := (s.ownerCall e).any fun c => 3 ≤ c.pc.stage

/-- A trim reads the size of an entry whose message its owner has stored. -/
def readsFilled (a : QueueAction) : Bool :=
  (s.stepping a).all fun c =>
    match c.pc with
    | .trimSize e => s.filled e
    | _ => true

/-- `n` is the size of the message stored in `e`. -/
def SizeIs (e : Addr) (n : ℤ) : Prop := ∃ m, (s.q.heap e).msg = some m ∧ n = L.sizeOf m.length

/-- What is subtracted, or about to be, is the size of a stored message. -/
structure Exact : Prop where
  taken : ∀ e n, s.taken e = some n → s.SizeIs L e n
  amount : ∀ t c e n, s.calls t = some c → c.pc = .trimSub e n → s.SizeIs L e n

/-- Every call of `Append` that was begun has returned, as an executable check. -/
def quiescentCheck : Bool :=
  s.installed.length + 1 = s.q.fresh &&
    s.appenders.all fun t => (s.calls t).any fun c => c.pc = .returned

end Defs

variable {s s' : QueueState} {t : Tid} {c : Call} {L : Limits} {i : ℕ} {e : Addr}

theorem SizeIs.mono {n : ℤ} (h : s.SizeIs L e n) (hg : Grows s s') (he : e ∈ s.installed) :
    s'.SizeIs L e n := by
  obtain ⟨m, hm, hn⟩ := h
  exact ⟨m, hg.msg e he m hm, hn⟩

theorem exact_init : init.Exact L where
  taken := by simp [init]
  amount := by simp [init]

/-- The size a trim reads under `readsFilled`. -/
theorem Shape.sizeIs_of_readsFilled (h : s.Shape) (hok : s.readsFilled (.call t) = true)
    (hc : s.calls t = some c) (hpc : c.pc = .trimSize e) : s.SizeIs L e ((s.q.heap e).size L) := by
  obtain ⟨i, -, he⟩ : s.PcFacts t (.trimSize e) := hpc ▸ h.pcFacts t c hc
  have hfilled : s.filled e = true := by simpa [readsFilled, stepping, hc, hpc] using hok
  obtain ⟨u, d, ho, hd, hst⟩ := h.owner_of_stage he hfilled
  have hm := h.msg i u d e ho hd he
  rw [if_pos hst] at hm
  refine ⟨d.msg, hm, ?_⟩
  rw [QueueEntry.size, hm]
  rfl

/-- **Step lemma** of `Exact`. -/
theorem Exact.step (h : s.Exact L) (hs : s.Shape) (hl : s.Ledger L) {a : QueueAction}
    (hok : s.readsFilled a = true) (hstep : QueueStep L s a s') : s'.Exact L := by
  have hg := hs.grows hstep
  have htaken : ∀ e n, s.taken e = some n → s'.SizeIs L e n := by
    intro e n he
    obtain ⟨i, -, hie⟩ := hl.taken e n he
    exact (h.taken e n he).mono hg (List.mem_of_getElem? hie)
  have hamount : ∀ u x e n, s.calls u = some x → x.pc = .trimSub e n → s'.SizeIs L e n := by
    intro u x e n hu hx
    obtain ⟨i, -, hie⟩ : s.PcFacts u (.trimSub e n) := hx ▸ hs.pcFacts u x hu
    exact (h.amount u x e n hu hx).mono hg (List.mem_of_getElem? hie)
  -- a call that has moved, but not to a subtraction
  have hmoved : ∀ {t d}, (∀ e n, d.pc = .trimSub e n → s'.SizeIs L e n) →
      ∀ u x e n, (s.setCall t d).calls u = some x → x.pc = .trimSub e n → s'.SizeIs L e n := by
    intro t d hd u x e n hu hx
    rw [setCall_calls] at hu
    split at hu
    · cases hu
      exact hd e n hx
    · exact hamount u x e n hu hx
  cases hstep with
  | append ht => exact ⟨htaken, hmoved (d := ⟨_, _, .loadNewest⟩) (by simp)⟩
  | @moves t c pc hc hm =>
    refine ⟨htaken, hmoved fun e n he => ?_⟩
    rw [Call.goto_pc] at he
    generalize hp : c.pc = p at hm
    cases hm with
    | trimSize =>
      cases he
      exact hs.sizeIs_of_readsFilled hok hc hp
    | _ => cases he
  | casNewest hc hpc => exact ⟨htaken, hmoved (d := Call.goto _ _) (by simp)⟩
  | storeNext hc hpc => exact ⟨htaken, hmoved (d := Call.goto _ _) (by simp)⟩
  | storeMsg hc hpc => exact ⟨htaken, hmoved (d := Call.goto _ _) (by simp)⟩
  | addSize hc hpc => exact ⟨htaken, hmoved (d := Call.goto _ _) (by simp)⟩
  | validDone hc hpc => exact ⟨htaken, hmoved (d := Call.goto _ _) (by simp)⟩
  | trimCas hc hpc => exact ⟨htaken, hmoved (d := Call.goto _ _) (by simp)⟩
  | @trimSub t c a k hc hpc =>
    refine ⟨fun e n he => ?_, hmoved (d := c.goto (.trimStale a)) (by simp)⟩
    have he' : (if e = a then some k else s.taken e) = some n :=
      (Function.update_apply s.taken a (some k) e).symm.trans he
    split at he'
    · subst e
      cases he'
      exact hamount t c a k hc hpc
    · exact htaken e n he'
  | trimStale hc hpc => exact ⟨htaken, hmoved (d := Call.goto _ _) (by simp)⟩
  | listen hl => exact { h with }
  | listener hl hx => exact { h with }
  | callPanics hc hx => exact { h with }
  | listenerPanics hl hx => exact { h with }

theorem exact_of_reaches {ok : QueueState → QueueAction → Prop} (h : (queueRun L).Reaches ok s)
    (hok : ∀ s a, ok s a → s.readsFilled a = true) : s.Exact L := by
  refine h.invariant_of (I := fun s => s.Exact L) (J := fun s => s.Shape ∧ s.Ledger L)
    (fun _ hr => ⟨shape_of_reaches hr, ledger_of_reaches hr⟩) exact_init ?_
  rintro s a s' ⟨hs, hl⟩ - hI ha hn
  exact hI.step hs hl (hok s a ha) (queueStep_of_next hn).2

/-- What has been subtracted for a removed entry is the size of its message. -/
theorem debit_of_quiescent (h : s.Exact L) (hs : s.Shape) (hl : s.Ledger L) (hq : s.Quiescent)
    (hi : i < s.appenders.length) (hr : i < s.removers.length) : s.debit i = s.msgSize L i := by
  have hlen := hs.length
  have he : s.IsEntry i s.installed[i] := List.getElem?_eq_getElem (by omega)
  obtain ⟨n, hn⟩ := taken_of_quiescent hl hq (List.getElem?_eq_getElem hr) he
  obtain ⟨m, hm, rfl⟩ := h.taken _ n hn
  rw [← size_of_quiescent hs hq hi he, QueueEntry.size, hm, debit, he]
  show (s.taken s.installed[i]).getD 0 = _
  rw [hn]
  rfl

/-- **Exact byte accounting** in the runs whose trims load the `next` of linked entries and read the
size of filled ones. -/
theorem byte_accounting
    (h : (queueRun L).Reaches (fun s a => (s.loadsLinked a && s.readsFilled a) = true) s)
    (hq : s.Quiescent) : s.q.size = s.q.chainSize L := by
  have hs := shape_of_reaches h
  have hl := ledger_of_reaches h
  have hex : s.Exact L := exact_of_reaches h fun _ _ ha => (Bool.and_eq_true_iff.mp ha).2
  have hnn := noNil_of_reaches (h.mono fun _ _ ha => (Bool.and_eq_true_iff.mp ha).1)
  obtain ⟨e, hold⟩ := Option.ne_none_iff_exists'.mp hnn.oldest
  have hle : s.removers.length ≤ s.appenders.length := by
    have hlt := (List.getElem?_eq_some_iff.mp (hs.oldest e hold)).1
    have hlen := hs.length
    omega
  -- removed entries have been added and subtracted, the others only added
  have hpaid : ∑ i ∈ Finset.range s.removers.length, (s.credit L i - s.debit i) = 0 := by
    refine Finset.sum_eq_zero fun i hi => ?_
    have hi' := Finset.mem_range.mp hi
    rw [credit_of_quiescent hs hq, debit_of_quiescent hex hs hl hq (by omega) hi', Int.sub_self]
  have hrest : ∑ i ∈ Finset.Ico s.removers.length s.appenders.length, s.credit L i =
      ∑ i ∈ Finset.Ico s.removers.length s.appenders.length, s.msgSize L i :=
    Finset.sum_congr rfl fun i _ => credit_of_quiescent hs hq i
  rw [hl.size_eq hs hle, hpaid, hrest, Int.zero_add, chainSize_of_quiescent hs hq hold]

/-- Calls are counted by the containers they have allocated. -/
theorem quiescent_of_check (hs : s.Shape) (h : s.quiescentCheck = true) : s.Quiescent := by
  intro t c hc
  obtain ⟨hlen, hall⟩ := Bool.and_eq_true_iff.mp h
  have hlen : s.installed.length + 1 = s.q.fresh := of_decide_eq_true hlen
  -- the entries are all the addresses below `fresh` but `staleEntry`
  have hsub : s.installed.toFinset ⊆ Finset.Ico 1 s.q.fresh := by
    intro a ha
    obtain ⟨h1, h2⟩ := hs.alive a (List.mem_toFinset.mp ha)
    exact Finset.mem_Ico.mpr ⟨Nat.pos_of_ne_zero h1, h2⟩
  have heq : s.installed.toFinset = Finset.Ico 1 s.q.fresh := by
    refine Finset.eq_of_subset_of_card_le hsub ?_
    rw [List.toFinset_card_of_nodup hs.nodup, Nat.card_Ico]
    omega
  have hmem : c.prepared ∈ s.installed := by
    obtain ⟨h1, h2⟩ := hs.prepared_alive t c hc
    rw [← List.mem_toFinset, heq]
    exact Finset.mem_Ico.mpr ⟨Nat.pos_of_ne_zero h1, h2⟩
  have ht : t ∈ s.appenders :=
    (hs.started t).mpr ⟨c, hc, (hs.prepared_installed t c hc).mp hmem⟩
  have hret := List.all_eq_true.mp hall t ht
  rw [hc] at hret
  exact of_decide_eq_true hret

/-- Call 1 overtakes call 0 after its message is stored, and removes both messages. -/
theorem byte_accounting_of_overtaken_append :
    ∃ s, (queueRun (backlogOf 0)).Reaches (fun s a => (s.loadsLinked a && s.readsFilled a) = true) s ∧
      s.removers = [1, 0] ∧ s.q.size = s.q.chainSize (backlogOf 0) := by
  obtain ⟨s, h, hc⟩ := Machine.exists_of_runIf (queueRun (backlogOf 0))
    (fun s a => s.loadsLinked a && s.readsFilled a) init
    (.append 0 [7] :: List.replicate 4 (.call 0) ++ appendSteps 1 [8] ++ List.replicate 8 (.call 1) ++
      List.replicate 10 (.call 0))
    (fun s => s.quiescentCheck && s.removers = [1, 0]) (by decide)
  obtain ⟨hq, hrem⟩ := Bool.and_eq_true_iff.mp hc
  exact ⟨s, h, of_decide_eq_true hrem, byte_accounting h (quiescent_of_check (shape_of_reaches h) hq)⟩

/-- **The drift**: call 1 removes the entry of call 0 before its message is stored and subtracts the
size of an empty message; one byte stays on the counter of an empty queue. -/
theorem byte_drift : ¬ ∀ (L : Limits) (s : QueueState), (queueRun L).Reachable s → s.Quiescent →
    s.q.size = s.q.chainSize L := by
  intro hall
  obtain ⟨s, h, hc⟩ := Machine.exists_of_run (queueRun (backlogOf 48)) init
    (.append 0 [7] :: List.replicate 3 (.call 0) ++ appendSteps 1 [8] ++ List.replicate 8 (.call 1) ++
      List.replicate 11 (.call 0))
    (fun s => s.quiescentCheck && s.q.chain = [] && s.q.size = 1) (by decide)
  simp only [Bool.and_eq_true, decide_eq_true_eq] at hc
  obtain ⟨⟨hq, hchain⟩, hsize⟩ := hc
  have heq := hall (backlogOf 48) s h (quiescent_of_check (shape_of_reaches h) hq)
  rw [MessageQueue.chainSize, hchain, hsize, List.map_nil, List.sum_nil] at heq
  cases heq

end QueueState

end WebsocketHub
