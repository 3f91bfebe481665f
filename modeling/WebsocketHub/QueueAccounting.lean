import WebsocketHub.QueueChain
import Mathlib.Algebra.Order.BigOperators.Group.Finset

/-!
# WebsocketHub.QueueAccounting — what `q.size` counts

`Ledger` is the invariant of all runs: `q.size` is the sum of what the appenders have added so far,
less what the trims have subtracted so far.  A trim that reads `len(e.msg)` before the appender has
stored the message subtracts too little, so in general the counter is an upper bound only
(`chainSize_le`); it is exact as long as the trims read filled entries (`byte_accounting`).
-/

namespace WebsocketHub

/-- The removed entry whose size the call has still to subtract. -/
def Pc.pending : Pc → Option Addr
  | .trimSize e => some e
  | .trimSub e _ => some e
  | _ => none

namespace QueueState

section Defs

variable (s : QueueState) (L : Limits)

/-- The call that fills `e_i`. -/
def owner (i : ℕ) : Option Call := (s.appenders[i]?).bind s.calls

/-- `Size()` of `e_i` once its message is stored. -/
def msgSize (i : ℕ) : ℤ := (s.owner i).elim 0 fun c => L.sizeOf c.msg.length

/-- What has been added to `q.size` for `e_i`. -/
def credit (i : ℕ) : ℤ :=
  (s.owner i).elim 0 fun c => if 4 ≤ c.pc.stage then L.sizeOf c.msg.length else 0

/-- What has been subtracted from `q.size` for `e_i`. -/
def debit (i : ℕ) : ℤ := ((s.installed[i]?).bind s.taken).getD 0

structure Ledger : Prop where
  taken : ∀ e n, s.taken e = some n → ∃ i < s.removers.length, s.IsEntry i e
  pending : ∀ i t e, s.Removed t i → s.IsEntry i e →
    (s.taken e = none ↔ ∃ c, s.calls t = some c ∧ c.pc.pending = some e)
  taken_le : ∀ e n, s.taken e = some n → n ≤ (s.q.heap e).size L
  amount_le : ∀ t c e n, s.calls t = some c → c.pc = .trimSub e n → n ≤ (s.q.heap e).size L
  balance : s.q.size = ∑ i ∈ Finset.range s.installed.length, (s.credit L i - s.debit i)

end Defs

variable {s s' : QueueState} {t : Tid} {c : Call} {L : Limits} {i : ℕ} {e : Addr}

/-- A sum that changes at one place. -/
theorem sum_change {ι : Type*} [DecidableEq ι] {u : Finset ι} {f g : ι → ℤ} {a : ι} (ha : a ∈ u)
    (h : ∀ b ∈ u, b ≠ a → g b = f b) : ∑ i ∈ u, g i = ∑ i ∈ u, f i + (g a - f a) := by
  have hrest : ∑ b ∈ u.erase a, g b = ∑ b ∈ u.erase a, f b :=
    Finset.sum_congr rfl fun b hb => h b (Finset.mem_of_mem_erase hb) (Finset.ne_of_mem_erase hb)
  rw [← Finset.add_sum_erase u g ha, ← Finset.add_sum_erase u f ha, hrest]
  omega

theorem sizeOf_pos (L : Limits) (n : ℕ) : 0 < L.sizeOf n := by
  have := L.overhead_pos
  unfold Limits.sizeOf
  omega

theorem overhead_le_size (L : Limits) (x : QueueEntry) : L.sizeOf 0 ≤ x.size L := by
  unfold QueueEntry.size Limits.sizeOf
  omega

/-- Storing the message makes an entry larger. -/
theorem Grows.size_le (hg : Grows s s') (he : e ∈ s.installed) :
    (s.q.heap e).size L ≤ (s'.q.heap e).size L := by
  cases hm : (s.q.heap e).msg with
  | none =>
    have h0 : (s.q.heap e).size L = L.sizeOf 0 := by rw [QueueEntry.size, hm]; rfl
    rw [h0]
    exact overhead_le_size L _
  | some m =>
    have hm' := hg.msg e he m hm
    rw [QueueEntry.size, QueueEntry.size, hm, hm']

theorem owner_eq (ho : s.Owns t i) (hc : s.calls t = some c) : s.owner i = some c := by
  rw [owner, ho]
  exact hc

theorem owner_eq_none (hi : s.appenders.length ≤ i) : s.owner i = none := by
  rw [owner, List.getElem?_eq_none hi]
  rfl

theorem credit_of_owner (ho : s.owner i = some c) :
    s.credit L i = if 4 ≤ c.pc.stage then L.sizeOf c.msg.length else 0 := by
  rw [credit, ho]
  rfl

theorem msgSize_of_owner (ho : s.owner i = some c) : s.msgSize L i = L.sizeOf c.msg.length := by
  rw [msgSize, ho]
  rfl

theorem credit_eq_zero (hi : s.appenders.length ≤ i) : s.credit L i = 0 := by
  rw [credit, owner_eq_none hi]
  rfl

/-- The credit of an entry depends on the stage of its owner only. -/
theorem credit_congr {d : Call} (hap : s'.appenders = s.appenders)
    (hcalls : s'.calls = (s.setCall t d).calls) (hc : s.calls t = some c) (hmsg : d.msg = c.msg)
    (hst : 4 ≤ d.pc.stage ↔ 4 ≤ c.pc.stage) (i : ℕ) : s'.credit L i = s.credit L i := by
  cases ho : s.appenders[i]? with
  | none =>
    rw [credit_eq_zero (List.getElem?_eq_none_iff.mp ho),
      credit_eq_zero (List.getElem?_eq_none_iff.mp (hap ▸ ho))]
  | some u =>
    have ho' : s'.Owns u i := by rw [Owns, hap]; exact ho
    by_cases hut : u = t
    · subst hut
      have hd : s'.calls u = some d := by rw [hcalls, setCall_calls, if_pos rfl]
      rw [credit_of_owner (owner_eq ho' hd), credit_of_owner (owner_eq ho hc), hmsg]
      simp only [hst]
    · have hu : s'.calls u = s.calls u := by rw [hcalls, setCall_calls, if_neg hut]
      rw [credit, credit, owner, owner, hap, ho]
      simp only [Option.bind_some, hu]

theorem debit_congr (hin : s'.installed = s.installed) (htaken : s'.taken = s.taken) (i : ℕ) :
    s'.debit i = s.debit i := by
  rw [debit, debit, hin, htaken]

theorem ledger_init : init.Ledger L where
  taken := by simp [init]
  pending := by simp [init, Removed]
  taken_le := by simp [init]
  amount_le := by simp [init]
  balance := by simp [init, newQueue, credit, owner, debit]

/-- Who has the size of `a` in hand, when one call moves. -/
theorem pending_calls {d : Call} {a : Addr} (hc : s.calls t = some c)
    (hcalls : ∀ u, s'.calls u = if u = t then some d else s.calls u)
    (hp : d.pc.pending = some a ↔ c.pc.pending = some a) (u : Tid) :
    (∃ x, s'.calls u = some x ∧ x.pc.pending = some a) ↔
      ∃ x, s.calls u = some x ∧ x.pc.pending = some a := by
  rw [hcalls]
  by_cases hut : u = t
  · subst hut
    rw [if_pos rfl, hc]
    constructor
    · rintro ⟨_, ⟨⟩, hx⟩
      exact ⟨c, rfl, hp.mp hx⟩
    · rintro ⟨_, ⟨⟩, hx⟩
      exact ⟨d, rfl, hp.mpr hx⟩
  · rw [if_neg hut]

/-- The amounts in hand, when a call moves that is not about to subtract. -/
theorem Ledger.amount_calls {d : Call} (h : s.Ledger L)
    (hcalls : ∀ u, s'.calls u = if u = t then some d else s.calls u)
    (hd : ∀ e n, d.pc ≠ .trimSub e n) (hheap : s'.q.heap = s.q.heap) :
    ∀ u x e n, s'.calls u = some x → x.pc = .trimSub e n → n ≤ (s'.q.heap e).size L := by
  intro u x e n hu hx
  rw [hcalls] at hu
  rw [hheap]
  split at hu
  · obtain rfl := Option.some.inj hu
    exact absurd hx (hd e n)
  · exact h.amount_le u x e n hu hx

/-- A step of a call that neither adds nor subtracts nor installs nor removes. -/
theorem Ledger.keep {d : Call} (h : s.Ledger L) (hs : s.Shape) (hg : Grows s s')
    (hc : s.calls t = some c) (hcalls : s'.calls = (s.setCall t d).calls) (hmsg : d.msg = c.msg)
    (hst : 4 ≤ d.pc.stage ↔ 4 ≤ c.pc.stage) (hpend : d.pc.pending = c.pc.pending)
    (hsize : s'.q.size = s.q.size) (hin : s'.installed = s.installed)
    (hap : s'.appenders = s.appenders) (hrem : s'.removers = s.removers)
    (htaken : s'.taken = s.taken)
    (hamount : ∀ e n, d.pc = .trimSub e n → n ≤ (s'.q.heap e).size L) : s'.Ledger L where
  taken := by
    intro e n he
    rw [htaken] at he
    obtain ⟨i, hi, hie⟩ := h.taken e n he
    exact ⟨i, hrem ▸ hi, by rw [IsEntry, hin]; exact hie⟩
  pending := by
    intro i u e hr he
    rw [Removed, hrem] at hr
    rw [IsEntry, hin] at he
    have hcalls' : ∀ v, s'.calls v = if v = t then some d else s.calls v := by
      intro v
      rw [hcalls, setCall_calls]
    rw [htaken, h.pending i u e hr he, pending_calls hc hcalls' (by rw [hpend])]
  taken_le := by
    intro e n he
    rw [htaken] at he
    obtain ⟨i, -, hie⟩ := h.taken e n he
    exact Int.le_trans (h.taken_le e n he) (hg.size_le (List.mem_of_getElem? hie))
  amount_le := by
    intro u x e n hu hpc
    rw [hcalls, setCall_calls] at hu
    split at hu
    · cases hu
      exact hamount e n hpc
    · obtain ⟨i, -, hie⟩ : s.PcFacts u (.trimSub e n) := hpc ▸ hs.pcFacts u x hu
      exact Int.le_trans (h.amount_le u x e n hu hpc) (hg.size_le (List.mem_of_getElem? hie))
  balance := by
    rw [hsize, h.balance, hin]
    refine Finset.sum_congr rfl fun i _ => ?_
    rw [credit_congr hap hcalls hc hmsg hst, debit_congr hin htaken]

theorem Ledger.begin {m : Bytes} (h : s.Ledger L) (hs : s.Shape) (hg : Grows s (s.begin t m))
    (ht : s.calls t = none) : (s.begin t m).Ledger L where
  taken := h.taken
  pending := by
    intro i u e hr he
    rw [show (s.begin t m).calls = (setCall s t ⟨m, s.q.fresh, .loadNewest⟩).calls from rfl,
      setCall_calls]
    by_cases hut : u = t
    · subst hut
      have hold := h.pending i u e hr he
      rw [if_pos rfl]
      constructor
      · intro hnone
        obtain ⟨c, hc, -⟩ := hold.mp hnone
        rw [ht] at hc
        cases hc
      · rintro ⟨_, ⟨⟩, hp⟩
        cases hp
    · rw [if_neg hut]
      exact h.pending i u e hr he
  taken_le := by
    intro e n he
    obtain ⟨i, -, hie⟩ := h.taken e n he
    exact Int.le_trans (h.taken_le e n he) (hg.size_le (List.mem_of_getElem? hie))
  amount_le := by
    intro u x e n hu hpc
    rw [show (s.begin t m).calls = (setCall s t ⟨m, s.q.fresh, .loadNewest⟩).calls from rfl,
      setCall_calls] at hu
    split at hu
    · cases hu
      cases hpc
    · obtain ⟨i, -, hie⟩ : s.PcFacts u (.trimSub e n) := hpc ▸ hs.pcFacts u x hu
      exact Int.le_trans (h.amount_le u x e n hu hpc) (hg.size_le (List.mem_of_getElem? hie))
  balance := by
    show s.q.size = _
    rw [h.balance]
    refine Finset.sum_congr rfl fun i _ => ?_
    have howner : (s.begin t m).owner i = s.owner i := by
      rw [owner, owner]
      cases ho : s.appenders[i]? with
      | none => rw [show (s.begin t m).appenders = s.appenders from rfl, ho]; rfl
      | some u =>
        have hut : u ≠ t := by
          rintro rfl
          exact hs.not_begun ht (List.mem_of_getElem? ho)
        rw [show (s.begin t m).appenders = s.appenders from rfl, ho]
        show (setCall s t _).calls u = s.calls u
        rw [setCall_calls, if_neg hut]
    show s.credit L i - s.debit i = (s.begin t m).credit L i - (s.begin t m).debit i
    rw [credit, credit, howner]
    rfl

/-- A new entry has neither credit nor debit. -/
theorem Ledger.install {old : Ptr} (h : s.Ledger L) (hs : s.Shape) (hg : Grows s (s.install t c old))
    (hc : s.calls t = some c) (hpc : c.pc = .casNewest old) : (s.install t c old).Ledger L := by
  have hst : c.pc.stage = 0 := by rw [hpc]; rfl
  obtain ⟨hnew, hprep⟩ := hs.not_started hc hst
  have hcalls : ∀ u, (s.install t c old).calls u =
    if u = t then some (c.goto (.storeNext old)) else s.calls u := fun u => setCall_calls _ _ _ u
  have hlen := hs.length
  have hold : ∀ {i e}, i < s.removers.length → (s.install t c old).IsEntry i e → s.IsEntry i e := by
    intro i e hi he
    rcases getElem?_concat he with he | ⟨rfl, -⟩
    · exact he
    · exact absurd (Nat.lt_of_lt_of_le hi hs.removed) (Nat.lt_irrefl _)
  refine ⟨?_, ?_, ?_, ?_, ?_⟩
  · intro e n he
    obtain ⟨i, hi, hie⟩ := h.taken e n he
    exact ⟨i, hi, isEntry_mono hg.installed hie⟩
  · intro i u e hr he
    have hie := hold (List.getElem?_eq_some_iff.mp hr).1 he
    rw [pending_calls hc hcalls (by simp [hpc, Pc.pending])]
    exact h.pending i u e hr hie
  · exact h.taken_le
  · exact h.amount_calls hcalls (by simp) rfl
  · have hcredit : ∀ i, (s.install t c old).credit L i = s.credit L i := by
      intro i
      rcases Nat.lt_trichotomy i s.appenders.length with hi | rfl | hi
      · -- the owners of the older entries are other calls
        have ho : s.Owns s.appenders[i] i := List.getElem?_eq_getElem hi
        have hne : s.appenders[i] ≠ t := fun heq => hnew (heq ▸ List.getElem_mem hi)
        obtain ⟨u, d, hou, hd, -⟩ := hs.exists_owner hi
        obtain rfl := Option.some.inj (ho.symm.trans hou)
        have hd' : (s.install t c old).calls s.appenders[i] = some d := by
          rw [hcalls, if_neg hne]
          exact hd
        rw [credit_of_owner (owner_eq (getElem?_mono hg.appenders ho) hd'),
          credit_of_owner (owner_eq ho hd)]
      · have ho : (s.install t c old).Owns t s.appenders.length := List.getElem?_concat_length
        have hd' : (s.install t c old).calls t = some (c.goto (.storeNext old)) := by
          rw [hcalls, if_pos rfl]
        rw [credit_of_owner (owner_eq ho hd'), credit_eq_zero (Nat.le_refl _)]
        rfl
      · rw [credit_eq_zero (Nat.le_of_lt hi), credit_eq_zero]
        show (s.appenders ++ [t]).length ≤ i
        rw [List.length_append]
        exact hi
    have hdebit : ∀ i < s.installed.length, (s.install t c old).debit i = s.debit i := by
      intro i hi
      have hie : s.IsEntry i s.installed[i] := List.getElem?_eq_getElem hi
      rw [debit, debit, hie, isEntry_mono hg.installed hie]
      rfl
    have hdebit' : (s.install t c old).debit s.installed.length = 0 := by
      have hie : (s.install t c old).IsEntry s.installed.length c.prepared :=
        List.getElem?_concat_length
      have hnone : s.taken c.prepared = none := by
        by_contra hne
        obtain ⟨n, hn⟩ := Option.ne_none_iff_exists'.mp hne
        obtain ⟨i, -, he⟩ := h.taken _ n hn
        exact hprep (List.mem_of_getElem? he)
      rw [debit, hie]
      show (s.taken c.prepared).getD 0 = 0
      rw [hnone]
      rfl
    show s.q.size = ∑ i ∈ Finset.range (s.installed ++ [c.prepared]).length, _
    rw [List.length_append, List.length_singleton, Finset.sum_range_succ, hdebit', hcredit,
      credit_eq_zero (Nat.le_of_lt (by omega)), h.balance, Int.sub_zero, Int.add_zero]
    refine Finset.sum_congr rfl fun i hi => ?_
    rw [hcredit, hdebit i (Finset.mem_range.mp hi)]

/-- The addition for `e_i` is the size of the message its owner has stored. -/
theorem Ledger.account (h : s.Ledger L) (hs : s.Shape) (hc : s.calls t = some c)
    (hpc : c.pc = .addSize e) : (s.account t c e ((s.q.heap e).size L)).Ledger L := by
  obtain ⟨i, ho, he⟩ : s.PcFacts t (.addSize e) := hpc ▸ hs.pcFacts t c hc
  have hst : c.pc.stage = 3 := by rw [hpc]; rfl
  have hsize : (s.q.heap e).size L = L.sizeOf c.msg.length := by
    rw [QueueEntry.size, hs.msg i t c e ho hc he, if_pos (by omega)]
    rfl
  have hcalls : ∀ u, (s.account t c e ((s.q.heap e).size L)).calls u =
    if u = t then some (c.goto (.validDone e)) else s.calls u := fun u => setCall_calls _ _ _ u
  refine ⟨h.taken, ?_, h.taken_le, ?_, ?_⟩
  · intro j u a hr ha
    rw [pending_calls hc hcalls (by simp [hpc, Pc.pending])]
    exact h.pending j u a hr ha
  · exact h.amount_calls hcalls (by simp) rfl
  · have hmem : i ∈ Finset.range s.installed.length :=
      Finset.mem_range.mpr (List.getElem?_eq_some_iff.mp he).1
    have ht' : (s.account t c e ((s.q.heap e).size L)).calls t = some (c.goto (.validDone e)) := by
      rw [hcalls, if_pos rfl]
    have hi : s.credit L i = 0 := by
      rw [credit_of_owner (owner_eq ho hc), if_neg (by omega)]
    have hi' : (s.account t c e ((s.q.heap e).size L)).credit L i = L.sizeOf c.msg.length :=
      credit_of_owner (owner_eq (s := s.account t c e ((s.q.heap e).size L)) ho ht')
    have hother : ∀ j ∈ Finset.range s.installed.length, j ≠ i →
        (s.account t c e ((s.q.heap e).size L)).credit L j = s.credit L j := by
      intro j _ hji
      cases hoj : s.appenders[j]? with
      | none =>
        have hlen := List.getElem?_eq_none_iff.mp hoj
        rw [credit_eq_zero hlen, credit_eq_zero (s := s.account t c e ((s.q.heap e).size L)) hlen]
      | some u =>
        have hut : u ≠ t := fun heq => hji (hs.owns_inj (heq ▸ hoj) ho)
        have hu : (s.account t c e ((s.q.heap e).size L)).calls u = s.calls u := by
          rw [hcalls, if_neg hut]
        rw [credit, credit, owner, owner,
          show (s.account t c e ((s.q.heap e).size L)).appenders = s.appenders from rfl, hoj]
        simp only [Option.bind_some, hu]
    have hsum : ∑ j ∈ Finset.range s.installed.length,
        ((s.account t c e ((s.q.heap e).size L)).credit L j - s.debit j) =
        ∑ j ∈ Finset.range s.installed.length, (s.credit L j - s.debit j) +
          ((s.account t c e ((s.q.heap e).size L)).credit L i - s.debit i -
            (s.credit L i - s.debit i)) := by
      refine sum_change hmem fun j hj hji => ?_
      rw [hother j hj hji]
    have hbal := h.balance
    show s.q.size + (s.q.heap e).size L = ∑ j ∈ Finset.range s.installed.length,
      ((s.account t c e ((s.q.heap e).size L)).credit L j - s.debit j)
    omega

/-- A removal leaves the counter alone; the call has the entry's size in hand. -/
theorem Ledger.remove {new : Ptr} (h : s.Ledger L) (hs : s.Shape) (hc : s.calls t = some c)
    (hpc : c.pc = .trimCas e new) (hold : s.q.oldest = some e) : (s.remove t c e new).Ledger L := by
  have hhead := hs.oldest e hold
  have hcalls : ∀ u, (s.remove t c e new).calls u =
    if u = t then some (c.goto (.trimSize e)) else s.calls u := fun u => setCall_calls _ _ _ u
  refine ⟨?_, ?_, h.taken_le, ?_, ?_⟩
  · intro a n ha
    obtain ⟨i, hi, hia⟩ := h.taken a n ha
    refine ⟨i, ?_, hia⟩
    show i < (s.removers ++ [t]).length
    rw [List.length_append]
    exact Nat.lt_succ_of_lt hi
  · intro j u a hr ha
    rcases getElem?_concat hr with hr | ⟨rfl, rfl⟩
    · -- an entry removed before
      have hne : e ≠ a := by
        rintro rfl
        exact absurd (hs.entry_inj ha hhead) (Nat.ne_of_lt (List.getElem?_eq_some_iff.mp hr).1)
      rw [pending_calls hc hcalls (by simp [hpc, Pc.pending, hne])]
      exact h.pending j u a hr ha
    · -- the head
      obtain rfl : e = a := Option.some.inj (hhead.symm.trans ha)
      rw [hcalls, if_pos rfl]
      show s.taken e = none ↔ _
      refine ⟨fun _ => ⟨_, rfl, rfl⟩, fun _ => ?_⟩
      by_contra hne
      obtain ⟨n, hn⟩ := Option.ne_none_iff_exists'.mp hne
      obtain ⟨i, hi, he⟩ := h.taken e n hn
      exact absurd (hs.entry_inj he hhead) (Nat.ne_of_lt hi)
  · exact h.amount_calls hcalls (by simp) rfl
  · show s.q.size = _
    rw [h.balance]
    refine Finset.sum_congr rfl fun i _ => ?_
    have hcredit : (s.remove t c e new).credit L i = s.credit L i := by
      have hcalls' : (s.remove t c e new).calls = (s.setCall t (c.goto (.trimSize e))).calls := rfl
      have hap : (s.remove t c e new).appenders = s.appenders := rfl
      refine credit_congr hap hcalls' hc rfl ?_ i
      rw [hpc]
      exact Iff.rfl
    rw [hcredit]
    rfl

/-- The subtraction for `e_i` happens once. -/
theorem Ledger.subtract {n : ℤ} (h : s.Ledger L) (hs : s.Shape) (hc : s.calls t = some c)
    (hpc : c.pc = .trimSub e n) : (s.subtract t c e n).Ledger L := by
  obtain ⟨i, hr, he⟩ : s.PcFacts t (.trimSub e n) := hpc ▸ hs.pcFacts t c hc
  have hnone : s.taken e = none := (h.pending i t e hr he).mpr ⟨c, hc, by rw [hpc]; rfl⟩
  have hcalls : ∀ u, (s.subtract t c e n).calls u =
    if u = t then some (c.goto (.trimStale e)) else s.calls u := fun u => setCall_calls _ _ _ u
  have htaken : ∀ a, (s.subtract t c e n).taken a = if a = e then some n else s.taken a :=
    fun a => Function.update_apply s.taken e (some n) a
  refine ⟨?_, ?_, ?_, ?_, ?_⟩
  · intro a k ha
    rw [htaken] at ha
    split at ha
    · subst a
      exact ⟨i, (List.getElem?_eq_some_iff.mp hr).1, he⟩
    · exact h.taken a k ha
  · intro j u a hrj ha
    by_cases hae : a = e
    · subst hae
      obtain rfl := hs.entry_inj he ha
      obtain rfl : u = t := Option.some.inj (hrj.symm.trans hr)
      rw [hcalls, htaken, if_pos rfl, if_pos rfl]
      constructor
      · rintro ⟨⟩
      · rintro ⟨_, ⟨⟩, hp⟩
        cases hp
    · rw [htaken, if_neg hae, pending_calls hc hcalls (by simp [hpc, Pc.pending, Ne.symm hae])]
      exact h.pending j u a hrj ha
  · intro a k ha
    rw [htaken] at ha
    split at ha
    · subst a
      cases ha
      exact h.amount_le t c e n hc hpc
    · exact h.taken_le a k ha
  · exact h.amount_calls hcalls (by simp) rfl
  · have hmem : i ∈ Finset.range s.installed.length :=
      Finset.mem_range.mpr (List.getElem?_eq_some_iff.mp he).1
    have hcredit : ∀ j, (s.subtract t c e n).credit L j = s.credit L j := by
      refine credit_congr (t := t) (d := c.goto (.trimStale e)) rfl rfl hc rfl ?_
      rw [hpc]
      exact Iff.rfl
    have hi : s.debit i = 0 := by
      rw [debit, he]
      show (s.taken e).getD 0 = 0
      rw [hnone]
      rfl
    have hi' : (s.subtract t c e n).debit i = n := by
      rw [debit, show (s.subtract t c e n).installed = s.installed from rfl, he]
      show ((s.subtract t c e n).taken e).getD 0 = n
      rw [htaken, if_pos rfl]
      rfl
    have hother : ∀ j ∈ Finset.range s.installed.length, j ≠ i →
        (s.subtract t c e n).debit j = s.debit j := by
      intro j hj hji
      have hlt := Finset.mem_range.mp hj
      have hej : s.IsEntry j s.installed[j] := List.getElem?_eq_getElem hlt
      have hne : s.installed[j] ≠ e := fun heq => hji (hs.entry_inj (heq ▸ hej) he)
      rw [debit, debit, show (s.subtract t c e n).installed = s.installed from rfl, hej]
      show ((s.subtract t c e n).taken s.installed[j]).getD 0 = (s.taken s.installed[j]).getD 0
      rw [htaken, if_neg hne]
    have hsum : ∑ j ∈ Finset.range s.installed.length,
        ((s.subtract t c e n).credit L j - (s.subtract t c e n).debit j) =
        ∑ j ∈ Finset.range s.installed.length, (s.credit L j - s.debit j) +
          ((s.subtract t c e n).credit L i - (s.subtract t c e n).debit i -
            (s.credit L i - s.debit i)) := by
      refine sum_change hmem fun j hj hji => ?_
      rw [hcredit, hother j hj hji]
    have hbal := h.balance
    have hci := hcredit i
    show s.q.size - n = ∑ j ∈ Finset.range s.installed.length,
      ((s.subtract t c e n).credit L j - (s.subtract t c e n).debit j)
    omega

/-- **Step lemma** of the ledger. -/
theorem Ledger.step (h : s.Ledger L) (hs : s.Shape) {a : QueueAction} (hstep : QueueStep L s a s') :
    s'.Ledger L := by
  have hg := hs.grows hstep
  cases hstep with
  | append ht => exact h.begin hs hg ht
  | @moves t c pc hc hl =>
    have hpc := hl
    generalize hp : c.pc = p at hl
    refine h.keep (d := c.goto pc) hs hg hc rfl rfl ?_ ?_ rfl rfl rfl rfl rfl ?_
    · rw [Call.goto_pc, hp]
      cases hl <;> exact Iff.rfl
    · rw [Call.goto_pc, hp]
      cases hl <;> rfl
    · -- the amount a trim is about to subtract is the size it reads
      intro e n he
      rw [Call.goto_pc] at he
      cases hl <;> cases he
      exact Int.le_refl _
  | casNewest hc hpc => exact h.install hs hg hc hpc
  | @storeNext t c e hc hpc =>
    refine h.keep (d := c.goto (.storeMsg e)) hs hg hc rfl rfl ?_ ?_ rfl rfl rfl rfl rfl ?_ <;>
      simp [hpc, Pc.stage, Pc.pending]
  | @storeMsg t c e hc hpc =>
    refine h.keep (d := c.goto (.addSize e)) hs hg hc rfl rfl ?_ ?_ rfl rfl rfl rfl rfl ?_ <;>
      simp [hpc, Pc.stage, Pc.pending]
  | addSize hc hpc => exact h.account hs hc hpc
  | @validDone t c e hc hpc =>
    refine h.keep (d := c.goto .trimTest) hs hg hc rfl rfl ?_ ?_ rfl rfl rfl rfl rfl ?_ <;>
      simp [hpc, Pc.stage, Pc.pending]
  | trimCas hc hpc hold => exact h.remove hs hc hpc hold
  | trimSub hc hpc => exact h.subtract hs hc hpc
  | @trimStale t c e hc hpc =>
    refine h.keep (d := c.goto .trimTest) hs hg hc rfl rfl ?_ ?_ rfl rfl rfl rfl rfl ?_ <;>
      simp [hpc, Pc.stage, Pc.pending]
  | listen => exact { h with }
  | listener => exact { h with }
  | callPanics => exact { h with }
  | listenerPanics => exact { h with }

theorem ledger_of_reaches {ok : QueueState → QueueAction → Prop} (h : (queueRun L).Reaches ok s) :
    s.Ledger L := by
  refine h.invariant_of (I := fun s => s.Ledger L) (fun _ => shape_of_reaches) ledger_init ?_
  intro s a s' hs _ hI _ hn
  exact hI.step hs (queueStep_of_next hn).2

/-! ## The counter between two removals -/

theorem debit_eq_zero (h : s.Ledger L) (hs : s.Shape) (hi : s.removers.length ≤ i) :
    s.debit i = 0 := by
  rw [debit]
  cases he : s.installed[i]? with
  | none => rfl
  | some e =>
    have hnone : s.taken e = none := by
      by_contra hne
      obtain ⟨n, hn⟩ := Option.ne_none_iff_exists'.mp hne
      obtain ⟨j, hj, hje⟩ := h.taken e n hn
      obtain rfl := hs.entry_inj hje he
      omega
    show (s.taken e).getD 0 = 0
    rw [hnone]
    rfl

/-- The counter, split at the head of the queue. -/
theorem Ledger.size_eq (h : s.Ledger L) (hs : s.Shape)
    (hle : s.removers.length ≤ s.appenders.length) :
    s.q.size = ∑ i ∈ Finset.range s.removers.length, (s.credit L i - s.debit i) +
      ∑ i ∈ Finset.Ico s.removers.length s.appenders.length, s.credit L i := by
  have hlast : s.credit L s.appenders.length - s.debit s.appenders.length = 0 := by
    rw [credit_eq_zero (Nat.le_refl _), debit_eq_zero h hs hle]
    rfl
  have hrest : ∑ i ∈ Finset.Ico s.removers.length s.appenders.length, (s.credit L i - s.debit i) =
      ∑ i ∈ Finset.Ico s.removers.length s.appenders.length, s.credit L i := by
    refine Finset.sum_congr rfl fun i hi => ?_
    rw [debit_eq_zero h hs (Finset.mem_Ico.mp hi).1, Int.sub_zero]
  rw [h.balance, hs.length, Finset.sum_range_succ, hlast, Int.add_zero,
    ← Finset.sum_range_add_sum_Ico _ hle, hrest]

theorem msgSize_nonneg (s : QueueState) (L : Limits) (i : ℕ) : 0 ≤ s.msgSize L i := by
  rw [msgSize]
  cases s.owner i with
  | none => exact Int.le_refl _
  | some c => exact Int.le_of_lt (sizeOf_pos L _)

theorem credit_le (s : QueueState) (L : Limits) (i : ℕ) : s.credit L i ≤ s.msgSize L i := by
  rw [credit, msgSize]
  cases s.owner i with
  | none => exact Int.le_refl _
  | some c =>
    show (if 4 ≤ c.pc.stage then L.sizeOf c.msg.length else 0) ≤ L.sizeOf c.msg.length
    split
    · exact Int.le_refl _
    · exact Int.le_of_lt (sizeOf_pos L _)

/-! ## Quiescent states -/

/-- In a quiescent state every entry but the placeholder is filled. -/
theorem owner_of_quiescent (hs : s.Shape) (hq : s.Quiescent) (hi : i < s.appenders.length) :
    ∃ t c, s.Owns t i ∧ s.calls t = some c ∧ c.pc.stage = 5 := by
  obtain ⟨t, c, ho, hc, -⟩ := hs.exists_owner hi
  exact ⟨t, c, ho, hc, by rw [hq t c hc]; rfl⟩

theorem allLinked_of_quiescent (hs : s.Shape) (hq : s.Quiescent) : s.AllLinked := by
  intro i e _ hi he
  obtain ⟨t, c, ho, hc, hst⟩ := owner_of_quiescent hs hq hi
  exact hs.linked i t c e ho hc he (by omega)

theorem credit_of_quiescent (hs : s.Shape) (hq : s.Quiescent) (i : ℕ) :
    s.credit L i = s.msgSize L i := by
  rcases Nat.lt_or_ge i s.appenders.length with hi | hi
  · obtain ⟨t, c, ho, hc, hst⟩ := owner_of_quiescent hs hq hi
    rw [credit_of_owner (owner_eq ho hc), msgSize_of_owner (owner_eq ho hc), if_pos (by omega)]
  · rw [credit_eq_zero hi, msgSize, owner_eq_none hi]
    rfl

theorem size_of_quiescent (hs : s.Shape) (hq : s.Quiescent) (hi : i < s.appenders.length)
    (he : s.IsEntry i e) : (s.q.heap e).size L = s.msgSize L i := by
  obtain ⟨t, c, ho, hc, hst⟩ := owner_of_quiescent hs hq hi
  rw [QueueEntry.size, hs.msg i t c e ho hc he, if_pos (by omega), msgSize_of_owner (owner_eq ho hc)]
  rfl

/-- Every removal of a quiescent state has been paid for. -/
theorem taken_of_quiescent (h : s.Ledger L) (hq : s.Quiescent) (hr : s.Removed t i)
    (he : s.IsEntry i e) : ∃ n, s.taken e = some n := by
  refine Option.ne_none_iff_exists'.mp fun hnone => ?_
  obtain ⟨c, hc, hp⟩ := (h.pending i t e hr he).mp hnone
  rw [hq t c hc] at hp
  cases hp

/-- The total of the chain, by position. -/
theorem chainSize_of_quiescent (hs : s.Shape) (hq : s.Quiescent) (hold : s.q.oldest = some e) :
    s.q.chainSize L = ∑ j ∈ Finset.Ico s.removers.length s.appenders.length, s.msgSize L j := by
  have hlen := hs.length
  have hle : s.removers.length ≤ s.appenders.length := by
    have := (List.getElem?_eq_some_iff.mp (hs.oldest e hold)).1
    omega
  rw [MessageQueue.chainSize, hs.chain_eq (allLinked_of_quiescent hs hq) hold hle]
  have hsum := sum_map_eq_sum_Ico (f := fun e => (s.q.heap e).size L) (g := s.msgSize L)
    ((s.installed.drop s.removers.length).take (s.appenders.length - s.removers.length))
    s.removers.length ?_
  · rw [hsum, List.length_take, List.length_drop, Nat.min_eq_left (by omega),
      Nat.add_sub_cancel' hle]
  · intro j a ha
    have hj : j < s.appenders.length - s.removers.length := by
      have := (List.getElem?_eq_some_iff.mp ha).1
      rw [List.length_take] at this
      omega
    rw [List.getElem?_take_of_lt hj, List.getElem?_drop] at ha
    exact size_of_quiescent hs hq (by omega) ha

/-- What has been subtracted is at most what the entries hold. -/
theorem debit_le_of_quiescent (h : s.Ledger L) (hs : s.Shape) (hq : s.Quiescent)
    (hi : i < s.appenders.length) : s.debit i ≤ s.msgSize L i := by
  have hlen := hs.length
  have he : s.IsEntry i s.installed[i] := List.getElem?_eq_getElem (by omega)
  rw [debit, he]
  show (s.taken s.installed[i]).getD 0 ≤ s.msgSize L i
  cases ht : s.taken s.installed[i] with
  | none => exact msgSize_nonneg s L i
  | some n => exact Int.le_trans (h.taken_le _ n ht) (Int.le_of_eq (size_of_quiescent hs hq hi he))

/-- **The counter never underestimates** what is retained. -/
theorem chainSize_le (h : s.Ledger L) (hs : s.Shape) (hq : s.Quiescent)
    (hold : s.q.oldest = some e) : s.q.chainSize L ≤ s.q.size := by
  have hlen := hs.length
  have hle : s.removers.length ≤ s.appenders.length := by
    have := (List.getElem?_eq_some_iff.mp (hs.oldest e hold)).1
    omega
  have hpaid : 0 ≤ ∑ i ∈ Finset.range s.removers.length, (s.credit L i - s.debit i) := by
    refine Finset.sum_nonneg fun i hi => ?_
    have hdebit := debit_le_of_quiescent h hs hq
      (Nat.lt_of_lt_of_le (Finset.mem_range.mp hi) hle)
    rw [credit_of_quiescent hs hq]
    omega
  have hrest : ∑ i ∈ Finset.Ico s.removers.length s.appenders.length, s.credit L i =
      ∑ i ∈ Finset.Ico s.removers.length s.appenders.length, s.msgSize L i :=
    Finset.sum_congr rfl fun i _ => credit_of_quiescent hs hq i
  rw [chainSize_of_quiescent hs hq hold, h.size_eq hs hle, hrest]
  omega

end QueueState

end WebsocketHub
