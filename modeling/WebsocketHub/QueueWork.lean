import WebsocketHub.QueueDelivery
import WebsocketHub.Termination
import Mathlib.Tactic.Ring

/-!
# WebsocketHub.QueueWork — how much work the appends are together

An `Append` never waits, but its loop may go round again and again: a CAS on `q.newest` fails when another
call has come first, and a trim removes entries as long as there are too many bytes.  A failed CAS is paid
for by the call that has come first, and a removal by the call that installed the entry: `potential` counts
what is left to pay, and every step of a call lowers it.  So all calls together come to their end, under
every interleaving, after a number of steps that is at most quadratic in the number of calls.
-/

namespace WebsocketHub

/-- What a call still has to pay while `n` calls have not performed their CAS on `q.newest`.  A successful
CAS on `q.oldest` costs 7 more, and a successful CAS on `q.newest` brings these 7. -/
def Pc.weight (n : ℕ) (newest : Ptr) : Pc → ℕ
  | .loadNewest => 2 * n + 15
  | .casNewest old => if newest = old then 2 * n + 14 else 2 * n + 16
  | .storeNext _ => 8
  | .storeMsg _ => 7
  | .addSize _ => 6
  | .validDone _ => 5
  | .trimTest => 4
  | .trimLoadOldest => 3
  | .trimLoadNext _ => 2
  | .trimCas _ _ => 1
  | .trimSize _ => 7
  | .trimSub _ _ => 6
  | .trimStale _ => 5
  | .returned => 0

/-- The calls that have begun and the steps that they have taken. -/
structure Work where
  begun : Finset Tid
  steps : ℕ

def Work.record (_ : QueueState) (a : QueueAction) (w : Work) : Work :=
  match a with
  | .append t _ => { w with begun := insert t w.begun }
  | .call _ => { w with steps := w.steps + 1 }
  | _ => w

def workRun (L : Limits) : Machine (QueueState × Work) QueueAction :=
  (queueRun L).logged Work.record ⟨∅, 0⟩

/-- The steps that `n` calls may take together. -/
def workBound (n : ℕ) : ℕ := 2 * n * n + 15 * n + 8

namespace QueueState

section Defs

variable (s : QueueState) (S : Finset Tid)

/-- Call `t` has not performed its CAS on `q.newest`. -/
def waits (t : Tid) : Bool := (s.calls t).any fun c => c.pc.stage = 0

def waiting : ℕ := (S.filter fun t => s.waits t = true).card

def weightOf (n : ℕ) (t : Tid) : ℕ := ((s.calls t).map fun c => c.pc.weight n s.q.newest).getD 0

/-- The entries that may still be removed. -/
def removable : ℕ := s.installed.length - s.removers.length

/-- The entries that there will be if no more calls begin. -/
def ahead : ℕ := s.installed.length + s.waiting S

def potential : ℕ :=
  (if s.panic = none then 1 else 0) + 7 * s.removable + ∑ t ∈ S, s.weightOf (s.waiting S) t

end Defs

variable {s s' : QueueState} {S : Finset Tid} {L : Limits} {t u : Tid} {c d : Call} {n : ℕ}

theorem weightOf_eq (hc : s.calls t = some c) : s.weightOf n t = c.pc.weight n s.q.newest := by
  unfold weightOf
  rw [hc]
  rfl

theorem waits_eq (hc : s.calls t = some c) : s.waits t = true ↔ c.pc.stage = 0 := by
  unfold waits
  rw [hc]
  simp

theorem waiting_le (s : QueueState) (S : Finset Tid) : s.waiting S ≤ S.card :=
  Finset.card_le_card (Finset.filter_subset _ _)

/-- A call that moves past no CAS on `q.newest` leaves those that wait for theirs. -/
theorem waiting_call (hc : s.calls t = some c)
    (hcalls : ∀ u, s'.calls u = if u = t then some d else s.calls u)
    (hstage : d.pc.stage = 0 ↔ c.pc.stage = 0) : s'.waiting S = s.waiting S := by
  have hself : s'.calls t = some d := by rw [hcalls, if_pos rfl]
  unfold waiting
  congr 1
  refine Finset.filter_congr fun u _ => ?_
  by_cases hu : u = t
  · subst hu
    rw [waits_eq hself, waits_eq hc, hstage]
  · unfold waits
    rw [hcalls, if_neg hu]

theorem install_calls (t u : Tid) (c : Call) (old : Ptr) :
    (s.install t c old).calls u = if u = t then some (c.goto (.storeNext old)) else s.calls u := by
  show (s.setCall t _).calls u = _
  rw [setCall_calls]

/-- A successful CAS on `q.newest`: one call less that waits. -/
theorem waiting_install {old : Ptr} (hc : s.calls t = some c) (ht : t ∈ S) (hpc : c.pc = .casNewest old) :
    (s.install t c old).waiting S + 1 = s.waiting S := by
  have hself : (s.install t c old).calls t = some (c.goto (.storeNext old)) := by
    rw [install_calls, if_pos rfl]
  have hmem : t ∈ S.filter fun u => s.waits u = true := by
    rw [Finset.mem_filter]
    refine ⟨ht, (waits_eq hc).mpr ?_⟩
    rw [hpc]
    rfl
  unfold waiting
  rw [← Finset.card_erase_add_one hmem]
  congr 2
  ext u
  rw [Finset.mem_filter, Finset.mem_erase, Finset.mem_filter]
  by_cases hu : u = t
  · subst hu
    have hnot : ¬(s.install u c old).waits u = true := by
      rw [waits_eq hself]
      simp [Pc.stage]
    tauto
  · unfold waits
    rw [install_calls, if_neg hu]
    tauto

/-- One call moves, past no CAS on `q.newest`. -/
theorem potential_call (hc : s.calls t = some c) (ht : t ∈ S)
    (hcalls : ∀ u, s'.calls u = if u = t then some d else s.calls u)
    (hnewest : s'.q.newest = s.q.newest) (hpanic : s'.panic = s.panic)
    (hstage : d.pc.stage = 0 ↔ c.pc.stage = 0)
    (hpay : ∀ n, d.pc.weight n s.q.newest + 7 * s'.removable + 1 ≤
      c.pc.weight n s.q.newest + 7 * s.removable) :
    s'.potential S + 1 ≤ s.potential S := by
  have hself : s'.calls t = some d := by rw [hcalls, if_pos rfl]
  have hwaiting : s'.waiting S = s.waiting S := waiting_call hc hcalls hstage
  have hother : ∀ u ∈ S, u ≠ t → s'.weightOf (s.waiting S) u = s.weightOf (s.waiting S) u := by
    intro u _ hu
    unfold weightOf
    rw [hcalls, if_neg hu, hnewest]
  have hsum : ∑ u ∈ S.erase t, s'.weightOf (s.waiting S) u =
      ∑ u ∈ S.erase t, s.weightOf (s.waiting S) u :=
    Finset.sum_congr rfl fun u hu => hother u (Finset.mem_of_mem_erase hu) (Finset.ne_of_mem_erase hu)
  unfold potential
  rw [hwaiting, hpanic, ← Finset.add_sum_erase S _ ht, ← Finset.add_sum_erase S (s.weightOf _) ht, hsum,
    weightOf_eq hself, weightOf_eq hc, hnewest]
  have h := hpay (s.waiting S)
  omega

theorem removable_congr (hin : s'.installed = s.installed) (hrem : s'.removers = s.removers) :
    s'.removable = s.removable := by
  unfold removable
  rw [hin, hrem]

/-- A call that touches neither end of the queue. -/
theorem potential_goto {pc : Pc} (hc : s.calls t = some c) (ht : t ∈ S)
    (hcalls : s'.calls = (s.setCall t (c.goto pc)).calls) (hnewest : s'.q.newest = s.q.newest)
    (hpanic : s'.panic = s.panic) (hin : s'.installed = s.installed) (hrem : s'.removers = s.removers)
    (hstage : pc.stage = 0 ↔ c.pc.stage = 0)
    (hpay : ∀ n, pc.weight n s.q.newest + 1 ≤ c.pc.weight n s.q.newest) :
    s'.potential S + 1 ≤ s.potential S := by
  refine potential_call hc ht (d := c.goto pc) (fun u => ?_) hnewest hpanic hstage fun n => ?_
  · rw [hcalls, setCall_calls]
  · rw [removable_congr hin hrem]
    have h := hpay n
    simp only [Call.goto_pc]
    omega

theorem potential_moves {pc : Pc} (hc : s.calls t = some c) (ht : t ∈ S)
    (hl : LocalStep L s.q c.pc pc) : (s.setCall t (c.goto pc)).potential S + 1 ≤ s.potential S := by
  refine potential_goto hc ht rfl rfl rfl rfl rfl ?_ ?_
  · generalize c.pc = p at hl
    cases hl <;> simp [Pc.stage]
  · intro n
    generalize c.pc = p at hl
    cases hl with
    | casNewestFails h => simp only [Pc.weight, if_neg h]; omega
    | _ => simp [Pc.weight]

/-- A successful CAS on `q.newest`: the others may have to try again. -/
theorem potential_install {old : Ptr} (h : s.Shape) (hc : s.calls t = some c) (ht : t ∈ S)
    (hpc : c.pc = .casNewest old) (hold : s.q.newest = old) :
    (s.install t c old).potential S + 1 ≤ s.potential S := by
  have hself : (s.install t c old).calls t = some (c.goto (.storeNext old)) := by
    rw [install_calls, if_pos rfl]
  have hwaiting := waiting_install hc ht hpc
  have hsum : ∑ u ∈ S, (s.install t c old).weightOf ((s.install t c old).waiting S) u + 8 ≤
      ∑ u ∈ S, s.weightOf (s.waiting S) u := by
    refine sum_fall ht (fun u _ hu => ?_) ?_
    · unfold weightOf
      rw [install_calls, if_neg hu]
      cases s.calls u with
      | none => exact Nat.le_refl _
      | some d =>
        simp only [Option.map_some, Option.getD_some]
        cases d.pc with
        | loadNewest => simp only [Pc.weight]; omega
        | casNewest old' =>
          simp only [Pc.weight]
          split_ifs <;> omega
        | _ => exact Nat.le_refl _
    · rw [weightOf_eq hself, weightOf_eq hc, hpc]
      simp only [Call.goto_pc, Pc.weight, if_pos hold]
      omega
  have hremovable : (s.install t c old).removable = s.removable + 1 := by
    have hle := h.removed
    show (s.installed ++ [c.prepared]).length - s.removers.length = _
    rw [List.length_append, List.length_singleton]
    unfold removable
    omega
  unfold potential
  rw [hremovable, show (s.install t c old).panic = s.panic from rfl]
  omega

theorem begin_calls (t u : Tid) (m : Bytes) :
    (s.begin t m).calls u = if u = t then some ⟨m, s.q.fresh, .loadNewest⟩ else s.calls u := by
  show (s.setCall t _).calls u = _
  rw [setCall_calls]

/-- A call that begins: one more that waits for its CAS. -/
theorem waiting_begin {m : Bytes} (hS : t ∉ S) : (s.begin t m).waiting (insert t S) = s.waiting S + 1 := by
  have hself : (s.begin t m).calls t = some ⟨m, s.q.fresh, .loadNewest⟩ := by rw [begin_calls, if_pos rfl]
  have hfilter : S.filter (fun u => (s.begin t m).waits u = true) = S.filter fun u => s.waits u = true := by
    apply Finset.filter_congr
    intro u hu
    have hne : u ≠ t := fun heq => hS (heq ▸ hu)
    unfold waits
    rw [begin_calls, if_neg hne]
  unfold waiting
  rw [Finset.filter_insert, if_pos ((waits_eq hself).mpr rfl), hfilter, Finset.card_insert_of_notMem]
  exact fun hmem => hS (Finset.mem_of_mem_filter t hmem)

theorem ahead_begin {m : Bytes} (hS : t ∉ S) : (s.begin t m).ahead (insert t S) = s.ahead S + 1 := by
  have hwaiting : (s.begin t m).waiting (insert t S) = s.waiting S + 1 := waiting_begin hS
  unfold ahead
  rw [hwaiting, show (s.begin t m).installed = s.installed from rfl]
  rfl

/-- The calls that wait have one more to wait for. -/
theorem potential_begin {m : Bytes} (hS : t ∉ S) :
    (s.begin t m).potential (insert t S) ≤ s.potential S + 4 * S.card + 17 := by
  have hself : (s.begin t m).calls t = some ⟨m, s.q.fresh, .loadNewest⟩ := by rw [begin_calls, if_pos rfl]
  have hother : ∀ u ∈ S, (s.begin t m).calls u = s.calls u := by
    intro u hu
    have hne : u ≠ t := fun heq => hS (heq ▸ hu)
    rw [begin_calls, if_neg hne]
  have hwaiting : (s.begin t m).waiting (insert t S) = s.waiting S + 1 := waiting_begin hS
  have hle : ∑ u ∈ S, (s.begin t m).weightOf (s.waiting S + 1) u ≤
      ∑ u ∈ S, (s.weightOf (s.waiting S) u + 2) := by
    apply Finset.sum_le_sum
    intro u hu
    unfold weightOf
    rw [hother u hu]
    cases s.calls u with
    | none => exact Nat.zero_le _
    | some d =>
      show d.pc.weight _ s.q.newest ≤ d.pc.weight _ s.q.newest + 2
      cases d.pc with
      | loadNewest => simp only [Pc.weight]; omega
      | casNewest old =>
        simp only [Pc.weight]
        split_ifs <;> omega
      | _ => exact Nat.le_add_right _ _
  rw [Finset.sum_add_distrib, Finset.sum_const, Nat.nsmul_eq_mul] at hle
  unfold potential
  rw [hwaiting, Finset.sum_insert hS, weightOf_eq hself, show (s.begin t m).panic = s.panic from rfl,
    show (s.begin t m).removable = s.removable from rfl]
  have hcard := s.waiting_le S
  simp only [Pc.weight]
  omega

/-- Listeners cost nothing. -/
theorem potential_congr (hcalls : s'.calls = s.calls) (hnewest : s'.q.newest = s.q.newest)
    (hpanic : s'.panic = s.panic) (hin : s'.installed = s.installed) (hrem : s'.removers = s.removers) :
    s'.potential S = s.potential S := by
  have hweight : s'.weightOf = s.weightOf := by
    unfold weightOf
    rw [hcalls, hnewest]
  have hwaiting : s'.waiting S = s.waiting S := by
    unfold waiting waits
    rw [hcalls]
  unfold potential
  rw [hweight, hwaiting, hpanic, removable_congr hin hrem]

/-- A panic ends the run. -/
theorem potential_panic {p : Panic} (hp : s.panic = none) :
    { s with panic := some p }.potential S + 1 = s.potential S := by
  unfold potential
  rw [hp, if_pos rfl, if_neg (by simp)]
  show 0 + 7 * s.removable + ∑ u ∈ S, s.weightOf (s.waiting S) u + 1 = _
  omega

/-- **Step lemma**: a step of a call is paid for. -/
theorem potential_step {t : Tid} (h : s.Shape) (hp : s.panic = none) (ht : t ∈ S)
    (hs : QueueStep L s (.call t) s') : s'.potential S + 1 ≤ s.potential S := by
  cases hs with
  | moves hc hl => exact potential_moves hc ht hl
  | casNewest hc hpc hold => exact potential_install h hc ht hpc hold
  | storeNext hc hpc =>
    exact potential_goto hc ht rfl rfl rfl rfl rfl (by simp [hpc, Pc.stage]) (by simp [hpc, Pc.weight])
  | storeMsg hc hpc =>
    exact potential_goto hc ht rfl rfl rfl rfl rfl (by simp [hpc, Pc.stage]) (by simp [hpc, Pc.weight])
  | addSize hc hpc =>
    exact potential_goto hc ht rfl rfl rfl rfl rfl (by simp [hpc, Pc.stage]) (by simp [hpc, Pc.weight])
  | validDone hc hpc _ =>
    exact potential_goto hc ht rfl rfl rfl rfl rfl (by simp [hpc, Pc.stage]) (by simp [hpc, Pc.weight])
  | @trimCas _ c e new hc hpc hold =>
    refine potential_call (d := c.goto (.trimSize e)) hc ht (fun u => ?_) rfl rfl
      (by simp [hpc, Pc.stage]) fun n => ?_
    · show (s.setCall t _).calls u = _
      rw [setCall_calls]
    · -- an entry less can be removed
      have hlt := (List.getElem?_eq_some_iff.mp (h.oldest e hold)).1
      have hremovable : (s.remove t c e new).removable + 1 = s.removable := by
        show s.installed.length - (s.removers ++ [t]).length + 1 = _
        rw [List.length_append, List.length_singleton]
        unfold removable
        omega
      rw [hpc]
      simp only [Call.goto_pc, Pc.weight]
      omega
  | trimSub hc hpc =>
    exact potential_goto hc ht rfl rfl rfl rfl rfl (by simp [hpc, Pc.stage]) (by simp [hpc, Pc.weight])
  | trimStale hc hpc =>
    exact potential_goto hc ht rfl rfl rfl rfl rfl (by simp [hpc, Pc.stage]) (by simp [hpc, Pc.weight])
  | callPanics hc hx => exact (potential_panic hp).le

theorem ahead_call (hc : s.calls t = some c) (hcalls : ∀ u, s'.calls u = if u = t then some d else s.calls u)
    (hstage : d.pc.stage = 0 ↔ c.pc.stage = 0) (hin : s'.installed = s.installed) :
    s'.ahead S = s.ahead S := by
  unfold ahead
  rw [waiting_call hc hcalls hstage, hin]

/-- The steps of calls do not change how many entries there will be. -/
theorem ahead_step (ht : t ∈ S) (hs : QueueStep L s (.call t) s') : s'.ahead S = s.ahead S := by
  have hset : ∀ {c : Call} {pc : Pc} {s' : QueueState}, s.calls t = some c →
      s'.calls = (s.setCall t (c.goto pc)).calls → (pc.stage = 0 ↔ c.pc.stage = 0) →
      s'.installed = s.installed → s'.ahead S = s.ahead S := by
    intro c pc s' hc hcalls hstage hin
    exact ahead_call hc (fun u => by rw [hcalls, setCall_calls]) hstage hin
  cases hs with
  | @moves _ c pc hc hl =>
    refine hset hc rfl ?_ rfl
    generalize c.pc = p at hl
    cases hl <;> simp [Pc.stage]
  | @casNewest _ c old hc hpc hold =>
    have hwaiting := waiting_install hc ht hpc
    unfold ahead
    rw [show (s.install t c old).installed = s.installed ++ [c.prepared] from rfl, List.length_append,
      List.length_singleton]
    omega
  | storeNext hc hpc => exact hset hc rfl (by simp [hpc, Pc.stage]) rfl
  | storeMsg hc hpc => exact hset hc rfl (by simp [hpc, Pc.stage]) rfl
  | addSize hc hpc => exact hset hc rfl (by simp [hpc, Pc.stage]) rfl
  | validDone hc hpc _ => exact hset hc rfl (by simp [hpc, Pc.stage]) rfl
  | trimCas hc hpc _ => exact hset hc rfl (by simp [hpc, Pc.stage]) rfl
  | trimSub hc hpc => exact hset hc rfl (by simp [hpc, Pc.stage]) rfl
  | trimStale hc hpc => exact hset hc rfl (by simp [hpc, Pc.stage]) rfl
  | callPanics hc hx => rfl

/-! ## Runs -/

/-- The calls that have begun are known, and their steps are paid for. -/
structure Paid (s : QueueState) (w : Work) : Prop where
  begun : ∀ t, t ∈ w.begun ↔ s.calls t ≠ none
  paid : w.steps + s.potential w.begun ≤ workBound w.begun.card

theorem workBound_succ (n : ℕ) : workBound (n + 1) = workBound n + 4 * n + 17 := by
  unfold workBound
  ring

theorem paid_init : Paid init ⟨∅, 0⟩ where
  begun := fun t => by simp [init]
  paid := Nat.le_refl _

/-- A step that is no call of `Append` begins none. -/
theorem calls_of_step {a : QueueAction} (hs : QueueStep L s a s') (ha : ∀ t m, a ≠ .append t m) :
    ∀ u, s'.calls u ≠ none ↔ s.calls u ≠ none := by
  have hset : ∀ {t d c}, s.calls t = some c → ∀ u, (s.setCall t d).calls u ≠ none ↔ s.calls u ≠ none := by
    intro t d c hc u
    rw [setCall_calls]
    split_ifs with hu
    · subst hu
      simp [hc]
    · rfl
  intro u
  cases hs with
  | append ht => exact absurd rfl (ha _ _)
  | moves hc _ => exact hset hc u
  | casNewest hc _ _ => exact hset hc u
  | storeNext hc _ => exact hset hc u
  | storeMsg hc _ => exact hset hc u
  | addSize hc _ => exact hset hc u
  | validDone hc _ _ => exact hset hc u
  | trimCas hc _ _ => exact hset hc u
  | trimSub hc _ => exact hset hc u
  | trimStale hc _ => exact hset hc u
  | _ => rfl

/-- Nor does a step of a listener cost anything. -/
theorem potential_listeners {a : QueueAction} (hs : QueueStep L s a s') (ha : ∀ t m, a ≠ .append t m)
    (ha' : ∀ t, a ≠ .call t) (hp : s.panic = none) : s'.potential S ≤ s.potential S := by
  cases hs with
  | append ht => exact absurd rfl (ha _ _)
  | listen hl => exact (potential_congr rfl rfl rfl rfl rfl).le
  | listener hl hx => exact (potential_congr rfl rfl rfl rfl rfl).le
  | listenerPanics hl hx => exact Nat.le_of_succ_le (potential_panic hp).le
  | _ => exact absurd rfl (ha' _)

theorem begun_of_step (hs : QueueStep L s (.call t) s') : s.calls t ≠ none := by
  cases hs <;> exact Option.ne_none_iff_exists'.mpr ⟨_, ‹_›⟩

theorem Paid.step {w w' : Work} {a : QueueAction} (h : Paid s w) (hs : s.Shape)
    (hn : (workRun L).next (s, w) a = some (s', w')) : Paid s' w' := by
  obtain ⟨hn, hw⟩ := Machine.logged_cases hn
  obtain ⟨hp, hstep⟩ := queueStep_of_next hn
  simp only at hw hstep hp
  subst hw
  have hpaid := h.paid
  cases a with
  | append t m =>
    have ht : s.calls t = none ∧ s' = s.begin t m := by
      cases hstep with
      | append ht => exact ⟨ht, rfl⟩
    obtain ⟨ht, rfl⟩ := ht
    have hnew : t ∉ w.begun := fun hin => (h.begun t).mp hin ht
    constructor
    · intro u
      show u ∈ insert t w.begun ↔ (s.setCall t _).calls u ≠ none
      rw [Finset.mem_insert, setCall_calls, h.begun u]
      split_ifs with hu
      · simp [hu]
      · simp [hu]
    · have hbegin := potential_begin (s := s) (m := m) hnew
      show w.steps + (s.begin t m).potential (insert t w.begun) ≤ workBound (insert t w.begun).card
      rw [Finset.card_insert_of_notMem hnew, workBound_succ]
      omega
  | call t =>
    have hin : t ∈ w.begun := (h.begun t).mpr (begun_of_step hstep)
    have hfall := potential_step hs hp hin hstep
    refine ⟨fun u => (h.begun u).trans (calls_of_step hstep (by simp) u).symm, ?_⟩
    show w.steps + 1 + s'.potential w.begun ≤ workBound w.begun.card
    omega
  | listen l =>
    have hle := potential_listeners (S := w.begun) hstep (by simp) (by simp) hp
    refine ⟨fun u => (h.begun u).trans (calls_of_step hstep (by simp) u).symm, ?_⟩
    show w.steps + s'.potential w.begun ≤ workBound w.begun.card
    omega
  | listener l quit =>
    have hle := potential_listeners (S := w.begun) hstep (by simp) (by simp) hp
    refine ⟨fun u => (h.begun u).trans (calls_of_step hstep (by simp) u).symm, ?_⟩
    show w.steps + s'.potential w.begun ≤ workBound w.begun.card
    omega

theorem shape_of_work {r : QueueState × Work} (h : (workRun L).Reachable r) : r.1.Shape := by
  refine h.invariant (I := fun r => r.1.Shape) shape_init ?_
  intro r a r' hI _ hn
  exact hI.step (queueStep_of_next (Machine.logged_cases hn).1).2

theorem paid_of_reachable {r : QueueState × Work} (h : (workRun L).Reachable r) : Paid r.1 r.2 := by
  refine h.invariant_of (I := fun r => Paid r.1 r.2) (fun _ hr => shape_of_work hr) paid_init ?_
  rintro ⟨s, w⟩ a ⟨s', w'⟩ hs - hI - hn
  exact hI.step hs hn

/-- A call that has not returned can always take a step. -/
theorem queueNext_call_isSome (hp : s.panic = none) (hc : s.calls t = some c) (hret : c.pc ≠ .returned) :
    ∃ s', queueNext L s (.call t) = some s' := by
  have hstep : callStep L s.q c ≠ none := by
    unfold callStep
    cases hpc : c.pc with
    | returned => exact absurd hpc hret
    | storeNext e => cases e <;> simp
    | trimLoadNext e => cases e <;> simp
    | casNewest old => simp only; split <;> simp
    | trimCas e new => simp only; split <;> simp
    | validDone e => simp only; split_ifs <;> simp
    | trimTest => simp only; split_ifs <;> simp
    | _ => simp
  obtain ⟨r, hr⟩ := Option.ne_none_iff_exists'.mp hstep
  unfold queueNext queueAct
  rw [hp]
  simp only [hc, hr]
  cases r with
  | error p => exact ⟨_, rfl⟩
  | ok r => exact ⟨_, rfl⟩

/-- Calls that go on come to their end: induction on what is left to pay. -/
theorem completes_of_potential (n : ℕ) : ∀ {s : QueueState}, s.Shape →
    (∀ t, t ∈ S ↔ s.calls t ≠ none) → s.potential S ≤ n →
    ∃ s', (queueRun L).Path (fun _ a => ∃ t, a = .call t) s s' ∧ (s'.panic = none → s'.Quiescent) := by
  induction n with
  | zero =>
    intro s _ _ hle
    refine ⟨s, .refl, fun hp => ?_⟩
    unfold potential at hle
    rw [if_pos hp] at hle
    omega
  | succ n ih =>
    intro s hs hS hle
    by_cases hdone : s.panic = none → s.Quiescent
    · exact ⟨s, .refl, hdone⟩
    · obtain ⟨hp, hnot⟩ := Classical.not_imp.mp hdone
      unfold Quiescent at hnot
      push Not at hnot
      obtain ⟨t, c, hc, hret⟩ := hnot
      obtain ⟨s₁, hn⟩ := queueNext_call_isSome (L := L) hp hc hret
      have hstep := (queueStep_of_next hn).2
      have hin : t ∈ S := (hS t).mpr (by simp [hc])
      have hfall := potential_step hs hp hin hstep
      obtain ⟨s', hpath, hs'⟩ := ih (hs.step hstep)
        (fun u => (hS u).trans (calls_of_step hstep (by simp) u).symm) (by omega)
      exact ⟨s', Machine.Path.trans (.step .refl hn ⟨t, rfl⟩) hpath, hs'⟩

/-- The appends never wait and are done after finitely many steps, unless there is a panic: a trim that has
loaded a `next` before it was linked makes `q.oldest` nil. -/
structure LockFree (L : Limits) : Prop where
  enabled : ∀ s t c, (queueRun L).Reachable s → s.panic = none → s.calls t = some c →
    c.pc ≠ .returned → ∃ s', queueNext L s (.call t) = some s'
  bounded : ∀ s w, (workRun L).Reachable (s, w) →
    (∀ t, t ∈ w.begun ↔ s.calls t ≠ none) ∧ w.steps ≤ 2 * w.begun.card * w.begun.card + 15 * w.begun.card + 8
  completes : ∀ s, (queueRun L).Reachable s →
    ∃ s', (queueRun L).Path (fun _ a => ∃ t, a = .call t) s s' ∧
      (s'.Quiescent ∨ s'.panic = some .nilDeref)

/-- **Lock freedom**: under every interleaving, `n` calls of `Append` take no more than `2n² + 15n + 8`
steps together, trims and failed CASes included. -/
theorem append_lock_free (L : Limits) : LockFree L where
  enabled := fun s t c _ hp hc hret => queueNext_call_isSome hp hc hret
  bounded := by
    intro s w h
    obtain ⟨hbegun, hpaid⟩ := paid_of_reachable h
    exact ⟨hbegun, Nat.le_trans (Nat.le_add_right _ _) hpaid⟩
  completes := by
    intro s h
    have hrun : ∃ w, (workRun L).Reachable (s, w) := Machine.exists_logged h
    obtain ⟨w, hw⟩ := hrun
    obtain ⟨s', hpath, hs'⟩ :=
      completes_of_potential _ (shape_of_reaches h) (paid_of_reachable hw).begun (Nat.le_refl _)
    refine ⟨s', hpath, ?_⟩
    have hreach : (queueRun L).Reachable s' := h.path (hpath.mono fun _ _ _ => trivial)
    cases hp : s'.panic with
    | none => exact .inl (hs' hp)
    | some p => exact .inr (congrArg some (panic_of_reaches hreach hp))

end QueueState

end WebsocketHub
