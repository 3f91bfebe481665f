import WebsocketHub.QueueSequential
import Mathlib.Algebra.Order.GroupWithZero.Basic
import Mathlib.Algebra.Order.Ring.Int

/-!
# WebsocketHub.QueueGrowth — a backlog that outgrows every bound

A trim that loses its CAS on `q.oldest` returns and leaves the rest to the call that has won.  That call
removes one entry at a time, and each removal may make two other calls give up that have added an entry
each.  So the backlog gets longer by one entry in every round (`crowded_succ`), although there are never
more than three calls at work, and the limit is not restored before they are all done.
-/

namespace WebsocketHub

open QueueState

section Defs

/-- Only the calls of `S` are at work. -/
def InFlight (S : Finset Tid) (s : QueueState) : Prop :=
  ∀ t c, s.calls t = some c → c.pc ≠ .returned → t ∈ S

/-- No more than `n` calls are at work. -/
def AtMost (n : ℕ) (s : QueueState) : Prop := ∃ S : Finset Tid, S.card ≤ n ∧ InFlight S s

variable (L : Limits)

/-- Some steps of one call. -/
def advance : ℕ → MessageQueue → Call → Option (MessageQueue × Call)
  | 0, q, c => some (q, c)
  | n + 1, q, c =>
    match callStep L q c with
    | some (.ok (q', c')) => advance n q' c'
    | _ => none

/-- A message that exceeds the limit. -/
def bigMessage : Bytes := List.replicate (L.maxsize.toNat + 1) 0

/-- After `k` rounds: call 0 is in its trim, the others have returned. -/
structure Crowded (k : ℕ) (s : QueueState) : Prop where
  panic : s.panic = none
  backlog : Backlog L (List.replicate (2 * k + 1) (bigMessage L)) k s.q
  trimmer : ∃ p, s.calls 0 = some ⟨bigMessage L, p, .trimTest⟩
  returned : ∀ t c, s.calls t = some c → t ≠ 0 → c.pc = .returned
  free : ∀ t, 2 * k + 1 ≤ t → s.calls t = none

end Defs

variable {L : Limits} {S : Finset Tid} {s s' : QueueState} {t : Tid} {c c' : Call}
  {q q' : MessageQueue} {m : Bytes} {msgs : List Bytes} {n k o : ℕ}

/-! ## Steps of one call -/

theorem advance_step (h : callStep L q c = some (.ok (q', c'))) :
    advance L (n + 1) q c = advance L n q' c' := by
  rw [advance, h]

/-- A call of `S` that moves. -/
theorem InFlight.set (h : InFlight S s) (ht : t ∈ S) (hcalls : s'.calls = (s.setCall t c).calls) :
    InFlight S s' := by
  intro u d hd hpc
  rw [hcalls, setCall_calls] at hd
  split_ifs at hd with hu
  · exact hu ▸ ht
  · exact h u d hd hpc

theorem calls_self (h : s'.calls = (s.setCall t c).calls) : s'.calls t = some c := by
  rw [h, setCall_calls, if_pos rfl]

theorem calls_of_ne {u : Tid} (h : s'.calls = (s.setCall t c).calls) (hu : u ≠ t) :
    s'.calls u = s.calls u := by
  rw [h, setCall_calls, if_neg hu]

/-- Steps of one call, as a run. -/
theorem path_of_advance (hp : s.panic = none) (hS : InFlight S s) (ht : t ∈ S)
    (hc : s.calls t = some c) (h : advance L n s.q c = some (q', c')) :
    ∃ s', (queueRun L).Path (fun s _ => InFlight S s) s s' ∧ s'.panic = none ∧ s'.q = q' ∧
      s'.calls = (s.setCall t c').calls := by
  induction n generalizing s c with
  | zero =>
    obtain ⟨rfl, rfl⟩ : s.q = q' ∧ c = c' := by simpa [advance] using h
    refine ⟨s, .refl, hp, rfl, ?_⟩
    funext u
    rw [setCall_calls]
    split_ifs with hu
    · rw [hu, hc]
    · rfl
  | succ n ih =>
    rw [advance] at h
    split at h
    · next q₁ c₁ hstep =>
      have hn := queueNext_call hp hc hstep
      have hframe := record_frame s t c
      have hcalls : (setCall { s.record t c with q := q₁ } t c₁).calls = (s.setCall t c₁).calls := by
        funext u
        rw [setCall_calls, setCall_calls]
        show (if u = t then _ else (s.record t c).calls u) = _
        rw [hframe.1]
      obtain ⟨s', hpath, hp', hq', hcalls'⟩ := ih (s := setCall { s.record t c with q := q₁ } t c₁)
        (hframe.2.1.trans hp) (hS.set ht hcalls) (by rw [hcalls, setCall_calls, if_pos rfl]) h
      refine ⟨s', Machine.Path.trans (.step .refl hn hS) hpath, hp', hq', ?_⟩
      funext u
      rw [hcalls', setCall_calls, congrFun hcalls u, setCall_calls, setCall_calls]
      split_ifs <;> rfl
    · cases h

/-- The first six steps of a call lead to its trim. -/
theorem advance_fill {e : Addr} (hnewest : q.newest = some e) (hlast : q.heap e = newQueueEntry)
    (hne : e ≠ q.fresh) :
    advance L 6 { q.write q.fresh newQueueEntry with fresh := q.fresh + 1 } ⟨m, q.fresh, .loadNewest⟩ =
      some (filledWith L q e m, ⟨m, q.fresh, .trimTest⟩) := by
  refine (advance_step rfl).trans ?_
  refine (advance_step (callStep_casNewest rfl)).trans ?_
  rw [MessageQueue.write_newest, hnewest]
  refine (advance_step rfl).trans ?_
  refine (advance_step rfl).trans ?_
  refine (advance_step rfl).trans ?_
  refine (advance_step (callStep_validDone ?_)).trans ?_
  · simp [MessageQueue.storeMsg, MessageQueue.storeNext, MessageQueue.write_heap, hne, hlast,
      newQueueEntry]
  · refine congrArg (fun x => some (x, _)) (MessageQueue.ext rfl rfl ?_ ?_ rfl)
    · simp [MessageQueue.storeMsg, MessageQueue.storeNext, MessageQueue.write_heap, MessageQueue.done,
        filledWith, QueueEntry.size, Limits.weight]
    · funext a
      by_cases hae : a = e
      · subst hae
        simp [MessageQueue.storeMsg, MessageQueue.storeNext, MessageQueue.write_heap,
          MessageQueue.done, filledWith, hne, hlast, newQueueEntry, zeroEntry]
      · simp [MessageQueue.storeMsg, MessageQueue.storeNext, MessageQueue.write_heap,
          MessageQueue.done, filledWith, hae, Function.update_apply]

/-- A trim up to its CAS. -/
theorem advance_load {p e : Addr} (hsize : L.maxsize < q.size) (hold : q.oldest = some e) :
    advance L 3 q ⟨m, p, .trimTest⟩ = some (q, ⟨m, p, .trimCas e (q.heap e).next⟩) := by
  refine (advance_step (callStep_trimTest hsize)).trans ?_
  refine (advance_step rfl).trans ?_
  rw [hold]
  exact advance_step rfl

/-- A trim that wins its CAS. -/
theorem advance_remove {p e : Addr} {x : Bytes} (hold : q.oldest = some e)
    (hmsg : (q.heap e).msg = some x) :
    advance L 4 q ⟨m, p, .trimCas e (q.heap e).next⟩ = some (trimmed L q e x, ⟨m, p, .trimTest⟩) := by
  refine (advance_step (callStep_trimCas hold)).trans ?_
  refine (advance_step rfl).trans ?_
  refine (advance_step rfl).trans ?_
  refine (advance_step rfl).trans ?_
  refine congrArg (fun y => some (y, _)) (MessageQueue.ext rfl rfl ?_ rfl rfl)
  show SafeInt64.sub q.size ((q.heap e).size L) = q.size - L.weight x
  rw [SafeInt64.sub_eq, QueueEntry.size, hmsg]
  rfl

/-- A trim that loses its CAS. -/
theorem advance_lose {p e : Addr} {new : Ptr} (hold : q.oldest ≠ some e) :
    advance L 1 q ⟨m, p, .trimCas e new⟩ = some (q, ⟨m, p, .returned⟩) := by
  refine advance_step ?_
  simp [callStep, SafePointer.cas, Call.goto, hold]

/-- A call that begins and fills its entry. -/
theorem path_of_fill (hp : s.panic = none) (hb : Backlog L msgs o s.q) (hS : InFlight S s) (ht : t ∈ S)
    (hnone : s.calls t = none) (m : Bytes) :
    ∃ s', (queueRun L).Path (fun s _ => InFlight S s) s s' ∧ s'.panic = none ∧
      Backlog L (msgs ++ [m]) o s'.q ∧
      s'.calls = (s.setCall t ⟨m, s.q.fresh, .trimTest⟩).calls := by
  have hne : entryAt msgs.length ≠ s.q.fresh := by
    rw [hb.fresh]
    exact fun heq => absurd (entryAt_inj.mp heq) (by omega)
  obtain ⟨s', hpath, hp', hq', hcalls⟩ := path_of_advance (s := s.begin t m) (t := t) hp
    (hS.set ht rfl) ht (Function.update_self _ _ _) (advance_fill (m := m) hb.newest hb.last hne)
  refine ⟨s', Machine.Path.trans (.step .refl (queueNext_append hp hnone) hS) hpath, hp', ?_, ?_⟩
  · rw [hq']
    exact hb.fill m
  · rw [hcalls]
    funext u
    rw [setCall_calls, setCall_calls]
    split_ifs with hu
    · rfl
    · show (s.setCall t _).calls u = _
      rw [setCall_calls, if_neg hu]

/-! ## A round -/

theorem lt_weight_bigMessage : L.maxsize < L.weight (bigMessage L) := by
  have hpos := L.overhead_pos
  have hle := L.maxsize_nonneg
  unfold Limits.weight Limits.sizeOf bigMessage
  rw [List.length_replicate]
  omega

theorem total_replicate (w : Bytes → ℤ) (m : Bytes) (n : ℕ) :
    total w (List.replicate n m) = n * w m := by
  unfold total
  rw [List.map_replicate, List.sum_replicate, nsmul_eq_mul]

/-- The bytes that `n` messages take, `o` of which have been removed. -/
theorem Backlog.size_replicate (h : Backlog L (List.replicate n m) o q) :
    q.size = (n - o : ℕ) * L.weight m := by
  rw [h.size, List.drop_replicate, total_replicate]

theorem Backlog.lt_size (h : Backlog L (List.replicate n (bigMessage L)) o q) (ho : o < n) :
    L.maxsize < q.size := by
  have hlt := lt_weight_bigMessage (L := L)
  have hpos : (1 : ℤ) ≤ (n - o : ℕ) := by omega
  rw [h.size_replicate]
  have hle := L.maxsize_nonneg
  exact lt_of_lt_of_le hlt (le_mul_of_one_le_left (by omega) hpos)

/-- **A round**: two calls add an entry each and lose their CAS to call 0, which removes one entry. -/
theorem crowded_succ (h : Crowded L k s) :
    ∃ s', (queueRun L).Path (fun s _ => AtMost 3 s) s s' ∧ Crowded L (k + 1) s' := by
  obtain ⟨p, htrimmer⟩ := h.trimmer
  let S : Finset Tid := {0, 2 * k + 1, 2 * k + 2}
  have h10 : 2 * k + 1 ≠ 0 := by omega
  have h20 : 2 * k + 2 ≠ 0 := by omega
  have h21 : 2 * k + 2 ≠ 2 * k + 1 := by omega
  have hS : InFlight S s := by
    intro t c hc hpc
    by_cases ht : t = 0
    · simp [S, ht]
    · exact absurd (h.returned t c hc ht) hpc
  have h0 : 0 ∈ S := by simp [S]
  have h1 : 2 * k + 1 ∈ S := by simp [S]
  have h2 : 2 * k + 2 ∈ S := by simp [S]
  have hatMost : ∀ r, InFlight S r → AtMost 3 r := fun r hr => ⟨S, Finset.card_le_three, hr⟩
  -- two calls fill an entry each
  obtain ⟨s₁, hp₁, hpanic₁, hb₁, hc₁⟩ := path_of_fill h.panic h.backlog hS h1
    (h.free _ (Nat.le_refl _)) (bigMessage L)
  have hS₁ := hS.set h1 hc₁
  have hnone : s₁.calls (2 * k + 2) = none :=
    (calls_of_ne hc₁ h21).trans (h.free _ (by omega))
  obtain ⟨s₂, hp₂, hpanic₂, hb₂, hc₂⟩ := path_of_fill hpanic₁ hb₁ hS₁ h2 hnone (bigMessage L)
  have hS₂ := hS₁.set h2 hc₂
  rw [← List.replicate_succ', ← List.replicate_succ'] at hb₂
  have hsize := hb₂.lt_size (by omega)
  have hhead := hb₂.kept k (bigMessage L) (Nat.le_refl k) (by
    rw [List.getElem?_replicate, if_pos (by omega)])
  have hload : ∀ (r : QueueState) (p : Addr), r.q = s₂.q → advance L 3 r.q ⟨bigMessage L, p, .trimTest⟩ =
      some (s₂.q, ⟨bigMessage L, p, .trimCas (entryAt k) (s₂.q.heap (entryAt k)).next⟩) := by
    intro r p hr
    rw [hr]
    exact advance_load hsize hb₂.oldest
  -- all three come to their CAS
  obtain ⟨s₃, hp₃, hpanic₃, hq₃, hc₃⟩ := path_of_advance hpanic₂ hS₂ h0
    ((calls_of_ne hc₂ h20.symm).trans ((calls_of_ne hc₁ h10.symm).trans htrimmer))
    (hload s₂ p rfl)
  have hS₃ := hS₂.set h0 hc₃
  obtain ⟨s₄, hp₄, hpanic₄, hq₄, hc₄⟩ := path_of_advance hpanic₃ hS₃ h1
    ((calls_of_ne hc₃ h10).trans ((calls_of_ne hc₂ h21.symm).trans (calls_self hc₁)))
    (hload s₃ _ hq₃)
  have hS₄ := hS₃.set h1 hc₄
  obtain ⟨s₅, hp₅, hpanic₅, hq₅, hc₅⟩ := path_of_advance hpanic₄ hS₄ h2
    ((calls_of_ne hc₄ h21).trans ((calls_of_ne hc₃ h20).trans (calls_self hc₂)))
    (hload s₄ _ hq₄)
  have hS₅ := hS₄.set h2 hc₅
  -- call 0 wins
  obtain ⟨s₆, hp₆, hpanic₆, hq₆, hc₆⟩ := path_of_advance hpanic₅ hS₅ h0
    ((calls_of_ne hc₅ h20.symm).trans ((calls_of_ne hc₄ h10.symm).trans (calls_self hc₃)))
    (by rw [hq₅]; exact advance_remove (L := L) hb₂.oldest (by rw [hhead]))
  have hS₆ := hS₅.set h0 hc₆
  have hb₆ : Backlog L (List.replicate (2 * k + 1 + 1 + 1) (bigMessage L)) (k + 1) s₆.q := by
    rw [hq₆]
    exact hb₂.trim (by rw [List.getElem?_replicate, if_pos (by omega)])
  have hlost : s₆.q.oldest ≠ some (entryAt k) := by
    rw [hb₆.oldest]
    exact fun heq => absurd (entryAt_inj.mp (Option.some.inj heq)) (by omega)
  -- the others give up
  obtain ⟨s₇, hp₇, hpanic₇, hq₇, hc₇⟩ := path_of_advance hpanic₆ hS₆ h1
    ((calls_of_ne hc₆ h10).trans ((calls_of_ne hc₅ h21.symm).trans (calls_self hc₄)))
    (advance_lose (L := L) hlost)
  have hS₇ := hS₆.set h1 hc₇
  obtain ⟨s₈, hp₈, hpanic₈, hq₈, hc₈⟩ := path_of_advance hpanic₇ hS₇ h2
    ((calls_of_ne hc₇ h21).trans ((calls_of_ne hc₆ h20).trans (calls_self hc₅)))
    (advance_lose (L := L) (by rw [hq₇]; exact hlost))
  have hother : ∀ t, t ≠ 0 → t ≠ 2 * k + 1 → t ≠ 2 * k + 2 → s₈.calls t = s.calls t := by
    intro t ht₀ ht₁ ht₂
    rw [calls_of_ne hc₈ ht₂, calls_of_ne hc₇ ht₁, calls_of_ne hc₆ ht₀, calls_of_ne hc₅ ht₂,
      calls_of_ne hc₄ ht₁, calls_of_ne hc₃ ht₀, calls_of_ne hc₂ ht₂, calls_of_ne hc₁ ht₁]
  refine ⟨s₈, ?_, hpanic₈, ?_, ?_, ?_, ?_⟩
  · have hpath := ((((((hp₁.trans hp₂).trans hp₃).trans hp₄).trans hp₅).trans hp₆).trans hp₇).trans hp₈
    exact hpath.mono fun r _ hr => hatMost r hr
  · rw [hq₈, hq₇]
    exact hb₆
  · refine ⟨p, ?_⟩
    exact (calls_of_ne hc₈ h20.symm).trans ((calls_of_ne hc₇ h10.symm).trans (calls_self hc₆))
  · intro t c hc ht
    by_cases ht₂ : t = 2 * k + 2
    · subst ht₂
      rw [calls_self hc₈] at hc
      rw [← Option.some.inj hc]
    by_cases ht₁ : t = 2 * k + 1
    · subst ht₁
      rw [calls_of_ne hc₈ ht₂, calls_self hc₇] at hc
      rw [← Option.some.inj hc]
    · rw [hother t ht ht₁ ht₂] at hc
      exact h.returned t c hc ht
  · intro t ht
    rw [hother t (by omega) (by omega) (by omega)]
    exact h.free t (by omega)

/-- The first call has filled its entry. -/
theorem crowded_zero : ∃ s, (queueRun L).Path (fun s _ => AtMost 3 s) QueueState.init s ∧
    Crowded L 0 s := by
  have hS : InFlight {0} QueueState.init := by
    rintro t c ⟨⟩
  obtain ⟨s, hpath, hpanic, hb, hcalls⟩ := path_of_fill (L := L) (s := QueueState.init) (t := 0) rfl
    backlog_newQueue hS (Finset.mem_singleton_self 0) rfl (bigMessage L)
  refine ⟨s, hpath.mono fun r _ hr => ⟨{0}, by simp, hr⟩, hpanic, hb, ?_, ?_, ?_⟩
  · exact ⟨_, calls_self hcalls⟩
  · intro t c hc ht
    rw [calls_of_ne hcalls ht] at hc
    cases hc
  · intro t ht
    rw [calls_of_ne hcalls (Nat.one_le_iff_ne_zero.mp ht)]
    rfl

theorem reaches_crowded (k : ℕ) : ∃ s, (queueRun L).Reaches (fun s _ => AtMost 3 s) s ∧ Crowded L k s := by
  induction k with
  | zero => exact crowded_zero
  | succ k ih =>
    obtain ⟨s, hs, hk⟩ := ih
    obtain ⟨s', hpath, hk'⟩ := crowded_succ hk
    exact ⟨s', hs.path hpath, hk'⟩

/-- The bytes on the chain. -/
theorem Backlog.chainSize_eq (h : Backlog L msgs o q) : q.chainSize L = total L.weight (msgs.drop o) := by
  have hsize : ∀ e, (q.heap e).size L = L.weight ((q.heap e).msg.getD []) := fun _ => rfl
  have hchain := congrArg (List.map fun x : Option Bytes => L.weight (x.getD [])) h.chain_msgs
  rw [List.map_map, List.map_map] at hchain
  unfold MessageQueue.chainSize total
  exact congrArg List.sum hchain

/-- **No bound on the backlog**: for every number of bytes there is a run with never more than three calls
of `Append` at work and no panic that ends with more than that on the queue. -/
theorem backlog_unbounded (L : Limits) (b : ℤ) : ∃ s,
    (queueRun L).Reaches (fun s _ => AtMost 3 s) s ∧ AtMost 3 s ∧ s.panic = none ∧
      b < s.q.chainSize L ∧ s.q.size = s.q.chainSize L := by
  obtain ⟨s, hs, hk⟩ := reaches_crowded (L := L) b.toNat
  have hsize := hk.backlog.size_replicate
  have hchain := hk.backlog.chainSize_eq
  rw [← hk.backlog.size] at hchain
  refine ⟨s, hs, ⟨{0}, by simp, ?_⟩, hk.panic, ?_, hchain.symm⟩
  · intro t c hc hpc
    by_cases ht : t = 0
    · simp [ht]
    · exact absurd (hk.returned t c hc ht) hpc
  · rw [hchain, hsize]
    have hlt := lt_weight_bigMessage (L := L)
    have hle := L.maxsize_nonneg
    have hcount : (2 * b.toNat + 1 - b.toNat : ℕ) = b.toNat + 1 := by omega
    rw [hcount]
    have hb : b ≤ (b.toNat : ℤ) := Int.self_le_toNat b
    have hmul : ((b.toNat + 1 : ℕ) : ℤ) ≤ (b.toNat + 1 : ℕ) * L.weight (bigMessage L) :=
      le_mul_of_one_le_right (by omega) (by omega)
    omega

end WebsocketHub
