import WebsocketHub.LongestSuffix
import WebsocketHub.QueueLimit
import Mathlib.Algebra.Order.Group.Int

/-!
# WebsocketHub.QueueSequential — appends one after another

Without competition a call of `Append` runs to its end (`append`).  `Backlog L msgs o q` describes the
whole heap after the messages `msgs` have been appended and the first `o` of them removed again: what
a queue stores is a function of these two.  One call appends to `msgs`, and its trim moves `o` to
where the longest suffix begins that fits (`append_spec`).
-/

namespace WebsocketHub

section Defs

variable (L : Limits)

/-- Run one call to its end, in at most `fuel` steps. -/
def solo : ℕ → MessageQueue → Call → Option (Except Panic MessageQueue)
  | 0, _, _ => none
  | fuel + 1, q, c =>
    match callStep L q c with
    | none => some (.ok q)
    | some (.error p) => some (.error p)
    | some (.ok (q', c')) => solo fuel q' c'

/-- `q.Append(msg)`, run alone. -/
def append (fuel : ℕ) (q : MessageQueue) (msg : Option Bytes) : Option (Except Panic MessageQueue) :=
  match beginAppend q msg with
  | .error p => some (.error p)
  | .ok (q', c) => solo L fuel q' c

/-- Messages appended one after another. -/
def appendAll (fuel : ℕ) : List Bytes → MessageQueue → Option (Except Panic MessageQueue)
  | [], q => some (.ok q)
  | m :: ms, q =>
    match append L fuel q (some m) with
    | some (.ok q') => appendAll fuel ms q'
    | r => r

/-- `Size()` of the entry of a message. -/
def Limits.weight (m : Bytes) : ℤ := L.sizeOf m.length

/-- The address of `e_i` when nothing else is allocated. -/
def entryAt (i : ℕ) : Addr := initialEntry + i

/-- The queue after `msgs` have been appended and the first `o` of them removed. -/
structure Backlog (msgs : List Bytes) (o : ℕ) (q : MessageQueue) : Prop where
  le : o ≤ msgs.length
  oldest : q.oldest = some (entryAt o)
  newest : q.newest = some (entryAt msgs.length)
  fresh : q.fresh = entryAt (msgs.length + 1)
  size : q.size = total L.weight (msgs.drop o)
  removed : ∀ i m, i < o → msgs[i]? = some m →
    q.heap (entryAt i) = ⟨some staleEntry, some m, 0⟩
  kept : ∀ i m, o ≤ i → msgs[i]? = some m →
    q.heap (entryAt i) = ⟨some (entryAt (i + 1)), some m, 0⟩
  last : q.heap (entryAt msgs.length) = newQueueEntry

end Defs

variable {L : Limits} {q : MessageQueue} {msgs : List Bytes} {o : ℕ}

theorem entryAt_inj {i j : ℕ} : entryAt i = entryAt j ↔ i = j := by
  unfold entryAt
  exact ⟨fun h => Nat.add_left_cancel h, fun h => h ▸ rfl⟩

theorem weight_pos (m : Bytes) : 0 < L.weight m :=
  QueueState.sizeOf_pos L m.length

theorem solo_step {fuel : ℕ} {q q' : MessageQueue} {c c' : Call}
    (h : callStep L q c = some (.ok (q', c'))) : solo L (fuel + 1) q c = solo L fuel q' c' := by
  rw [solo, h]

theorem backlog_newQueue : Backlog L [] 0 newQueue where
  le := Nat.le_refl 0
  oldest := rfl
  newest := rfl
  fresh := rfl
  size := rfl
  removed := fun i m hi => absurd hi (Nat.not_lt_zero i)
  kept := fun i m _ hm => by cases hm
  last := rfl

/-! ## The steps that test something -/

theorem callStep_casNewest {m : Bytes} {p : Addr} {old : Ptr} (h : q.newest = old) :
    callStep L q ⟨m, p, .casNewest old⟩ =
      some (.ok ({ q with newest := some p }, ⟨m, p, .storeNext old⟩)) := by
  simp [callStep, SafePointer.cas, Call.goto, h]

theorem callStep_validDone {m : Bytes} {p e : Addr} (h : (q.heap e).valid ≠ 0) :
    callStep L q ⟨m, p, .validDone e⟩ = some (.ok (q.done e, ⟨m, p, .trimTest⟩)) := by
  simp [callStep, Call.goto, h]

theorem callStep_trimTest {m : Bytes} {p : Addr} (h : L.maxsize < q.size) :
    callStep L q ⟨m, p, .trimTest⟩ = some (.ok (q, ⟨m, p, .trimLoadOldest⟩)) := by
  simp [callStep, Call.goto, h]

theorem callStep_trimEnds {m : Bytes} {p : Addr} (h : q.size ≤ L.maxsize) :
    callStep L q ⟨m, p, .trimTest⟩ = some (.ok (q, ⟨m, p, .returned⟩)) := by
  simp [callStep, Call.goto, Int.not_lt.mpr h]

theorem callStep_trimCas {m : Bytes} {p e : Addr} {new : Ptr} (h : q.oldest = some e) :
    callStep L q ⟨m, p, .trimCas e new⟩ =
      some (.ok ({ q with oldest := new }, ⟨m, p, .trimSize e⟩)) := by
  simp [callStep, SafePointer.cas, Call.goto, h]

/-! ## One append -/

/-- The queue when the container for the next message is linked and `m` stored and counted. -/
def filledWith (L : Limits) (q : MessageQueue) (e : Addr) (m : Bytes) : MessageQueue where
  oldest := q.oldest
  newest := some q.fresh
  size := q.size + L.weight m
  heap := Function.update (Function.update q.heap q.fresh newQueueEntry) e ⟨some q.fresh, some m, 0⟩
  fresh := q.fresh + 1

theorem filledWith_heap (e : Addr) (m : Bytes) (a : Addr) : (filledWith L q e m).heap a =
    if a = e then ⟨some q.fresh, some m, 0⟩
    else if a = q.fresh then newQueueEntry else q.heap a := by
  simp only [filledWith, Function.update_apply]

/-- **The first six steps** of a call that is alone lead to its trim. -/
theorem append_fill {fuel : ℕ} {e : Addr} {m : Bytes} (hnewest : q.newest = some e)
    (hlast : q.heap e = newQueueEntry) (hne : e ≠ q.fresh) :
    append L (fuel + 6) q (some m) = solo L fuel (filledWith L q e m) ⟨m, q.fresh, .trimTest⟩ := by
  have he : ∀ x, (q.write q.fresh x).heap e = newQueueEntry := by
    intro x
    rw [MessageQueue.write_heap, if_neg hne, hlast]
  rw [append, beginAppend]
  refine (solo_step rfl).trans ?_
  refine (solo_step (callStep_casNewest rfl)).trans ?_
  rw [MessageQueue.write_newest, hnewest]
  refine (solo_step rfl).trans ?_
  refine (solo_step rfl).trans ?_
  refine (solo_step rfl).trans ?_
  refine (solo_step (callStep_validDone ?_)).trans ?_
  · simp [MessageQueue.storeMsg, MessageQueue.storeNext, MessageQueue.write_heap, hne, hlast,
      newQueueEntry]
  · refine congrArg (fun x => solo L fuel x _) (MessageQueue.ext rfl rfl ?_ ?_ rfl)
    · simp [MessageQueue.storeMsg, MessageQueue.storeNext, MessageQueue.write_heap, MessageQueue.done,
        filledWith, QueueEntry.size, Limits.weight]
    · funext a
      by_cases hae : a = e
      · subst hae
        simp [MessageQueue.storeMsg, MessageQueue.storeNext, MessageQueue.write_heap,
          MessageQueue.done, filledWith, hne, hlast, newQueueEntry, zeroEntry]
      · simp [MessageQueue.storeMsg, MessageQueue.storeNext, MessageQueue.write_heap,
          MessageQueue.done, filledWith, hae, Function.update_apply]

/-- The message is on the queue; nothing has been removed for it yet. -/
theorem Backlog.fill (h : Backlog L msgs o q) (m : Bytes) :
    Backlog L (msgs ++ [m]) o (filledWith L q (entryAt msgs.length) m) := by
  have hlen : (msgs ++ [m]).length = msgs.length + 1 := List.length_append
  -- the entries below the placeholder are untouched
  have hheap : ∀ i < msgs.length,
      (filledWith L q (entryAt msgs.length) m).heap (entryAt i) = q.heap (entryAt i) := by
    intro i hi
    have h1 : entryAt i ≠ entryAt msgs.length := fun heq => Nat.ne_of_lt hi (entryAt_inj.mp heq)
    have h2 : entryAt i ≠ q.fresh := by
      rw [h.fresh]
      exact fun heq => absurd (entryAt_inj.mp heq) (by omega)
    rw [filledWith_heap, if_neg h1, if_neg h2]
  refine ⟨?_, h.oldest, ?_, ?_, ?_, ?_, ?_, ?_⟩
  · rw [hlen]
    exact Nat.le_succ_of_le h.le
  · rw [hlen, filledWith, h.fresh]
  · rw [hlen, filledWith, h.fresh]
    rfl
  · rw [List.drop_append_of_le_length h.le, total_append, total_cons, total_nil, Int.add_zero,
      filledWith, h.size]
  · intro i x hi hx
    have hlt := Nat.lt_of_lt_of_le hi h.le
    rw [List.getElem?_append_left hlt] at hx
    rw [hheap i hlt]
    exact h.removed i x hi hx
  · intro i x hi hx
    rcases QueueState.getElem?_concat hx with hx | ⟨rfl, rfl⟩
    · rw [hheap i (List.getElem?_eq_some_iff.mp hx).1]
      exact h.kept i x hi hx
    · rw [filledWith_heap, if_pos rfl, h.fresh]
  · have h1 : entryAt (msgs.length + 1) ≠ entryAt msgs.length :=
      fun heq => absurd (entryAt_inj.mp heq) (by omega)
    rw [hlen, filledWith_heap, if_neg h1, if_pos h.fresh.symm]

/-! ## The trim -/

/-- The queue when its head `e`, which holds `m`, has been removed and accounted for. -/
def trimmed (L : Limits) (q : MessageQueue) (e : Addr) (m : Bytes) : MessageQueue where
  oldest := (q.heap e).next
  newest := q.newest
  size := q.size - L.weight m
  heap := Function.update q.heap e { q.heap e with next := some staleEntry }
  fresh := q.fresh

theorem trimmed_heap (e : Addr) (m : Bytes) (a : Addr) : (trimmed L q e m).heap a =
    if a = e then { q.heap e with next := some staleEntry } else q.heap a := by
  simp only [trimmed, Function.update_apply]

/-- **One round** of a trim that is alone: seven steps. -/
theorem solo_trimRound {fuel : ℕ} {m x : Bytes} {p e : Addr} (hsize : L.maxsize < q.size)
    (hold : q.oldest = some e) (hmsg : (q.heap e).msg = some x) :
    solo L (fuel + 7) q ⟨m, p, .trimTest⟩ = solo L fuel (trimmed L q e x) ⟨m, p, .trimTest⟩ := by
  refine (solo_step (callStep_trimTest hsize)).trans ?_
  refine (solo_step rfl).trans ?_
  rw [hold]
  refine (solo_step rfl).trans ?_
  refine (solo_step (callStep_trimCas hold)).trans ?_
  refine (solo_step rfl).trans ?_
  refine (solo_step rfl).trans ?_
  refine (solo_step rfl).trans ?_
  refine congrArg (fun y => solo L fuel y _) (MessageQueue.ext rfl rfl ?_ rfl rfl)
  show SafeInt64.sub q.size ((q.heap e).size L) = q.size - L.weight x
  rw [SafeInt64.sub_eq, QueueEntry.size, hmsg]
  rfl

theorem Backlog.trim (h : Backlog L msgs o q) {x : Bytes} (hx : msgs[o]? = some x) :
    Backlog L msgs (o + 1) (trimmed L q (entryAt o) x) := by
  have hlt := (List.getElem?_eq_some_iff.mp hx).1
  have hhead := h.kept o x (Nat.le_refl o) hx
  have hheap : ∀ i, i ≠ o →
      (trimmed L q (entryAt o) x).heap (entryAt i) = q.heap (entryAt i) := by
    intro i hi
    rw [trimmed_heap, if_neg fun heq => hi (entryAt_inj.mp heq)]
  refine ⟨hlt, ?_, h.newest, h.fresh, ?_, ?_, ?_, ?_⟩
  · rw [trimmed, hhead]
  · have hdrop : msgs.drop o = x :: msgs.drop (o + 1) := by
      obtain ⟨hlt, rfl⟩ := List.getElem?_eq_some_iff.mp hx
      exact List.drop_eq_getElem_cons hlt
    have hsize := h.size
    rw [hdrop, total_cons] at hsize
    show q.size - L.weight x = _
    omega
  · intro i y hi hy
    rcases Nat.lt_or_eq_of_le (Nat.le_of_lt_succ hi) with hi | rfl
    · rw [hheap i (Nat.ne_of_lt hi)]
      exact h.removed i y hi hy
    · obtain rfl := Option.some.inj (hx.symm.trans hy)
      rw [trimmed_heap, if_pos rfl, hhead]
  · intro i y hi hy
    rw [hheap i (by omega)]
    exact h.kept i y (by omega) hy
  · rw [hheap msgs.length (by omega)]
    exact h.last

/-- **The trim loop terminates** and leaves the longest suffix that fits. -/
theorem solo_trim {fuel : ℕ} {m : Bytes} {p : Addr} (h : Backlog L msgs o q)
    (hfuel : 7 * (msgs.length - o) + 2 ≤ fuel) : ∃ o' q',
    solo L fuel q ⟨m, p, .trimTest⟩ = some (.ok q') ∧ Backlog L msgs o' q' ∧
      msgs.drop o' = longestSuffix L.weight L.maxsize (msgs.drop o) := by
  induction hk : msgs.length - o generalizing o q fuel with
  | zero =>
    -- the queue is empty, the counter zero
    have hnil : msgs.drop o = [] := List.drop_eq_nil_of_le (by omega)
    obtain ⟨fuel, rfl⟩ : ∃ f, fuel = f + 2 := ⟨fuel - 2, by omega⟩
    have hsize : q.size ≤ L.maxsize := by
      rw [h.size, hnil]
      exact L.maxsize_nonneg
    refine ⟨o, q, ?_, h, ?_⟩
    · exact (solo_step (callStep_trimEnds hsize)).trans rfl
    · rw [hnil]
      rfl
  | succ k ih =>
    have hlt : o < msgs.length := by omega
    have hdrop : msgs.drop o = msgs[o] :: msgs.drop (o + 1) := List.drop_eq_getElem_cons hlt
    by_cases hsize : q.size ≤ L.maxsize
    · obtain ⟨fuel, rfl⟩ : ∃ f, fuel = f + 2 := ⟨fuel - 2, by omega⟩
      refine ⟨o, q, ?_, h, ?_⟩
      · exact (solo_step (callStep_trimEnds hsize)).trans rfl
      · rw [h.size] at hsize
        rw [longestSuffix_of_le hsize]
    · have hsize := Int.not_le.mp hsize
      have hx : msgs[o]? = some msgs[o] := List.getElem?_eq_getElem hlt
      obtain ⟨fuel, rfl⟩ : ∃ f, fuel = f + 7 := ⟨fuel - 7, by omega⟩
      have hfuel' : 7 * (msgs.length - (o + 1)) + 2 ≤ fuel := by omega
      obtain ⟨o', q', hrun, hb, hsuffix⟩ := ih (h.trim hx) hfuel' (by omega)
      refine ⟨o', q', ?_, hb, ?_⟩
      · rw [solo_trimRound hsize h.oldest (by rw [h.kept o _ (Nat.le_refl o) hx]), hrun]
      · rw [h.size, hdrop] at hsize
        rw [hsuffix, hdrop, longestSuffix_of_lt hsize]

/-- **One append**: the longest suffix that fits stays the longest suffix that fits. -/
theorem append_spec {fuel : ℕ} (h : Backlog L msgs o q)
    (hlong : msgs.drop o = longestSuffix L.weight L.maxsize msgs) (m : Bytes)
    (hfuel : 7 * msgs.length + 15 ≤ fuel) : ∃ o' q',
    append L fuel q (some m) = some (.ok q') ∧ Backlog L (msgs ++ [m]) o' q' ∧
      (msgs ++ [m]).drop o' = longestSuffix L.weight L.maxsize (msgs ++ [m]) := by
  obtain ⟨fuel, rfl⟩ : ∃ f, fuel = f + 6 := ⟨fuel - 6, by omega⟩
  have hne : entryAt msgs.length ≠ q.fresh := by
    rw [h.fresh]
    exact fun heq => absurd (entryAt_inj.mp heq) (by omega)
  have hlen : (msgs ++ [m]).length = msgs.length + 1 := List.length_append
  have hfuel' : 7 * ((msgs ++ [m]).length - o) + 2 ≤ fuel := by omega
  obtain ⟨o', q', hrun, hb, hsuffix⟩ := solo_trim (m := m) (p := q.fresh) (h.fill m) hfuel'
  refine ⟨o', q', ?_, hb, ?_⟩
  · rw [append_fill h.newest h.last hne, hrun]
  · rw [hsuffix, List.drop_append_of_le_length h.le, hlong,
      ← longestSuffix_concat (fun m => Int.le_of_lt (weight_pos m)) L.maxsize_nonneg]

/-- Any number of appends, one after another. -/
theorem appendAll_spec {fuel : ℕ} (h : Backlog L msgs o q)
    (hlong : msgs.drop o = longestSuffix L.weight L.maxsize msgs) (ms : List Bytes)
    (hfuel : 7 * (msgs.length + ms.length) + 15 ≤ fuel) : ∃ o' q',
    appendAll L fuel ms q = some (.ok q') ∧ Backlog L (msgs ++ ms) o' q' ∧
      (msgs ++ ms).drop o' = longestSuffix L.weight L.maxsize (msgs ++ ms) := by
  induction ms generalizing msgs o q with
  | nil =>
    rw [List.append_nil]
    exact ⟨o, q, rfl, h, hlong⟩
  | cons m ms ih =>
    have hlen : (msgs ++ [m]).length = msgs.length + 1 := List.length_append
    rw [List.length_cons] at hfuel
    have hfuel₁ : 7 * msgs.length + 15 ≤ fuel := by omega
    obtain ⟨o₁, q₁, hrun, hb, hsuffix⟩ := append_spec h hlong m hfuel₁
    obtain ⟨o', q', hrun', hb', hsuffix'⟩ := ih hb hsuffix (by omega)
    rw [List.append_assoc] at hb' hsuffix'
    refine ⟨o', q', ?_, hb', hsuffix'⟩
    rw [appendAll, hrun]
    exact hrun'

/-! ## The chain -/

theorem Backlog.walk_eq (h : Backlog L msgs o q) {k i fuel : ℕ} (hk : i + k = msgs.length)
    (hi : o ≤ i) (hfuel : k < fuel) :
    q.walk fuel (some (entryAt i)) = (List.range' i k).map entryAt := by
  induction k generalizing i fuel with
  | zero =>
    obtain ⟨fuel, rfl⟩ : ∃ f, fuel = f + 1 := ⟨fuel - 1, by omega⟩
    obtain rfl : i = msgs.length := hk
    rw [MessageQueue.walk, if_pos h.newest]
    rfl
  | succ k ih =>
    obtain ⟨fuel, rfl⟩ : ∃ f, fuel = f + 1 := ⟨fuel - 1, by omega⟩
    have hlt : i < msgs.length := by omega
    have hne : q.newest ≠ some (entryAt i) := by
      rw [h.newest]
      intro heq
      have := entryAt_inj.mp (Option.some.inj heq)
      omega
    rw [MessageQueue.walk, if_neg hne, h.kept i _ hi (List.getElem?_eq_getElem hlt),
      ih (by omega) (by omega) (by omega), List.range'_succ, List.map_cons]

/-- The chain of a sequential queue: `e_o, …, e_{n-1}`. -/
theorem Backlog.chain_eq (h : Backlog L msgs o q) :
    q.chain = (List.range' o (msgs.length - o)).map entryAt := by
  have hle := h.le
  rw [MessageQueue.chain, h.oldest, h.fresh]
  refine h.walk_eq (by omega) (Nat.le_refl o) ?_
  unfold entryAt
  omega

/-- The messages on the chain. -/
theorem Backlog.chain_msgs (h : Backlog L msgs o q) :
    q.chain.map (fun e => (q.heap e).msg) = (msgs.drop o).map some := by
  rw [h.chain_eq, List.map_map]
  apply List.ext_getElem?
  intro j
  rw [List.getElem?_map, List.getElem?_map, List.getElem?_drop]
  rcases Nat.lt_or_ge j (msgs.length - o) with hj | hj
  · have hx : msgs[o + j]? = some msgs[o + j] := List.getElem?_eq_getElem (by omega)
    rw [List.getElem?_range' hj, hx]
    show some (q.heap (entryAt (o + 1 * j))).msg = some (some msgs[o + j])
    rw [Nat.one_mul, h.kept (o + j) _ (Nat.le_add_right o j) hx]
  · rw [List.getElem?_eq_none (by rw [List.length_range']; omega),
      List.getElem?_eq_none (by omega)]
    rfl

/-- An allocated entry that is neither on the chain nor the placeholder has been removed. -/
theorem Backlog.next_of_removed (h : Backlog L msgs o q) {a : Addr} (h0 : a ≠ staleEntry)
    (hfresh : a < q.fresh) (hchain : a ∉ q.chain) (hnewest : q.newest ≠ some a) :
    (q.heap a).next = some staleEntry := by
  obtain ⟨i, rfl⟩ : ∃ i, a = entryAt i :=
    ⟨a - 1, (Nat.add_sub_cancel' (Nat.pos_of_ne_zero h0)).symm⟩
  have hi : i ≤ msgs.length := by
    rw [h.fresh] at hfresh
    exact Nat.le_of_lt_succ (Nat.lt_of_add_lt_add_left hfresh)
  have hlt : i < msgs.length := by
    refine Nat.lt_of_le_of_ne hi ?_
    rintro rfl
    exact hnewest h.newest
  have hio : i < o := by
    by_contra hge
    refine hchain ?_
    rw [h.chain_eq]
    refine List.mem_map_of_mem (List.mem_range'_1.mpr ?_)
    omega
  rw [h.removed i _ hio (List.getElem?_eq_getElem hlt)]

/-! ## Runs of the machine -/

open QueueState in
theorem queueNext_call {s : QueueState} {t : Tid} {c c' : Call} {q' : MessageQueue}
    (hp : s.panic = none) (hc : s.calls t = some c) (h : callStep L s.q c = some (.ok (q', c'))) :
    queueNext L s (.call t) = some (setCall { s.record t c with q := q' } t c') := by
  simp only [queueNext, hp, queueAct, hc, h]

theorem queueNext_append {s : QueueState} {t : Tid} {m : Bytes} (hp : s.panic = none)
    (ht : s.calls t = none) : queueNext L s (.append t m) = some (s.begin t m) := by
  rw [queueNext, hp]
  simp only [queueAct, ht]
  rfl

theorem record_frame (s : QueueState) (t : Tid) (c : Call) :
    (s.record t c).calls = s.calls ∧ (s.record t c).panic = s.panic ∧
      (s.record t c).listeners = s.listeners := by
  unfold QueueState.record
  split
  · split <;> exact ⟨rfl, rfl, rfl⟩
  · split <;> exact ⟨rfl, rfl, rfl⟩
  · exact ⟨rfl, rfl, rfl⟩
  · exact ⟨rfl, rfl, rfl⟩

/-- A call that runs alone is a run of the machine. -/
theorem path_of_solo {fuel : ℕ} {s : QueueState} {t : Tid} {c : Call} {q' : MessageQueue}
    (hp : s.panic = none) (hc : s.calls t = some c) (h : solo L fuel s.q c = some (.ok q')) :
    ∃ s' c', (queueRun L).Path (fun _ _ => True) s s' ∧ s'.q = q' ∧ s'.panic = none ∧
      s'.calls = (s.setCall t c').calls ∧ c'.pc = .returned ∧ s'.listeners = s.listeners := by
  induction fuel generalizing s c with
  | zero => cases h
  | succ fuel ih =>
    rw [solo] at h
    cases hx : callStep L s.q c with
    | none =>
      rw [hx] at h
      obtain rfl : s.q = q' := by simpa using h
      refine ⟨s, c, .refl, rfl, hp, ?_, ?_, rfl⟩
      · exact (Function.update_eq_self_iff.mpr hc.symm).symm
      · unfold callStep at hx
        grind
    | some r =>
      cases r with
      | error p =>
        rw [hx] at h
        cases h
      | ok r =>
        obtain ⟨q₁, c₁⟩ := r
        rw [hx] at h
        have hn := queueNext_call hp hc hx
        obtain ⟨hcalls₁, hpanic₁, hlist₁⟩ := record_frame s t c
        obtain ⟨s', c', hpath, hq, hp', hcalls, hret, hlist⟩ :=
          ih (s := QueueState.setCall { s.record t c with q := q₁ } t c₁) (c := c₁)
            (hpanic₁.trans hp) (Function.update_self _ _ _) h
        refine ⟨s', c', Machine.Path.trans (.step .refl hn trivial) hpath, hq, hp', ?_, hret,
          hlist.trans hlist₁⟩
        rw [hcalls]
        show Function.update (Function.update (s.record t c).calls t (some c₁)) t (some c') = _
        rw [Function.update_idem, hcalls₁]
        rfl

/-- A state between two appends, with calls left to begin. -/
structure Idle (s : QueueState) : Prop where
  panic : s.panic = none
  quiescent : s.Quiescent
  free : ∃ n, ∀ t, n ≤ t → s.calls t = none

theorem idle_init : Idle QueueState.init where
  panic := rfl
  quiescent := fun t c hc => by cases hc
  free := ⟨0, fun _ _ => rfl⟩

/-- An append that runs alone leads from such a state to such a state. -/
theorem path_of_append {fuel : ℕ} {s : QueueState} {m : Bytes} {q' : MessageQueue} (hs : Idle s)
    (h : append L fuel s.q (some m) = some (.ok q')) : ∃ s',
      (queueRun L).Path (fun _ _ => True) s s' ∧ s'.q = q' ∧ Idle s' ∧
      s'.listeners = s.listeners := by
  obtain ⟨n, hn⟩ := hs.free
  have hbegin : queueNext L s (.append n m) = some (s.begin n m) :=
    queueNext_append hs.panic (hn n (Nat.le_refl n))
  obtain ⟨s₁, c₁, hpath, hq, hp₁, hcalls, hret, hlist⟩ :=
    path_of_solo (s := s.begin n m) hs.panic (Function.update_self _ _ _) h
  have hcalls : ∀ t, s₁.calls t = if t = n then some c₁ else s.calls t := by
    intro t
    rw [hcalls, QueueState.setCall_calls]
    split
    · rfl
    · next hne => exact (QueueState.setCall_calls _ _ _ t).trans (if_neg hne)
  refine ⟨s₁, Machine.Path.trans (.step .refl hbegin trivial) hpath, hq, ⟨hp₁, ?_, n + 1, ?_⟩,
    hlist⟩
  · intro t c hc
    rw [hcalls] at hc
    split at hc
    · cases hc
      exact hret
    · exact hs.quiescent t c hc
  · intro t ht
    rw [hcalls, if_neg (Nat.ne_of_gt (Nat.lt_of_succ_le ht))]
    exact hn t (Nat.le_of_succ_le ht)

/-- Every queue that sequential appends lead to is the queue of a reachable quiescent state. -/
theorem reachable_of_appendAll {fuel : ℕ} {s : QueueState} {ms : List Bytes} {q' : MessageQueue}
    (hr : (queueRun L).Reachable s) (hs : Idle s) (h : appendAll L fuel ms s.q = some (.ok q')) :
    ∃ s', (queueRun L).Reachable s' ∧ s'.q = q' ∧ s'.Quiescent := by
  induction ms generalizing s with
  | nil =>
    obtain rfl : s.q = q' := by simpa [appendAll] using h
    exact ⟨s, hr, rfl, hs.quiescent⟩
  | cons m ms ih =>
    rw [appendAll] at h
    split at h
    · next q₁ hrun =>
      obtain ⟨s₁, hpath, rfl, hs₁, -⟩ := path_of_append hs hrun
      exact ih (hr.path hpath) hs₁ h
    · next hne => exact absurd h (hne q')

/-- **Sequential refinement of the backlog**: appended one after another to a new queue, the messages
leave the longest suffix that fits on the chain.  Every call returns, whatever fuel is left. -/
theorem sequential_backlog (L : Limits) (msgs : List Bytes) (k : ℕ) : ∃ q r e,
    appendAll L (7 * msgs.length + 15 + k) msgs newQueue = some (.ok q) ∧
    IsLongestSuffix L.weight L.maxsize msgs r ∧
    q.chain.map (fun a => (q.heap a).msg) = r.map some ∧
    q.size = total L.weight r ∧
    (q.newest = some e ∧ (q.heap e).msg = none ∧ (q.heap e).next = none ∧ (q.heap e).valid ≠ 0) ∧
    ∀ a, a ≠ staleEntry → a < q.fresh → a ∉ q.chain → a ≠ e → (q.heap a).next = some staleEntry := by
  obtain ⟨o, q, hrun, hb, hsuffix⟩ := appendAll_spec (backlog_newQueue (L := L)) rfl msgs
    (show 7 * (0 + msgs.length) + 15 ≤ 7 * msgs.length + 15 + k by omega)
  rw [List.nil_append] at hb hsuffix
  refine ⟨q, msgs.drop o, entryAt msgs.length, hrun, ?_, hb.chain_msgs, hb.size,
    ⟨hb.newest, ?_, ?_, ?_⟩, ?_⟩
  · rw [hsuffix]
    exact isLongestSuffix L.maxsize_nonneg msgs
  · rw [hb.last]
    rfl
  · rw [hb.last]
    rfl
  · rw [hb.last]
    exact Nat.one_ne_zero
  · intro a h0 hfresh hchain hne
    refine hb.next_of_removed h0 hfresh hchain ?_
    rw [hb.newest]
    exact fun heq => hne (Option.some.inj heq).symm

end WebsocketHub
