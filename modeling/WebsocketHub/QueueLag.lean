import WebsocketHub.QueueSequential

/-!
# WebsocketHub.QueueLag — a listener among appends that do not overlap

Complete calls of `Append` alternate with the single steps of one listener.  The listener learns that
it is behind from the `next` of the entry it has just delivered: it is stale as soon as *that* entry
has been removed.  `advancesInSync` is the condition under which a stale link means a real loss.
-/

namespace WebsocketHub

/-- `msgs` is history: what has been appended. -/
structure LagState where
  q : MessageQueue
  x : Listener
  msgs : List Bytes

inductive LagAction
  /-- a complete call of `Append` -/
  | append (m : Bytes)
  /-- the next step of the listener -/
  | listener (quit : Bool)
deriving DecidableEq, Repr

namespace LagState

section Defs

variable (L : Limits) (s : LagState)

/-- How many messages have left the chain. -/
def removed : ℕ := s.msgs.length - s.q.chain.length

/-- The position of the next message to be delivered. -/
def pos : ℕ := s.x.start + s.x.sent.length

end Defs

end LagState

section Defs

variable (L : Limits)

def lagNext (s : LagState) : LagAction → Option LagState
  | .append m =>
    match append L (7 * s.q.fresh + 15) s.q (some m) with
    | some (.ok q) => some { s with q := q, msgs := s.msgs ++ [m] }
    | _ => none
  | .listener quit =>
    match listenerStep s.q quit s.x.pc with
    | some (.ok pc) => some { s with x := s.x.moveTo s.removed pc }
    | _ => none

def lagRun : Machine LagState LagAction where
  init := ⟨newQueue, listen, []⟩
  next := lagNext L

/-- When the listener advances from the message it has delivered last, it is not the case that this
message and those after it exceed the limit while those after it alone would fit. -/
def advancesInSync (s : LagState) (a : LagAction) : Bool :=
  match a, s.x.pc with
  | .listener _, .advance _ =>
    !(L.maxsize < total L.weight (s.msgs.drop (s.pos - 1)) &&
      total L.weight (s.msgs.drop s.pos) ≤ L.maxsize)
  | _, _ => true

/-- Where the listener stands, by position; `o` messages have been removed.  With `d = 0` a stale link
means that the next message has been removed, with `d = 1` only that the last one has. -/
def LagAt (d : ℕ) (s : LagState) (o : ℕ) : ListenerPc → Prop
  | .start => s.x.sent = []
  | .loop p => (p = some (entryAt s.pos) ∧ s.pos ≤ s.msgs.length) ∨ (p = some staleEntry ∧ s.pos < o + d)
  | .wait p => p = some (entryAt s.pos) ∧ s.pos ≤ s.msgs.length
  | .readMsg e => e = entryAt s.pos ∧ s.pos < s.msgs.length
  | .select e m => e = entryAt s.pos ∧ s.msgs[s.pos]? = some m
  | .advance e => ∃ j, s.pos = j + 1 ∧ e = entryAt j ∧ j < s.msgs.length
  | .closed => s.pos < o + d
  | .quit => True

structure LagFacts (d : ℕ) (s : LagState) (o : ℕ) : Prop where
  backlog : Backlog L s.msgs o s.q
  longest : s.msgs.drop o = longestSuffix L.weight L.maxsize s.msgs
  pc : LagAt d s o s.x.pc
  sent : ∀ i e m, s.x.sent[i]? = some (e, m) → e = entryAt (s.x.start + i)

end Defs

variable {L : Limits} {d : ℕ} {s s' : LagState} {o : ℕ}

theorem entryAt_ne_stale (i : ℕ) : entryAt i ≠ staleEntry := by
  unfold entryAt initialEntry staleEntry
  exact Nat.ne_of_gt (Nat.lt_of_lt_of_le Nat.zero_lt_one (Nat.le_add_right 1 i))

theorem LagFacts.removed_eq (h : LagFacts L d s o) : s.removed = o := by
  have hle := h.backlog.le
  rw [LagState.removed, h.backlog.chain_eq, List.length_map, List.length_range']
  omega

/-- What has not been removed fits. -/
theorem LagFacts.fits (h : LagFacts L d s o) {j : ℕ} (hj : o ≤ j) :
    total L.weight (s.msgs.drop j) ≤ L.maxsize := by
  have hsuffix : s.msgs.drop j <:+ s.msgs.drop o := by
    obtain ⟨d, rfl⟩ := Nat.le.dest hj
    rw [← List.drop_drop]
    exact List.drop_suffix d _
  have hle : total L.weight (s.msgs.drop o) ≤ L.maxsize := by
    rw [h.longest]
    exact total_longestSuffix_le L.maxsize_nonneg _
  exact Int.le_trans (total_le_of_suffix (fun m => Int.le_of_lt (weight_pos m)) hsuffix) hle

/-- A removed message exceeds the limit together with those after it. -/
theorem LagFacts.exceeds (h : LagFacts L d s o) {j : ℕ} (hj : j < o) :
    L.maxsize < total L.weight (s.msgs.drop j) := by
  by_contra hfit
  have hsuffix := suffix_longestSuffix (List.drop_suffix j s.msgs) (Int.not_lt.mp hfit)
  rw [← h.longest] at hsuffix
  have hlen := hsuffix.length_le
  have hle := h.backlog.le
  rw [List.length_drop, List.length_drop] at hlen
  omega

/-- The link of an entry that holds a message. -/
theorem LagFacts.next_eq (h : LagFacts L d s o) {j : ℕ} (hj : j < s.msgs.length) :
    (s.q.heap (entryAt j)).next = if j < o then some staleEntry else some (entryAt (j + 1)) := by
  have hx : s.msgs[j]? = some s.msgs[j] := List.getElem?_eq_getElem hj
  split
  · next hlt => rw [h.backlog.removed j _ hlt hx]
  · next hge => rw [h.backlog.kept j _ (Nat.not_lt.mp hge) hx]

theorem LagFacts.entry (h : LagFacts L d s o) {j : ℕ} {m : Bytes} (hx : s.msgs[j]? = some m) :
    (s.q.heap (entryAt j)).msg = some m ∧ (s.q.heap (entryAt j)).valid = 0 := by
  rcases Nat.lt_or_ge j o with hj | hj
  · rw [h.backlog.removed j m hj hx]
    exact ⟨rfl, rfl⟩
  · rw [h.backlog.kept j m hj hx]
    exact ⟨rfl, rfl⟩

/-- An append has enough fuel. -/
theorem LagFacts.fuel (h : LagFacts L d s o) : 7 * s.msgs.length + 15 ≤ 7 * s.q.fresh + 15 := by
  have hfresh : s.msgs.length ≤ s.q.fresh := by
    rw [h.backlog.fresh]
    exact Nat.le_trans (Nat.le_succ _) (Nat.le_add_left _ _)
  exact Nat.add_le_add_right (Nat.mul_le_mul_left 7 hfresh) 15

theorem lagFacts_init : LagFacts L d (lagRun L).init 0 where
  backlog := backlog_newQueue
  longest := rfl
  pc := rfl
  sent := by simp [lagRun, listen]

/-- A complete append: the listener stands where it stood. -/
theorem LagFacts.append (h : LagFacts L d s o) {m : Bytes} {q' : MessageQueue}
    (hrun : append L (7 * s.q.fresh + 15) s.q (some m) = some (.ok q')) :
    ∃ o', LagFacts L d { s with q := q', msgs := s.msgs ++ [m] } o' := by
  obtain ⟨o', q'', hrun', hb, hsuffix⟩ := append_spec h.backlog h.longest m h.fuel
  obtain rfl : q' = q'' := by simpa using hrun.symm.trans hrun'
  refine ⟨o', hb, hsuffix, ?_, h.sent⟩
  have hlen : (s.msgs ++ [m]).length = s.msgs.length + 1 := List.length_append
  -- more messages, and no fewer removals
  have hoo : o ≤ o' := by
    by_contra hlt
    have hfit : total L.weight (s.msgs.drop o') ≤ L.maxsize := by
      have hle : total L.weight ((s.msgs ++ [m]).drop o') ≤ L.maxsize := by
        rw [hsuffix]
        exact total_longestSuffix_le L.maxsize_nonneg _
      have hle' := h.backlog.le
      rw [List.drop_append_of_le_length (by omega)] at hle
      exact Int.le_trans (total_le_total_concat (fun m => Int.le_of_lt (weight_pos m)) _ m) hle
    exact absurd (h.exceeds (Nat.not_le.mp hlt)) (Int.not_lt.mpr hfit)
  have hpc := h.pc
  show LagAt d { s with q := q', msgs := s.msgs ++ [m] } o' s.x.pc
  cases hp : s.x.pc with
  | start =>
    rw [hp] at hpc
    exact hpc
  | loop p =>
    rw [hp] at hpc
    rcases hpc with ⟨h1, h2⟩ | ⟨h1, h2⟩
    · exact .inl ⟨h1, by rw [hlen]; exact Nat.le_succ_of_le h2⟩
    · exact .inr ⟨h1, Nat.lt_of_lt_of_le h2 (Nat.add_le_add_right hoo d)⟩
  | wait p =>
    rw [hp] at hpc
    exact ⟨hpc.1, by rw [hlen]; exact Nat.le_succ_of_le hpc.2⟩
  | readMsg e =>
    rw [hp] at hpc
    exact ⟨hpc.1, by rw [hlen]; exact Nat.lt_succ_of_lt hpc.2⟩
  | select e x =>
    rw [hp] at hpc
    exact ⟨hpc.1, QueueState.getElem?_mono (List.prefix_append _ _) hpc.2⟩
  | advance e =>
    rw [hp] at hpc
    obtain ⟨j, h1, h2, h3⟩ := hpc
    exact ⟨j, h1, h2, by rw [hlen]; exact Nat.lt_succ_of_lt h3⟩
  | closed =>
    rw [hp] at hpc
    exact Nat.lt_of_lt_of_le hpc (Nat.add_le_add_right hoo d)
  | quit => trivial

/-- **Step lemma** of the listener. -/
theorem LagFacts.listener (h : LagFacts L d s o) {quit : Bool} {pc : ListenerPc}
    (hok : 0 < d ∨ advancesInSync L s (.listener quit) = true)
    (hx : listenerStep s.q quit s.x.pc = some (.ok pc)) :
    LagFacts L d { s with x := s.x.moveTo s.removed pc } o := by
  have hpc := h.pc
  -- a step that is neither the read of `q.oldest` nor a send
  have hmove : s.x.pc ≠ .start → (∀ e m e', s.x.pc = .select e m → pc ≠ .advance e') →
      LagAt d s o pc → LagFacts L d { s with x := s.x.moveTo s.removed pc } o := by
    intro h1 h2 h3
    rw [QueueState.moveTo_eq h1 h2]
    refine ⟨h.backlog, h.longest, ?_, h.sent⟩
    show LagAt d { s with x := { s.x with pc := pc } } o pc
    cases pc <;> exact h3
  cases hp : s.x.pc with
  | start =>
    rw [hp] at hpc hx
    have hnil : s.x.sent = [] := hpc
    obtain rfl : .loop s.q.oldest = pc := by simpa [listenerStep] using hx
    have hmv : s.x.moveTo s.removed (.loop s.q.oldest) =
        { s.x with pc := .loop s.q.oldest, first := s.q.oldest, start := o } := by
      simp [Listener.moveTo, hp, h.removed_eq]
    rw [hmv]
    refine ⟨h.backlog, h.longest, .inl ⟨?_, ?_⟩, ?_⟩
    · rw [h.backlog.oldest]
      simp [LagState.pos, hnil]
    · simpa [LagState.pos, hnil] using h.backlog.le
    · simp [hnil]
  | loop p =>
    rw [hp] at hpc hx
    by_cases hst : p = some staleEntry
    · obtain rfl : .closed = pc := by simpa [listenerStep, hst] using hx
      refine hmove (by simp [hp]) (by simp) ?_
      rcases hpc with ⟨h1, -⟩ | ⟨-, h2⟩
      · exact absurd (Option.some.inj (h1.symm.trans hst)) (entryAt_ne_stale _)
      · exact h2
    · obtain rfl : .wait p = pc := by simpa [listenerStep, hst] using hx
      refine hmove (by simp [hp]) (by simp) ?_
      rcases hpc with h1 | ⟨h1, -⟩
      · exact h1
      · exact absurd h1 hst
  | wait p =>
    rw [hp] at hpc hx
    obtain ⟨rfl, hle⟩ := hpc
    by_cases hv : (s.q.heap (entryAt s.pos)).valid = 0
    · obtain rfl : .readMsg (entryAt s.pos) = pc := by simpa [listenerStep, hv] using hx
      refine hmove (by simp [hp]) (by simp) ⟨rfl, ?_⟩
      -- the placeholder is not valid
      refine Nat.lt_of_le_of_ne hle fun heq => ?_
      rw [heq, h.backlog.last] at hv
      cases hv
    · simp [listenerStep, hv] at hx
  | readMsg e =>
    rw [hp] at hpc hx
    obtain ⟨rfl, hlt⟩ := hpc
    have hm : s.msgs[s.pos]? = some s.msgs[s.pos] := List.getElem?_eq_getElem hlt
    obtain rfl : .select (entryAt s.pos) s.msgs[s.pos] = pc := by
      simpa [listenerStep, (h.entry hm).1] using hx
    exact hmove (by simp [hp]) (by simp) ⟨rfl, hm⟩
  | select e m =>
    rw [hp] at hpc hx
    obtain ⟨rfl, hm⟩ := hpc
    cases quit with
    | true =>
      obtain rfl : .quit = pc := by simpa [listenerStep] using hx
      exact hmove (by simp [hp]) (by simp) trivial
    | false =>
      obtain rfl : .advance (entryAt s.pos) = pc := by simpa [listenerStep] using hx
      have hmv : s.x.moveTo s.removed (.advance (entryAt s.pos)) =
          { s.x with pc := .advance (entryAt s.pos), sent := s.x.sent ++ [(entryAt s.pos, m)] } := by
        simp [Listener.moveTo, hp]
      rw [hmv]
      refine ⟨h.backlog, h.longest, ⟨s.pos, ?_, rfl, (List.getElem?_eq_some_iff.mp hm).1⟩, ?_⟩
      · simp only [LagState.pos, List.length_append, List.length_singleton, Nat.add_assoc]
      · intro i e' m' hi
        rcases QueueState.getElem?_concat hi with hi | ⟨rfl, heq⟩
        · exact h.sent i e' m' hi
        · cases heq
          rfl
  | advance e =>
    rw [hp] at hpc hx
    obtain ⟨j, hj, rfl, hlt⟩ := hpc
    obtain rfl : .loop (s.q.heap (entryAt j)).next = pc := by simpa [listenerStep] using hx
    refine hmove (by simp [hp]) (by simp) ?_
    have hnext := h.next_eq hlt
    split at hnext
    · next hjo =>
      -- in sync, the next message has been removed as well
      refine .inr ⟨hnext, ?_⟩
      rcases hok with hd | hok
      · omega
      have hexc := h.exceeds hjo
      by_contra hge
      have hfit := h.fits (j := s.pos) (by omega)
      have hj' : s.pos - 1 = j := by omega
      simp [advancesInSync, hp, hj', hexc, hfit] at hok
    · next hjo => exact .inl ⟨by rw [hnext, hj], by omega⟩
  | closed => simp [listenerStep, hp] at hx
  | quit => simp [listenerStep, hp] at hx

/-- **Step lemma**. -/
theorem LagFacts.step (h : LagFacts L d s o) {a : LagAction}
    (hok : 0 < d ∨ advancesInSync L s a = true)
    (hn : lagNext L s a = some s') : ∃ o', LagFacts L d s' o' := by
  cases a with
  | append m =>
    unfold lagNext at hn
    dsimp only at hn
    split at hn
    · next q' hrun =>
      obtain rfl := Option.some.inj hn
      exact h.append hrun
    · cases hn
  | listener quit =>
    unfold lagNext at hn
    dsimp only at hn
    split at hn
    · next pc hx =>
      obtain rfl := Option.some.inj hn
      exact ⟨o, h.listener hok hx⟩
    · cases hn

theorem lagFacts_of_reaches (h : (lagRun L).Reaches (fun s a => advancesInSync L s a = true) s) :
    ∃ o, LagFacts L 0 s o :=
  h.invariant (I := fun s => ∃ o, LagFacts L 0 s o) ⟨0, lagFacts_init⟩
    fun _ _ _ ⟨_, hI⟩ hok hn => hI.step (.inr hok) hn

theorem lagFacts_of_reachable (h : (lagRun L).Reachable s) : ∃ o, LagFacts L 1 s o :=
  h.invariant (I := fun s => ∃ o, LagFacts L 1 s o) ⟨0, lagFacts_init⟩
    fun _ _ _ ⟨_, hI⟩ _ hn => hI.step (.inl Nat.zero_lt_one) hn

/-- Every call of `Append` returns, and the listener never panics. -/
theorem lag_no_panic (h : (lagRun L).Reachable s) :
    (∀ m, ∃ q', append L (7 * s.q.fresh + 15) s.q (some m) = some (.ok q')) ∧
      ∀ quit p, listenerStep s.q quit s.x.pc ≠ some (.error p) := by
  obtain ⟨o, hf⟩ := lagFacts_of_reachable h
  constructor
  · intro m
    obtain ⟨o', q', hrun, -⟩ := append_spec hf.backlog hf.longest m hf.fuel
    exact ⟨q', hrun⟩
  · intro quit p hx
    have hpc := hf.pc
    rcases listenerStep_error hx with ⟨-, hp⟩ | ⟨-, e, hp, hm⟩
    · rw [hp] at hpc
      cases hpc.1
    · rw [hp] at hpc
      obtain ⟨rfl, hlt⟩ := hpc
      rw [(hf.entry (List.getElem?_eq_getElem hlt)).1] at hm
      cases hm

/-! ## The runs of `lagRun` are runs of the queue -/

theorem moveTo_sent {x y : Listener} (hpc : x.pc = y.pc) (hsent : x.sent = y.sent) (n k : ℕ)
    (pc : ListenerPc) : (x.moveTo n pc).sent = (y.moveTo k pc).sent := by
  unfold Listener.moveTo
  rw [hpc]
  split
  · exact hsent
  · show x.sent ++ _ = y.sent ++ _
    rw [hsent]
  · exact hsent

/-- **Simulation**: whatever complete appends and a listener do, `queueRun` does with the single steps
of the appends. -/
theorem queueRun_of_lagRun (h : (lagRun L).Reachable s) : ∃ u, (queueRun L).Reachable u ∧ Idle u ∧
    u.q = s.q ∧ ∃ x, u.listeners 0 = some x ∧ x.pc = s.x.pc ∧ x.sent = s.x.sent := by
  refine h.invariant (I := fun s => ∃ u, (queueRun L).Reachable u ∧ Idle u ∧ u.q = s.q ∧
    ∃ x, u.listeners 0 = some x ∧ x.pc = s.x.pc ∧ x.sent = s.x.sent) ?_ ?_
  · have hn : queueNext L QueueState.init (.listen 0) =
        some (QueueState.init.setListener 0 listen) := rfl
    exact ⟨QueueState.init.setListener 0 listen,
      Machine.Reaches.step (a := .listen 0) Machine.Reaches.init hn trivial,
      ⟨rfl, idle_init.quiescent, idle_init.free⟩, rfl, listen,
      QueueState.setListener_listeners _ _ _ 0, rfl, rfl⟩
  rintro s a s' ⟨u, hu, hidle, hq, x, hx, hpc, hsent⟩ - hn
  cases a with
  | append m =>
    have hn : lagNext L s (.append m) = some s' := hn
    unfold lagNext at hn
    dsimp only at hn
    split at hn
    · next q' hrun =>
      obtain rfl := Option.some.inj hn
      rw [← hq] at hrun
      obtain ⟨u', hp, hq', hidle', hlist⟩ := path_of_append hidle hrun
      exact ⟨u', hu.path hp, hidle', hq', x, by rw [hlist, hx], hpc, hsent⟩
    · cases hn
  | listener quit =>
    have hn : lagNext L s (.listener quit) = some s' := hn
    unfold lagNext at hn
    dsimp only at hn
    split at hn
    · next pc hstep =>
      obtain rfl := Option.some.inj hn
      have hn' : queueNext L u (.listener 0 quit) =
          some (u.setListener 0 (x.moveTo u.removers.length pc)) := by
        simp only [queueNext, hidle.panic, queueAct, hx, hpc, hq, hstep]
      refine ⟨_, hu.step hn' trivial, ⟨hidle.panic, hidle.quiescent, hidle.free⟩, hq,
        x.moveTo u.removers.length pc, QueueState.setListener_listeners _ _ _ 0, ?_,
        moveTo_sent hpc hsent _ _ pc⟩
      rw [QueueState.moveTo_pc, QueueState.moveTo_pc]
    · cases hn

/-- A position is the position of one entry only. -/
theorem entryAt_not_mem_chain (h : LagFacts L d s o) {i : ℕ} (hi : i < o) : entryAt i ∉ s.q.chain := by
  rw [h.backlog.chain_eq]
  intro hmem
  obtain ⟨j, hj, heq⟩ := List.mem_map.mp hmem
  have hj' := List.mem_range'_1.mp hj
  have := entryAt_inj.mp heq
  omega

/-- **No spurious out-of-sync**: if a listener has closed its channel, a message that comes after all
it has delivered has left the queue; so it never closes when it has delivered everything. -/
theorem no_spurious_out_of_sync
    (h : (lagRun L).Reaches (fun s a => advancesInSync L s a = true) s) :
    (s.x.pc = .closed → ∃ i < s.msgs.length, entryAt i ∉ s.q.chain ∧
      ∀ r ∈ s.x.sent, ∃ j < i, r.1 = entryAt j) ∧
    ((∀ i < s.msgs.length, s.x.start ≤ i → ∃ r ∈ s.x.sent, r.1 = entryAt i) →
      s.x.pc ≠ .closed) := by
  obtain ⟨o, hf⟩ := lagFacts_of_reaches h
  have hle := hf.backlog.le
  have hlt : s.x.pc = .closed → s.pos < o := by
    intro hclosed
    have hpc := hf.pc
    rw [hclosed] at hpc
    exact hpc
  have hbefore : ∀ r ∈ s.x.sent, ∃ j < s.pos, r.1 = entryAt j := by
    rintro ⟨e, m⟩ hr
    obtain ⟨i, hi⟩ := List.mem_iff_getElem?.mp hr
    have hlen := (List.getElem?_eq_some_iff.mp hi).1
    exact ⟨s.x.start + i, Nat.add_lt_add_left hlen _, hf.sent i e m hi⟩
  constructor
  · intro hclosed
    have hpos := hlt hclosed
    exact ⟨s.pos, by omega, entryAt_not_mem_chain hf hpos, hbefore⟩
  · intro hall hclosed
    have hpos := hlt hclosed
    obtain ⟨r, hr, heq⟩ := hall s.pos (by omega) (Nat.le_add_right _ _)
    obtain ⟨j, hj, heq'⟩ := hbefore r hr
    exact absurd (entryAt_inj.mp (heq.symm.trans heq')) (Nat.ne_of_gt hj)

/-- Two messages are appended and removed while the listener waits for the first; it delivers the
first and finds out that it has lost the second. -/
theorem no_spurious_out_of_sync_of_lost_message : ∃ s : LagState,
    (lagRun (backlogOf 0)).Reaches (fun s a => advancesInSync (backlogOf 0) s a = true) s ∧
    s.x.pc = .closed ∧ s.x.sent = [(1, [7])] ∧ ∃ i < s.msgs.length, entryAt i ∉ s.q.chain ∧
      ∀ r ∈ s.x.sent, ∃ j < i, r.1 = entryAt j := by
  obtain ⟨s, h, hc⟩ := Machine.exists_of_runIf (lagRun (backlogOf 0)) (advancesInSync (backlogOf 0))
    (lagRun (backlogOf 0)).init
    (List.replicate 2 (.listener false) ++ [.append [7], .append [8]] ++
      List.replicate 5 (.listener false))
    (fun s => s.x.pc = .closed && s.x.sent = [(1, [7])]) (by decide)
  simp only [Bool.and_eq_true, decide_eq_true_eq] at hc
  exact ⟨s, h, hc.1, hc.2, (no_spurious_out_of_sync h).1 hc.1⟩

/-- **The oversized message**: its own append removes it.  The listener has delivered it and everything
else, and is cut off. -/
theorem cut_off_in_sync : ¬ ∀ (L : Limits) (s : LagState), (lagRun L).Reachable s →
    s.x.pc = .closed → ∃ i < s.msgs.length, entryAt i ∉ s.q.chain ∧
      ∀ r ∈ s.x.sent, ∃ j < i, r.1 = entryAt j := by
  intro hall
  obtain ⟨s, h, hc⟩ := Machine.exists_of_run (lagRun (backlogOf 0)) (lagRun (backlogOf 0)).init
    (List.replicate 2 (.listener false) ++ [.append [7]] ++ List.replicate 5 (.listener false))
    (fun s => s.x.pc = .closed && s.x.sent = [(1, [7])] && s.msgs.length = 1) (by decide)
  simp only [Bool.and_eq_true, decide_eq_true_eq] at hc
  obtain ⟨⟨hclosed, hsent⟩, hlen⟩ := hc
  obtain ⟨i, hi, -, hall⟩ := hall (backlogOf 0) s h hclosed
  obtain ⟨j, hj, -⟩ := hall (1, [7]) (by rw [hsent]; exact List.mem_singleton_self _)
  omega

end WebsocketHub
