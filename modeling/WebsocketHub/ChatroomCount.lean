import WebsocketHub.ChatroomIds

/-!
# WebsocketHub.ChatroomCount — what becomes of `cr.l.clients` and `cr.connectedclients`

`registryRun` is the room in verbose mode with a log of the statements that change the map and the
counter.  `Tally` is the invariant: every list of the log says at which statement the goroutines of a
client stand, so that in the end they have the same length.
-/

namespace WebsocketHub

open ChatroomState

section Defs

/-- The statements executed so far, with the id and the client they are about. -/
structure RegistryLog where
  /-- `cr.l.clients[id] = c` -/
  inserted : List (UInt32 × Cid)
  /-- `cr.connectedclients.inc()` -/
  counted : List Cid
  /-- `delete(cr.l.clients, id)`, in a call of `l_delClient(id, c)` -/
  removed : List (UInt32 × Cid)
  /-- `cr.connectedclients.dec()`, in such a call -/
  uncounted : List (UInt32 × Cid)
  /-- such a call has returned -/
  finished : List (UInt32 × Cid)
deriving DecidableEq, Repr

namespace RegistryLog

def empty : RegistryLog := ⟨[], [], [], [], []⟩

/-- The next step of `l_addClient`. -/
def add (l : RegistryLog) (c : Cid) (x : Client) : RegistryLog :=
  match x.reader with
  | .add .insert => { l with inserted := l.inserted ++ [(x.id, c)] }
  | .add .count => { l with counted := l.counted ++ [c] }
  | _ => l

/-- The next step of `l_delClient`. -/
def del (l : RegistryLog) (y : Deletion) : RegistryLog :=
  match y.pc with
  | .delete => { l with removed := l.removed ++ [(y.id, y.client)] }
  | .count => { l with uncounted := l.uncounted ++ [(y.id, y.client)] }
  | .unlock => { l with finished := l.finished ++ [(y.id, y.client)] }
  | _ => l

end RegistryLog

/-- The goroutine that takes the step, if it is one that may call `l_delClient`. -/
def ChatroomAction.thread : ChatroomAction → Option Thread
  | .reader c _ => some (.reader c)
  | .writer c _ => some (.writer c)
  | .del d => some (.del d)
  | _ => none

/-- What a step adds to the log. -/
def RegistryLog.record (s : ChatroomState) (a : ChatroomAction) (l : RegistryLog) : RegistryLog :=
  match a.thread.bind s.delAt, a with
  | some y, _ => l.del y
  | none, .reader c _ => ((s.conns c).map (l.add c)).getD l
  | none, _ => l

/-- The room in verbose mode, with its log. -/
def registryRun (L : Limits) : Machine (ChatroomState × RegistryLog) ChatroomAction :=
  (chatRun true L).logged RegistryLog.record .empty

/-- `l_addClient` has counted the client. -/
def ReaderPc.counted : ReaderPc → Bool
  | .add _ => false
  | _ => true

def Counted (s : ChatroomState) (c : Cid) : Prop :=
  ∃ x, s.conns c = some x ∧ x.reader.counted = true

/-- A call of `l_delClient` that has removed its entry, or found none, holds the lock. -/
def ReaderPc.behind (r : ReaderPc) : Bool := r.delPc.any DelPc.gone

def WriterPc.behind (w : WriterPc) : Bool := w.delPc.any DelPc.gone

/-- No call of `l_addClient` or `l_delClient` is in progress. -/
def NoCall (s : ChatroomState) : Prop :=
  (∀ c x p, s.conns c = some x → x.reader ≠ .add p) ∧
    ∀ U y, s.delAt U = some y → y.pc = .returned

/-- The map, the connections and the counter are what the log says. -/
structure Consistent (s : ChatroomState) (l : RegistryLog) : Prop where
  /-- a joined client has an id of its own -/
  ids : ∀ e ∈ l.inserted, ∀ e' ∈ l.inserted, e.1 = e'.1 → e = e'
  /-- it is in the map under that id from its insertion until its removal -/
  entries : ∀ id c, s.clients.lookup id = some c ↔ (id, c) ∈ l.inserted ∧ (id, c) ∉ l.removed
  /-- every call of `l_delClient` that has returned was the one that removed it, or came later -/
  finished : ∀ e ∈ l.finished, e ∈ l.removed
  /-- its connection is closed then -/
  closed : ∀ e ∈ l.removed, e ∈ l.inserted ∧ RawClosed s e.2
  /-- it is inserted, removed and counted down once -/
  inserted_once : l.inserted.Nodup
  removed_once : l.removed.Nodup
  uncounted_once : l.uncounted.Nodup
  /-- it is counted down by the call that has removed it -/
  uncounted : ∀ id c, (id, c) ∈ l.uncounted ↔
    (id, c) ∈ l.removed ∧ ∀ U, s.delAt U ≠ some ⟨id, c, .count⟩
  /-- a deletion removes the entry of its own client -/
  own : ∀ U y, s.delAt U = some y → y.pc = .delete → s.clients.lookup y.id = some y.client
  balance : NoCall s → s.connectedclients.toNat = s.clients.entries.length

/-- What the log has to do with the goroutines. -/
structure Tally (s : ChatroomState) (l : RegistryLog) : Prop where
  pos : ∀ c x, s.conns c = some x → x.reader ≠ .add .inc → x.id ≠ 0
  inserted : ∀ id c, (id, c) ∈ l.inserted ↔ Member s id c
  entry : ∀ id c, s.clients.lookup id = some c ↔ (id, c) ∈ l.inserted ∧ (id, c) ∉ l.removed
  closed : ∀ e ∈ l.removed, RawClosed s e.2
  counted : ∀ c, c ∈ l.counted ↔ Counted s c
  uncounted : ∀ id c, (id, c) ∈ l.uncounted ↔
    (id, c) ∈ l.removed ∧ ∀ U, s.delAt U ≠ some ⟨id, c, .count⟩
  gone : ∀ U y, s.delAt U = some y → y.pc.gone = true → (y.id, y.client) ∈ l.removed
  finished : ∀ e ∈ l.finished, e ∈ l.removed
  member : ∀ e ∈ l.removed, e ∈ l.inserted
  inserted_once : l.inserted.Nodup
  counted_once : l.counted.Nodup
  removed_once : l.removed.Nodup
  uncounted_once : l.uncounted.Nodup
  total : s.connectedclients = .ofNat l.counted.length - .ofNat l.uncounted.length

end Defs

variable {L : Limits} {s s' m : ChatroomState} {a : ChatroomAction} {c : Cid} {x x' : Client}
  {l : RegistryLog} {U : Thread} {y : Deletion} {p : DelPc}

/-! ## The log of a step -/

theorem nodup_append_singleton {α : Type*} {l : List α} {e : α} (hl : l.Nodup) (he : e ∉ l) :
    (l ++ [e]).Nodup := by
  rw [← List.concat_eq_append]
  exact hl.concat he

theorem record_del (ha : a.thread = some U) (hy : s.delAt U = some y) :
    RegistryLog.record s a l = l.del y := by
  simp only [RegistryLog.record, ha, Option.bind_some, hy]

theorem record_reader {i : Option Bytes} (hc : s.conns c = some x)
    (hr : ∀ p, x.reader ≠ .del p) : RegistryLog.record s (.reader c i) l = l.add c x := by
  have hnone : s.delAt (.reader c) = none := by
    rw [Option.eq_none_iff_forall_ne_some]
    intro y hy
    obtain ⟨x₁, p, hx₁, hp, -⟩ := delAt_reader.mp hy
    obtain rfl := Option.some.inj (hc.symm.trans hx₁)
    exact hr p hp
  simp only [RegistryLog.record, ChatroomAction.thread, Option.bind_some, hnone, hc, Option.map_some,
    Option.getD_some]

theorem record_writer {ok : Bool} (hc : s.conns c = some x) (hw : ∀ p, x.writer ≠ .del p) :
    RegistryLog.record s (.writer c ok) l = l := by
  have hnone : s.delAt (.writer c) = none := by
    rw [Option.eq_none_iff_forall_ne_some]
    intro y hy
    obtain ⟨x₁, p, hx₁, hp, -⟩ := delAt_writer.mp hy
    obtain rfl := Option.some.inj (hc.symm.trans hx₁)
    exact hw p hp
  simp only [RegistryLog.record, ChatroomAction.thread, Option.bind_some, hnone]

/-! ## Deletions, one at a time -/

/-- While one goroutine takes a step of `l_delClient`, no other is behind the lock. -/
theorem DelStep.alone {verbose : Bool} (h : DelStep verbose s U y m p) (hr : Roster s)
    (hy : s.delAt U = some y) {V : Thread} {z : Deletion} (hz : s.delAt V = some z)
    (hin : z.pc.inside = true) : V = U := by
  have hV := (hr.del V z hz).holds hin
  have hself : y.pc.inside = true → V = U := by
    intro hy'
    have hU := (hr.del U y hy).holds hy'
    exact Option.some.inj (hV.symm.trans hU)
  cases h with
  | lock hpc hfree =>
    simp only [canLock, Bool.and_eq_true, Option.isNone_iff_eq_none] at hfree
    rw [hfree.1] at hV
    cases hV
  | _ hpc => exact hself (by rw [hpc]; rfl)

theorem member_of_runDel {verbose : Bool} {id : UInt32} (h : WebsocketHub.runDel verbose s U = some s') :
    Member s' id c ↔ Member s id c := by
  have hins : ∀ {x x' : Client}, DelMoves x x' →
      (x'.reader.inserted = true ↔ x.reader.inserted = true) := by
    intro x x' hm
    rcases hm.reader with heq | ⟨p, p', hp, hp'⟩
    · rw [heq]
    · rw [hp, hp']
      cases p' <;> exact ⟨fun _ => rfl, fun _ => rfl⟩
  constructor
  · rintro ⟨x', hx', hid, hi⟩
    obtain ⟨x, hx, hm⟩ := runDel_conn h hx'
    exact ⟨x, hx, hm.id.symm.trans hid, (hins hm).mp hi⟩
  · rintro ⟨x, hx, hid, hi⟩
    obtain ⟨x', hx', hm⟩ := runDel_conn_of h hx
    exact ⟨x', hx', hm.id.trans hid, (hins hm).mpr hi⟩

theorem counted_of_runDel {verbose : Bool} (h : WebsocketHub.runDel verbose s U = some s') :
    Counted s' c ↔ Counted s c := by
  have hcnt : ∀ {x x' : Client}, DelMoves x x' →
      (x'.reader.counted = true ↔ x.reader.counted = true) := by
    intro x x' hm
    rcases hm.reader with heq | ⟨p, p', hp, hp'⟩
    · rw [heq]
    · rw [hp, hp']
      cases p' <;> exact ⟨fun _ => rfl, fun _ => rfl⟩
  constructor
  · rintro ⟨x', hx', hi⟩
    obtain ⟨x, hx, hm⟩ := runDel_conn h hx'
    exact ⟨x, hx, (hcnt hm).mp hi⟩
  · rintro ⟨x, hx, hi⟩
    obtain ⟨x', hx', hm⟩ := runDel_conn_of h hx
    exact ⟨x', hx', (hcnt hm).mpr hi⟩

theorem rawClosed_of_runDel {verbose : Bool} (h : WebsocketHub.runDel verbose s U = some s')
    (hc : RawClosed s c) : RawClosed s' c := by
  obtain ⟨x, hx, hraw⟩ := hc
  obtain ⟨x', hx', hmv⟩ := runDel_conn_of h hx
  exact ⟨x', hx', hmv.raw hraw⟩

theorem moveDel_connectedclients (p : DelPc) (U : Thread) :
    (s.moveDel p U).connectedclients = s.connectedclients := by
  cases U <;> rfl

namespace Tally

theorem init : Tally ChatroomState.init .empty where
  pos := fun c x h => by cases h
  inserted := by
    intro id c
    constructor
    · intro h
      cases h
    · rintro ⟨x, hx, -⟩
      cases hx
  entry := by
    intro id c
    constructor
    · intro h
      cases h
    · rintro ⟨h, -⟩
      cases h
  closed := fun e h => by cases h
  counted := by
    intro c
    constructor
    · intro h
      cases h
    · rintro ⟨x, hx, -⟩
      cases hx
  uncounted := by
    intro id c
    constructor
    · intro h
      cases h
    · rintro ⟨h, -⟩
      cases h
  gone := fun U y h => by cases U <;> cases h
  finished := fun e h => by cases h
  member := fun e h => by cases h
  inserted_once := List.nodup_nil
  counted_once := List.nodup_nil
  removed_once := List.nodup_nil
  uncounted_once := List.nodup_nil
  total := rfl

/-- A step that leaves the log alone. -/
theorem quiet (h : Tally s l) (hclients : s'.clients = s.clients)
    (htotal : s'.connectedclients = s.connectedclients)
    (hpos : ∀ c x', s'.conns c = some x' → x'.reader ≠ .add .inc → x'.id ≠ 0)
    (hmember : ∀ id c, Member s' id c ↔ Member s id c) (hcounted : ∀ c, Counted s' c ↔ Counted s c)
    (hraw : ∀ c, RawClosed s c → RawClosed s' c)
    (hdel : ∀ U y, y.pc.gone = true → (s'.delAt U = some y ↔ s.delAt U = some y)) :
    Tally s' l where
  pos := hpos
  inserted := fun id c => (h.inserted id c).trans (hmember id c).symm
  entry := by
    intro id c
    rw [hclients]
    exact h.entry id c
  closed := fun e he => hraw _ (h.closed e he)
  counted := fun c => (h.counted c).trans (hcounted c).symm
  uncounted := by
    intro id c
    rw [h.uncounted id c]
    refine and_congr_right fun _ => forall_congr' fun U => ?_
    rw [not_iff_not]
    exact (hdel U _ rfl).symm
  gone := fun U y hy hg => h.gone U y ((hdel U y hg).mp hy) hg
  finished := h.finished
  member := h.member
  inserted_once := h.inserted_once
  counted_once := h.counted_once
  removed_once := h.removed_once
  uncounted_once := h.uncounted_once
  total := htotal.trans h.total

/-- A step that changes no client. -/
theorem same (h : Tally s l) (hclients : s'.clients = s.clients)
    (htotal : s'.connectedclients = s.connectedclients) (hconns : s'.conns = s.conns)
    (hdels : ∀ d y, y.pc.gone = true → (s'.dels d = some y ↔ s.dels d = some y)) : Tally s' l := by
  refine h.quiet hclients htotal (by rw [hconns]; exact h.pos) ?_ ?_ ?_ ?_
  · intro id c
    simp only [Member, hconns]
  · intro c
    simp only [Counted, hconns]
  · intro c hc
    simpa only [RawClosed, hconns] using hc
  · intro V y hg
    cases V with
    | reader d => simp only [delAt, hconns]
    | writer d => simp only [delAt, hconns]
    | del d => exact hdels d y hg

/-- Such a step changes at most one client. -/
theorem one (h : Tally s l) (hclients : s'.clients = s.clients)
    (htotal : s'.connectedclients = s.connectedclients) (hdels : s'.dels = s.dels)
    (hne : ∀ d, d ≠ c → s'.conns d = s.conns d)
    (hpos : ∀ x', s'.conns c = some x' → x'.reader ≠ .add .inc → x'.id ≠ 0)
    (hmember : ∀ id, Member s' id c ↔ Member s id c) (hcounted : Counted s' c ↔ Counted s c)
    (hraw : RawClosed s c → RawClosed s' c)
    (hr : ∀ y, y.pc.gone = true →
      (s'.delAt (.reader c) = some y ↔ s.delAt (.reader c) = some y))
    (hw : ∀ y, y.pc.gone = true →
      (s'.delAt (.writer c) = some y ↔ s.delAt (.writer c) = some y)) : Tally s' l := by
  refine h.quiet hclients htotal ?_ ?_ ?_ ?_ ?_
  · intro d y hd hy
    by_cases heq : d = c
    · exact hpos y (heq ▸ hd) hy
    · exact h.pos d y (hne d heq ▸ hd) hy
  · intro id d
    by_cases heq : d = c
    · exact heq ▸ hmember id
    · simp only [Member, hne d heq]
  · intro d
    by_cases heq : d = c
    · exact heq ▸ hcounted
    · simp only [Counted, hne d heq]
  · intro d hd
    by_cases heq : d = c
    · exact heq ▸ hraw (heq ▸ hd)
    · simpa only [RawClosed, hne d heq] using hd
  · intro V y hg
    cases V with
    | reader d =>
      by_cases heq : d = c
      · exact heq ▸ hr y hg
      · simp only [delAt, hne d heq]
    | writer d =>
      by_cases heq : d = c
      · exact heq ▸ hw y hg
      · simp only [delAt, hne d heq]
    | del d => simp only [delAt, hdels]

/-- A step of a goroutine of client `c`. -/
theorem set (h : Tally s l) (hclients : s'.clients = s.clients)
    (htotal : s'.connectedclients = s.connectedclients) (hdels : s'.dels = s.dels)
    (hc : s.conns c = some x) (hconns : s'.conns = Function.update s.conns c (some x'))
    (hid : x'.id = x.id) (hraw : x'.raw = x.raw)
    (hinc : x'.reader ≠ .add .inc → x.reader ≠ .add .inc)
    (hins : x'.reader.inserted = x.reader.inserted) (hcnt : x'.reader.counted = x.reader.counted)
    (hr : x'.reader = x.reader ∨ x'.reader.behind = false ∧ x.reader.behind = false)
    (hw : x'.writer = x.writer ∨ x'.writer.behind = false ∧ x.writer.behind = false) :
    Tally s' l := by
  have hc' : s'.conns c = some x' := by rw [hconns, Function.update_self]
  refine h.one hclients htotal hdels (fun d hd => by rw [hconns, Function.update_of_ne hd])
    ?_ ?_ ?_ ?_ ?_ ?_
  · intro y hy hne
    obtain rfl := Option.some.inj (hc'.symm.trans hy)
    rw [hid]
    exact h.pos c x hc (hinc hne)
  · intro id
    simp only [Member, hc, hc', Option.some.injEq, exists_eq_left', hid, hins]
  · simp only [Counted, hc, hc', Option.some.injEq, exists_eq_left', hcnt]
  · intro hx
    simpa only [RawClosed, hc, hc', Option.some.injEq, exists_eq_left', hraw] using hx
  · intro y hg
    rw [delAt_reader_of hc', delAt_reader_of hc, hid]
    refine exists_congr fun p => and_congr_left ?_
    rintro rfl
    rcases hr with hr | ⟨hr', hr⟩
    · rw [hr]
    · refine ⟨fun hp => ?_, fun hp => ?_⟩
      · rw [hp] at hr'
        cases hg.symm.trans hr'
      · rw [hp] at hr
        cases hg.symm.trans hr
  · intro y hg
    rw [delAt_writer_of hc', delAt_writer_of hc, hid]
    refine exists_congr fun p => and_congr_left ?_
    rintro rfl
    rcases hw with hw | ⟨hw', hw⟩
    · rw [hw]
    · refine ⟨fun hp => ?_, fun hp => ?_⟩
      · rw [hp] at hw'
        cases hg.symm.trans hw'
      · rw [hp] at hw
        cases hg.symm.trans hw

/-- A client that has no id yet: it comes to the room or gets its id. -/
theorem fresh (h : Tally s l) (hclients : s'.clients = s.clients)
    (htotal : s'.connectedclients = s.connectedclients) (hdels : s'.dels = s.dels)
    (hold : ∀ x, s.conns c = some x → x.reader = .add .inc ∧ x.writer = .notSpawned ∧
      x'.raw = x.raw)
    (hconns : s'.conns = Function.update s.conns c (some x'))
    (hr : x'.reader = .add .inc ∨ x'.reader = .add .lock ∧ x'.id ≠ 0)
    (hw : x'.writer = .notSpawned) : Tally s' l := by
  have hc' : s'.conns c = some x' := by rw [hconns, Function.update_self]
  have hnot : ∀ p, x'.reader ≠ .del p := by rcases hr with hr | ⟨hr, -⟩ <;> simp [hr]
  refine h.one hclients htotal hdels (fun d hd => by rw [hconns, Function.update_of_ne hd])
    ?_ ?_ ?_ ?_ ?_ ?_
  · intro y hy hne
    obtain rfl := Option.some.inj (hc'.symm.trans hy)
    exact (hr.resolve_left hne).2
  · intro id
    constructor
    · rintro ⟨y, hy, -, hi⟩
      obtain rfl := Option.some.inj (hc'.symm.trans hy)
      rcases hr with hr | ⟨hr, -⟩ <;> (rw [hr] at hi; cases hi)
    · rintro ⟨y, hy, -, hi⟩
      rw [(hold y hy).1] at hi
      cases hi
  · constructor
    · rintro ⟨y, hy, hi⟩
      obtain rfl := Option.some.inj (hc'.symm.trans hy)
      rcases hr with hr | ⟨hr, -⟩ <;> (rw [hr] at hi; cases hi)
    · rintro ⟨y, hy, hi⟩
      rw [(hold y hy).1] at hi
      cases hi
  · rintro ⟨y, hy, hraw⟩
    exact ⟨x', hc', (hold y hy).2.2.trans hraw⟩
  · intro y _
    constructor
    · intro hy
      obtain ⟨p, hp, -⟩ := (delAt_reader_of hc').mp hy
      exact absurd hp (hnot p)
    · intro hy
      obtain ⟨y, p, hy', hp, -⟩ := delAt_reader.mp hy
      rw [(hold y hy').1] at hp
      cases hp
  · intro y _
    constructor
    · intro hy
      obtain ⟨p, hp, -⟩ := (delAt_writer_of hc').mp hy
      rw [hw] at hp
      cases hp
    · intro hy
      obtain ⟨y, p, hy', hp, -⟩ := delAt_writer.mp hy
      rw [(hold y hy').2.1] at hp
      cases hp

/-- A step of `l_addClient`: what is left to show when the reader has moved on. -/
theorem of_add (h : Tally s l) {l' : RegistryLog} (hc : s.conns c = some x)
    (hconns : s'.conns = Function.update s.conns c (some x')) (hdels : s'.dels = s.dels)
    (hid : x'.id = x.id) (hraw : x'.raw = x.raw) (hw : x'.writer = x.writer)
    (hinc : x.reader ≠ .add .inc) (hr : x.reader.delPc = none) (hr' : x'.reader.delPc = none)
    (hremoved : l'.removed = l.removed) (huncounted : l'.uncounted = l.uncounted)
    (hfinished : l'.finished = l.finished)
    (hinserted : ∀ id d, (id, d) ∈ l'.inserted ↔ Member s' id d)
    (hentry : ∀ id d, s'.clients.lookup id = some d ↔ (id, d) ∈ l'.inserted ∧ (id, d) ∉ l.removed)
    (hcounted : ∀ d, d ∈ l'.counted ↔ Counted s' d) (hgrows : l.inserted ⊆ l'.inserted)
    (hinserted_once : l'.inserted.Nodup) (hcounted_once : l'.counted.Nodup)
    (htotal : s'.connectedclients = .ofNat l'.counted.length - .ofNat l.uncounted.length) :
    Tally s' l' := by
  have hc' : s'.conns c = some x' := by rw [hconns, Function.update_self]
  have hne : ∀ d, d ≠ c → s'.conns d = s.conns d := fun d hd => by
    rw [hconns, Function.update_of_ne hd]
  have hdel : ∀ V, s'.delAt V = s.delAt V :=
    delAt_of_set_same hc hconns hdels hid (hr'.trans hr.symm) (by rw [hw])
  constructor
  case pos =>
    intro d y hd hy
    by_cases heq : d = c
    · subst heq
      obtain rfl := Option.some.inj (hc'.symm.trans hd)
      rw [hid]
      exact h.pos d x hc hinc
    · exact h.pos d y (hne d heq ▸ hd) hy
  case inserted => exact hinserted
  case entry =>
    rw [hremoved]
    exact hentry
  case closed =>
    intro e he
    obtain ⟨y, hy, hy'⟩ := h.closed e (hremoved ▸ he)
    by_cases heq : e.2 = c
    · obtain rfl := Option.some.inj (hc.symm.trans (heq ▸ hy))
      exact ⟨x', by rw [heq, hc'], hraw.trans hy'⟩
    · exact ⟨y, (hne _ heq).trans hy, hy'⟩
  case counted => exact hcounted
  case uncounted =>
    intro id d
    simp only [hdel, hremoved, huncounted]
    exact h.uncounted id d
  case gone =>
    intro V y hy hg
    rw [hremoved]
    exact h.gone V y (hdel V ▸ hy) hg
  case finished =>
    rw [hremoved, hfinished]
    exact h.finished
  case member =>
    rw [hremoved]
    exact fun e he => hgrows (h.member e he)
  case inserted_once => exact hinserted_once
  case counted_once => exact hcounted_once
  case removed_once => exact hremoved ▸ h.removed_once
  case uncounted_once => exact huncounted ▸ h.uncounted_once
  case total => exact huncounted ▸ htotal

/-- `cr.l.clients[id] = c`, where nobody is in the map under `id`. -/
theorem addInsert (h : Tally s l) (hc : s.conns c = some x) (hr : x.reader = .add .insert)
    (hfresh : s.clients.lookup x.id = none)
    (hs : s' = { s with clients := s.clients.insert x.id c }.setConn c
      { x with reader := .add .unlock }) :
    Tally s' { l with inserted := l.inserted ++ [(x.id, c)] } := by
  have hconns : s'.conns = Function.update s.conns c (some { x with reader := .add .unlock }) := by
    rw [hs]
    rfl
  have hc' : s'.conns c = some { x with reader := .add .unlock } := by
    rw [hconns, Function.update_self]
  have hne : ∀ d, d ≠ c → s'.conns d = s.conns d := fun d hd => by
    rw [hconns, Function.update_of_ne hd]
  have hclients : s'.clients = s.clients.insert x.id c := by rw [hs]; rfl
  have hnot : ∀ id, ¬Member s id c := by
    rintro id ⟨y, hy, -, hi⟩
    obtain rfl := Option.some.inj (hc.symm.trans hy)
    rw [hr] at hi
    cases hi
  have hnew : (x.id, c) ∉ l.inserted := fun hi => hnot _ ((h.inserted _ _).mp hi)
  refine h.of_add hc hconns (by rw [hs]; rfl) rfl rfl rfl (by simp [hr]) (by rw [hr]; rfl) rfl rfl rfl
    rfl ?_ ?_ ?_ (List.subset_append_left _ _) (nodup_append_singleton h.inserted_once hnew)
    h.counted_once (by rw [hs]; exact h.total)
  · intro id d
    rw [List.mem_append, List.mem_singleton, h.inserted id d]
    by_cases heq : d = c
    · subst heq
      have hmem : Member s' id d ↔ x.id = id := by
        simp only [Member, hc', Option.some.injEq, exists_eq_left', ReaderPc.inserted, and_true]
      rw [hmem, or_iff_right (hnot id), Prod.mk.injEq, and_iff_left rfl, eq_comm]
    · simp only [Member, hne d heq, Prod.mk.injEq, heq, and_false, or_false]
  · intro id d
    rw [hclients, List.mem_append, List.mem_singleton]
    by_cases heq : id = x.id
    · subst heq
      rw [AList.lookup_insert]
      constructor
      · intro hd
        obtain rfl := Option.some.inj hd
        exact ⟨.inr rfl, fun hrem => hnew (h.member _ hrem)⟩
      · rintro ⟨hd | hd, hrem⟩
        · have := (h.entry x.id d).mpr ⟨hd, hrem⟩
          rw [hfresh] at this
          cases this
        · rw [(Prod.mk.inj hd).2]
    · rw [AList.lookup_insert_ne heq, h.entry id d]
      simp [heq]
  · intro d
    rw [h.counted d]
    by_cases heq : d = c
    · subst heq
      simp only [Counted, hc, hc', Option.some.injEq, exists_eq_left', hr]
      rfl
    · simp only [Counted, hne d heq]

/-- `cr.connectedclients.inc()`. -/
theorem addCount (h : Tally s l) (hc : s.conns c = some x) (hr : x.reader = .add .count)
    (hs : s' = { s with connectedclients := s.connectedclients + 1 }.setConn c
      { x with reader := .read }) :
    Tally s' { l with counted := l.counted ++ [c] } := by
  have hconns : s'.conns = Function.update s.conns c (some { x with reader := .read }) := by
    rw [hs]
    rfl
  have hc' : s'.conns c = some { x with reader := .read } := by rw [hconns, Function.update_self]
  have hne : ∀ d, d ≠ c → s'.conns d = s.conns d := fun d hd => by
    rw [hconns, Function.update_of_ne hd]
  have hnew : c ∉ l.counted := by
    intro hcnt
    obtain ⟨y, hy, hi⟩ := (h.counted c).mp hcnt
    obtain rfl := Option.some.inj (hc.symm.trans hy)
    rw [hr] at hi
    cases hi
  refine h.of_add hc hconns (by rw [hs]; rfl) rfl rfl rfl (by simp [hr]) (by rw [hr]; rfl) rfl rfl rfl
    rfl ?_ (by rw [hs]; exact h.entry) ?_ (List.Subset.refl _) h.inserted_once
    (nodup_append_singleton h.counted_once hnew) ?_
  · intro id d
    rw [h.inserted id d]
    by_cases heq : d = c
    · subst heq
      simp only [Member, hc, hc', Option.some.injEq, exists_eq_left', hr]
      rfl
    · simp only [Member, hne d heq]
  · intro d
    rw [List.mem_append, List.mem_singleton, h.counted d]
    by_cases heq : d = c
    · subst heq
      exact iff_of_true (.inr rfl) ⟨_, hc', rfl⟩
    · simp only [Counted, hne d heq, heq, or_false]
  · have htotal : s'.connectedclients = s.connectedclients + 1 := by rw [hs]; rfl
    rw [htotal, h.total, List.length_append, List.length_singleton, UInt32.ofNat_add]
    grind

/-- A step of `l_delClient`: what is left to show when the goroutines of the clients have moved on. -/
theorem of_runDel (h : Tally s l) {l' : RegistryLog} (hroster : Roster s)
    (hd : WebsocketHub.runDel true s U = some s') (hy : s.delAt U = some y)
    (hs : DelStep true s U y m p) (hs' : s' = m.moveDel p U)
    (hinserted : l'.inserted = l.inserted) (hcounted : l'.counted = l.counted)
    (hentry : ∀ id c, s'.clients.lookup id = some c ↔ (id, c) ∈ l.inserted ∧ (id, c) ∉ l'.removed)
    (hclosed : ∀ e ∈ l'.removed, RawClosed s' e.2)
    (huncounted : ∀ id c, (id, c) ∈ l'.uncounted ↔
      (id, c) ∈ l'.removed ∧ ¬(p = .count ∧ id = y.id ∧ c = y.client))
    (hgone : p.gone = true → (y.id, y.client) ∈ l'.removed)
    (hfinished : ∀ e ∈ l'.finished, e ∈ l'.removed) (hmember : ∀ e ∈ l'.removed, e ∈ l.inserted)
    (hremoved_once : l'.removed.Nodup) (huncounted_once : l'.uncounted.Nodup)
    (htotal : s'.connectedclients = .ofNat l.counted.length - .ofNat l'.uncounted.length) :
    Tally s' l' := by
  have hm : m.delAt U = some y := (hs.delAt_eq U).trans hy
  -- no other goroutine is behind the lock
  have hself : ∀ V z, s'.delAt V = some z → z.pc.gone = true → V = U ∧ z = { y with pc := p } := by
    intro V z hz hg
    rw [hs'] at hz
    rcases delAt_moveDel hm hz with hV | ⟨hne, hz'⟩
    · exact hV
    · rw [hs.delAt_eq V] at hz'
      exact absurd (hs.alone hroster hy hz' (DelPc.inside_of_gone hg)) hne
  constructor
  case pos =>
    intro c x' hc hr
    obtain ⟨x, hx, hmv⟩ := runDel_conn hd hc
    rw [hmv.id]
    refine h.pos c x hx ?_
    rcases hmv.reader with heq | ⟨q, q', hq, -⟩
    · rw [← heq]
      exact hr
    · simp [hq]
  case inserted =>
    intro id c
    rw [hinserted, h.inserted, member_of_runDel hd]
  case entry =>
    intro id c
    rw [hinserted]
    exact hentry id c
  case closed => exact hclosed
  case counted =>
    intro c
    rw [hcounted, h.counted, counted_of_runDel hd]
  case uncounted =>
    intro id c
    rw [huncounted]
    refine and_congr_right fun _ => ?_
    constructor
    · intro hno V hV
      obtain ⟨-, heq⟩ := hself V _ hV rfl
      obtain ⟨h1, h2, h3⟩ := Deletion.mk.inj heq
      exact hno ⟨h3.symm, h1, h2⟩
    · rintro hno ⟨rfl, rfl, rfl⟩
      refine hno U ?_
      rw [hs']
      exact delAt_moveDel_self hm (by simp)
  case gone =>
    intro V z hz hg
    obtain ⟨-, rfl⟩ := hself V z hz hg
    exact hgone hg
  case finished => exact hfinished
  case member =>
    rw [hinserted]
    exact hmember
  case inserted_once => exact hinserted ▸ h.inserted_once
  case counted_once => exact hcounted ▸ h.counted_once
  case removed_once => exact hremoved_once
  case uncounted_once => exact huncounted_once
  case total => exact hcounted ▸ htotal

/-- Who is counted down, seen from the goroutine that is in `l_delClient`. -/
theorem uncounted_alone (h : Tally s l) (hroster : Roster s) (hy : s.delAt U = some y)
    (hs : DelStep true s U y m p) (id : UInt32) (c : Cid) : (id, c) ∈ l.uncounted ↔
      (id, c) ∈ l.removed ∧ ¬(y.pc = .count ∧ id = y.id ∧ c = y.client) := by
  rw [h.uncounted]
  refine and_congr_right fun _ => ?_
  constructor
  · rintro hno ⟨hpc, rfl, rfl⟩
    refine hno U (hy.trans ?_)
    rw [← hpc]
  · intro hno V hV
    obtain rfl := hs.alone hroster hy hV rfl
    obtain rfl := Option.some.inj (hy.symm.trans hV)
    exact hno ⟨rfl, rfl, rfl⟩

/-- A step of `l_delClient` that the log does not show. -/
theorem still (h : Tally s l) (hroster : Roster s) (hd : WebsocketHub.runDel true s U = some s')
    (hy : s.delAt U = some y) (hs : DelStep true s U y m p) (hs' : s' = m.moveDel p U)
    (hclients : m.clients = s.clients) (htotal : m.connectedclients = s.connectedclients)
    (hpc : y.pc ≠ .count) (hp : p ≠ .count)
    (hgone : p.gone = true → (y.id, y.client) ∈ l.removed) : Tally s' l := by
  refine h.of_runDel hroster hd hy hs hs' rfl rfl ?_ (fun e he => rawClosed_of_runDel hd (h.closed e he))
    ?_ hgone h.finished h.member h.removed_once h.uncounted_once ?_
  · intro id c
    rw [hs', moveDel_clients, hclients]
    exact h.entry id c
  · intro id c
    rw [h.uncounted_alone hroster hy hs]
    simp [hpc, hp]
  · rw [hs', moveDel_connectedclients, htotal]
    exact h.total

/-- `delete(cr.l.clients, id)`. -/
theorem delDelete (h : Tally s l) (hroster : Roster s)
    (hown : ∀ c, s.clients.lookup y.id = some c → c = y.client)
    (hd : WebsocketHub.runDel true s U = some s') (hy : s.delAt U = some y) (hpc : y.pc = .delete)
    (hs' : s' = { s with clients := s.clients.erase y.id }.moveDel .count U) :
    Tally s' { l with removed := l.removed ++ [(y.id, y.client)] } := by
  have hdel := hroster.del U y hy
  have hs : DelStep true s U y _ .count := .delete hpc
  have hun := h.uncounted_alone hroster hy hs
  obtain ⟨hin, hout⟩ := (h.entry _ _).mp (hdel.found (by rw [hpc]; rfl))
  refine h.of_runDel hroster hd hy hs hs' rfl rfl ?_ ?_ ?_ ?_ ?_ ?_ ?_ h.uncounted_once ?_
  · intro id c
    rw [hs', moveDel_clients, List.mem_append, List.mem_singleton]
    by_cases heq : id = y.id
    · subst heq
      rw [AList.lookup_erase]
      constructor
      · intro hno
        cases hno
      · rintro ⟨hc, hno⟩
        have hl := (h.entry _ _).mpr ⟨hc, fun hrem => hno (.inl hrem)⟩
        exact absurd (.inr (by rw [hown c hl])) hno
    · rw [AList.lookup_erase_ne heq, h.entry]
      simp [heq]
  · intro e he
    rcases List.mem_append.mp he with he | he
    · exact rawClosed_of_runDel hd (h.closed e he)
    · rw [List.mem_singleton.mp he]
      exact rawClosed_of_runDel hd (hdel.closed hpc)
  · intro id c
    rw [hun, List.mem_append, List.mem_singleton]
    by_cases heq : (id, c) = (y.id, y.client)
    · obtain ⟨rfl, rfl⟩ := Prod.mk.inj heq
      simp [hout]
    · have hne : ¬(id = y.id ∧ c = y.client) := fun h => heq (by rw [h.1, h.2])
      simp [heq, hne]
  · exact fun _ => List.mem_append_right _ (List.mem_singleton.mpr rfl)
  · exact fun e he => List.mem_append_left _ (h.finished e he)
  · intro e he
    rcases List.mem_append.mp he with he | he
    · exact h.member e he
    · rw [List.mem_singleton.mp he]
      exact hin
  · exact nodup_append_singleton h.removed_once hout
  · rw [hs', moveDel_connectedclients]
    exact h.total

/-- `cr.connectedclients.dec()`. -/
theorem delCount (h : Tally s l) (hroster : Roster s) (hd : WebsocketHub.runDel true s U = some s')
    (hy : s.delAt U = some y) (hpc : y.pc = .count)
    (hs' : s' = { s with
      connectedclients := SafeUint32.dec s.connectedclients }.moveDel .unlock U) :
    Tally s' { l with uncounted := l.uncounted ++ [(y.id, y.client)] } := by
  have hs : DelStep true s U y _ .unlock := .count hpc
  have hun := h.uncounted_alone hroster hy hs
  have hrem := h.gone U y hy (by rw [hpc]; rfl)
  have hnew : (y.id, y.client) ∉ l.uncounted := fun hno => ((hun _ _).mp hno).2 ⟨hpc, rfl, rfl⟩
  refine h.of_runDel hroster hd hy hs hs' rfl rfl ?_
    (fun e he => rawClosed_of_runDel hd (h.closed e he)) ?_ (fun _ => hrem) h.finished h.member
    h.removed_once (nodup_append_singleton h.uncounted_once hnew) ?_
  · intro id c
    rw [hs', moveDel_clients]
    exact h.entry id c
  · intro id c
    rw [List.mem_append, List.mem_singleton, hun]
    by_cases heq : (id, c) = (y.id, y.client)
    · obtain ⟨rfl, rfl⟩ := Prod.mk.inj heq
      simp [hrem]
    · have hne : ¬(id = y.id ∧ c = y.client) := fun h => heq (by rw [h.1, h.2])
      simp [heq, hne]
  · rw [hs', moveDel_connectedclients, List.length_append, List.length_singleton, UInt32.ofNat_add]
    simp only [SafeUint32.dec_eq, h.total]
    grind

/-- `cr.l.clientsL.Unlock()`, behind which the call returns. -/
theorem delUnlock (h : Tally s l) (hroster : Roster s) (hd : WebsocketHub.runDel true s U = some s')
    (hy : s.delAt U = some y) (hpc : y.pc = .unlock) (hs' : s' = s.unlock.moveDel .returned U) :
    Tally s' { l with finished := l.finished ++ [(y.id, y.client)] } := by
  have hs : DelStep true s U y _ .returned := .unlock hpc
  have hrem := h.gone U y hy (by rw [hpc]; rfl)
  refine h.of_runDel hroster hd hy hs hs' rfl rfl ?_
    (fun e he => rawClosed_of_runDel hd (h.closed e he)) ?_ (by simp [DelPc.gone]) ?_ h.member
    h.removed_once h.uncounted_once ?_
  · intro id c
    rw [hs', moveDel_clients]
    exact h.entry id c
  · intro id c
    rw [h.uncounted_alone hroster hy hs]
    simp [hpc]
  · intro e he
    rcases List.mem_append.mp he with he | he
    · exact h.finished e he
    · rw [List.mem_singleton.mp he]
      exact hrem
  · rw [hs', moveDel_connectedclients]
    exact h.total

/-- The step lemma of `l_delClient`. -/
theorem runDel (h : Tally s l) (hroster : Roster s)
    (hown : ∀ c, s.clients.lookup y.id = some c → c = y.client)
    (hd : WebsocketHub.runDel true s U = some s') (hy : s.delAt U = some y)
    (hs : DelStep true s U y m p) (hs' : s' = m.moveDel p U) : Tally s' (l.del y) := by
  have hstill := h.still hroster hd hy hs hs'
  unfold RegistryLog.del
  cases hs with
  | lock hpc hfree =>
    rw [hpc]
    exact hstill rfl rfl (by simp [hpc]) (by simp) (by simp [DelPc.gone])
  | found hpc hl =>
    rw [hpc]
    exact hstill rfl rfl (by simp [hpc]) (by simp) (by simp [DelPc.gone])
  | absent hpc hl =>
    rw [hpc]
    refine hstill rfl rfl (by simp [hpc]) (by simp) fun _ => ?_
    by_contra hno
    rw [(h.entry _ _).mpr ⟨(h.inserted _ _).mpr (hroster.del U y hy).member, hno⟩] at hl
    cases hl
  | rawClose hpc =>
    rw [hpc]
    exact hstill rfl rfl (by simp [hpc]) (by simp) (by simp [DelPc.gone])
  | delete hpc =>
    rw [hpc]
    exact h.delDelete hroster hown hd hy hpc hs'
  | count hpc =>
    rw [hpc]
    exact h.delCount hroster hd hy hpc hs'
  | unlock hpc =>
    rw [hpc]
    exact h.delUnlock hroster hd hy hpc hs'

/-- A step of a reader that the log does not show. -/
theorem reader {r r' : ReaderPc} (h : Tally s l) (hclients : s'.clients = s.clients)
    (htotal : s'.connectedclients = s.connectedclients) (hdels : s'.dels = s.dels)
    (hc : s.conns c = some x) (hconns : s'.conns = Function.update s.conns c (some x'))
    (hid : x'.id = x.id) (hraw : x'.raw = x.raw) (hr : x.reader = r) (hr' : x'.reader = r')
    (hinc : r ≠ .add .inc) (hins : r'.inserted = r.inserted) (hcnt : r'.counted = r.counted)
    (hbehind : r.behind = false) (hbehind' : r'.behind = false)
    (hw : x'.writer = x.writer ∨ x'.writer.behind = false ∧ x.writer.behind = false) :
    Tally s' l := by
  subst hr hr'
  exact h.set hclients htotal hdels hc hconns hid hraw (fun _ => hinc) hins hcnt
    (.inr ⟨hbehind', hbehind⟩) hw

/-- A step of one of the other goroutines of the client. -/
theorem writer {w w' : WriterPc} (h : Tally s l) (hclients : s'.clients = s.clients)
    (htotal : s'.connectedclients = s.connectedclients) (hdels : s'.dels = s.dels)
    (hc : s.conns c = some x) (hconns : s'.conns = Function.update s.conns c (some x'))
    (hid : x'.id = x.id) (hraw : x'.raw = x.raw) (hr : x'.reader = x.reader)
    (hw : x.writer = w) (hw' : x'.writer = w') (hbehind : w.behind = false)
    (hbehind' : w'.behind = false) : Tally s' l := by
  subst hw hw'
  exact h.set hclients htotal hdels hc hconns hid hraw (fun hne => hr ▸ hne) (by rw [hr]) (by rw [hr])
    (.inl hr) (.inr ⟨hbehind', hbehind⟩)

/-- **Step lemma**. -/
theorem step (h : Tally s l) (hsp : Spawned s) (hnew : NewDel s) (hroster : Roster s) (hids : Ids s)
    (hok : countsOn s a = true) (hs : ChatStep true L s a s') : Tally s' (RegistryLog.record s a l) := by
  have hdel : ∀ {U}, a.thread = some U → WebsocketHub.runDel true s U = some s' →
      Tally s' (RegistryLog.record s a l) := by
    intro U ha hd
    obtain ⟨y, m, p, hy, hst, hs'⟩ := runDel_cases hd
    rw [record_del ha hy]
    exact h.runDel hroster (own_of_ids hroster hids hy) hd hy hst hs'
  -- a reader that is not in `l_delClient`, and what it writes into the log
  have hlog : ∀ {c x r i}, s.conns c = some x → x.reader = r → (∀ p, r ≠ .del p) →
      a = .reader c i → RegistryLog.record s a l = l.add c x := by
    rintro c x r i hc hr hne rfl
    exact record_reader hc (by simpa [hr] using hne)
  cases hs with
  | connect hc => exact h.fresh rfl rfl rfl (by simp [hc]) rfl (.inl rfl) rfl
  | addInc hc hr =>
    rw [hlog hc hr (by simp) rfl, RegistryLog.add, hr]
    simp only [countsOn, hc, Option.all_some, Bool.or_eq_true, decide_eq_true_eq] at hok
    have hw := hsp _ _ hc (by rw [hr]; rfl)
    refine h.fresh rfl rfl rfl ?_ rfl (.inr ⟨rfl, hok.resolve_left (by simp [hr])⟩) hw
    intro y hy
    obtain rfl := Option.some.inj (hc.symm.trans hy)
    exact ⟨hr, hw, rfl⟩
  | addLock hc hr hfree =>
    rw [hlog hc hr (by simp) rfl, RegistryLog.add, hr]
    exact h.reader rfl rfl rfl hc rfl rfl rfl hr rfl (by simp) rfl rfl rfl rfl (.inl rfl)
  | addInsert hc hr =>
    rw [hlog hc hr (by simp) rfl, RegistryLog.add, hr]
    exact h.addInsert hc hr (lookup_none_of_ids hroster hids hc hr) rfl
  | addUnlock hc hr =>
    rw [hlog hc hr (by simp) rfl, RegistryLog.add, hr]
    exact h.reader rfl rfl rfl hc rfl rfl rfl hr rfl (by simp) rfl rfl rfl rfl (.inl rfl)
  | addWatcher hc hr =>
    rw [hlog hc hr (by simp) rfl, RegistryLog.add, hr]
    exact h.reader rfl rfl rfl hc rfl rfl rfl hr rfl (by simp) rfl rfl rfl rfl (.inl rfl)
  | addWriter hc hr =>
    rw [hlog hc hr (by simp) rfl, RegistryLog.add, hr]
    have hw := hsp _ _ hc (by rw [hr]; rfl)
    exact h.reader rfl rfl rfl hc rfl rfl rfl hr rfl (by simp) rfl rfl rfl rfl
      (.inr ⟨rfl, by rw [hw]; rfl⟩)
  | addListen hc hr hq =>
    rw [hlog hc hr (by simp) rfl, RegistryLog.add, hr]
    exact h.reader rfl rfl rfl hc rfl rfl rfl hr rfl (by simp) rfl rfl rfl rfl (.inl rfl)
  | addCount hc hr =>
    rw [hlog hc hr (by simp) rfl, RegistryLog.add, hr]
    exact h.addCount hc hr rfl
  | readFails hc hr =>
    rw [hlog hc hr (by simp) rfl, RegistryLog.add, hr]
    exact h.reader rfl rfl rfl hc rfl rfl rfl hr rfl (by simp) rfl rfl rfl rfl (.inl rfl)
  | readMsg hc hr hq =>
    rw [hlog hc hr (by simp) rfl, RegistryLog.add, hr]
    exact h.reader rfl rfl rfl hc rfl rfl rfl hr rfl (by simp) rfl rfl rfl rfl (.inl rfl)
  | appendStep hc hr hq =>
    rw [hlog hc hr (by simp) rfl, RegistryLog.add, hr]
    exact h.same rfl rfl rfl fun _ _ _ => .rfl
  | appendReturns hc hr hret =>
    rw [hlog hc hr (by simp) rfl, RegistryLog.add, hr]
    exact h.reader rfl rfl rfl hc rfl rfl rfl hr rfl (by simp) rfl rfl rfl rfl (.inl rfl)
  | @readerCloses c x _ p p' _ hc hr hstep =>
    rw [hlog hc hr (by simp) rfl, RegistryLog.add, hr]
    cases p' <;> exact h.reader rfl rfl rfl hc rfl rfl rfl hr rfl (by simp) rfl rfl rfl rfl (.inl rfl)
  | readerClosePanics hc hr he =>
    rw [hlog hc hr (by simp) rfl, RegistryLog.add, hr]
    exact h.same rfl rfl rfl fun _ _ _ => .rfl
  | readerDel hd => exact hdel rfl hd
  | watcherWait hc hw hcl =>
    exact h.set rfl rfl rfl hc rfl rfl rfl id rfl rfl (.inl rfl) (.inl rfl)
  | watcherQuit hc hw =>
    exact h.set rfl rfl rfl hc rfl rfl rfl id rfl rfl (.inl rfl) (.inl rfl)
  | writerEnds hc hw hl =>
    rw [record_writer hc (by simp [hw])]
    exact h.writer rfl rfl rfl hc rfl rfl rfl rfl hw rfl rfl rfl
  | writeOk hc hw =>
    rw [record_writer hc (by simp [hw])]
    exact h.writer rfl rfl rfl hc rfl rfl rfl rfl hw rfl rfl rfl
  | writeFails hc hw =>
    rw [record_writer hc (by simp [hw])]
    exact h.writer rfl rfl rfl hc rfl rfl rfl rfl hw rfl rfl rfl
  | writerDel hd => exact hdel rfl hd
  | @writerCloses c x _ p p' _ hc hw hstep =>
    rw [record_writer hc (by simp [hw])]
    cases p' <;> exact h.writer rfl rfl rfl hc rfl rfl rfl rfl hw rfl rfl rfl
  | writerClosePanics hc hw he =>
    rw [record_writer hc (by simp [hw])]
    exact h.same rfl rfl rfl fun _ _ _ => .rfl
  | send hc hl hw hq => exact h.writer rfl rfl rfl hc rfl rfl rfl rfl hw rfl rfl rfl
  | listens hl hq => exact h.same rfl rfl rfl fun _ _ _ => .rfl
  | del hd => exact hdel rfl hd
  | close hk => exact h.same rfl rfl rfl fun _ _ _ => .rfl
  | rlock hk hfree => exact h.same rfl rfl rfl fun _ _ _ => .rfl
  | runlock hk => exact h.same rfl rfl rfl fun _ _ _ => .rfl
  | @spawn k i todo e hk hi =>
    refine h.same rfl rfl rfl fun d y hg => ?_
    simp only [Function.update_apply]
    split
    · next heq =>
      rw [heq, hnew _ (Nat.le_refl _)]
      refine ⟨fun hy => ?_, fun hy => by cases hy⟩
      obtain rfl := Option.some.inj hy
      cases hg
    · exact .rfl

end Tally

theorem tally_of_reaches {l : RegistryLog}
    (h : (registryRun L).Reaches (fun s a => countsOn s.1 a = true) (s, l)) :
    Tally s l ∧ Roster s ∧ Ids s := by
  suffices hI : Spawned s ∧ NewDel s ∧ Roster s ∧ Ids s ∧ Tally s l from
    ⟨hI.2.2.2.2, hI.2.2.1, hI.2.2.2.1⟩
  have hsp₀ : Spawned ChatroomState.init := fun c x hc => by cases hc
  refine h.invariant
    (I := fun s => Spawned s.1 ∧ NewDel s.1 ∧ Roster s.1 ∧ Ids s.1 ∧ Tally s.1 s.2)
    ⟨hsp₀, fun _ _ => rfl, .init, .init, .init⟩ ?_
  rintro ⟨s, l⟩ a ⟨s', l'⟩ ⟨hsp, hnew, hroster, hids, ht⟩ hok hn
  obtain ⟨hn', rfl⟩ := Machine.logged_cases hn
  have hs := (chatStep_of_next hn').2.2
  exact ⟨hsp.step hs, hnew.step hs, hroster.step hsp (idsUnused_of_ids hroster hids) hs,
    hids.step hok hs, ht.step hsp hnew hroster hids hok hs⟩

/-! ## The balance -/

namespace Tally

/-- Everyone who has been inserted is still in the map or has been removed. -/
theorem length_inserted (h : Tally s l) :
    l.inserted.length = s.clients.entries.length + l.removed.length := by
  let entries := s.clients.entries.map fun e => (e.1, e.2)
  have hmem : ∀ id c, (id, c) ∈ entries ↔ s.clients.lookup id = some c := by
    intro id c
    rw [← Option.mem_def, AList.mem_lookup_iff, List.mem_map]
    constructor
    · rintro ⟨⟨id', c'⟩, he, heq⟩
      obtain ⟨rfl, rfl⟩ := Prod.mk.inj heq
      exact he
    · intro he
      exact ⟨⟨id, c⟩, he, rfl⟩
  have hnodup : entries.Nodup := by
    refine List.Nodup.of_map Prod.fst ?_
    rw [List.map_map]
    exact s.clients.nodupKeys
  have happend : (entries ++ l.removed).Nodup := by
    refine List.nodup_append.mpr ⟨hnodup, h.removed_once, ?_⟩
    rintro ⟨id, c⟩ he e hrem rfl
    exact ((h.entry id c).mp ((hmem id c).mp he)).2 hrem
  have hperm : l.inserted.Perm (entries ++ l.removed) := by
    refine (List.perm_ext_iff_of_nodup h.inserted_once happend).mpr ?_
    rintro ⟨id, c⟩
    rw [List.mem_append, hmem, h.entry]
    constructor
    · intro hin
      by_cases hrem : (id, c) ∈ l.removed
      · exact .inr hrem
      · exact .inl ⟨hin, hrem⟩
    · rintro (⟨hin, -⟩ | hrem)
      · exact hin
      · exact h.member _ hrem
  rw [hperm.length_eq, List.length_append, List.length_map]

/-- Everyone who has been inserted has been counted, unless his `l_addClient` is still running. -/
theorem length_counted (h : Tally s l) (hno : NoCall s) :
    l.counted.length = l.inserted.length := by
  have hnodup : (l.inserted.map Prod.snd).Nodup := by
    refine List.Nodup.map_on ?_ h.inserted_once
    rintro ⟨id, c⟩ he ⟨id', c'⟩ he' heq
    obtain rfl : c = c' := heq
    obtain ⟨x, hx, rfl, -⟩ := (h.inserted id c).mp he
    obtain ⟨x', hx', rfl, -⟩ := (h.inserted id' c).mp he'
    obtain rfl := Option.some.inj (hx.symm.trans hx')
    rfl
  have hperm : l.counted.Perm (l.inserted.map Prod.snd) := by
    refine (List.perm_ext_iff_of_nodup h.counted_once hnodup).mpr fun c => ?_
    rw [h.counted, List.mem_map]
    constructor
    · rintro ⟨x, hx, hi⟩
      refine ⟨(x.id, c), (h.inserted _ _).mpr ⟨x, hx, rfl, ?_⟩, rfl⟩
      cases hr : x.reader with
      | add p => exact absurd hr (hno.1 c x p hx)
      | _ => rfl
    · rintro ⟨⟨id, c'⟩, he, rfl⟩
      obtain ⟨x, hx, -, hi⟩ := (h.inserted _ _).mp he
      refine ⟨x, hx, ?_⟩
      cases hr : x.reader with
      | add p => exact absurd hr (hno.1 c' x p hx)
      | _ => rfl
  rw [hperm.length_eq, List.length_map]

/-- Everyone who has been removed has been counted down, unless a deletion is still running. -/
theorem length_uncounted (h : Tally s l) (hno : NoCall s) :
    l.uncounted.length = l.removed.length := by
  refine ((List.perm_ext_iff_of_nodup h.uncounted_once h.removed_once).mpr ?_).length_eq
  rintro ⟨id, c⟩
  rw [h.uncounted, and_iff_left_iff_imp]
  intro _ U hU
  cases hno.2 U _ hU

/-- There are fewer than `2 ^ 32` entries: 0 is nobody's id. -/
theorem length_lt (h : Tally s l) (hroster : Roster s) :
    s.clients.entries.length < UInt32.size := by
  let ids := s.clients.entries.map fun e => e.1.toNat
  have hids : ∀ n ∈ ids, n ≠ 0 ∧ n < UInt32.size := by
    intro n hn
    obtain ⟨⟨id, c⟩, he, rfl⟩ := List.mem_map.mp hn
    obtain ⟨x, hx, hid, hi⟩ := hroster.entry id c (AList.mem_lookup_iff.mpr he)
    have hpos := h.pos c x hx (ReaderPc.ne_inc hi)
    refine ⟨fun h0 => hpos ?_, id.toNat_lt⟩
    rw [hid]
    exact UInt32.toNat_inj.mp h0
  have hnodup : (0 :: ids).Nodup := by
    refine List.nodup_cons.mpr ⟨fun h0 => (hids 0 h0).1 rfl, ?_⟩
    have hkeys : (s.clients.entries.map Sigma.fst).Nodup := s.clients.nodupKeys
    have := hkeys.map (f := UInt32.toNat) fun i j hij => UInt32.toNat_inj.mp hij
    rwa [List.map_map] at this
  have hsub : (0 :: ids) ⊆ List.range UInt32.size := by
    intro n hn
    rw [List.mem_range]
    rcases List.mem_cons.mp hn with rfl | hn
    · exact Nat.zero_lt_succ _
    · exact (hids n hn).2
  have hle := (List.subperm_of_subset hnodup hsub).length_le
  rw [List.length_range, List.length_cons, List.length_map] at hle
  exact hle

theorem balance (h : Tally s l) (hroster : Roster s) (hno : NoCall s) :
    s.connectedclients.toNat = s.clients.entries.length := by
  have h1 := h.length_inserted
  have h2 := h.length_counted hno
  have h3 := h.length_uncounted hno
  have htotal : s.connectedclients = .ofNat s.clients.entries.length := by
    rw [h.total, h2, h1, h3, UInt32.ofNat_add]
    grind
  rw [htotal]
  exact UInt32.toNat_ofNat_of_lt' (h.length_lt hroster)

theorem consistent (h : Tally s l) (hroster : Roster s) (hids : Ids s) : Consistent s l where
  ids := by
    rintro ⟨id, c⟩ he ⟨id', c'⟩ he' heq
    obtain rfl : id = id' := heq
    rw [Member.eq hids ((h.inserted id c).mp he) ((h.inserted id c').mp he')]
  entries := h.entry
  finished := h.finished
  closed := fun e he => ⟨h.member e he, h.closed e he⟩
  inserted_once := h.inserted_once
  removed_once := h.removed_once
  uncounted_once := h.uncounted_once
  uncounted := h.uncounted
  own := fun U y hy hpc => (hroster.del U y hy).found (by rw [hpc]; rfl)
  balance := h.balance hroster

end Tally

/-- **The registry is consistent** in verbose mode, as long as the ids do not wrap. -/
theorem registry_consistent
    (h : (registryRun L).Reaches (fun s a => countsOn s.1 a = true) (s, l)) : Consistent s l := by
  obtain ⟨ht, hroster, hids⟩ := tally_of_reaches h
  exact ht.consistent hroster hids

/-- Client 0 leaves while client 1 stays; `chatroom.Close` deletes both, 0 for the second time. -/
theorem registry_consistent_of_two_deletions : ∃ s l, l.removed = [(1, 0), (2, 1)] ∧
    l.finished = [(1, 0), (2, 1), (1, 0)] ∧ Consistent s l := by
  obtain ⟨s, hs, hp⟩ := Machine.exists_of_runIf (registryRun (backlogOf 100))
    (fun s a => countsOn s.1 a) (registryRun (backlogOf 100)).init
    (joinSteps 0 ++ joinSteps 1 ++ [.reader 0 none, .reader 1 none] ++ [.close 0, .closer 0 0] ++
      .closer 0 0 :: .closer 0 0 :: .closer 0 0 :: List.replicate 9 (.reader 0 none) ++
      List.replicate 6 (.del 0) ++ List.replicate 3 (.del 1))
    (fun s => s.2.removed = [(1, 0), (2, 1)] && s.2.finished = [(1, 0), (2, 1), (1, 0)])
    (by decide)
  simp only [Bool.and_eq_true, decide_eq_true_eq] at hp
  exact ⟨s.1, s.2, hp.1, hp.2, registry_consistent hs⟩

/-- In a run of the room itself: between the calls the counter says how many are in the map. -/
theorem connectedclients_eq
    (h : (chatRun true L).Reaches (fun s a => countsOn s a = true) s) (hno : NoCall s) :
    s.connectedclients.toNat = s.clients.entries.length := by
  obtain ⟨l, hl⟩ : ∃ l, (registryRun L).Reaches (fun s a => countsOn s.1 a = true) (s, l) :=
    Machine.exists_logged h
  obtain ⟨ht, hroster, -⟩ := tally_of_reaches hl
  exact ht.balance hroster hno

end WebsocketHub
