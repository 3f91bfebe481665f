import WebsocketHub.ServerRooms

/-!
# WebsocketHub.ServerNames — the room list `s.roomNames`

Every room that is made or purged issues an operation on `roomNames`, which is executed at any later
time.  `namesRun` is the server with the list of the operations issued and that of the operations
executed.  The last operation issued on a name says whether its room is cached, the last one executed
whether it is listed.
-/

namespace WebsocketHub

open ServerState

section Defs

/-- The operations on `roomNames`, in the order in which they are issued, and executed. -/
structure NamesLog where
  issued : List RoomNameOp
  executed : List RoomNameOp
deriving DecidableEq, Repr

/-- The operations that a `Get` issues. -/
def getOps (cfg : ServerConfig) (s : ServerState) (name victim : Bytes) : List RoomNameOp :=
  if (s.cache.lookup name).isSome then []
  else .add name :: if s.cache.keys.length < cfg.numRooms then [] else [.remove victim]

/-- What a step adds to the log. -/
def NamesLog.record (cfg : ServerConfig) (s : ServerState) (a : ServerAction) (l : NamesLog) :
    NamesLog :=
  match a with
  | .get i _ victim => { l with
      issued := l.issued ++ ((s.joins[i]?).map fun name => getOps cfg s name victim).getD [] }
  | .sync i => { l with executed := l.executed ++ (s.ops[i]?).toList }
  | _ => l

/-- The server with the log of `roomNames`. -/
def namesRun (cfg : ServerConfig) : Machine (ServerState × NamesLog) ServerAction :=
  (serverRun cfg).logged (NamesLog.record cfg) ⟨[], []⟩

/-- The last operation on a name. -/
def lastOp (l : List RoomNameOp) (name : Bytes) : Option RoomNameOp :=
  (l.filter fun op => op.name = name).getLast?

/-- The names of the cached rooms. -/
def cachedNames (s : ServerState) : Finset Bytes := s.cache.keys.toFinset

/-- What the operations have to do with the cache and the room list. -/
structure NamesOk (s : ServerState) (l : NamesLog) : Prop where
  perm : l.issued.Perm (l.executed ++ s.ops)
  cached : ∀ name, (s.cache.lookup name).isSome = true ↔ lastOp l.issued name = some (.add name)
  listed : ∀ name, name ∈ s.roomNames ↔ lastOp l.executed name = some (.add name)

end Defs

variable {cfg : ServerConfig} {s s' : ServerState} {l : NamesLog} {name victim : Bytes}

theorem lastOp_concat (ops : List RoomNameOp) (op : RoomNameOp) (name : Bytes) :
    lastOp (ops ++ [op]) name = if op.name = name then some op else lastOp ops name := by
  unfold lastOp
  rw [List.filter_append]
  by_cases h : op.name = name
  · rw [if_pos h, List.filter_cons_of_pos (by simpa using h)]
    simp
  · rw [if_neg h, List.filter_cons_of_neg (by simpa using h)]
    simp

theorem lastOp_eq_none {ops : List RoomNameOp} :
    lastOp ops name = none ↔ ∀ op ∈ ops, op.name ≠ name := by
  simp [lastOp]

/-- There are two operations on a name. -/
theorem lastOp_eq_some {ops : List RoomNameOp} {op : RoomNameOp} (h : lastOp ops name = some op) :
    op = .add name ∨ op = .remove name := by
  have hmem := List.mem_of_getLast? h
  have hname : op.name = name := by simpa using (List.mem_filter.mp hmem).2
  cases op with
  | add n => exact .inl (congrArg RoomNameOp.add hname)
  | remove n => exact .inr (congrArg RoomNameOp.remove hname)

namespace NamesOk

theorem init : NamesOk .init ⟨[], []⟩ where
  perm := .refl _
  cached := fun name => by simp [ServerState.init, lastOp]
  listed := fun name => by simp [ServerState.init, lastOp]

/-- A step that issues and executes nothing. -/
theorem congr (h : NamesOk s l) (hops : s'.ops = s.ops) (hnames : s'.roomNames = s.roomNames)
    (hcache : ∀ name, (s'.cache.lookup name).isSome = (s.cache.lookup name).isSome) :
    NamesOk s' l where
  perm := by
    rw [hops]
    exact h.perm
  cached := by
    intro name
    rw [hcache]
    exact h.cached name
  listed := by
    intro name
    rw [hnames]
    exact h.listed name

/-- An operation is issued, as the cache changes. -/
theorem issue (h : NamesOk s l) {o : RoomNameOp} (hops : s'.ops = s.ops ++ [o])
    (hnames : s'.roomNames = s.roomNames)
    (hself : (s'.cache.lookup o.name).isSome = true ↔ o = .add o.name)
    (hother : ∀ name, name ≠ o.name →
      (s'.cache.lookup name).isSome = (s.cache.lookup name).isSome) :
    NamesOk s' { l with issued := l.issued ++ [o] } where
  perm := by
    rw [hops, ← List.append_assoc]
    exact h.perm.append_right [o]
  cached := by
    intro name
    rw [lastOp_concat]
    by_cases heq : o.name = name
    · subst heq
      rw [if_pos rfl, hself, Option.some.injEq]
    · rw [if_neg heq, hother name (Ne.symm heq)]
      exact h.cached name
  listed := by
    intro name
    rw [hnames]
    exact h.listed name

/-- A room is made. -/
theorem onMiss (h : NamesOk s l) :
    NamesOk (onMiss s name) { l with issued := l.issued ++ [.add name] } := by
  refine h.issue (o := .add name) rfl rfl ?_ ?_
  · change ((s.cache.insert name s.rooms.length).lookup name).isSome = true ↔ _
    rw [AList.lookup_insert]
    exact iff_of_true rfl rfl
  · intro name' hne
    exact congrArg Option.isSome (AList.lookup_insert_ne hne)

/-- A room is purged. -/
theorem evict (h : NamesOk s l) (hrooms : RoomsOk s) (he : evict cfg s victim = some s') :
    NamesOk s' { l with issued := l.issued ++ [.remove victim] } := by
  obtain ⟨-, r, R, chat, hl, hR, hchat, rfl⟩ := evict_cases he
  obtain ⟨R₁, hR₁, hname, -⟩ := hrooms.cached victim r hl
  obtain rfl := Option.some.inj (hR.symm.trans hR₁)
  subst hname
  refine h.issue (o := .remove R.name) rfl rfl ?_ ?_
  · change ((s.cache.erase R.name).lookup R.name).isSome = true ↔ _
    rw [AList.lookup_erase]
    exact iff_of_false (by simp) (by simp)
  · intro name' hne
    exact congrArg Option.isSome (AList.lookup_erase_ne hne)

/-- An operation is executed. -/
theorem sync (h : NamesOk s l) {i : ℕ} {op : RoomNameOp} (ho : s.ops[i]? = some op) :
    NamesOk { s with roomNames := op.run s.roomNames, ops := s.ops.eraseIdx i }
      { l with executed := l.executed ++ [op] } where
  perm := by
    have hperm : s.ops.Perm (op :: s.ops.eraseIdx i) := by
      obtain ⟨hi, rfl⟩ := List.getElem?_eq_some_iff.mp ho
      exact (List.getElem_cons_eraseIdx_perm hi).symm
    rw [List.append_assoc]
    exact h.perm.trans (hperm.append_left l.executed)
  cached := h.cached
  listed := by
    intro name
    rw [lastOp_concat]
    cases op with
    | add n =>
      change name ∈ insert n s.roomNames ↔ (if n = name then _ else _) = _
      rw [Finset.mem_insert, h.listed]
      by_cases heq : n = name
      · simp [heq]
      · simp [heq, Ne.symm heq]
    | remove n =>
      change name ∈ s.roomNames.erase n ↔ (if n = name then _ else _) = _
      rw [Finset.mem_erase, h.listed]
      by_cases heq : n = name
      · simp [heq]
      · simp [heq, Ne.symm heq]

/-- `s.rooms.Get`. -/
theorem getRoom (h : NamesOk s l) (hrooms : RoomsOk s) {r : RoomId}
    (hg : getRoom cfg s name victim = some (s', r)) :
    NamesOk s' { l with issued := l.issued ++ getOps cfg s name victim } := by
  rcases getRoom_cases hg with ⟨hl, rfl⟩ | ⟨hl, -, ⟨hlt, rfl⟩ | ⟨hge, he⟩⟩
  · rw [getOps, hl, Option.isSome_some, if_pos rfl, List.append_nil]
    refine h.congr rfl rfl fun name' => ?_
    by_cases heq : name' = name
    · rw [heq, hl]
      exact congrArg Option.isSome (AList.lookup_insert s.cache)
    · exact congrArg Option.isSome (AList.lookup_insert_ne heq)
  · rw [getOps, hl, if_neg (by simp), if_pos hlt]
    exact h.onMiss
  · rw [getOps, hl, if_neg (by simp), if_neg (Nat.not_lt.mpr hge), List.append_cons]
    exact h.onMiss.evict (hrooms.onMiss hl) he

/-- **Step lemma**. -/
theorem step {a : ServerAction} (h : NamesOk s l) (hrooms : RoomsOk s) (hs : ServerStep cfg s a s') :
    NamesOk s' (NamesLog.record cfg s a l) := by
  cases hs with
  | hub room up => exact h.congr rfl rfl fun _ => rfl
  | @get i c name victim r s₁ s' hj hg hc =>
    obtain ⟨R, chat, -, -, rfl⟩ := roomStep_cases hc
    have h₁ : NamesOk { s with joins := s.joins.eraseIdx i } l := h.congr rfl rfl fun _ => rfl
    have hrooms₁ : RoomsOk { s with joins := s.joins.eraseIdx i } := hrooms.congr rfl fun _ => rfl
    simp only [NamesLog.record, hj, Option.map_some, Option.getD_some]
    exact (h₁.getRoom hrooms₁ hg).congr rfl rfl fun _ => rfl
  | sync ho =>
    simp only [NamesLog.record, ho, Option.toList_some]
    exact h.sync ho
  | room hb hr =>
    obtain ⟨R, chat, -, -, rfl⟩ := roomStep_cases hr
    exact h.congr rfl rfl fun _ => rfl

end NamesOk

theorem namesOk_of_reaches {ok : ServerState × NamesLog → ServerAction → Prop}
    (h : (namesRun cfg).Reaches ok (s, l)) : NamesOk s l := by
  suffices hI : RoomsOk s ∧ NamesOk s l from hI.2
  refine h.invariant (I := fun s => RoomsOk s.1 ∧ NamesOk s.1 s.2) ⟨.init, .init⟩ ?_
  rintro ⟨s, l⟩ a ⟨s', l'⟩ ⟨hrooms, hnames⟩ _ hn
  obtain ⟨hn', rfl⟩ := Machine.logged_cases hn
  exact ⟨hrooms.step hn', hnames.step hrooms (serverStep_of_next hn').2⟩

/-- **The room list**: with no operation in flight it has the names of the cached rooms exactly if on
every name the last operation executed is the last one issued. -/
theorem room_list_eq (h : (namesRun cfg).Reachable (s, l)) (hops : s.ops = []) :
    s.roomNames = cachedNames s ↔ ∀ name, lastOp l.executed name = lastOp l.issued name := by
  have hok := namesOk_of_reaches h
  have hcached : ∀ name, name ∈ cachedNames s ↔ lastOp l.issued name = some (.add name) := by
    intro name
    rw [cachedNames, List.mem_toFinset, ← hok.cached, AList.lookup_isSome]
    rfl
  -- every operation issued has been executed
  have hnone : ∀ name, lastOp l.executed name = none ↔ lastOp l.issued name = none := by
    intro name
    have hperm := hok.perm
    rw [hops, List.append_nil] at hperm
    rw [lastOp_eq_none, lastOp_eq_none]
    exact forall_congr' fun op => by rw [hperm.mem_iff]
  rw [Finset.ext_iff]
  refine forall_congr' fun name => ?_
  rw [hok.listed, hcached]
  constructor
  · intro hiff
    cases he : lastOp l.executed name with
    | none => rw [(hnone name).mp he]
    | some op =>
      cases hi : lastOp l.issued name with
      | none =>
        rw [(hnone name).mpr hi] at he
        cases he
      | some op' =>
        rw [he, hi, Option.some.injEq, Option.some.injEq] at hiff
        rcases lastOp_eq_some he with rfl | rfl
        · rw [hiff.mp rfl]
        · rcases lastOp_eq_some hi with rfl | rfl
          · cases hiff.mpr rfl
          · rfl
  · intro heq
    rw [heq]

/-- Two rooms are made, the first is purged, and everything is executed in that order. -/
theorem room_list_eq_of_purge : ∃ s l, (namesRun oneRoomServer).Reachable (s, l) ∧
    s.roomNames = {[98]} ∧ (s.roomNames = cachedNames s ↔
      ∀ name, lastOp l.executed name = lastOp l.issued name) := by
  obtain ⟨⟨s, l⟩, hs, hp⟩ := Machine.exists_of_run (namesRun oneRoomServer)
    (namesRun oneRoomServer).init
    [.hub (some [97]) .conn, .hub (some [98]) .conn, .get 0 0 [], .get 0 1 [97], .sync 0, .sync 0,
      .sync 0] (fun s => s.1.ops = [] && s.1.roomNames = {[98]}) (by decide)
  simp only [Bool.and_eq_true, decide_eq_true_eq] at hp
  exact ⟨s, l, hs, hp.2, room_list_eq hs hp.1⟩

/-- **A dead room stays listed**: the second operation on the first room overtakes the first one. -/
theorem dead_room_listed : ∃ s, (serverRun oneRoomServer).Reachable s ∧ s.ops = [] ∧
    [97] ∈ s.roomNames ∧ cachedNames s = {[98]} := by
  obtain ⟨s, hs, hp⟩ := Machine.exists_of_run (serverRun oneRoomServer) ServerState.init
    [.hub (some [97]) .conn, .hub (some [98]) .conn, .get 0 0 [], .get 0 1 [97], .sync 2, .sync 0,
      .sync 0] (fun s => s.ops = [] && [97] ∈ s.roomNames && cachedNames s = {[98]}) (by decide)
  simp only [Bool.and_eq_true, decide_eq_true_eq] at hp
  exact ⟨s, hs, hp.1.1, hp.1.2, hp.2⟩

end WebsocketHub
