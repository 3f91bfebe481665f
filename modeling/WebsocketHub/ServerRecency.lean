import WebsocketHub.ServerStep
import WebsocketHub.Recency

/-!
# WebsocketHub.ServerRecency — which room is purged

The cache knows when a room was last joined; a message in a room does not touch it.  `activityRun` is
the server with the log of all joins and messages, the latest first.  `RecencyOk` is the invariant: the
cache has its rooms in the order of their last joins.
-/

namespace WebsocketHub

open ServerState

section Defs

/-- What makes a room active. -/
inductive Activity
  /-- `rooms.Get`, for a client -/
  | join (r : RoomId)
  /-- `cr.handleNewMsg(msg)` -/
  | message (r : RoomId)
deriving DecidableEq, Repr

namespace Activity

def joins (r : RoomId) (e : Activity) : Bool := e = .join r

def posts (r : RoomId) (e : Activity) : Bool := e = .message r

/-- An activity in room `r`. -/
def isIn (r : RoomId) (e : Activity) : Bool := e.joins r || e.posts r

/-- The activity that a step is. -/
def ofStep (s : ServerState) : ServerAction → Option Activity
  | .get i _ _ => (s.joins[i]?).map fun name => .join (roomOf s name)
  | .room r (.reader c (some _)) =>
    if ((s.rooms[r]?).bind fun R => R.chat.conns c).any fun x => x.reader = .read then
      some (.message r)
    else none
  | _ => none

def record (s : ServerState) (a : ServerAction) (log : List Activity) : List Activity :=
  (ofStep s a).toList ++ log

end Activity

/-- The server with the log of what happens in its rooms. -/
def activityRun (cfg : ServerConfig) : Machine (ServerState × List Activity) ServerAction :=
  (serverRun cfg).logged Activity.record []

/-- Every other cached room has been active since the last activity in room `v`. -/
def LeastActive (s : ServerState) (log : List Activity) (v : RoomId) : Prop :=
  ∀ name r, s.cache.lookup name = some r → r ≠ v →
    age log (Activity.isIn r) < age log (Activity.isIn v)

/-- Every other cached room has been active since the last message in room `v`. -/
def SilentSince (s : ServerState) (log : List Activity) (v : RoomId) : Prop :=
  ∀ name r, s.cache.lookup name = some r → r ≠ v →
    age log (Activity.isIn r) < age log (Activity.posts v)

/-- The cached rooms are in the order of their last joins. -/
def RecencyOk (s : ServerState) (log : List Activity) : Prop :=
  Ranked log (fun e => Activity.joins e.2) s.cache.entries

/-- A server with room for two rooms. -/
def twoRoomServer : ServerConfig := ⟨false, backlogOf 100, 2, by decide, leastRecentlyUsed⟩

end Defs

variable {cfg : ServerConfig} {s s' : ServerState} {a : ServerAction} {log : List Activity}
  {name victim : Bytes} {r v : RoomId}

namespace RecencyOk

/-- The cache uses a room, which it does not have under another name. -/
theorem use (h : RecencyOk s log)
    (hother : ∀ name' r', s.cache.lookup name' = some r' → name' ≠ name → r' ≠ r) :
    Ranked (.join r :: log) (fun e => Activity.joins e.2) (s.cache.insert name r).entries := by
  rw [AList.entries_insert]
  refine (h.sublist (List.kerase_sublist name s.cache.entries)).use (by simp [Activity.joins]) ?_
  rintro ⟨name', r'⟩ he
  have hl : s.cache.lookup name' = some r' :=
    AList.mem_lookup_iff.mpr ((List.kerase_sublist name s.cache.entries).subset he)
  have hne : name' ≠ name := by
    rintro rfl
    exact List.notMem_keys_kerase name' s.cache.nodupKeys (List.mem_map.mpr ⟨_, he, rfl⟩)
  have := hother name' r' hl hne
  simpa [Activity.joins] using Ne.symm this

/-- A room leaves the cache. -/
theorem evict (h : RecencyOk s log) (he : evict cfg s victim = some s') : RecencyOk s' log := by
  obtain ⟨-, r, R, chat, -, -, -, rfl⟩ := evict_cases he
  exact h.sublist (List.kerase_sublist victim s.cache.entries)

/-- `s.rooms.Get`. -/
theorem getRoom (h : RecencyOk s log) (hrooms : RoomsOk s)
    (hg : getRoom cfg s name victim = some (s', r)) :
    RecencyOk s' (.join (roomOf s name) :: log) := by
  rcases getRoom_cases hg with ⟨hl, rfl⟩ | ⟨hl, -, hcase⟩
  · rw [roomOf, hl, Option.getD_some]
    refine h.use ?_
    rintro name' r' hl' hne rfl
    obtain ⟨R, hR, hname, -⟩ := hrooms.cached name r' hl
    obtain ⟨R', hR', hname', -⟩ := hrooms.cached name' r' hl'
    obtain rfl := Option.some.inj (hR.symm.trans hR')
    exact hne (hname'.symm.trans hname)
  · rw [roomOf, hl, Option.getD_none]
    have hmiss : RecencyOk (onMiss s name) (.join s.rooms.length :: log) := by
      refine h.use ?_
      rintro name' r' hl' - rfl
      obtain ⟨R', hR', -⟩ := hrooms.cached name' _ hl'
      exact absurd (List.getElem?_eq_some_iff.mp hR').1 (Nat.lt_irrefl _)
    rcases hcase with ⟨-, rfl⟩ | ⟨-, he⟩
    · exact hmiss
    · exact hmiss.evict he

/-- **Step lemma**. -/
theorem step (h : RecencyOk s log) (hrooms : RoomsOk s) (hs : ServerStep cfg s a s') :
    RecencyOk s' (Activity.record s a log) := by
  cases hs with
  | hub room up => exact h
  | @get i c name victim r s₁ s' hj hg hc =>
    obtain ⟨R, chat, -, -, rfl⟩ := roomStep_cases hc
    have h₁ : RecencyOk { s with joins := s.joins.eraseIdx i } log := h
    simp only [Activity.record, Activity.ofStep, hj, Option.map_some, Option.toList_some]
    have h₂ := h₁.getRoom (hrooms.congr rfl fun _ => rfl) hg
    exact h₂
  | sync ho => exact h
  | @room r b s' hb hr =>
    obtain ⟨R, chat, -, -, rfl⟩ := roomStep_cases hr
    -- a message moves nothing
    have hlog : Activity.record s (.room r b) log = log ∨
        Activity.record s (.room r b) log = .message r :: log := by
      unfold Activity.record Activity.ofStep
      split
      · next heq => cases heq
      · next heq =>
        obtain ⟨rfl, -⟩ := ServerAction.room.inj heq
        split
        · exact .inr rfl
        · exact .inl rfl
      · exact .inl rfl
    rcases hlog with hlog | hlog
    · rw [hlog]
      exact h
    · rw [hlog]
      exact h.skip fun e _ => by simp [Activity.joins]

end RecencyOk

theorem recencyOk_of_reaches {ok : ServerState × List Activity → ServerAction → Prop}
    (h : (activityRun cfg).Reaches ok (s, log)) : RoomsOk s ∧ RecencyOk s log := by
  have hinit : RecencyOk .init [] := List.Pairwise.nil
  refine h.invariant (I := fun s => RoomsOk s.1 ∧ RecencyOk s.1 s.2) ⟨.init, hinit⟩ ?_
  rintro ⟨s, log⟩ a ⟨s', log'⟩ ⟨hrooms, hrec⟩ _ hn
  obtain ⟨hn', rfl⟩ := Machine.logged_cases hn
  exact ⟨hrooms.step hn', hrec.step hrooms (serverStep_of_next hn').2⟩

/-- The room that leaves the cache is the last one. -/
theorem last_of_evicted (hlru : cfg.mayEvict = leastRecentlyUsed)
    (hn : serverNext cfg s a = some s') (hv : s.cache.lookup victim = some v)
    (hout : s'.cache.lookup victim = none) :
    ∃ entries, s.cache.entries = entries ++ [⟨victim, v⟩] := by
  have hsome : ∀ {t : ServerState}, t.cache = s.cache → t.cache.lookup victim ≠ none := by
    intro t ht
    rw [ht, hv]
    simp
  have hinsert : ∀ (name : Bytes) (r : RoomId), (s.cache.insert name r).lookup victim ≠ none := by
    intro name r
    by_cases heq : victim = name
    · rw [heq, AList.lookup_insert]
      simp
    · rw [AList.lookup_insert_ne heq, hv]
      simp
  cases (serverStep_of_next hn).2 with
  | hub room up => exact absurd hout (hsome rfl)
  | sync ho => exact absurd hout (hsome rfl)
  | room hb hr =>
    obtain ⟨R, chat, -, -, rfl⟩ := roomStep_cases hr
    exact absurd hout (hsome rfl)
  | @get i c name victim' r s₁ s' hj hg hc =>
    obtain ⟨R, chat, -, -, rfl⟩ := roomStep_cases hc
    rcases getRoom_cases hg with ⟨-, rfl⟩ | ⟨hl, -, ⟨-, rfl⟩ | ⟨hge, he⟩⟩
    · exact absurd hout (hinsert name r)
    · exact absurd hout (hinsert name _)
    · have hl : s.cache.lookup name = none := hl
      obtain ⟨hmay, r₁, R₁, chat₁, -, -, -, rfl⟩ := evict_cases he
      -- it is the one that `lrucache` removes
      have heq : victim = victim' := by
        by_contra hne
        exact hinsert name s.rooms.length ((AList.lookup_erase_ne hne).symm.trans hout)
      subst heq
      have hkeys : (s.cache.insert name s.rooms.length).keys = name :: s.cache.keys := by
        rw [AList.keys, AList.entries_insert_of_notMem (AList.lookup_eq_none.mp hl)]
        rfl
      have hlast : (name :: s.cache.keys).getLast? = some victim := by
        rw [hlru, leastRecentlyUsed, decide_eq_true_eq] at hmay
        rw [← hkeys]
        exact hmay
      have hne : s.cache.keys ≠ [] := by
        intro h0
        have hge : cfg.numRooms ≤ s.cache.keys.length := hge
        have hpos := cfg.numRooms_pos
        rw [h0, List.length_nil] at hge
        omega
      rw [List.getLast?_cons_of_ne_nil hne, AList.keys, List.keys, List.getLast?_map] at hlast
      obtain ⟨⟨name', r'⟩, hlast', rfl⟩ := Option.map_eq_some_iff.mp hlast
      obtain ⟨entries, hentries⟩ := List.getLast?_eq_some_iff.mp hlast'
      have hl' : s.cache.lookup name' = some r' := AList.mem_lookup_iff.mpr (by simp [hentries])
      obtain rfl := Option.some.inj (hv.symm.trans hl')
      exact ⟨entries, hentries⟩

/-- **Which room is purged**: it is the one with the least recent activity exactly if every other cached
room has been active since its last message. -/
theorem evicted_least_active (hlru : cfg.mayEvict = leastRecentlyUsed)
    (h : (activityRun cfg).Reachable (s, log)) (hn : serverNext cfg s a = some s')
    (hv : s.cache.lookup victim = some v) (hout : s'.cache.lookup victim = none) :
    LeastActive s log v ↔ SilentSince s log v := by
  obtain ⟨hrooms, hrec⟩ := recencyOk_of_reaches h
  obtain ⟨entries, hentries⟩ := last_of_evicted hlru hn hv hout
  rw [RecencyOk, hentries] at hrec
  have hjoin : ∀ name r, s.cache.lookup name = some r → r ≠ v →
      age log (Activity.joins r) < age log (Activity.joins v) := by
    intro name r hl hne
    have hmem := AList.mem_lookup_iff.mp hl
    rw [hentries, List.mem_append, List.mem_singleton] at hmem
    rcases hmem with hmem | heq
    · exact hrec.lt_last hmem
    · cases heq
      exact absurd rfl hne
  have hage : ∀ r, age log (Activity.isIn r) =
      min (age log (Activity.joins r)) (age log (Activity.posts r)) :=
    fun r => age_or log (Activity.joins r) (Activity.posts r)
  refine forall_congr' fun name => forall_congr' fun r => forall_congr' fun hl =>
    forall_congr' fun hne => ?_
  have hlt := hjoin name r hl hne
  have hr := hage r
  rw [hage v]
  omega

/-- Two rooms are joined, and a third one takes the place of the first. -/
theorem evicted_least_active_of_silence : ∃ (s s' : ServerState) (log : List Activity),
    (activityRun twoRoomServer).Reachable (s, log) ∧ s.cache.lookup [97] = some 0 ∧
    s'.cache.lookup [97] = none ∧ (LeastActive s log 0 ↔ SilentSince s log 0) := by
  obtain ⟨⟨s, log⟩, hs, hp⟩ := Machine.exists_of_run (activityRun twoRoomServer)
    (activityRun twoRoomServer).init
    [.hub (some [97]) .conn, .hub (some [98]) .conn, .hub (some [99]) .conn, .get 0 0 [],
      .get 0 1 []]
    (fun s => s.1.cache.lookup [97] = some 0 &&
      (serverNext twoRoomServer s.1 (.get 0 2 [97])).any fun s' =>
        s'.cache.lookup [97] = none) (by decide)
  simp only [Bool.and_eq_true, decide_eq_true_eq, Option.any_eq_true] at hp
  obtain ⟨hl, s', hn, hout⟩ := hp
  exact ⟨s, s', log, hs, hl, hout, evicted_least_active rfl hs hn hl hout⟩

/-- **The busy room is purged**: the first of two rooms has the last message, and it goes. -/
theorem busy_room_evicted : ∃ (s s' : ServerState) (log : List Activity),
    (activityRun twoRoomServer).Reachable (s, log) ∧
    serverNext twoRoomServer s (.get 0 2 [97]) = some s' ∧ s.cache.lookup [97] = some 0 ∧
    s'.cache.lookup [97] = none ∧ ¬LeastActive s log 0 := by
  obtain ⟨⟨s, log⟩, hs, hp⟩ := Machine.exists_of_run (activityRun twoRoomServer)
    (activityRun twoRoomServer).init
    ([.hub (some [97]) .conn, .hub (some [98]) .conn, .hub (some [99]) .conn, .get 0 0 [],
      .get 0 1 []] ++ List.replicate 7 (.room 0 (.reader 0 none)) ++
      [.room 0 (.reader 0 (some [104, 105]))])
    (fun s => s.1.cache.lookup [97] = some 0 && s.1.cache.lookup [98] = some 1 &&
      age s.2 (Activity.isIn 0) < age s.2 (Activity.isIn 1) &&
      (serverNext twoRoomServer s.1 (.get 0 2 [97])).any fun s' =>
        s'.cache.lookup [97] = none) (by decide)
  simp only [Bool.and_eq_true, decide_eq_true_eq, Option.any_eq_true] at hp
  obtain ⟨⟨⟨h0, h1⟩, hlt⟩, s', hn, hout⟩ := hp
  refine ⟨s, s', log, hs, hn, h0, hout, fun hleast => ?_⟩
  exact absurd (hleast [98] 1 h1 (by decide)) (Nat.not_lt.mpr (Nat.le_of_lt hlt))

end WebsocketHub
