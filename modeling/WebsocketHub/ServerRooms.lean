import WebsocketHub.ServerStep
import WebsocketHub.ChatroomPurge

/-!
# WebsocketHub.ServerRooms — one room per name

`handleWebsocket` looks its room up and registers the client in it later; in between the room may be
purged.  `registersInTime` is the step condition that no client is put into the map of a room whose
`Close` has read it already.  Under it a purged room keeps nobody, so that the clients of a room name
are all in the room that is cached under it; without it a room can be split.
-/

namespace WebsocketHub

open ServerState

section Defs

/-- No client is registered in a room after `Close` has read its map. -/
def registersInTime (s : ServerState) : ServerAction → Bool
  | .room r b => (s.rooms[r]?).all fun R => insertsInTime purgeCall R.chat b
  | _ => true

/-- The reader is still in `l_addClient`. -/
def ReaderPc.joining : ReaderPc → Bool
  | .add _ => true
  | _ => false

/-- No join is pending, with the purge that its `Get` may cause, and no spawned deletion. -/
structure Settled (s : ServerState) : Prop where
  joins : s.joins = []
  added : ∀ R ∈ s.rooms, ∀ c x, R.chat.conns c = some x → x.reader.joining = false
  purged : ∀ R ∈ s.rooms, ∀ p, R.chat.closers purgeCall = some p → p = .returned
  deleted : ∀ R ∈ s.rooms, ∀ d y, R.chat.dels d = some y → y.pc = .returned

/-- Client `c` is registered in room `r`. -/
def Registered (s : ServerState) (r : RoomId) (R : Room) (c : Cid) : Prop :=
  s.rooms[r]? = some R ∧ ∃ id, R.chat.clients.lookup id = some c

/-- The request's client is one of the first `n`. -/
def clientBelow (n : ℕ) : ServerAction → Bool
  | .get _ c _ => c < n
  | _ => true

/-- A test for `Settled` that looks at the first `n` clients. -/
def settledBelow (n : ℕ) (s : ServerState) : Bool :=
  s.joins.isEmpty && s.rooms.all fun R =>
    (List.range n).all (fun c => (R.chat.conns c).all fun x => !x.reader.joining) &&
      (R.chat.closers purgeCall).all (· = .returned) &&
      (List.range R.chat.nextDel).all fun d => (R.chat.dels d).all fun y => y.pc = .returned

/-- A server with room for one room. -/
def oneRoomServer : ServerConfig := ⟨false, backlogOf 100, 1, by decide, leastRecentlyUsed⟩

end Defs

variable {cfg : ServerConfig} {s : ServerState}

theorem conns_of_reaches {verbose : Bool} {L : Limits} {n : ℕ} {t : ChatroomState}
    (h : (chatRun verbose L).Reaches (fun _ b => ∀ c, b = .connect c → c < n) t) (c : Cid)
    (hc : n ≤ c) : t.conns c = none := by
  refine h.invariant (I := fun t => t.conns c = none) rfl fun t b t' hI hok hn => ?_
  refine conns_of_chatNext hn ?_ hI
  rintro rfl
  exact absurd (hok c rfl) (Nat.not_lt.mpr hc)

/-- The test is enough for a run with few clients. -/
theorem settled_of_below {ok : ServerState → ServerAction → Prop} {n : ℕ}
    (h : (serverRun cfg).Reaches ok s) (hn : ∀ s a, ok s a → clientBelow n a = true)
    (hs : settledBelow n s = true) : Settled s := by
  simp only [settledBelow, Bool.and_eq_true, List.isEmpty_iff, List.all_eq_true] at hs
  obtain ⟨hjoins, hall⟩ := hs
  refine ⟨hjoins, ?_, ?_, ?_⟩
  · intro R hR c x hx
    by_cases hc : c < n
    · have := (hall R hR).1.1 c (List.mem_range.mpr hc)
      rw [hx] at this
      simpa using this
    · have hrun := chat_of_reaches (C := fun _ b => ∀ c, b = .connect c → c < n) h (by simp)
        ?_ ?_ R hR
      · rw [conns_of_reaches hrun c (Nat.not_lt.mp hc)] at hx
        cases hx
      · rintro s i c victim t hok _ ⟨⟩
        simpa [clientBelow] using hn _ _ hok
      · rintro s r _ R _ hb _ c rfl
        cases hb
  · intro R hR p hp
    have := (hall R hR).1.2
    rw [hp] at this
    simpa using this
  · intro R hR d y hy
    have hrun := chat_of_reaches (C := fun _ _ => True) h (by simp) (by simp) (by simp) R hR
    have hlt : d < R.chat.nextDel := by
      by_contra hge
      rw [newDel_of_reaches hrun d (Nat.not_lt.mp hge)] at hy
      cases hy
    have := (hall R hR).2 d (List.mem_range.mpr hlt)
    rw [hy] at this
    simpa using this

/-- **One room per name**: in a settled state a registered client is in the room cached under its name,
so that clients of one name share a room, and a purged room keeps nobody. -/
theorem one_room_per_name
    (h : (serverRun cfg).Reaches (fun s a => registersInTime s a = true) s) (hs : Settled s) :
    (∀ r R c, Registered s r R c → s.cache.lookup R.name = some r) ∧
      (∀ r r' R R' c c', Registered s r R c → Registered s r' R' c' → R.name = R'.name → r = r') ∧
      ∀ r R, s.rooms[r]? = some R → s.cache.lookup R.name ≠ some r →
        ∀ id, R.chat.clients.lookup id = none := by
  have hempty : ∀ r R, s.rooms[r]? = some R → s.cache.lookup R.name ≠ some r →
      ∀ id, R.chat.clients.lookup id = none := by
    intro r R hR hout id
    have hmem := List.mem_of_getElem? hR
    have hrun := chat_of_reaches
      (C := fun t b => insertsInTime purgeCall t b = true) h (fun _ => rfl)
      (fun s i c victim t _ => rfl) ?_ R hmem
    · -- the room has been purged, and this has come to its end
      have hk := ((roomsOk_of_reaches h).purged r R hR).resolve_left hout
      obtain ⟨p, hp⟩ := Option.ne_none_iff_exists'.mp hk
      obtain rfl := hs.purged R hmem p hp
      exact closed_room_empty hrun hp (hs.deleted R hmem) id
    · intro s r b R hok _ hR
      simpa only [registersInTime, hR, Option.all_some] using hok
  have hcached : ∀ r R c, Registered s r R c → s.cache.lookup R.name = some r := by
    rintro r R c ⟨hR, id, hl⟩
    by_contra hout
    rw [hempty r R hR hout id] at hl
    cases hl
  refine ⟨hcached, ?_, hempty⟩
  intro r r' R R' c c' hreg hreg' hname
  have h1 := hcached r R c hreg
  have h2 := hcached r' R' c' hreg'
  rw [hname] at h1
  exact Option.some.inj (h1.symm.trans h2)

/-- Client 0 is in the room that has to go for client 1; it is taken out of it. -/
theorem one_room_per_name_of_purge : ∃ s, Settled s ∧ s.cache.lookup [98] = some 1 ∧
    (∃ R, Registered s 1 R 1) ∧ ∀ r R c, Registered s r R c → s.cache.lookup R.name = some r := by
  obtain ⟨s, hs, hp⟩ := Machine.exists_of_runIf (serverRun oneRoomServer)
    (fun s a => registersInTime s a && clientBelow 2 a) ServerState.init
    ([.hub (some [97]) .conn, .get 0 0 []] ++ List.replicate 7 (.room 0 (.reader 0 none)) ++
      [.hub (some [98]) .conn, .get 0 1 [97]] ++ List.replicate 3 (.room 0 (.closer 0 0)) ++
      List.replicate 7 (.room 1 (.reader 1 none)) ++ List.replicate 5 (.room 0 (.del 0)))
    (fun s => settledBelow 2 s && s.cache.lookup [98] = some 1 &&
      (s.rooms[1]?).any fun R => R.chat.clients.lookup 1 = some 1) (by decide)
  simp only [Bool.and_eq_true, decide_eq_true_eq, Option.any_eq_true] at hp
  obtain ⟨⟨hset, hcache⟩, R, hR, hl⟩ := hp
  have hsettled : Settled s := settled_of_below hs (fun s a h => (Bool.and_eq_true_iff.mp h).2) hset
  exact ⟨s, hsettled, hcache, ⟨R, hR, 1, hl⟩,
    (one_room_per_name (hs.mono fun s a h => (Bool.and_eq_true_iff.mp h).1) hsettled).1⟩

/-- **A split room**: client 0 has got its room, which is purged for client 1; it is registered in it after
`Close` has read the map, and stays. -/
theorem split_room : ∃ s, (serverRun oneRoomServer).Reachable s ∧ Settled s ∧
    ∃ R, Registered s 0 R 0 ∧ s.cache.lookup R.name ≠ some 0 := by
  obtain ⟨s, hs, hp⟩ := Machine.exists_of_runIf (serverRun oneRoomServer)
    (fun _ a => clientBelow 2 a) ServerState.init
    ([.hub (some [97]) .conn, .hub (some [98]) .conn, .get 0 0 [], .get 0 1 [97]] ++
      List.replicate 2 (.room 0 (.closer 0 0)) ++ List.replicate 7 (.room 0 (.reader 0 none)) ++
      List.replicate 7 (.room 1 (.reader 1 none)))
    (fun s => settledBelow 2 s && (s.rooms[0]?).any fun R =>
      R.chat.clients.lookup 1 = some 0 && s.cache.lookup R.name ≠ some 0) (by decide)
  simp only [Bool.and_eq_true, decide_eq_true_eq, Option.any_eq_true] at hp
  obtain ⟨hset, R, hR, hl, hout⟩ := hp
  exact ⟨s, hs.mono fun _ _ _ => trivial, settled_of_below hs (fun _ _ h => h) hset, R,
    ⟨hR, 1, hl⟩, hout⟩

end WebsocketHub
