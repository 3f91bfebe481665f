import WebsocketHub.ServerRooms
import WebsocketHub.ChatroomLock

/-!
# WebsocketHub.ServerHub — what a rejected request to `/hub` starts

`handleHub` answers a request without a room with an error, and goes on: where the upgrade succeeds all
the same, `handleWebsocket` is started for the room with the empty name.  `Started` follows that
goroutine through a run; a request leaves the server alone when no step that it or its client takes
changes the cache, the room list or a client map.
-/

namespace WebsocketHub

open ServerState

section Defs

/-- What a request has started: nothing, `handleWebsocket` number `i`, or a client in room `r`. -/
inductive Started
  | nothing
  | waiting (i : ℕ)
  | client (r : RoomId) (c : Cid)
deriving DecidableEq, Repr

/-- The client that takes the step. -/
def ChatroomAction.client : ChatroomAction → Option Cid
  | .reader c _ => some c
  | .watcher c => some c
  | .writer c _ => some c
  | .listener c _ => some c
  | _ => none

namespace Started

def ofRequest (s : ServerState) (room : Option Bytes) (up : Upgrade) : Started :=
  if (handleHub room up).2.isSome then .waiting s.joins.length else .nothing

/-- Where it is after a step of the server. -/
def follow (s : ServerState) (a : ServerAction) : Started → Started
  | .waiting i =>
    match a with
    | .get j c _ =>
      if j = i then .client (roomOf s ((s.joins[i]?).getD [])) c
      else if j < i then .waiting (i - 1)
      else .waiting i
    | _ => .waiting i
  | x => x

/-- The step is its own. -/
def takes : Started → ServerAction → Bool
  | .waiting i, .get j _ _ => j = i
  | .client r c, .room r' b => r' = r && b.client = some c
  | _, _ => false

end Started

/-- The cache, the room list and the client maps are the same. -/
structure Unchanged (s s' : ServerState) : Prop where
  cache : s'.cache = s.cache
  roomNames : s'.roomNames = s.roomNames
  clients : s'.rooms.map (fun R => (R.name, R.chat.clients)) =
    s.rooms.map fun R => (R.name, R.chat.clients)

/-- The server, with what a request has started. -/
def hubRun (cfg : ServerConfig) : Machine (ServerState × Started) ServerAction :=
  (serverRun cfg).logged Started.follow .nothing

/-- The request and everything it starts, in any run from then on, leave the server alone. -/
def LeavesAlone (cfg : ServerConfig) (s : ServerState) (room : Option Bytes) (up : Upgrade) : Prop :=
  ∀ s₁, serverNext cfg s (.hub room up) = some s₁ → Unchanged s s₁ ∧
    ∀ t x, (hubRun cfg).Path (fun _ _ => True) (s₁, .ofRequest s room up) (t, x) →
      ∀ a t', x.takes a = true → serverNext cfg t a = some t' → Unchanged t t'

/-- Nothing has panicked. -/
def Alive (s : ServerState) : Prop := ∀ R ∈ s.rooms, R.chat.panicked = false

/-- When there are too many rooms `lrucache` removes one of them. -/
def ServerConfig.Evicts (cfg : ServerConfig) : Prop :=
  ∀ names : List Bytes, names ≠ [] → ∃ name ∈ names, cfg.mayEvict names name = true

end Defs

variable {cfg : ServerConfig} {s s' : ServerState} {a : ServerAction} {r : RoomId}
  {name victim : Bytes} {room : Option Bytes} {up : Upgrade}

theorem Unchanged.refl (s : ServerState) : Unchanged s s := ⟨rfl, rfl, rfl⟩

theorem serverNext_of_alive (h : Alive s) : serverNext cfg s a = serverAct cfg s a := by
  rw [serverNext, if_neg]
  intro hany
  obtain ⟨R, hR, hp⟩ := List.any_eq_true.mp hany
  rw [h R hR] at hp
  cases hp

theorem alive_chat {t : ChatroomState} : t.panicked = false ↔ t.panic = none ∧ t.backlog.panic = none := by
  rw [ChatroomState.panicked, Bool.or_eq_false_iff]
  simp

theorem alive_set {R : Room} {chat : ChatroomState} (h : Alive s) (hp : chat.panicked = false) :
    ∀ R' ∈ s.rooms.set r { R with chat := chat }, R'.chat.panicked = false := by
  intro R' hR'
  rcases List.mem_or_eq_of_mem_set hR' with hold | rfl
  · exact h R' hold
  · exact hp

/-! ## A request that starts nothing -/

/-- A request that is refused by the upgrade leaves the server alone. -/
theorem leavesAlone_of_nothing (h : (handleHub room up).2 = none) : LeavesAlone cfg s room up := by
  intro s₁ hs₁
  have heq : s₁ = s := by
    cases (serverStep_of_next hs₁).2 with
    | hub => rw [h, Option.toList_none, List.append_nil]
  subst heq
  refine ⟨.refl _, fun t x hpath a t' htakes _ => ?_⟩
  have hx : x = .nothing := by
    refine hpath.invariant (I := fun s => s.2 = .nothing) ?_ (by rw [Started.ofRequest, h]; rfl)
    rintro ⟨s, x⟩ a ⟨s', x'⟩ rfl - hn
    exact (Machine.logged_cases hn).2
  rw [hx] at htakes
  cases htakes

/-! ## A request that goes on -/

/-- There are clients that have not come yet. -/
theorem exists_fresh {ok : ServerState → ServerAction → Prop} (h : (serverRun cfg).Reaches ok s) :
    ∃ n, ∀ R ∈ s.rooms, ∀ c, n ≤ c → R.chat.conns c = none := by
  have hset : ∀ {rooms : List Room} {r R chat b}, rooms[r]? = some R →
      chatNext cfg.verbose cfg.backlog R.chat b = some chat →
      (∃ n, ∀ R ∈ rooms, ∀ c, n ≤ c → R.chat.conns c = none) →
      ∃ n, ∀ R' ∈ rooms.set r { R with chat := chat }, ∀ c, n ≤ c → R'.chat.conns c = none := by
    rintro rooms r R chat b hR hchat ⟨n, hI⟩
    -- one more client may have come
    obtain ⟨n', hle, hb⟩ : ∃ n', n ≤ n' ∧ ∀ c, n' ≤ c → b ≠ .connect c := by
      cases b with
      | connect d =>
        refine ⟨max n (d + 1), Nat.le_max_left _ _, ?_⟩
        rintro c hc heq
        cases heq
        exact absurd (Nat.le_trans (Nat.le_max_right n (d + 1)) hc) (Nat.not_succ_le_self d)
      | _ => exact ⟨n, Nat.le_refl n, by simp⟩
    refine ⟨n', fun R' hR' c hc => ?_⟩
    rcases List.mem_or_eq_of_mem_set hR' with hold | rfl
    · exact hI R' hold c (Nat.le_trans hle hc)
    · exact conns_of_chatNext hchat (hb c hc)
        (hI R (List.mem_of_getElem? hR) c (Nat.le_trans hle hc))
  refine h.invariant (I := fun s => ∃ n, ∀ R ∈ s.rooms, ∀ c, n ≤ c → R.chat.conns c = none)
    ⟨0, by simp [serverRun, ServerState.init]⟩ ?_
  intro s a s' hI _ hn
  refine (serverStep_of_next hn).2.preserves
    (I := fun s => ∃ n, ∀ R ∈ s.rooms, ∀ c, n ≤ c → R.chat.conns c = none) hI ?_ ?_ ?_ ?_ ?_ ?_
  · rintro s s' hrooms _ ⟨n, hI⟩
    exact ⟨n, by rw [hrooms]; exact hI⟩
  · intro s name r _ hI
    exact hI
  · rintro s name _ ⟨n, hI⟩
    refine ⟨n, fun R hR c hc => ?_⟩
    rcases List.mem_append.mp hR with hR | hR
    · exact hI R hR c hc
    · rw [List.mem_singleton.mp hR]
      rfl
  · intro s s' victim he hI
    obtain ⟨-, r, R, chat, -, hR, hchat, rfl⟩ := evict_cases he
    exact hset hR hchat hI
  · intro s s' r i c victim _ hr hI
    obtain ⟨R, chat, hR, hchat, rfl⟩ := roomStep_cases hr
    exact hset hR hchat hI
  · intro r b _ _ hr
    obtain ⟨R, chat, hR, hchat, rfl⟩ := roomStep_cases hr
    exact hset hR hchat hI

/-- A run of one room is a run of the server. -/
theorem room_path {t : ServerState} {R : Room} {chat : ChatroomState} {x : Started}
    (hx : ∀ s a, x.follow s a = x) (halive : Alive t) (hR : t.rooms[r]? = some R)
    (hrun : OwnRun cfg.verbose cfg.backlog R.chat chat) :
    (hubRun cfg).Path (fun _ _ => True) (t, x)
      ({ t with rooms := t.rooms.set r { R with chat := chat } }, x) := by
  induction hrun with
  | refl =>
    have hset : t.rooms.set r R = t.rooms := by
      obtain ⟨hlt, rfl⟩ := List.getElem?_eq_some_iff.mp hR
      exact List.set_getElem_self hlt
    rw [hset]
    exact .refl
  | @step chat₁ chat₂ b _ hn hb ih =>
    have hn' : chatNext cfg.verbose cfg.backlog chat₁ b = some chat₂ := hn
    refine ih.step (a := .room r b) ?_ trivial
    obtain ⟨hp, hq, -⟩ := chatStep_of_next hn
    have halive₁ : Alive { t with rooms := t.rooms.set r { R with chat := chat₁ } } :=
      alive_set halive (alive_chat.mpr ⟨hp, hq⟩)
    have hnext : serverNext cfg { t with rooms := t.rooms.set r { R with chat := chat₁ } }
        (.room r b) = some { t with rooms := t.rooms.set r { R with chat := chat₂ } } := by
      rw [serverNext_of_alive halive₁, serverAct, if_neg (by simp [hb]), roomStep]
      simp only [getElem?_set_some hR, if_pos, Option.bind_some, hn', Option.map_some, List.set_set]
    simp only [hubRun, Machine.logged, serverRun, hnext, Option.map_some, hx]

/-- Client `c` can come to the room. -/
structure Ready (cfg : ServerConfig) (c : Cid) (t : ChatroomState) : Prop where
  reachable : (chatRun cfg.verbose cfg.backlog).Reachable t
  alive : t.panicked = false
  readers : t.clientsL.readers = 0
  fresh : t.conns c = none

/-- The rooms are as the server's runs leave them. -/
structure RoomsReady (cfg : ServerConfig) (c : Cid) (s : ServerState) : Prop where
  rooms : RoomsOk s
  alive : Alive s
  reachable : ∀ R ∈ s.rooms, (chatRun cfg.verbose cfg.backlog).Reachable R.chat
  closers : ∀ R ∈ s.rooms, ∀ k, k ≠ purgeCall → R.chat.closers k = none
  fresh : ∀ R ∈ s.rooms, R.chat.conns c = none

namespace RoomsReady

variable {c : Cid}

/-- A cached room. -/
theorem ready (h : RoomsReady cfg c s) (hl : s.cache.lookup name = some r) :
    ∃ R, s.rooms[r]? = some R ∧ Ready cfg c R.chat := by
  obtain ⟨R, hR, -, hk⟩ := h.rooms.cached name r hl
  have hmem := List.mem_of_getElem? hR
  refine ⟨R, hR, h.reachable R hmem, h.alive R hmem, ?_, h.fresh R hmem⟩
  refine (lockOk_of_reaches (h.reachable R hmem)).readers fun k => ?_
  by_cases heq : k = purgeCall
  · rw [heq]
    exact hk
  · exact h.closers R hmem k heq

theorem onMiss (h : RoomsReady cfg c s) (hl : s.cache.lookup name = none) :
    RoomsReady cfg c (onMiss s name) := by
  have hmem : ∀ (P : ChatroomState → Prop), (∀ R ∈ s.rooms, P R.chat) → P .init →
      ∀ R ∈ (WebsocketHub.onMiss s name).rooms, P R.chat := by
    intro P hP hinit R hR
    rcases List.mem_append.mp hR with hR | hR
    · exact hP R hR
    · rw [List.mem_singleton.mp hR]
      exact hinit
  exact ⟨h.rooms.onMiss hl, hmem (fun t => t.panicked = false) h.alive rfl,
    hmem (fun t => (chatRun cfg.verbose cfg.backlog).Reachable t) h.reachable .init,
    hmem (fun t => ∀ k, k ≠ purgeCall → t.closers k = none) h.closers fun _ _ => rfl,
    hmem (fun t => t.conns c = none) h.fresh rfl⟩

/-- The room that has to go can go. -/
theorem exists_evict (h : RoomsReady cfg c s) (hl : s.cache.lookup victim = some r)
    (hmay : cfg.mayEvict s.cache.keys victim = true) :
    ∃ s', evict cfg s victim = some s' ∧ Alive s' ∧
      ∀ (i : RoomId) (R : Room), s.rooms[i]? = some R → Ready cfg c R.chat →
        ∃ R' : Room, s'.rooms[i]? = some R' ∧ Ready cfg c R'.chat := by
  obtain ⟨R, hR, -, hk⟩ := h.rooms.cached victim r hl
  have hpanicked := h.alive R (List.mem_of_getElem? hR)
  obtain ⟨hp, hq⟩ := alive_chat.mp hpanicked
  let chat : ChatroomState :=
    { R.chat with closers := Function.update R.chat.closers purgeCall (some .rlock) }
  have hclose : chatNext cfg.verbose cfg.backlog R.chat (.close purgeCall) = some chat := by
    rw [chatNext_of_alive hp hq, chatAct, hk]
  refine ⟨{ s with
      rooms := s.rooms.set r { R with chat := chat }
      cache := s.cache.erase victim
      ops := s.ops ++ [.remove R.name] }, ?_, alive_set h.alive hpanicked, ?_⟩
  · rw [evict, if_pos hmay, hl, Option.bind_some, onPurge, hR, Option.bind_some, roomStep]
    simp only [hR, Option.bind_some, hclose, Option.map_some]
  · intro i R' hR' hready
    simp only [getElem?_set_some hR]
    split
    · next heq =>
      obtain rfl := Option.some.inj (hR.symm.trans (heq ▸ hR'))
      exact ⟨_, rfl, hready.reachable.step hclose trivial, hpanicked, hready.readers, hready.fresh⟩
    · exact ⟨R', hR', hready⟩

/-- `rooms.Get` finds or makes a room that the client can come to. -/
theorem exists_get (h : RoomsReady cfg c s) (hevicts : cfg.Evicts)
    (name : Bytes) : ∃ victim s', getRoom cfg s name victim = some (s', roomOf s name) ∧ Alive s' ∧
      ∃ R, s'.rooms[roomOf s name]? = some R ∧ Ready cfg c R.chat := by
  cases hl : s.cache.lookup name with
  | some r =>
    have hr : roomOf s name = r := by rw [roomOf, hl, Option.getD_some]
    obtain ⟨R, hR, hready⟩ := h.ready hl
    refine ⟨[], { s with cache := s.cache.insert name r }, ?_, h.alive, R, hr ▸ hR, hready⟩
    simp only [getRoom, hl, hr]
  | none =>
    have hr : roomOf s name = s.rooms.length := by rw [roomOf, hl, Option.getD_none]
    have h₁ := h.onMiss hl
    have hlast : (WebsocketHub.onMiss s name).rooms[s.rooms.length]? = some ⟨name, .init⟩ :=
      List.getElem?_concat_length
    have hready : Ready cfg c .init := ⟨.init, rfl, rfl, rfl⟩
    rw [hr]
    by_cases hlt : s.cache.keys.length < cfg.numRooms
    · exact ⟨[], WebsocketHub.onMiss s name, by simp only [getRoom, hl, if_pos hlt], h₁.alive,
        ⟨name, .init⟩, hlast, hready⟩
    · -- one room has to go, the new one perhaps
      have hne : (WebsocketHub.onMiss s name).cache.keys ≠ [] := by
        change (s.cache.insert name s.rooms.length).keys ≠ []
        rw [AList.keys_insert]
        simp
      obtain ⟨victim, hvictim, hmay⟩ := hevicts _ hne
      obtain ⟨r, hv⟩ := Option.isSome_iff_exists.mp (AList.lookup_isSome.mpr hvictim)
      obtain ⟨s', he, halive, hrooms⟩ := h₁.exists_evict hv hmay
      refine ⟨victim, s', ?_, halive, hrooms _ _ hlast hready⟩
      simp only [getRoom, hl, if_neg hlt, he, Option.map_some]

end RoomsReady

/-- Some client can come to every room of a server that runs. -/
theorem roomsReady_of_reachable (h : (serverRun cfg).Reachable s) (halive : Alive s) :
    ∃ c, RoomsReady cfg c s := by
  obtain ⟨n, hfresh⟩ := exists_fresh h
  have hchat := chat_of_reaches (C := fun _ b => ∀ k, b = .close k → k = purgeCall) h (by simp)
    (by simp) (by rintro s r b R - hb - k rfl; cases hb)
  refine ⟨n, roomsOk_of_reaches h, halive, fun R hR => (hchat R hR).reachable, fun R hR => ?_,
    fun R hR => hfresh R hR n (Nat.le_refl n)⟩
  refine (hchat R hR).invariant (I := fun t => ∀ k, k ≠ purgeCall → t.closers k = none)
    (fun _ _ => rfl) ?_
  intro t b t' hI hb hn k hk
  have hbk : b ≠ .close k := fun heq => hk (hb k heq)
  exact (closers_of_chatNext hn k hbk).mpr (hI k hk)

/-- A request that goes on can get as far as a client that has come to a room. -/
theorem exists_client {name : Bytes} (hevicts : cfg.Evicts) (h : (serverRun cfg).Reachable s)
    (halive : Alive s) (hj : (handleHub room up).2 = some name) :
    ∃ (s₁ t : ServerState) (r : RoomId) (R : Room) (c : Cid),
      serverNext cfg s (.hub room up) = some s₁ ∧
      (hubRun cfg).Path (fun _ _ => True) (s₁, .ofRequest s room up) (t, .client r c) ∧ Alive t ∧
      t.rooms[r]? = some { R with chat := R.chat.setConn c makeClient } ∧ Ready cfg c R.chat := by
  let s₁ : ServerState := { s with joins := s.joins ++ [name] }
  have h₁ : serverNext cfg s (.hub room up) = some s₁ := by
    rw [serverNext_of_alive halive, serverAct, hj, Option.toList_some]
  have halive₁ : Alive s₁ := halive
  have hstarted : Started.ofRequest s room up = .waiting s.joins.length := by
    rw [Started.ofRequest, hj]
    rfl
  -- `handleWebsocket` gets a room
  let s₂ : ServerState := { s with joins := s₁.joins.eraseIdx s.joins.length }
  obtain ⟨c, hready⟩ := roomsReady_of_reachable h halive
  have hready₂ : RoomsReady cfg c s₂ :=
    ⟨hready.rooms.congr rfl fun _ => rfl, halive, hready.reachable, hready.closers, hready.fresh⟩
  obtain ⟨victim, s₃, hget, halive₃, R, hR, hroom⟩ := hready₂.exists_get hevicts name
  have hname : s₁.joins[s.joins.length]? = some name := List.getElem?_concat_length
  let t : ServerState := { s₃ with
    rooms := s₃.rooms.set (roomOf s₂ name) { R with chat := R.chat.setConn c makeClient } }
  -- and the client comes to it
  have hnext : serverNext cfg s₁ (.get s.joins.length c victim) = some t := by
    obtain ⟨hp, hq⟩ := alive_chat.mp hroom.alive
    have hconnect : chatNext cfg.verbose cfg.backlog R.chat (.connect c) =
        some (R.chat.setConn c makeClient) := by
      rw [chatNext_of_alive hp hq, chatAct, hroom.fresh]
    have hstep : roomStep cfg s₃ (roomOf s₂ name) (.connect c) = some t := by
      rw [roomStep, hR, Option.bind_some, hconnect]
      rfl
    have hget' : getRoom cfg { s₁ with joins := s₁.joins.eraseIdx s.joins.length } name victim =
        some (s₃, roomOf s₂ name) := hget
    rw [serverNext_of_alive halive₁, serverAct, hname, Option.bind_some, hget', Option.bind_some]
    exact hstep
  have hfollow : Started.follow s₁ (.get s.joins.length c victim) (.waiting s.joins.length) =
      .client (roomOf s₂ name) c := by
    simp only [Started.follow, if_pos, hname, Option.getD_some]
    rfl
  refine ⟨s₁, t, roomOf s₂ name, R, c, h₁, ?_, alive_set halive₃ hroom.alive, ?_, hroom⟩
  · rw [hstarted]
    refine .step (a := .get s.joins.length c victim) .refl ?_ trivial
    simp only [hubRun, Machine.logged, serverRun, hnext, Option.map_some, hfollow]
  · rw [getElem?_set_some hR, if_pos rfl]

/-- And it can be entered into the client map. -/
theorem not_leavesAlone_of_started {name : Bytes} (hevicts : cfg.Evicts)
    (h : (serverRun cfg).Reachable s) (halive : Alive s) (hj : (handleHub room up).2 = some name) :
    ¬LeavesAlone cfg s room up := by
  intro hleaves
  obtain ⟨s₁, t, r, R, c, h₁, hpath, halive_t, hlast, hroom⟩ := exists_client hevicts h halive hj
  obtain ⟨hp, hq⟩ := alive_chat.mp hroom.alive
  obtain ⟨chat, x, hrun, hinsert, hnew⟩ :=
    reaches_insert hroom.reachable hp hq hroom.readers hroom.fresh
  have hpath' := hpath.trans (room_path (fun _ _ => rfl) halive_t hlast hrun)
  obtain ⟨hp', hq', -⟩ := chatStep_of_next hinsert
  have halive' : Alive { t with rooms := t.rooms.set r { R with chat := chat } } :=
    alive_set halive_t (alive_chat.mpr ⟨hp', hq'⟩)
  let chat' : ChatroomState := { chat with clients := chat.clients.insert x.id c }.setConn c
    { x with reader := .add .unlock }
  have hnext : serverNext cfg { t with rooms := t.rooms.set r { R with chat := chat } }
      (.room r (.reader c none)) =
        some { t with rooms := t.rooms.set r { R with chat := chat' } } := by
    rw [serverNext_of_alive halive', serverAct, if_neg (by simp [ChatroomAction.ofServer]), roomStep]
    simp only [getElem?_set_some hlast, if_pos, Option.bind_some, hinsert, Option.map_some,
      List.set_set]
    rfl
  -- the entry is a change of the client map
  have hun := ((hleaves s₁ h₁).2 _ _ hpath' (.room r (.reader c none)) _
    (by simp [Started.takes, ChatroomAction.client]) hnext).clients
  have hmaps := congrArg (fun l => l[r]?) hun
  simp only [List.getElem?_map, getElem?_set_some hlast, if_pos, Option.map_some, Option.some.injEq,
    Prod.mk.injEq] at hmaps
  have hclients : chat.clients.insert x.id c = chat.clients := hmaps.2
  exact hnew x.id (hclients ▸ AList.lookup_insert chat.clients)

/-- **A rejected request leaves the server alone**, unless all that it lacks is the name of the room. -/
theorem rejected_join_untouched (hevicts : cfg.Evicts) (h : (serverRun cfg).Reachable s) :
    ((handleHub room up).1 ≠ [] → LeavesAlone cfg s room up) ↔
      ¬(room.getD [] = [] ∧ up = .conn ∧ Alive s) := by
  constructor
  · rintro hleaves ⟨hname, rfl, halive⟩
    have hstarts : (handleHub room .conn).2 = some (room.getD []) := rfl
    refine not_leavesAlone_of_started hevicts h halive hstarts (hleaves ?_)
    simp [handleHub, hname]
  · intro hcond hrejected
    by_cases halive : Alive s
    · -- it is the upgrade that has failed
      refine leavesAlone_of_nothing ?_
      cases up with
      | conn =>
        refine absurd ⟨?_, rfl, halive⟩ hcond
        by_contra hname
        simp [handleHub, hname] at hrejected
      | handshakeError => rfl
      | otherError => rfl
    · intro s₁ hs₁
      exact absurd (serverStep_of_next hs₁).1 halive

theorem leastRecentlyUsed_evicts : oneRoomServer.Evicts := by
  intro names hne
  refine ⟨names.getLast hne, List.getLast_mem hne, ?_⟩
  simp [oneRoomServer, leastRecentlyUsed, List.getLast?_eq_getLast_of_ne_nil hne]

/-- A request with a bad handshake. -/
theorem rejected_join_untouched_of_handshake :
    (handleHub (some [97]) .handshakeError).1 ≠ [] ∧
      LeavesAlone oneRoomServer .init (some [97]) .handshakeError :=
  have hrejected : (handleHub (some [97]) .handshakeError).1 ≠ [] := by decide
  ⟨hrejected, (rejected_join_untouched leastRecentlyUsed_evicts .init).mpr
    (fun hcond => nomatch hcond.2.1) hrejected⟩

/-- **The room without a name**: the request is answered with an error, and the room of a client goes. -/
theorem nameless_join_evicts : ∃ (s : ServerState) (R : Room), (serverRun oneRoomServer).Reachable s ∧
    s.rooms[0]? = some R ∧ R.chat.clients.lookup 1 = some 0 ∧
    (handleHub none .conn).1 = [⟨"room parameter missing", 400⟩] ∧
    ¬LeavesAlone oneRoomServer s none .conn := by
  obtain ⟨s, hs, hp⟩ := Machine.exists_of_run (serverRun oneRoomServer) ServerState.init
    ([.hub (some [97]) .conn, .get 0 0 []] ++ List.replicate 7 (.room 0 (.reader 0 none)))
    (fun s => (s.rooms[0]?).any (fun R => R.chat.clients.lookup 1 = some 0) && s.joins = [] &&
      s.cache.lookup [97] = some 0 &&
      (serverNext oneRoomServer s (.hub none .conn)).any fun s₁ => s₁.cache.lookup [97] = some 0 &&
        (serverNext oneRoomServer s₁ (.get 0 1 [97])).any fun s' =>
          s'.cache.lookup [97] = none) (by decide)
  simp only [Bool.and_eq_true, decide_eq_true_eq, Option.any_eq_true] at hp
  obtain ⟨⟨⟨⟨R, hR, hl⟩, hjoins⟩, hcache⟩, s₁, h₁, hcache₁, s', h', hout⟩ := hp
  refine ⟨s, R, hs, hR, hl, rfl, fun hleaves => ?_⟩
  have hstarted : Started.ofRequest s none .conn = .waiting 0 := by
    rw [Started.ofRequest, hjoins]
    rfl
  have hun := (hleaves s₁ h₁).2 s₁ _ .refl (.get 0 1 [97]) s' (by rw [hstarted]; rfl) h'
  rw [hun.cache, hcache₁] at hout
  cases hout

end WebsocketHub
