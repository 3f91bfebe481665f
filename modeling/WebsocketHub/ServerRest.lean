import WebsocketHub.ChatroomRest
import WebsocketHub.ServerHub

/-!
# WebsocketHub.ServerRest — a server that is left alone comes to rest

Without new requests, and with nothing more to read, what has been started is done: every `handleWebsocket`
gets its room, and its client comes to it, the operations on `roomNames` are executed, and the goroutines of
the rooms go on.  A `Get` may make a room and purge another, which gives both more to do; but there is one
`Get` less to come (`serverGoes_ends`).  In the end every room is at rest.
-/

namespace WebsocketHub

open ServerState

section Defs

/-- A step that needs no request and nothing to read. -/
def serverGoes (s : ServerState) : ServerAction → Bool
  | .hub _ _ => false
  | .get _ _ _ => true
  | .sync _ => true
  | .room r b => (s.rooms[r]?).any fun R => goes R.chat b

namespace ServerState

variable (C : RoomId → Finset Cid) (K : RoomId → Finset Kid) (s : ServerState)

/-- The work of a room. -/
def roomWork (r : RoomId) : ℕ := ((s.rooms[r]?).map fun R => R.chat.work (C r) (K r)).getD 0

/-- What is left to do until the next `Get`. -/
def stageWork : ℕ := s.ops.length + ∑ r ∈ Finset.range s.rooms.length, s.roomWork C K r

/-- `C` are the clients of the rooms and `K` their calls of `chatroom.Close`. -/
def Known : Prop := ∀ (r : RoomId) (R : Room), s.rooms[r]? = some R → R.chat.Known (C r) (K r)

end ServerState

/-- What a server looks like when all that has been started is done. -/
structure ServerAtRest (s : ServerState) : Prop where
  joins : s.joins = []
  ops : s.ops = []
  rooms : ∀ R ∈ s.rooms, AtRest R.chat

/-- What becomes of a server that is left alone. -/
structure ServerComesToRest (M : Machine ServerState ServerAction) : Prop where
  /-- It does not go on forever, whatever the order of the steps. -/
  ends : ∀ s, M.Reachable s → M.Ends serverGoes s
  /-- It can take its steps until none is left. -/
  halts : ∀ s, M.Reachable s → ∃ k s', M.RunsFor serverGoes k s s' ∧ M.Halted serverGoes s'
  /-- Then, unless there has been a panic, every room is at rest and nothing is pending. -/
  rests : ∀ s, M.Reachable s → Alive s → M.Halted serverGoes s → ServerAtRest s ∧ Settled s

end Defs

variable {cfg : ServerConfig} {s s' : ServerState} {a : ServerAction} {r : RoomId} {R : Room}
  {name victim : Bytes} {C : RoomId → Finset Cid} {K : RoomId → Finset Kid}

/-! ## The end -/

/-- A room of a run of the server is a room's run. -/
theorem room_reachable (h : (serverRun cfg).Reachable s) (hR : R ∈ s.rooms) :
    (chatRun cfg.verbose cfg.backlog).Reachable R.chat :=
  chat_of_reaches (C := fun _ _ => True) h (by simp) (by simp) (by simp) R hR

/-- The clients of all rooms are finitely many. -/
theorem exists_serverKnown (h : (serverRun cfg).Reachable s) :
    ∃ i : (RoomId → Finset Cid) × (RoomId → Finset Kid), s.Known i.1 i.2 := by
  have hroom : ∀ r : RoomId, ∃ C K, ∀ R : Room, s.rooms[r]? = some R → R.chat.Known C K := by
    intro r
    cases hr : s.rooms[r]? with
    | none => exact ⟨∅, ∅, by rintro R ⟨⟩⟩
    | some R =>
      obtain ⟨C, K, hknown⟩ := exists_known (room_reachable h (List.mem_of_getElem? hr))
      refine ⟨C, K, ?_⟩
      rintro R' hR'
      exact Option.some.inj hR' ▸ hknown
  choose C K hknown using hroom
  exact ⟨(C, K), hknown⟩

/-- A room goes on. -/
theorem stageWork_room {chat : ChatroomState} (hR : s.rooms[r]? = some R)
    (hlt : chat.work (C r) (K r) < R.chat.work (C r) (K r)) :
    { s with rooms := s.rooms.set r { R with chat := chat } }.stageWork C K < s.stageWork C K := by
  let s' : ServerState := { s with rooms := s.rooms.set r { R with chat := chat } }
  have hget : ∀ i, s'.rooms[i]? = if i = r then some { R with chat := chat } else s.rooms[i]? :=
    fun i => getElem?_set_some hR
  have hin : r ∈ Finset.range s.rooms.length := Finset.mem_range.mpr (List.getElem?_eq_some_iff.mp hR).1
  have hsum : ∑ i ∈ Finset.range s.rooms.length, s'.roomWork C K i + 1 ≤
      ∑ i ∈ Finset.range s.rooms.length, s.roomWork C K i := by
    refine sum_fall hin (fun i _ hi => Nat.le_of_eq ?_) ?_
    · unfold roomWork
      rw [hget, if_neg hi]
    · unfold roomWork
      rw [hget, if_pos rfl, hR]
      exact hlt
  have hwork : s'.stageWork C K < s.stageWork C K := by
    unfold stageWork
    rw [show s'.rooms.length = s.rooms.length from List.length_set, show s'.ops = s.ops from rfl]
    omega
  exact hwork

/-- **Step lemma**: there is one `Get` less to come, or less to do until the next. -/
theorem serverGoes_step (h : (serverRun cfg).Reachable s) (hknown : s.Known C K)
    (hgoes : serverGoes s a = true) (hn : serverNext cfg s a = some s') :
    s'.joins.length < s.joins.length ∨
      s'.joins.length = s.joins.length ∧ s'.Known C K ∧ s'.stageWork C K < s.stageWork C K := by
  cases (serverStep_of_next hn).2 with
  | hub room up => cases hgoes
  | @get i c name victim r s₁ _ hj hg hc =>
    left
    have hlt := (List.getElem?_eq_some_iff.mp hj).1
    rw [joins_of_roomStep hc, joins_of_getRoom hg]
    show (s.joins.eraseIdx i).length < s.joins.length
    rw [List.length_eraseIdx_of_lt hlt]
    omega
  | @sync i op ho =>
    right
    have hlt := (List.getElem?_eq_some_iff.mp ho).1
    refine ⟨rfl, hknown, ?_⟩
    show (s.ops.eraseIdx i).length + _ < s.ops.length + _
    rw [List.length_eraseIdx_of_lt hlt]
    exact Nat.add_lt_add_right (by omega) _
  | @room r b _ hb hr =>
    right
    obtain ⟨R, chat, hR, hchat, rfl⟩ := roomStep_cases hr
    have hgoes' : goes R.chat b = true := by
      rw [serverGoes, hR, Option.any_some] at hgoes
      exact hgoes
    obtain ⟨⟨-, hchatKnown⟩, hlt⟩ := work_lowers _ _ _
      ⟨room_reachable h (List.mem_of_getElem? hR), hknown r R hR⟩ hgoes' hchat
    refine ⟨rfl, fun i R' hR' => ?_, stageWork_room hR hlt⟩
    simp only [getElem?_set_some hR] at hR'
    split at hR'
    · next heq =>
      obtain rfl := Option.some.inj hR'
      rw [heq]
      exact hchatKnown
    · exact hknown i R' hR'

theorem serverGoes_ends (h : (serverRun cfg).Reachable s) : (serverRun cfg).Ends serverGoes s := by
  refine Machine.ends_of_stages (I := (serverRun cfg).Reachable)
    (J := fun (i : (RoomId → Finset Cid) × (RoomId → Finset Kid)) s => s.Known i.1 i.2)
    (Ψ := fun i s => s.stageWork i.1 i.2) (fun s => s.joins.length) ?_ (fun s h => exists_serverKnown h) ?_ h
  · intro s a s' h _ hn
    exact h.step hn trivial
  · rintro ⟨C, K⟩ s a s' h hknown hgoes hn
    exact serverGoes_step h hknown hgoes hn

/-! ## At the end -/

section Halted

variable (halive : Alive s) (hhalt : (serverRun cfg).Halted serverGoes s)

include halive hhalt

/-- Every `handleWebsocket` has got its room: `Get` can go on. -/
theorem joins_of_halted (hevicts : cfg.Evicts) (h : (serverRun cfg).Reachable s) : s.joins = [] := by
  cases hj : s.joins with
  | nil => rfl
  | cons name rest =>
    exfalso
    obtain ⟨c, hready⟩ := roomsReady_of_reachable h halive
    have hready₁ : RoomsReady cfg c { s with joins := s.joins.eraseIdx 0 } :=
      ⟨hready.rooms.congr rfl fun _ => rfl, hready.alive, hready.reachable, hready.closers, hready.fresh⟩
    obtain ⟨victim, s', hg, -, R, hR, hclient⟩ := hready₁.exists_get hevicts name
    obtain ⟨hp, hlive⟩ := alive_chat.mp hclient.alive
    have hnone : serverNext cfg s (.get 0 c victim) = none := hhalt (.get 0 c victim) rfl
    rw [serverNext_of_alive halive, serverAct, hj, List.getElem?_cons_zero, Option.bind_some, ← hj, hg,
      Option.bind_some, roomStep, hR, Option.bind_some, chatNext_of_alive hp hlive, chatAct,
      hclient.fresh] at hnone
    cases hnone

theorem ops_of_halted : s.ops = [] := by
  cases ho : s.ops with
  | nil => rfl
  | cons op rest =>
    have hnone : serverNext cfg s (.sync 0) = none := hhalt (.sync 0) rfl
    rw [serverNext_of_alive halive, serverAct, ho] at hnone
    cases hnone

theorem rooms_of_halted (h : (serverRun cfg).Reachable s) (hmem : R ∈ s.rooms) : AtRest R.chat := by
  obtain ⟨hp, hlive⟩ := alive_chat.mp (halive R hmem)
  refine atRest_of_halted (room_reachable h hmem) hp hlive fun b hgoes => ?_
  obtain ⟨r, hR⟩ := List.getElem?_of_mem hmem
  have hserver : b.ofServer = false := by
    cases b with
    | connect c => cases hgoes
    | close k => cases hgoes
    | _ => rfl
  have hnone : serverNext cfg s (.room r b) = none := hhalt (.room r b) (by
    rw [serverGoes, hR, Option.any_some, hgoes])
  rw [serverNext_of_alive halive, serverAct, hserver, if_neg Bool.false_ne_true, roomStep, hR,
    Option.bind_some, Option.map_eq_none_iff] at hnone
  exact hnone

end Halted

/-- At rest nothing is pending. -/
theorem ServerAtRest.settled (h : ServerAtRest s) : Settled s where
  joins := h.joins
  added := by
    intro R hR c x hc
    rcases (h.rooms R hR).readers c x hc with hr | hr <;> rw [hr] <;> rfl
  purged := fun R hR p hk => (h.rooms R hR).closers purgeCall p hk
  deleted := fun R hR d y hy => (h.rooms R hR).dels d y hy

/-- **Rest**: if `lrucache` finds a room to remove whenever there are too many, every server that is left
alone comes to rest. -/
theorem server_comes_to_rest (cfg : ServerConfig) (hevicts : cfg.Evicts) :
    ServerComesToRest (serverRun cfg) where
  ends := fun s h => serverGoes_ends h
  halts := fun s h => Machine.exists_halted (serverGoes_ends h)
  rests := by
    intro s h halive hhalt
    have hrest : ServerAtRest s := ⟨joins_of_halted halive hhalt hevicts h, ops_of_halted halive hhalt,
      fun R hR => rooms_of_halted halive hhalt h hR⟩
    exact ⟨hrest, hrest.settled⟩

/-- The cache that removes the room used least recently. -/
theorem server_comes_to_rest_of_lru : ServerComesToRest (serverRun oneRoomServer) :=
  server_comes_to_rest oneRoomServer leastRecentlyUsed_evicts

end WebsocketHub
