import WebsocketHub.Server

/-!
# WebsocketHub.ServerStep — what a step of the server can do

A `Get` is taken apart into its effects on the server: the room is used (`insert` in the cache), or made
(`onMiss`), a room may have to go (`evict`), and the client comes to the room (`roomStep`).  `RoomsOk`
is the invariant of the cache: a room is cached under its name until its `OnPurge` is called.
-/

namespace WebsocketHub

variable {cfg : ServerConfig} {s s' : ServerState} {a : ServerAction} {r : RoomId} {name victim : Bytes}

/-! ## Inversion -/

theorem roomStep_cases {b : ChatroomAction} (h : roomStep cfg s r b = some s') :
    ∃ R chat, s.rooms[r]? = some R ∧ chatNext cfg.verbose cfg.backlog R.chat b = some chat ∧
      s' = { s with rooms := s.rooms.set r { R with chat := chat } } := by
  obtain ⟨R, hR, h1⟩ := Option.bind_eq_some_iff.mp h
  obtain ⟨chat, hchat, rfl⟩ := Option.map_eq_some_iff.mp h1
  exact ⟨R, chat, hR, hchat, rfl⟩

theorem evict_cases (h : evict cfg s victim = some s') :
    cfg.mayEvict s.cache.keys victim = true ∧ ∃ r R chat, s.cache.lookup victim = some r ∧
      s.rooms[r]? = some R ∧
      chatNext cfg.verbose cfg.backlog R.chat (.close purgeCall) = some chat ∧
      s' = { s with
        rooms := s.rooms.set r { R with chat := chat }
        cache := s.cache.erase victim
        ops := s.ops ++ [.remove R.name] } := by
  unfold evict at h
  split at h
  · next hmay =>
    obtain ⟨r, hr, h1⟩ := Option.bind_eq_some_iff.mp h
    obtain ⟨R, hR, h2⟩ := Option.bind_eq_some_iff.mp h1
    obtain ⟨R', chat, hR', hchat, rfl⟩ := roomStep_cases h2
    obtain rfl := Option.some.inj (hR.symm.trans hR')
    exact ⟨hmay, r, R, chat, hr, hR, hchat, rfl⟩
  · cases h

theorem getRoom_cases (h : getRoom cfg s name victim = some (s', r)) :
    (s.cache.lookup name = some r ∧ s' = { s with cache := s.cache.insert name r }) ∨
      (s.cache.lookup name = none ∧ r = s.rooms.length ∧
        (s.cache.keys.length < cfg.numRooms ∧ s' = onMiss s name ∨
          cfg.numRooms ≤ s.cache.keys.length ∧ evict cfg (onMiss s name) victim = some s')) := by
  unfold getRoom at h
  split at h
  · next r' hl =>
    obtain ⟨rfl, rfl⟩ := Prod.mk.inj (Option.some.inj h)
    exact .inl ⟨hl, rfl⟩
  · next hl =>
    split at h
    · next hlt =>
      obtain ⟨rfl, rfl⟩ := Prod.mk.inj (Option.some.inj h)
      exact .inr ⟨hl, rfl, .inl ⟨hlt, rfl⟩⟩
    · next hge =>
      obtain ⟨s₁, hev, heq⟩ := Option.map_eq_some_iff.mp h
      obtain ⟨rfl, rfl⟩ := Prod.mk.inj heq
      exact .inr ⟨hl, rfl, .inr ⟨Nat.not_lt.mp hge, hev⟩⟩

theorem joins_of_roomStep {b : ChatroomAction} (h : roomStep cfg s r b = some s') : s'.joins = s.joins := by
  obtain ⟨R, chat, -, -, rfl⟩ := roomStep_cases h
  rfl

/-- `rooms.Get` starts no `handleWebsocket`. -/
theorem joins_of_getRoom (h : getRoom cfg s name victim = some (s', r)) : s'.joins = s.joins := by
  rcases getRoom_cases h with ⟨-, rfl⟩ | ⟨-, -, ⟨-, rfl⟩ | ⟨-, hev⟩⟩
  · rfl
  · rfl
  · obtain ⟨-, r', R, chat, -, -, -, rfl⟩ := evict_cases hev
    rfl

/-- The steps of the server. -/
inductive ServerStep (cfg : ServerConfig) (s : ServerState) : ServerAction → ServerState → Prop
  | hub (room : Option Bytes) (up : Upgrade) : ServerStep cfg s (.hub room up)
      { s with joins := s.joins ++ (handleHub room up).2.toList }
  | get {i : ℕ} {c : Cid} {name victim : Bytes} {r : RoomId} {s₁ s' : ServerState}
      (hj : s.joins[i]? = some name)
      (hg : getRoom cfg { s with joins := s.joins.eraseIdx i } name victim = some (s₁, r))
      (hc : roomStep cfg s₁ r (.connect c) = some s') : ServerStep cfg s (.get i c victim) s'
  | sync {i : ℕ} {op : RoomNameOp} (ho : s.ops[i]? = some op) : ServerStep cfg s (.sync i)
      { s with roomNames := op.run s.roomNames, ops := s.ops.eraseIdx i }
  | room {r : RoomId} {b : ChatroomAction} {s' : ServerState} (hb : b.ofServer = false)
      (hr : roomStep cfg s r b = some s') : ServerStep cfg s (.room r b) s'

/-- **Inversion** of the server's step. -/
theorem serverStep_of_next (h : serverNext cfg s a = some s') :
    (∀ R ∈ s.rooms, R.chat.panicked = false) ∧ ServerStep cfg s a s' := by
  unfold serverNext at h
  split at h
  · cases h
  · next hp =>
    refine ⟨fun R hR => by simpa using fun h => hp (List.any_eq_true.mpr ⟨R, hR, h⟩), ?_⟩
    cases a with
    | hub room up =>
      obtain rfl := Option.some.inj h
      exact .hub room up
    | get i c victim =>
      obtain ⟨name, hj, h1⟩ := Option.bind_eq_some_iff.mp h
      obtain ⟨⟨s₁, r⟩, hg, hc⟩ := Option.bind_eq_some_iff.mp h1
      exact .get hj hg hc
    | sync i =>
      obtain ⟨op, ho, rfl⟩ := Option.map_eq_some_iff.mp h
      exact .sync ho
    | room r b =>
      simp only [serverAct] at h
      split at h
      · cases h
      · next hb => exact .room (by simpa using hb) h

/-- **Invariant rule** of the server: what its effects preserve, one by one. -/
theorem ServerStep.preserves {I : ServerState → Prop} (hs : ServerStep cfg s a s') (h : I s)
    (hsame : ∀ s s', s'.rooms = s.rooms → s'.cache = s.cache → I s → I s')
    (huse : ∀ s name r, s.cache.lookup name = some r → I s →
      I { s with cache := s.cache.insert name r })
    (hmiss : ∀ s name, s.cache.lookup name = none → I s → I (onMiss s name))
    (hevict : ∀ s s' victim, evict cfg s victim = some s' → I s → I s')
    (hconnect : ∀ s s' r i c victim, a = .get i c victim →
      roomStep cfg s r (.connect c) = some s' → I s → I s')
    (hroom : ∀ r b, a = .room r b → b.ofServer = false → roomStep cfg s r b = some s' → I s') :
    I s' := by
  cases hs with
  | hub room up => exact hsame s _ rfl rfl h
  | @get i c name victim r s₁ s' hj hg hc =>
    have h₁ : I { s with joins := s.joins.eraseIdx i } := hsame s _ rfl rfl h
    refine hconnect s₁ s' r i c victim rfl hc ?_
    rcases getRoom_cases hg with ⟨hl, rfl⟩ | ⟨hl, -, ⟨-, rfl⟩ | ⟨-, hev⟩⟩
    · exact huse _ name r hl h₁
    · exact hmiss _ name hl h₁
    · exact hevict _ s₁ victim hev (hmiss _ name hl h₁)
  | sync ho => exact hsame s _ rfl rfl h
  | @room r b s' hb hr => exact hroom r b rfl hb hr

/-! ## The rooms -/

theorem getElem?_set_some {α : Type*} {l : List α} {i j : ℕ} {e e' : α} (h : l[i]? = some e) :
    (l.set i e')[j]? = if j = i then some e' else l[j]? := by
  rw [List.getElem?_set]
  obtain ⟨hi, -⟩ := List.getElem?_eq_some_iff.mp h
  by_cases hij : i = j
  · rw [if_pos hij, if_pos hi, if_pos hij.symm]
  · rw [if_neg hij, if_neg (Ne.symm hij)]

/-- A goroutine of the room leaves it to the server to call `chatroom.Close`. -/
theorem closers_of_chatNext {verbose : Bool} {L : Limits} {t t' : ChatroomState}
    {b : ChatroomAction} (h : chatNext verbose L t b = some t') (k : Kid) (hb : b ≠ .close k) :
    t'.closers k = none ↔ t.closers k = none := by
  have hs := (chatStep_of_next h).2.2
  have hupdate : ∀ (k₁ : Kid) (p p' : CloserPc), t.closers k₁ = some p →
      (Function.update t.closers k₁ (some p') k = none ↔ t.closers k = none) := by
    intro k₁ p p' hk
    rw [Function.update_apply]
    split
    · next heq => rw [heq, hk]; simp
    · exact .rfl
  have hdel : ∀ {T}, runDel verbose t T = some t' → (t'.closers k = none ↔ t.closers k = none) := by
    intro T hd
    rw [(runDel_frame hd).2.2.2]
  cases hs with
  | readerDel hd => exact hdel hd
  | writerDel hd => exact hdel hd
  | del hd => exact hdel hd
  | @close k₁ hk =>
    have hne : k ≠ k₁ := fun heq => hb (by rw [heq])
    exact iff_of_eq (congrArg (· = none) (Function.update_of_ne hne _ _))
  | rlock hk hfree => exact hupdate _ _ _ hk
  | runlock hk => exact hupdate _ _ _ hk
  | spawn hk hi => exact hupdate _ _ _ hk
  | _ => exact .rfl

/-- Only the server brings a new client. -/
theorem conns_of_chatNext {verbose : Bool} {L : Limits} {t t' : ChatroomState} {b : ChatroomAction}
    {c : Cid} (h : chatNext verbose L t b = some t') (hb : b ≠ .connect c) (hc : t.conns c = none) :
    t'.conns c = none := by
  -- a client that makes a step is not `c`
  have hne : ∀ {d x}, t.conns d = some x → c ≠ d := by
    rintro d x hx rfl
    rw [hc] at hx
    cases hx
  have hdel : ∀ {T}, runDel verbose t T = some t' → t'.conns c = none := by
    intro T hd
    rw [← Option.isNone_iff_eq_none, ← Option.not_isSome, runDel_isSome hd, hc]
    rfl
  cases (chatStep_of_next h).2.2 with
  | @connect d hd =>
    have hcd : c ≠ d := fun heq => hb (by rw [heq])
    exact (Function.update_of_ne hcd _ _).trans hc
  | readerDel hd => exact hdel hd
  | writerDel hd => exact hdel hd
  | del hd => exact hdel hd
  | appendStep hd hr hq => exact hc
  | readerClosePanics hd hr he => exact hc
  | writerClosePanics hd hw he => exact hc
  | listens hl hq => exact hc
  | close hk => exact hc
  | rlock hk hfree => exact hc
  | runlock hk => exact hc
  | spawn hk hi => exact hc
  | _ hd => exact (Function.update_of_ne (hne hd) _ _).trans hc

theorem closers_of_close {verbose : Bool} {L : Limits} {t t' : ChatroomState} {k : Kid}
    (h : chatNext verbose L t (.close k) = some t') : t'.closers k = some .rlock := by
  cases (chatStep_of_next h).2.2 with
  | close hk => exact Function.update_self _ _ _

/-- A room is cached under its name until it is purged. -/
structure RoomsOk (s : ServerState) : Prop where
  cached : ∀ name r, s.cache.lookup name = some r →
    ∃ R, s.rooms[r]? = some R ∧ R.name = name ∧ R.chat.closers purgeCall = none
  purged : ∀ r R, s.rooms[r]? = some R →
    s.cache.lookup R.name = some r ∨ R.chat.closers purgeCall ≠ none

namespace RoomsOk

theorem init : RoomsOk .init where
  cached := fun name r h => by cases h
  purged := fun r R h => by cases h

/-- The cache is the same, as a map. -/
theorem congr (h : RoomsOk s) (hrooms : s'.rooms = s.rooms)
    (hcache : ∀ name, s'.cache.lookup name = s.cache.lookup name) : RoomsOk s' where
  cached := by
    intro name r hl
    rw [hrooms]
    exact h.cached name r (hcache name ▸ hl)
  purged := by
    intro r R hR
    rw [hcache]
    exact h.purged r R (hrooms ▸ hR)

theorem onMiss (h : RoomsOk s) (hl : s.cache.lookup name = none) : RoomsOk (onMiss s name) := by
  have hold : ∀ (r : RoomId) R, s.rooms[r]? = some R → (s.rooms ++ [⟨name, .init⟩])[r]? = some R := by
    intro r R hR
    rw [List.getElem?_append_left (List.getElem?_eq_some_iff.mp hR).1]
    exact hR
  constructor
  · intro name' r hl'
    change (s.cache.insert name s.rooms.length).lookup name' = some r at hl'
    by_cases heq : name' = name
    · subst heq
      rw [AList.lookup_insert] at hl'
      obtain rfl := Option.some.inj hl'
      exact ⟨⟨name', .init⟩, List.getElem?_concat_length, rfl, rfl⟩
    · rw [AList.lookup_insert_ne heq] at hl'
      obtain ⟨R, hR, hname, hk⟩ := h.cached name' r hl'
      exact ⟨R, hold r R hR, hname, hk⟩
  · intro r R hR
    change (s.rooms ++ [⟨name, .init⟩])[r]? = some R at hR
    change (s.cache.insert name s.rooms.length).lookup R.name = some r ∨ _
    rcases Nat.lt_trichotomy r s.rooms.length with hlt | rfl | hgt
    · rw [List.getElem?_append_left hlt] at hR
      rcases h.purged r R hR with hc | hk
      · left
        rw [AList.lookup_insert_ne]
        · exact hc
        · rintro heq
          rw [heq, hl] at hc
          cases hc
      · exact .inr hk
    · rw [List.getElem?_concat_length] at hR
      obtain rfl := Option.some.inj hR
      exact .inl (AList.lookup_insert _)
    · rw [List.getElem?_eq_none (by simp; omega)] at hR
      cases hR

/-- A step in a room, but for `Close`. -/
theorem roomStep {b : ChatroomAction} (h : RoomsOk s) (hb : b ≠ .close purgeCall)
    (hr : roomStep cfg s r b = some s') : RoomsOk s' := by
  obtain ⟨R, chat, hR, hchat, rfl⟩ := roomStep_cases hr
  have hk := closers_of_chatNext hchat purgeCall hb
  constructor
  · intro name r' hl
    obtain ⟨R', hR', hname, hk'⟩ := h.cached name r' hl
    simp only [getElem?_set_some hR]
    split
    · next heq =>
      obtain rfl := Option.some.inj (hR.symm.trans (heq ▸ hR'))
      exact ⟨_, rfl, hname, hk.mpr hk'⟩
    · exact ⟨R', hR', hname, hk'⟩
  · intro r' R' hR'
    simp only [getElem?_set_some hR] at hR'
    split at hR'
    · next heq =>
      obtain rfl := Option.some.inj hR'
      subst heq
      rcases h.purged r' R hR with hc | hne
      · exact .inl hc
      · exact .inr fun h0 => hne (hk.mp h0)
    · exact h.purged r' R' hR'

theorem evict (h : RoomsOk s) (he : evict cfg s victim = some s') : RoomsOk s' := by
  obtain ⟨-, r, R, chat, hl, hR, hchat, rfl⟩ := evict_cases he
  obtain ⟨R₁, hR₁, hname, -⟩ := h.cached victim r hl
  obtain rfl := Option.some.inj (hR.symm.trans hR₁)
  constructor
  · intro name r' hl'
    change (s.cache.erase victim).lookup name = some r' at hl'
    by_cases heq : name = victim
    · subst heq
      rw [AList.lookup_erase] at hl'
      cases hl'
    · rw [AList.lookup_erase_ne heq] at hl'
      obtain ⟨R', hR', hname', hk'⟩ := h.cached name r' hl'
      refine ⟨R', ?_, hname', hk'⟩
      simp only [getElem?_set_some hR]
      rw [if_neg]
      · exact hR'
      · rintro rfl
        obtain rfl := Option.some.inj (hR.symm.trans hR')
        exact heq (hname'.symm.trans hname)
  · intro r' R' hR'
    simp only [getElem?_set_some hR] at hR'
    split at hR'
    · obtain rfl := Option.some.inj hR'
      refine .inr ?_
      simp only [closers_of_close hchat]
      simp
    · next hne =>
      rcases h.purged r' R' hR' with hc | hk
      · left
        rw [AList.lookup_erase_ne]
        · exact hc
        · rintro heq
          rw [heq, hl] at hc
          exact hne (Option.some.inj hc).symm
      · exact .inr hk

/-- **Step lemma**. -/
theorem step (h : RoomsOk s) (hn : serverNext cfg s a = some s') : RoomsOk s' := by
  refine (serverStep_of_next hn).2.preserves h ?_ ?_ ?_ ?_ ?_ ?_
  · intro s s' hrooms hcache hI
    exact hI.congr hrooms fun name => by rw [hcache]
  · intro s name r hl hI
    refine hI.congr rfl fun name' => ?_
    by_cases heq : name' = name
    · rw [heq, hl]
      exact AList.lookup_insert _
    · exact AList.lookup_insert_ne heq
  · intro s name hl hI
    exact hI.onMiss hl
  · intro s s' victim he hI
    exact hI.evict he
  · intro s s' r i c victim _ hr hI
    exact hI.roomStep (by simp) hr
  · intro r b _ hb hr
    refine h.roomStep ?_ hr
    rintro rfl
    cases hb

end RoomsOk

theorem roomsOk_of_reaches {ok : ServerState → ServerAction → Prop}
    (h : (serverRun cfg).Reaches ok s) : RoomsOk s :=
  h.invariant .init fun _ _ _ hI _ hn => hI.step hn

/-- Every room runs as a room: a step condition on the server that yields one on the rooms. -/
theorem chat_of_reaches {ok : ServerState → ServerAction → Prop}
    {C : ChatroomState → ChatroomAction → Prop} (h : (serverRun cfg).Reaches ok s)
    (hclose : ∀ t, C t (.close purgeCall))
    (hconnect : ∀ s i c victim t, ok s (.get i c victim) → C t (.connect c))
    (hroom : ∀ s r b R, ok s (.room r b) → b.ofServer = false → s.rooms[r]? = some R →
      C R.chat b) :
    ∀ R ∈ s.rooms, (chatRun cfg.verbose cfg.backlog).Reaches C R.chat := by
  have hset : ∀ {s : ServerState} {r R chat} {b : ChatroomAction},
      (∀ R ∈ s.rooms, (chatRun cfg.verbose cfg.backlog).Reaches C R.chat) →
      s.rooms[r]? = some R → chatNext cfg.verbose cfg.backlog R.chat b = some chat →
      C R.chat b → ∀ R' ∈ s.rooms.set r { R with chat := chat },
        (chatRun cfg.verbose cfg.backlog).Reaches C R'.chat := by
    intro s r R chat b hI hR hchat hb R' hR'
    rcases List.mem_or_eq_of_mem_set hR' with hold | rfl
    · exact hI R' hold
    · exact (hI R (List.mem_of_getElem? hR)).step hchat hb
  refine h.invariant (I := fun s => ∀ R ∈ s.rooms,
    (chatRun cfg.verbose cfg.backlog).Reaches C R.chat) (by simp [serverRun, ServerState.init]) ?_
  intro s a s' hI hok hn
  refine (serverStep_of_next hn).2.preserves
    (I := fun s => ∀ R ∈ s.rooms, (chatRun cfg.verbose cfg.backlog).Reaches C R.chat) hI
    ?_ ?_ ?_ ?_ ?_ ?_
  · intro s s' hrooms _ hI
    rw [hrooms]
    exact hI
  · intro s name r _ hI
    exact hI
  · intro s name _ hI R hR
    rcases List.mem_append.mp hR with hR | hR
    · exact hI R hR
    · rw [List.mem_singleton.mp hR]
      exact .init
  · intro s s' victim he hI
    obtain ⟨-, r, R, chat, -, hR, hchat, rfl⟩ := evict_cases he
    exact hset hI hR hchat (hclose _)
  · rintro s₁ s' r i c victim rfl hr hI
    obtain ⟨R, chat, hR, hchat, rfl⟩ := roomStep_cases hr
    exact hset hI hR hchat (hconnect s i c victim _ hok)
  · rintro r b rfl hb hr
    obtain ⟨R, chat, hR, hchat, rfl⟩ := roomStep_cases hr
    exact hset hI hR hchat (hroom s r b R hok hb hR)

end WebsocketHub
