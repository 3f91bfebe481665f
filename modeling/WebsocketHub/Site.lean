import WebsocketHub.Conversation
import WebsocketHub.RoomUrl
import WebsocketHub.ServerStep

/-!
# WebsocketHub.Site — the server and the pages of its visitors

All rooms with their conversations: a page is loaded somewhere, asks the server for its room, waits for
`rooms.Get` and then is a visitor of the room it has been led to.  Other clients ask for what room they like.

* What happens in a page before its request comes to the server could as well happen after; so a page begins
  with its request.  If it is turned down the page never has a client, and is left out.
* A page whose client has not come to a room (`lobby`) can already be connected, and send.
* A panic ends the server; the pages go on.
* `locations` and `said` are history.
-/

namespace WebsocketHub

open ChatroomState

section Defs

/-- A page that the server has let in. -/
structure Guest where
  config : WidgetConfig
  doc : PageLocation
  visitor : Visitor

structure Site where
  server : ServerState
  /-- the names in `server.joins`, and who has asked for them -/
  lobby : List (Bytes × Option Guest)
  said : RoomId → List (Cid × Bytes)
  visitors : RoomId → Cid → Option Visitor
  locations : RoomId → Cid → Option (WidgetConfig × PageLocation)

inductive SiteAction
  /-- the widget is loaded, and its request answered -/
  | visit (config : WidgetConfig) (doc : PageLocation) (title : JsString) (hidden : Bool) (up : Upgrade)
  /-- a request of anybody else -/
  | hub (room : Option Bytes) (up : Upgrade)
  /-- what happens in a page whose client is number `i` of those that wait -/
  | wait (i : ℕ) (e : TabEvent)
  | get (i : ℕ) (c : Cid) (victim : Bytes)
  | sync (i : ℕ)
  /-- what happens in the page of client `c` of room `r`, but for messages -/
  | page (r : RoomId) (c : Cid) (e : TabEvent)
  | receive (r : RoomId) (c : Cid)
  | room (r : RoomId) (b : ChatroomAction)
deriving DecidableEq, Repr

/-- What goes on in room `r`; nothing has, in a room that is still to be made. -/
def ServerState.chat (s : ServerState) (r : RoomId) : ChatroomState :=
  ((s.rooms[r]?).map Room.chat).getD ChatroomState.init

def ServerState.nameOf (s : ServerState) (r : RoomId) : Option Bytes := (s.rooms[r]?).map Room.name

namespace Site

def init : Site where
  server := ServerState.init
  lobby := []
  said := fun _ => []
  visitors := fun _ _ => none
  locations := fun _ _ => none

/-- A room and the pages of its visitors. -/
def conversation (s : Site) (r : RoomId) : Conversation := ⟨s.server.chat r, s.said r, s.visitors r⟩

/-- Who has waited comes to room `r` as client `c`. -/
def seat (s : Site) (r : RoomId) (c : Cid) : Option Guest → Site
  | none => s
  | some g => { s with
      visitors := Function.update s.visitors r (Function.update (s.visitors r) c (some g.visitor))
      locations := Function.update s.locations r
        (Function.update (s.locations r) c (some (g.config, g.doc))) }

/-- The visitors of room `r` after an action in one of their pages. -/
def withConversation (s : Site) (r : RoomId) (k : Conversation) : Site :=
  { s with
    said := Function.update s.said r k.said
    visitors := Function.update s.visitors r k.visitors }

end Site

variable (cfg : ServerConfig) (toUpperCase : CodeUnit → JsString)

/-- What happens in a page, but for messages. -/
def Visitor.next (v : Visitor) (e : TabEvent) : Option Visitor :=
  if e.isMessage then none else (tabNext toUpperCase v.tab e).map v.after

/-- A request that the server answers, and who has made it. -/
def Site.ask (s : Site) (room : Option Bytes) (up : Upgrade) (g : Option Guest) : Option Site :=
  (serverNext cfg s.server (.hub room up)).map fun server =>
    { s with server, lobby := s.lobby ++ (handleHub room up).2.toList.map fun name => (name, g) }

def siteNext (s : Site) : SiteAction → Option Site
  | .visit config doc title hidden up =>
    (getWebsocketUrl config doc).bind fun url => s.ask cfg (requestRoom url) up
      (some ⟨config, doc, ⟨chatroomwidgetMain title hidden none, [], [], []⟩⟩)
  | .hub room up => s.ask cfg room up none
  | .wait i e =>
    (s.lobby[i]?).bind fun w => w.2.bind fun g => (g.visitor.next toUpperCase e).map fun v =>
      { s with lobby := s.lobby.set i (w.1, some { g with visitor := v }) }
  | .get i c victim =>
    (s.lobby[i]?).bind fun w => (serverNext cfg s.server (.get i c victim)).map fun server =>
      { s.seat (roomOf s.server w.1) c w.2 with server, lobby := s.lobby.eraseIdx i }
  | .sync i => (serverNext cfg s.server (.sync i)).map fun server => { s with server }
  | .page r c e =>
    (conversationNext cfg.verbose cfg.backlog toUpperCase (s.conversation r) (.page c e)).map
      (s.withConversation r)
  | .receive r c =>
    (conversationNext cfg.verbose cfg.backlog toUpperCase (s.conversation r) (.receive c)).map
      (s.withConversation r)
  | .room r b =>
    (serverNext cfg s.server (.room r b)).bind fun server =>
      (conversationNext cfg.verbose cfg.backlog toUpperCase (s.conversation r) (.room b)).map fun k =>
        { s.withConversation r k with server }

def siteRun : Machine Site SiteAction where
  init := Site.init
  next := siteNext cfg toUpperCase

/-- The page at `doc` asks for `name`. -/
def AsksFor (config : WidgetConfig) (doc : PageLocation) (name : Bytes) : Prop :=
  ∃ url, getWebsocketUrl config doc = some url ∧ name = (requestRoom url).getD []

/-- The page of a visitor that has not come to a room. -/
inductive Strolls : Visitor → Prop
  | arrive (title : JsString) (hidden : Bool) : Strolls ⟨chatroomwidgetMain title hidden none, [], [], []⟩
  | next {v v' : Visitor} {e : TabEvent} (h : Strolls v) (hn : v.next toUpperCase e = some v') : Strolls v'

/-- What an action does. -/
inductive SiteStep (s : Site) : Site → Prop
  | ask {room : Option Bytes} {up : Upgrade} {g : Option Guest} {server : ServerState}
    (hg : ∀ g', g = some g' → AsksFor g'.config g'.doc (room.getD []) ∧ Strolls toUpperCase g'.visitor)
    (hs : serverNext cfg s.server (.hub room up) = some server) :
    SiteStep s { s with server, lobby := s.lobby ++ (handleHub room up).2.toList.map fun name => (name, g) }
  | wait {i : ℕ} {e : TabEvent} {name : Bytes} {g : Guest} {v : Visitor}
    (hw : s.lobby[i]? = some (name, some g)) (hv : g.visitor.next toUpperCase e = some v) :
    SiteStep s { s with lobby := s.lobby.set i (name, some { g with visitor := v }) }
  | get {i : ℕ} {c : Cid} {name victim : Bytes} {g : Option Guest} {server : ServerState}
    (hw : s.lobby[i]? = some (name, g)) (hs : serverNext cfg s.server (.get i c victim) = some server) :
    SiteStep s { s.seat (roomOf s.server name) c g with server, lobby := s.lobby.eraseIdx i }
  | sync {i : ℕ} {server : ServerState} (hs : serverNext cfg s.server (.sync i) = some server) :
    SiteStep s { s with server }
  | page {r : RoomId} {b : ConversationAction} {k : Conversation}
    (hb : (∃ c e, b = .page c e) ∨ ∃ c, b = .receive c)
    (hk : conversationNext cfg.verbose cfg.backlog toUpperCase (s.conversation r) b = some k) :
    SiteStep s (s.withConversation r k)
  | room {r : RoomId} {b : ChatroomAction} {k : Conversation} {server : ServerState}
    (hs : serverNext cfg s.server (.room r b) = some server)
    (hk : conversationNext cfg.verbose cfg.backlog toUpperCase (s.conversation r) (.room b) = some k) :
    SiteStep s { s.withConversation r k with server }

/-- What holds of every site. -/
structure SiteOk (s : Site) : Prop where
  rooms : RoomsOk s.server
  joins : s.server.joins = s.lobby.map Prod.fst
  lobby : ∀ name g, (name, some g) ∈ s.lobby → AsksFor g.config g.doc name ∧ Strolls toUpperCase g.visitor
  /-- a visitor is a client of its room -/
  seated : ∀ r c, s.visitors r c ≠ none → (s.server.chat r).conns c ≠ none
  located : ∀ r c, s.locations r c = none ↔ s.visitors r c = none
  led : ∀ r c p, s.locations r c = some p → ∃ name, s.server.nameOf r = some name ∧ AsksFor p.1 p.2 name

end Defs

variable {cfg : ServerConfig} {toUpperCase : CodeUnit → JsString}

/-! ## The rooms of the server -/

section Rooms

variable {s s' : ServerState} {r r' : RoomId} {R : Room} {chat : ChatroomState} {b : ChatroomAction}
  {name n victim : Bytes}

/-- One room changes. -/
theorem rooms_of_set (hR : s.rooms[r]? = some R) (hset : s'.rooms = s.rooms.set r { R with chat := chat }) :
    s.chat r = R.chat ∧ s'.chat r = chat ∧ (∀ r' ≠ r, s'.chat r' = s.chat r') ∧
      ∀ r', s'.nameOf r' = s.nameOf r' := by
  have hget : ∀ r', s'.rooms[r']? = if r' = r then some { R with chat := chat } else s.rooms[r']? := by
    intro r'
    rw [hset]
    exact getElem?_set_some hR
  refine ⟨?_, ?_, fun r' hne => ?_, fun r' => ?_⟩
  · rw [ServerState.chat, hR]
    rfl
  · rw [ServerState.chat, hget r, if_pos rfl]
    rfl
  · rw [ServerState.chat, hget r', if_neg hne, ServerState.chat]
  · rw [ServerState.nameOf, hget r', ServerState.nameOf]
    split_ifs with heq
    · rw [heq, hR]
      rfl
    · rfl

theorem rooms_of_roomStep (h : roomStep cfg s r b = some s') :
    chatNext cfg.verbose cfg.backlog (s.chat r) b = some (s'.chat r) ∧ (∀ r' ≠ r, s'.chat r' = s.chat r') ∧
      ∀ r', s'.nameOf r' = s.nameOf r' := by
  obtain ⟨R, chat, hR, hchat, heq⟩ := roomStep_cases h
  obtain ⟨hold, hnew, hothers, hnames⟩ := rooms_of_set hR (congrArg ServerState.rooms heq)
  exact ⟨by rw [hold, hnew]; exact hchat, hothers, hnames⟩

theorem rooms_of_evict (h : evict cfg s victim = some s') (r : RoomId) :
    (s'.chat r = s.chat r ∨
      chatNext cfg.verbose cfg.backlog (s.chat r) (.close purgeCall) = some (s'.chat r)) ∧
      s'.nameOf r = s.nameOf r := by
  obtain ⟨-, q, R, chat, -, hR, hchat, heq⟩ := evict_cases h
  obtain ⟨hold, hnew, hothers, hnames⟩ := rooms_of_set hR (congrArg ServerState.rooms heq)
  refine ⟨?_, hnames r⟩
  by_cases heq : r = q
  · subst heq
    exact Or.inr (by rw [hold, hnew]; exact hchat)
  · exact Or.inl (hothers r heq)

/-- A room that is made has the name it is made for. -/
theorem rooms_of_onMiss (s : ServerState) (name : Bytes) (r : RoomId) :
    (onMiss s name).chat r = s.chat r ∧
      (onMiss s name).nameOf r = if r = s.rooms.length then some name else s.nameOf r := by
  have hget : (onMiss s name).rooms[r]? =
      if r = s.rooms.length then some ⟨name, ChatroomState.init⟩ else s.rooms[r]? := by
    show (s.rooms ++ [_])[r]? = _
    rw [List.getElem?_append]
    split_ifs with hlt heq heq
    · exact absurd heq (Nat.ne_of_lt hlt)
    · rfl
    · rw [heq, Nat.sub_self]
      rfl
    · have hbeyond : s.rooms.length < r := Nat.lt_of_le_of_ne (Nat.not_lt.mp hlt) (Ne.symm heq)
      rw [List.getElem?_eq_none hbeyond.le, List.getElem?_eq_none]
      exact Nat.sub_pos_of_lt hbeyond
  unfold ServerState.chat ServerState.nameOf
  rw [hget]
  split_ifs with heq
  · refine ⟨?_, rfl⟩
    rw [heq, List.getElem?_eq_none (le_refl _)]
    rfl
  · exact ⟨rfl, rfl⟩

/-- What `rooms.Get` does to the rooms. -/
theorem rooms_of_getRoom (hok : RoomsOk s) (h : getRoom cfg s name victim = some (s', r)) :
    r = roomOf s name ∧ s'.nameOf r = some name ∧ (∀ r' n, s.nameOf r' = some n → s'.nameOf r' = some n) ∧
      ∀ r', s'.chat r' = s.chat r' ∨
        chatNext cfg.verbose cfg.backlog (s.chat r') (.close purgeCall) = some (s'.chat r') := by
  rcases getRoom_cases h with ⟨hl, rfl⟩ | ⟨hl, rfl, hmiss⟩
  · obtain ⟨R, hR, hname, -⟩ := hok.cached name r hl
    refine ⟨by rw [roomOf, hl, Option.getD_some], ?_, fun r' n hn => hn, fun r' => Or.inl rfl⟩
    show Option.map Room.name (s.rooms[r]?) = _
    rw [hR, Option.map_some, hname]
  · have hroom : s.rooms.length = roomOf s name := by rw [roomOf, hl, Option.getD_none]
    have hold : ∀ r' n, s.nameOf r' = some n → (onMiss s name).nameOf r' = some n := by
      intro r' n hn
      have hlt : r' ≠ s.rooms.length := by
        rintro rfl
        rw [ServerState.nameOf, List.getElem?_eq_none (le_refl _)] at hn
        cases hn
      rw [(rooms_of_onMiss s name r').2, if_neg hlt, hn]
    have hnew : (onMiss s name).nameOf s.rooms.length = some name := by
      rw [(rooms_of_onMiss s name _).2, if_pos rfl]
    rcases hmiss with ⟨-, rfl⟩ | ⟨-, hev⟩
    · exact ⟨hroom, hnew, hold, fun r' => Or.inl (rooms_of_onMiss s name r').1⟩
    · refine ⟨hroom, by rw [(rooms_of_evict hev _).2, hnew], fun r' n hn => ?_, fun r' => ?_⟩
      · rw [(rooms_of_evict hev r').2, hold r' n hn]
      · have hclose := (rooms_of_evict hev r').1
        rw [(rooms_of_onMiss s name r').1] at hclose
        exact hclose

/-- The whole of a `rooms.Get`: a room may be purged, and then the client comes to its room. -/
theorem rooms_of_get {i : ℕ} {c : Cid} (hok : RoomsOk s) (hj : s.joins[i]? = some name)
    (h : serverNext cfg s (.get i c victim) = some s') :
    s'.joins = s.joins.eraseIdx i ∧ s'.nameOf (roomOf s name) = some name ∧
      (∀ r n, s.nameOf r = some n → s'.nameOf r = some n) ∧
      ∃ purged : RoomId → ChatroomState,
        (∀ r, purged r = s.chat r ∨
          chatNext cfg.verbose cfg.backlog (s.chat r) (.close purgeCall) = some (purged r)) ∧
        chatNext cfg.verbose cfg.backlog (purged (roomOf s name)) (.connect c) =
          some (s'.chat (roomOf s name)) ∧
        ∀ r ≠ roomOf s name, s'.chat r = purged r := by
  cases (serverStep_of_next h).2 with
  | @get _ _ name' _ r s₁ _ hj' hg hc =>
    obtain rfl := Option.some.inj (hj.symm.trans hj')
    have hok' : RoomsOk { s with joins := s.joins.eraseIdx i } := hok.congr rfl fun _ => rfl
    obtain ⟨hroom, hnew, hold, hchat⟩ := rooms_of_getRoom hok' hg
    obtain rfl : r = roomOf s name := hroom
    obtain ⟨hconnect, hothers, hnames⟩ := rooms_of_roomStep hc
    refine ⟨?_, by rw [hnames, hnew], fun r' n hn => by rw [hnames, hold r' n hn], s₁.chat, hchat, hconnect,
      hothers⟩
    rw [joins_of_roomStep hc, joins_of_getRoom hg]

end Rooms

/-! ## The conversations -/

section Conversations

variable {k k' : Conversation} {a : ConversationAction} {t t' : ChatroomState} {b : ChatroomAction} {c : Cid}
  {v : Visitor}

/-- Nothing is read from a visitor. -/
theorem path_of_quiet (hn : chatNext cfg.verbose cfg.backlog k.room b = some t)
    (hquiet : readsMessage k.room b = none) :
    (conversationRun cfg.verbose cfg.backlog toUpperCase).Path (fun _ _ => True) k { k with room := t } := by
  refine Machine.Path.step (a := .room b) .refl ?_ trivial
  show (chatNext cfg.verbose cfg.backlog k.room b).bind _ = _
  rw [hn, hquiet, recordSaid_of_none hquiet]
  rfl

/-- What has happened in the page of a visitor could as well happen now. -/
theorem path_of_strolls (h : Strolls toUpperCase v) (hv : k.visitors c = none) (hc : k.room.conns c = none) :
    (conversationRun cfg.verbose cfg.backlog toUpperCase).Path (fun _ _ => True) k (k.setVisitor c v) := by
  induction h with
  | arrive title hidden =>
    refine Machine.Path.step (a := .visit c title hidden) .refl ?_ trivial
    exact if_pos ⟨Option.isNone_iff_eq_none.mpr hv, Option.isNone_iff_eq_none.mpr hc⟩
  | @next v v' e _ hn ih =>
    refine ih.step (a := .page c e) ?_ trivial
    have hvisitor : (k.setVisitor c v).visitors c = some v := Function.update_self c _ k.visitors
    unfold Visitor.next at hn
    show ((k.setVisitor c v).visitors c).bind _ = _
    rw [hvisitor, Option.bind_some]
    split_ifs at hn ⊢ with hmessage
    obtain ⟨t, ht, rfl⟩ := Option.map_eq_some_iff.mp hn
    have hidem : (k.setVisitor c v).setVisitor c (v.after t) = k.setVisitor c (v.after t) := by
      unfold Conversation.setVisitor
      rw [Function.update_idem]
    rw [ht, Option.map_some, hidem]

/-- Nobody leaves a conversation, and nobody comes but by a visit. -/
theorem visitors_of_step (hs : ConversationStep cfg.verbose cfg.backlog k a k')
    (hvisit : ∀ c title hidden, a ≠ .visit c title hidden) : k'.visitors c = none ↔ k.visitors c = none := by
  have hset : ∀ {d : Cid} {w w' : Visitor}, k.visitors d = some w →
      ((k.setVisitor d w').visitors c = none ↔ k.visitors c = none) := by
    intro d w w' hd
    rw [Conversation.setVisitor_visitors]
    split_ifs with hcd
    · rw [hcd, hd]
      exact iff_of_false not_false (Option.some_ne_none _)
    · rfl
  cases hs with
  | visit hv hc => exact absurd rfl (hvisit _ _ _)
  | page hv ht => exact hset hv
  | receive hv hc hb htxt ht => exact hset hv
  | room hr htake =>
    rcases takeFrame_cases htake with ⟨rfl, -⟩ | ⟨d, m, w, rest, -, hd, -, rfl⟩
    · rfl
    · exact hset hd

theorem keepsWritten_of_path
    (hp : (conversationRun cfg.verbose cfg.backlog toUpperCase).Path (fun _ _ => True) k k') :
    KeepsWritten k.room k'.room := by
  refine hp.rel (I := fun _ => True) (R := fun k k' => KeepsWritten k.room k'.room) trivial ?_
    (fun k c x hx => ⟨x, hx, List.prefix_refl _⟩) fun k₁ k₂ k₃ h h' c x hx => ?_
  · rintro k₁ a k₂ - - hn
    refine ⟨trivial, ?_⟩
    cases conversationStep_of_next hn with
    | room hr htake => exact keepsWritten_of_step (chatStep_of_next hr).2.2
    | _ => exact fun c x hx => ⟨x, hx, List.prefix_refl _⟩
  · obtain ⟨x', hx', hbegins⟩ := h c x hx
    obtain ⟨x'', hx'', hbegins'⟩ := h' c x' hx'
    exact ⟨x'', hx'', hbegins.trans hbegins'⟩

end Conversations

/-! ## The site -/

variable {s s' : Site} {a : SiteAction} {r : RoomId} {c : Cid}

/-- **Inversion** of the site's step. -/
theorem siteStep_of_next (hn : siteNext cfg toUpperCase s a = some s') : SiteStep cfg toUpperCase s s' := by
  cases a with
  | visit config doc title hidden up =>
    obtain ⟨url, hurl, hn⟩ := Option.bind_eq_some_iff.mp hn
    obtain ⟨server, hs, rfl⟩ := Option.map_eq_some_iff.mp hn
    refine .ask ?_ hs
    rintro g ⟨⟩
    exact ⟨⟨url, hurl, rfl⟩, .arrive title hidden⟩
  | hub room up =>
    obtain ⟨server, hs, rfl⟩ := Option.map_eq_some_iff.mp hn
    exact .ask (by rintro g ⟨⟩) hs
  | wait i e =>
    obtain ⟨⟨name, guest⟩, hw, hn⟩ := Option.bind_eq_some_iff.mp hn
    obtain ⟨g, rfl, hn⟩ := Option.bind_eq_some_iff.mp hn
    obtain ⟨v, hv, rfl⟩ := Option.map_eq_some_iff.mp hn
    exact .wait hw hv
  | get i c victim =>
    obtain ⟨⟨name, g⟩, hw, hn⟩ := Option.bind_eq_some_iff.mp hn
    obtain ⟨server, hs, rfl⟩ := Option.map_eq_some_iff.mp hn
    exact .get hw hs
  | sync i =>
    obtain ⟨server, hs, rfl⟩ := Option.map_eq_some_iff.mp hn
    exact .sync hs
  | page r c e =>
    obtain ⟨k, hk, rfl⟩ := Option.map_eq_some_iff.mp hn
    exact .page (Or.inl ⟨c, e, rfl⟩) hk
  | receive r c =>
    obtain ⟨k, hk, rfl⟩ := Option.map_eq_some_iff.mp hn
    exact .page (Or.inr ⟨c, rfl⟩) hk
  | room r b =>
    obtain ⟨server, hs, hn⟩ := Option.bind_eq_some_iff.mp hn
    obtain ⟨k, hk, rfl⟩ := Option.map_eq_some_iff.mp hn
    exact .room hs hk

/-- The rooms are as they were. -/
theorem rooms_of_hub {server server' : ServerState} {room : Option Bytes} {up : Upgrade}
    (hs : serverNext cfg server (.hub room up) = some server') :
    server'.rooms = server.rooms ∧ server'.joins = server.joins ++ (handleHub room up).2.toList := by
  cases (serverStep_of_next hs).2 with
  | hub room up => exact ⟨rfl, rfl⟩

theorem rooms_of_sync {server server' : ServerState} {i : ℕ}
    (hs : serverNext cfg server (.sync i) = some server') :
    server'.rooms = server.rooms ∧ server'.joins = server.joins := by
  cases (serverStep_of_next hs).2 with
  | sync ho => exact ⟨rfl, rfl⟩

theorem rooms_of_room {server server' : ServerState} {b : ChatroomAction}
    (hs : serverNext cfg server (.room r b) = some server') :
    chatNext cfg.verbose cfg.backlog (server.chat r) b = some (server'.chat r) ∧
      (∀ r' ≠ r, server'.chat r' = server.chat r') ∧ (∀ r', server'.nameOf r' = server.nameOf r') ∧
      server'.joins = server.joins := by
  cases (serverStep_of_next hs).2 with
  | room hb hr =>
    obtain ⟨hchat, hothers, hnames⟩ := rooms_of_roomStep hr
    exact ⟨hchat, hothers, hnames, joins_of_roomStep hr⟩

/-- What is left of a site but for room `r`. -/
theorem withConversation_conversation (s : Site) (r r' : RoomId) (k : Conversation) :
    (s.withConversation r k).said r' = (if r' = r then k.said else s.said r') ∧
      (s.withConversation r k).visitors r' = if r' = r then k.visitors else s.visitors r' :=
  ⟨Function.update_apply _ _ _ _, Function.update_apply _ _ _ _⟩

/-- A page changes nothing in the room. -/
theorem room_of_page {k k' : Conversation} {b : ConversationAction}
    (hb : (∃ c e, b = .page c e) ∨ ∃ c, b = .receive c)
    (hs : ConversationStep cfg.verbose cfg.backlog k b k') : k'.room = k.room := by
  cases hs with
  | room hr htake => rcases hb with ⟨c, e, hb⟩ | ⟨c, hb⟩ <;> cases hb
  | _ => rfl

/-- Only the conversation of room `r` is another. -/
theorem conversation_of_room {b : ChatroomAction} {k : Conversation} {server : ServerState}
    (hs : serverNext cfg s.server (.room r b) = some server)
    (hk : conversationNext cfg.verbose cfg.backlog toUpperCase (s.conversation r) (.room b) = some k)
    (r' : RoomId) : Site.conversation { s.withConversation r k with server } r' =
      if r' = r then k else s.conversation r' := by
  obtain ⟨hsaid, hvisitors⟩ := withConversation_conversation s r r' k
  obtain ⟨hchat, hothers, -, -⟩ := rooms_of_room hs
  have hroom : server.chat r = k.room := by
    cases conversationStep_of_next hk with
    | room hr htake => exact Option.some.inj (hchat.symm.trans hr)
  split_ifs at hsaid hvisitors ⊢ with hr
  · rw [Site.conversation, hsaid, hvisitors, hr, hroom]
  · rw [Site.conversation, hsaid, hvisitors, hothers r' hr, Site.conversation]

theorem conversation_of_page {b : ConversationAction} {k : Conversation}
    (hb : (∃ c e, b = .page c e) ∨ ∃ c, b = .receive c)
    (hk : conversationNext cfg.verbose cfg.backlog toUpperCase (s.conversation r) b = some k) (r' : RoomId) :
    (s.withConversation r k).conversation r' = if r' = r then k else s.conversation r' := by
  obtain ⟨hsaid, hvisitors⟩ := withConversation_conversation s r r' k
  have hroom : k.room = s.server.chat r := room_of_page hb (conversationStep_of_next hk)
  split_ifs at hsaid hvisitors ⊢ with hr
  · rw [Site.conversation, hsaid, hvisitors, hr, show (s.withConversation r k).server = s.server from rfl,
      ← hroom]
  · rw [Site.conversation, hsaid, hvisitors]
    rfl

theorem seat_of_ne {r' : RoomId} {g : Option Guest} (hne : r' ≠ r) :
    (s.seat r c g).visitors r' = s.visitors r' ∧ (s.seat r c g).locations r' = s.locations r' := by
  cases g with
  | none => exact ⟨rfl, rfl⟩
  | some g => exact ⟨Function.update_of_ne hne _ _, Function.update_of_ne hne _ _⟩

theorem seat_some {g : Guest} :
    (s.seat r c (some g)).visitors r = Function.update (s.visitors r) c (some g.visitor) ∧
      (s.seat r c (some g)).locations r = Function.update (s.locations r) c (some (g.config, g.doc)) :=
  ⟨Function.update_self _ _ _, Function.update_self _ _ _⟩

theorem seat_other {r' : RoomId} {d : Cid} {g : Guest} (hne : ¬ (r' = r ∧ d = c)) :
    (s.seat r c (some g)).visitors r' d = s.visitors r' d ∧
      (s.seat r c (some g)).locations r' d = s.locations r' d := by
  by_cases hr : r' = r
  · subst hr
    have hd : d ≠ c := fun hd => hne ⟨rfl, hd⟩
    rw [seat_some.1, seat_some.2]
    exact ⟨Function.update_of_ne hd _ _, Function.update_of_ne hd _ _⟩
  · rw [(seat_of_ne hr).1, (seat_of_ne hr).2]
    exact ⟨rfl, rfl⟩

theorem seat_said {g : Option Guest} : (s.seat r c g).said = s.said := by cases g <;> rfl

theorem conns_of_connect {verbose : Bool} {L : Limits} {t t' : ChatroomState}
    (h : chatNext verbose L t (.connect c) = some t') : t.conns c = none ∧ t'.conns c ≠ none := by
  cases (chatStep_of_next h).2.2 with
  | connect hd =>
    refine ⟨hd, ?_⟩
    show Function.update t.conns c (some makeClient) c ≠ none
    rw [Function.update_self]
    exact Option.some_ne_none _

theorem path_to {k k' : Conversation}
    (hp : (conversationRun cfg.verbose cfg.backlog toUpperCase).Path (fun _ _ => True) k k')
    (hchat : s'.server.chat r = k'.room) (hsaid : s'.said r = k'.said)
    (hvisitors : s'.visitors r = k'.visitors) :
    (conversationRun cfg.verbose cfg.backlog toUpperCase).Path (fun _ _ => True) k (s'.conversation r) := by
  rw [Site.conversation, hchat, hsaid, hvisitors]
  exact hp

theorem chat_congr {server server' : ServerState} (hrooms : server'.rooms = server.rooms) :
    server'.chat r = server.chat r := by
  rw [ServerState.chat, ServerState.chat, hrooms]

theorem lobby_joins {i : ℕ} {name : Bytes} {g : Option Guest} (h : SiteOk toUpperCase s)
    (hw : s.lobby[i]? = some (name, g)) : s.server.joins[i]? = some name := by
  rw [h.joins, List.getElem?_map, hw]
  rfl

/-- **Every room's conversation goes on**, whatever happens at the site. -/
theorem conversation_of_step (h : SiteOk toUpperCase s) (hs : SiteStep cfg toUpperCase s s') (r : RoomId) :
    (conversationRun cfg.verbose cfg.backlog toUpperCase).Path (fun _ _ => True) (s.conversation r)
      (s'.conversation r) := by
  cases hs with
  | ask hg hs =>
    exact path_to .refl (chat_congr (rooms_of_hub hs).1) rfl rfl
  | wait hw hv => exact .refl
  | @get i c name victim g server hw hs =>
    obtain ⟨-, -, -, purged, hpurged, hconnect, hothers⟩ := rooms_of_get h.rooms (lobby_joins h hw) hs
    have hpurge : (conversationRun cfg.verbose cfg.backlog toUpperCase).Path (fun _ _ => True)
        (s.conversation r) ⟨purged r, s.said r, s.visitors r⟩ := by
      rcases hpurged r with heq | hclose
      · rw [heq]
        exact .refl
      · exact path_of_quiet (k := s.conversation r) hclose rfl
    refine hpurge.trans ?_
    have hsaid : (s.seat (roomOf s.server name) c g).said r = s.said r := by rw [seat_said]
    by_cases hr : r = roomOf s.server name
    · rw [← hr] at hconnect hsaid ⊢
      have hnobody : s.visitors r c = none := by
        by_contra hvisitor
        exact (keepsWritten_of_path hpurge).ne_none (h.seated r c hvisitor) (conns_of_connect hconnect).1
      cases g with
      | none => exact path_of_quiet (k := ⟨purged r, s.said r, s.visitors r⟩) hconnect rfl
      | some g =>
        -- the page comes to the room with all that has happened in it
        have hstroll : Strolls toUpperCase g.visitor := (h.lobby name g (List.mem_of_getElem? hw)).2
        refine Machine.Path.trans (path_of_strolls hstroll hnobody (conns_of_connect hconnect).1) ?_
        exact path_to (path_of_quiet hconnect rfl) rfl hsaid seat_some.1
    · exact path_to .refl (hothers r hr) hsaid (seat_of_ne hr).1
  | sync hs =>
    exact path_to .refl (chat_congr (rooms_of_sync hs).1) rfl rfl
  | page hb hk =>
    rw [conversation_of_page hb hk]
    split_ifs with hr
    · rw [hr]
      exact .step .refl hk trivial
    · exact .refl
  | @room r' b k server hs hk =>
    rw [conversation_of_room hs hk]
    split_ifs with hr
    · rw [hr]
      exact Machine.Path.step (a := .room b) .refl hk trivial
    · exact .refl

/-- What an action does to the seats: nothing, or a page comes to the room that it has asked for. -/
theorem seats_of_step (h : SiteOk toUpperCase s) (hs : SiteStep cfg toUpperCase s s') :
    (∀ r n, s.server.nameOf r = some n → s'.server.nameOf r = some n) ∧
      ((∀ r c, s'.visitors r c = none ↔ s.visitors r c = none) ∧ s'.locations = s.locations ∨
        ∃ r c name g, (name, some g) ∈ s.lobby ∧ s'.server.nameOf r = some name ∧
          (s'.server.chat r).conns c ≠ none ∧ s'.visitors = (s.seat r c (some g)).visitors ∧
          s'.locations = (s.seat r c (some g)).locations) := by
  have hsame : ∀ {server : ServerState}, server.rooms = s.server.rooms →
      ∀ r n, s.server.nameOf r = some n → server.nameOf r = some n := by
    intro server hrooms r n hn
    rw [ServerState.nameOf, hrooms]
    exact hn
  -- a conversation that goes on without a visit
  have htalk : ∀ {r : RoomId} {b : ConversationAction} {k : Conversation},
      (∀ c title hidden, b ≠ .visit c title hidden) →
      conversationNext cfg.verbose cfg.backlog toUpperCase (s.conversation r) b = some k →
      ∀ r' c, (s.withConversation r k).visitors r' c = none ↔ s.visitors r' c = none := by
    intro r b k hb hk r' c
    rw [(withConversation_conversation s r r' k).2]
    split_ifs with hr
    · rw [hr]
      exact visitors_of_step (conversationStep_of_next hk) hb
    · rfl
  cases hs with
  | ask hg hs => exact ⟨hsame (rooms_of_hub hs).1, Or.inl ⟨fun _ _ => Iff.rfl, rfl⟩⟩
  | wait hw hv => exact ⟨fun r n hn => hn, Or.inl ⟨fun _ _ => Iff.rfl, rfl⟩⟩
  | sync hs => exact ⟨hsame (rooms_of_sync hs).1, Or.inl ⟨fun _ _ => Iff.rfl, rfl⟩⟩
  | page hb hk =>
    refine ⟨fun r n hn => hn, Or.inl ⟨htalk ?_ hk, rfl⟩⟩
    rintro c title hidden rfl
    rcases hb with ⟨c, e, hb⟩ | ⟨c, hb⟩ <;> cases hb
  | room hs hk =>
    refine ⟨fun r n hn => ?_, Or.inl ⟨htalk (by rintro c title hidden ⟨⟩) hk, rfl⟩⟩
    exact ((rooms_of_room hs).2.2.1 r).trans hn
  | @get i c name victim g server hw hs =>
    obtain ⟨-, hnew, hold, purged, -, hconnect, -⟩ := rooms_of_get h.rooms (lobby_joins h hw) hs
    refine ⟨hold, ?_⟩
    cases g with
    | none => exact Or.inl ⟨fun _ _ => Iff.rfl, rfl⟩
    | some g =>
      exact Or.inr ⟨_, c, name, g, List.mem_of_getElem? hw, hnew, (conns_of_connect hconnect).2, rfl, rfl⟩

/-- The lobby knows who is behind every `handleWebsocket` that waits for its room. -/
theorem lobby_of_step (h : SiteOk toUpperCase s) (hs : SiteStep cfg toUpperCase s s') :
    RoomsOk s'.server ∧ s'.server.joins = s'.lobby.map Prod.fst ∧
      ∀ name g, (name, some g) ∈ s'.lobby → AsksFor g.config g.doc name ∧ Strolls toUpperCase g.visitor := by
  cases hs with
  | @ask room up g server hg hs =>
    refine ⟨h.rooms.step hs, ?_, ?_⟩
    · rw [(rooms_of_hub hs).2, h.joins, List.map_append, List.map_map]
      congr 1
      exact (List.map_id _).symm
    · intro name g' hmem
      rcases List.mem_append.mp hmem with hmem | hmem
      · exact h.lobby name g' hmem
      · obtain ⟨n, hn, heq⟩ := List.mem_map.mp hmem
        obtain ⟨rfl, rfl⟩ := Prod.mk.inj heq
        have hname : n = room.getD [] := by
          cases up with
          | conn => exact (Option.some.inj (Option.mem_toList.mp hn)).symm
          | _ => exact absurd hn List.not_mem_nil
        rw [hname]
        exact hg g' rfl
  | @wait i e name g v hw hv =>
    have hold := h.lobby name g (List.mem_of_getElem? hw)
    refine ⟨h.rooms, ?_, ?_⟩
    · show s.server.joins = (s.lobby.set i _).map Prod.fst
      rw [List.map_set, ← h.joins]
      ext1 j
      rw [getElem?_set_some (lobby_joins h hw)]
      split_ifs with hj
      · rw [hj, lobby_joins h hw]
      · rfl
    · intro name' g' hmem
      rcases List.mem_or_eq_of_mem_set hmem with hmem | heq
      · exact h.lobby name' g' hmem
      · obtain ⟨rfl, hguest⟩ := Prod.mk.inj heq
        obtain rfl := Option.some.inj hguest
        exact ⟨hold.1, hold.2.next hv⟩
  | get hw hs =>
    refine ⟨h.rooms.step hs, ?_, fun name g hmem => h.lobby name g (List.mem_of_mem_eraseIdx hmem)⟩
    rw [(rooms_of_get h.rooms (lobby_joins h hw) hs).1, h.joins, List.eraseIdx_map]
  | sync hs => exact ⟨h.rooms.step hs, (rooms_of_sync hs).2.trans h.joins, h.lobby⟩
  | page hb hk => exact ⟨h.rooms, h.joins, h.lobby⟩
  | room hs hk => exact ⟨h.rooms.step hs, (rooms_of_room hs).2.2.2.trans h.joins, h.lobby⟩

theorem SiteOk.step (h : SiteOk toUpperCase s) (hs : SiteStep cfg toUpperCase s s') :
    SiteOk toUpperCase s' := by
  obtain ⟨hrooms, hjoins, hlobby⟩ := lobby_of_step h hs
  obtain ⟨hnames, hseats⟩ := seats_of_step h hs
  have hkeeps : ∀ r c, (s.server.chat r).conns c ≠ none → (s'.server.chat r).conns c ≠ none := by
    intro r c
    exact (keepsWritten_of_path (conversation_of_step h hs r)).ne_none
  refine ⟨hrooms, hjoins, hlobby, ?_, ?_, ?_⟩
  · intro r c hvisitor
    rcases hseats with ⟨hsame, -⟩ | ⟨q, d, name, g, -, -, hclient, hvisitors, -⟩
    · exact hkeeps r c (h.seated r c fun hnone => hvisitor ((hsame r c).mpr hnone))
    · by_cases heq : r = q ∧ c = d
      · rw [heq.1, heq.2]
        exact hclient
      · rw [hvisitors, (seat_other heq).1] at hvisitor
        exact hkeeps r c (h.seated r c hvisitor)
  · intro r c
    rcases hseats with ⟨hsame, hlocations⟩ | ⟨q, d, name, g, -, -, -, hvisitors, hlocations⟩
    · rw [hlocations, hsame]
      exact h.located r c
    · rw [hvisitors, hlocations]
      by_cases heq : r = q ∧ c = d
      · obtain ⟨rfl, rfl⟩ := heq
        rw [seat_some.1, seat_some.2, Function.update_self, Function.update_self]
        exact iff_of_false (Option.some_ne_none _) (Option.some_ne_none _)
      · rw [(seat_other heq).1, (seat_other heq).2]
        exact h.located r c
  · intro r c p hp
    rcases hseats with ⟨-, hlocations⟩ | ⟨q, d, name, g, hmem, hname, -, -, hlocations⟩
    · rw [hlocations] at hp
      obtain ⟨name, hname, hasks⟩ := h.led r c p hp
      exact ⟨name, hnames r name hname, hasks⟩
    · rw [hlocations] at hp
      by_cases heq : r = q ∧ c = d
      · obtain ⟨rfl, rfl⟩ := heq
        rw [seat_some.2, Function.update_self] at hp
        obtain rfl := Option.some.inj hp
        exact ⟨name, hname, (h.lobby name g hmem).1⟩
      · rw [(seat_other heq).2] at hp
        obtain ⟨name', hname', hasks⟩ := h.led r c p hp
        exact ⟨name', hnames r name' hname', hasks⟩

theorem siteOk_of_reachable (h : (siteRun cfg toUpperCase).Reachable s) : SiteOk toUpperCase s := by
  refine h.invariant (I := SiteOk toUpperCase) ?_ fun _ _ _ hI _ hn => hI.step (siteStep_of_next hn)
  refine ⟨RoomsOk.init, rfl, ?_, ?_, fun _ _ => iff_of_true rfl rfl, ?_⟩
  · intro name g hmem
    exact absurd hmem List.not_mem_nil
  · intro r c hne
    exact absurd rfl hne
  · rintro r c p ⟨⟩

/-! ## Runs -/

theorem server_simulation : Machine.Simulation (siteRun cfg toUpperCase) (serverRun cfg) (fun _ => True)
    (fun _ _ => True) (fun _ _ => True) Site.server where
  step := by
    rintro s a s' - - hn
    refine ⟨trivial, ?_⟩
    cases siteStep_of_next hn with
    | ask hg hs => exact Or.inr ⟨_, trivial, hs⟩
    | wait hw hv => exact Or.inl rfl
    | get hw hs => exact Or.inr ⟨_, trivial, hs⟩
    | sync hs => exact Or.inr ⟨_, trivial, hs⟩
    | page hb hk => exact Or.inl rfl
    | room hs hk => exact Or.inr ⟨_, trivial, hs⟩

/-- A run of the site is in each room a run of its conversation. -/
theorem conversation_path (h : SiteOk toUpperCase s)
    (hp : (siteRun cfg toUpperCase).Path (fun _ _ => True) s s') (r : RoomId) :
    (conversationRun cfg.verbose cfg.backlog toUpperCase).Path (fun _ _ => True) (s.conversation r)
      (s'.conversation r) := by
  refine hp.rel (R := fun s s' => Machine.Path _ _ (s.conversation r) (s'.conversation r)) h ?_
    (fun _ => .refl) fun _ _ _ => Machine.Path.trans
  rintro s a s' hok - hn
  have hs := siteStep_of_next hn
  exact ⟨hok.step hs, conversation_of_step hok hs r⟩

theorem conversation_of_reachable (h : (siteRun cfg toUpperCase).Reachable s) (r : RoomId) :
    (conversationRun cfg.verbose cfg.backlog toUpperCase).Reachable (s.conversation r) :=
  conversation_path (siteOk_of_reachable .init) h r

end WebsocketHub
