import WebsocketHub.ConversationRest
import WebsocketHub.ServerRest
import WebsocketHub.Site

/-!
# WebsocketHub.SiteRest — at the whole site, what has been said is heard

Nothing new is brought to a site: there are no new pages and no other requests, nothing happens in a page but
that it is handed what has been written to it, and nothing is read but what the pages have sent.  Then every
page that waits comes to its room, every room's conversation flows, and all this comes to an end
(`siteFlows_ends`): a `Get` may make a room and purge another, but there is one less to come.
-/

namespace WebsocketHub

section Defs

/-- A step that brings nothing new. -/
def siteFlows (s : Site) : SiteAction → Bool
  | .visit _ _ _ _ _ => false
  | .hub _ _ => false
  | .wait _ _ => false
  | .get _ _ _ => true
  | .sync _ => true
  | .page _ _ _ => false
  | .receive _ _ => true
  | .room r b => flows (s.conversation r) (.room b)

/-- What is left to flow until the next `Get`. -/
def Site.stageFlow (C : RoomId → Finset Cid) (K : RoomId → Finset Kid) (V : RoomId → Finset Cid) (s : Site) :
    ℕ :=
  s.server.ops.length +
    ∑ r ∈ Finset.range s.server.rooms.length, (s.conversation r).flow (C r) (K r) (V r)

/-- What becomes of a site to which nothing new is brought. -/
structure SiteSettles (M : Machine Site SiteAction) : Prop where
  /-- It does not go on forever, whatever the order of the steps. -/
  ends : ∀ s, M.Reachable s → M.Ends siteFlows s
  /-- It can go on until nothing is left. -/
  halts : ∀ s, M.Reachable s → ∃ k s', M.RunsFor siteFlows k s s' ∧ M.Halted siteFlows s'
  /-- Then, unless there has been a panic, nobody waits for a room, the server is at rest, and in every room
  what has been said has been heard. -/
  settles : ∀ s, M.Reachable s → Alive s.server → M.Halted siteFlows s → s.lobby = [] ∧
    ServerAtRest s.server ∧ ∀ r, s.server.nameOf r ≠ none → AllHeard (s.conversation r)

end Defs

variable {cfg : ServerConfig} {toUpperCase : CodeUnit → JsString} {s s' : Site} {a : SiteAction} {r : RoomId}
  {c : Cid} {C V : RoomId → Finset Cid} {K : RoomId → Finset Kid} {k : Conversation}

/-! ## The end -/

theorem nameOf_ne_none_iff {server : ServerState} : server.nameOf r ≠ none ↔ r < server.rooms.length := by
  rw [ServerState.nameOf, ne_eq, Option.map_eq_none_iff, List.getElem?_eq_none_iff, Nat.not_le]

/-- A visitor is in a room that has been made. -/
theorem made_of_visitor (hok : SiteOk toUpperCase s) (hv : s.visitors r c ≠ none) :
    r < s.server.rooms.length := by
  obtain ⟨p, hp⟩ := Option.ne_none_iff_exists'.mp fun hnone => hv ((hok.located r c).mp hnone)
  obtain ⟨name, hname, -⟩ := hok.led r c p hp
  apply nameOf_ne_none_iff.mp
  rw [hname]
  exact Option.some_ne_none name

/-- One conversation flows. -/
theorem stageFlow_conversation (hr : r < s.server.rooms.length) (hops : s'.server.ops = s.server.ops)
    (hrooms : s'.server.rooms.length = s.server.rooms.length)
    (hconv : ∀ i, s'.conversation i = if i = r then k else s.conversation i)
    (hlt : k.flow (C r) (K r) (V r) < (s.conversation r).flow (C r) (K r) (V r)) :
    s'.stageFlow C K V < s.stageFlow C K V := by
  have hsum : ∑ i ∈ Finset.range s.server.rooms.length, (s'.conversation i).flow (C i) (K i) (V i) + 1 ≤
      ∑ i ∈ Finset.range s.server.rooms.length, (s.conversation i).flow (C i) (K i) (V i) := by
    refine sum_fall (Finset.mem_range.mpr hr) (fun i _ hi => Nat.le_of_eq ?_) ?_
    · rw [hconv, if_neg hi]
    · rw [hconv, if_pos rfl]
      exact hlt
  unfold Site.stageFlow
  rw [hops, hrooms]
  omega

/-- **Step lemma**: there is one `Get` less to come, or less to flow until the next. -/
theorem siteFlows_step (h : (siteRun cfg toUpperCase).Reachable s)
    (hpop : ∀ r, (s.conversation r).Populated (C r) (K r) (V r)) (hflows : siteFlows s a = true)
    (hn : siteNext cfg toUpperCase s a = some s') :
    s'.lobby.length < s.lobby.length ∨ s'.lobby.length = s.lobby.length ∧
      (∀ r, (s'.conversation r).Populated (C r) (K r) (V r)) ∧ s'.stageFlow C K V < s.stageFlow C K V := by
  have hok := siteOk_of_reachable h
  -- a step in the conversation of a room
  have hflow : ∀ {r : RoomId} {b : ConversationAction} {k : Conversation},
      flows (s.conversation r) b = true →
      conversationNext cfg.verbose cfg.backlog toUpperCase (s.conversation r) b = some k →
      k.Populated (C r) (K r) (V r) ∧
        k.flow (C r) (K r) (V r) < (s.conversation r).flow (C r) (K r) (V r) := by
    intro r b k hb hk
    obtain ⟨⟨-, hpop'⟩, hlt⟩ := flow_lowers _ b k ⟨conversation_of_reachable h r, hpop r⟩ hb hk
    exact ⟨hpop', hlt⟩
  have hpopulated : ∀ {r : RoomId} {k : Conversation} {t : Site}, k.Populated (C r) (K r) (V r) →
      (∀ i, t.conversation i = if i = r then k else s.conversation i) →
      ∀ i, (t.conversation i).Populated (C i) (K i) (V i) := by
    intro r k t hk hconv i
    rw [hconv]
    split_ifs with hi
    · rw [hi]
      exact hk
    · exact hpop i
  cases a with
  | visit config doc title hidden up => cases hflows
  | hub room up => cases hflows
  | wait i e => cases hflows
  | page r c e => cases hflows
  | get i c victim =>
    left
    obtain ⟨w, hw, hn⟩ := Option.bind_eq_some_iff.mp hn
    obtain ⟨server, hs, rfl⟩ := Option.map_eq_some_iff.mp hn
    have hlt := (List.getElem?_eq_some_iff.mp hw).1
    show (s.lobby.eraseIdx i).length < s.lobby.length
    rw [List.length_eraseIdx_of_lt hlt]
    omega
  | sync i =>
    right
    obtain ⟨server, hs, rfl⟩ := Option.map_eq_some_iff.mp hn
    have hrooms := (rooms_of_sync hs).1
    have hconv : ∀ r, Site.conversation { s with server } r = s.conversation r := by
      intro r
      unfold Site.conversation
      rw [chat_congr hrooms]
    have hops : server.ops.length < s.server.ops.length := by
      cases (serverStep_of_next hs).2 with
      | sync ho =>
        have hlt := (List.getElem?_eq_some_iff.mp ho).1
        show (s.server.ops.eraseIdx i).length < s.server.ops.length
        rw [List.length_eraseIdx_of_lt hlt]
        omega
    refine ⟨rfl, fun r => by rw [hconv]; exact hpop r, ?_⟩
    unfold Site.stageFlow
    simp only [hconv, hrooms]
    exact Nat.add_lt_add_right hops _
  | receive r c =>
    right
    obtain ⟨k, hk, rfl⟩ := Option.map_eq_some_iff.mp hn
    obtain ⟨hk', hlt⟩ := hflow rfl hk
    have hconv := conversation_of_page (Or.inr ⟨c, rfl⟩) hk
    have hvisitor : s.visitors r c ≠ none := by
      obtain ⟨v, hv, -⟩ := Option.bind_eq_some_iff.mp hk
      show (s.conversation r).visitors c ≠ none
      rw [hv]
      exact Option.some_ne_none v
    exact ⟨rfl, hpopulated hk' hconv, stageFlow_conversation (made_of_visitor hok hvisitor) rfl rfl hconv hlt⟩
  | room r b =>
    right
    obtain ⟨server, hs, hn⟩ := Option.bind_eq_some_iff.mp hn
    obtain ⟨k, hk, rfl⟩ := Option.map_eq_some_iff.mp hn
    have hroom : flows (s.conversation r) (.room b) = true := hflows
    obtain ⟨hk', hlt⟩ := hflow hroom hk
    have hconv := conversation_of_room hs hk
    refine ⟨rfl, hpopulated hk' hconv, ?_⟩
    cases (serverStep_of_next hs).2 with
    | room hb hr =>
      obtain ⟨R, chat, hR, -, rfl⟩ := roomStep_cases hr
      exact stageFlow_conversation (List.getElem?_eq_some_iff.mp hR).1 rfl List.length_set hconv hlt

theorem siteFlows_ends (h : (siteRun cfg toUpperCase).Reachable s) :
    (siteRun cfg toUpperCase).Ends siteFlows s := by
  refine Machine.ends_of_stages (I := (siteRun cfg toUpperCase).Reachable)
    (J := fun (i : (RoomId → Finset Cid) × (RoomId → Finset Kid) × (RoomId → Finset Cid)) s =>
      ∀ r, (s.conversation r).Populated (i.1 r) (i.2.1 r) (i.2.2 r))
    (Ψ := fun i s => s.stageFlow i.1 i.2.1 i.2.2) (fun s => s.lobby.length) ?_ ?_ ?_ h
  · intro s a s' h _ hn
    exact h.step hn trivial
  · intro s h
    choose C K V hpop using fun r => exists_populated (conversation_of_reachable h r)
    exact ⟨(C, K, V), hpop⟩
  · rintro ⟨C, K, V⟩ s a s' h hpop hflows hn
    exact siteFlows_step h hpop hflows hn

/-! ## At the end -/

section Halted

variable (h : (siteRun cfg toUpperCase).Reachable s) (halive : Alive s.server)
  (hhalt : (siteRun cfg toUpperCase).Halted siteFlows s)

include h hhalt

/-- The server has come to a halt: what it could do, the site could. -/
theorem server_halted : (serverRun cfg).Halted serverGoes s.server := by
  intro a hgoes
  by_contra hne
  obtain ⟨server, hs⟩ := Option.ne_none_iff_exists'.mp hne
  have hs : serverNext cfg s.server a = some server := hs
  cases a with
  | hub room up => cases hgoes
  | get i c victim =>
    have hnone : siteNext cfg toUpperCase s (.get i c victim) = none := hhalt (.get i c victim) rfl
    cases (serverStep_of_next hs).2 with
    | get hj hg hc =>
      rw [(siteOk_of_reachable h).joins, List.getElem?_map] at hj
      obtain ⟨w, hw, -⟩ := Option.map_eq_some_iff.mp hj
      rw [siteNext, hw, Option.bind_some, hs] at hnone
      cases hnone
  | sync i =>
    have hnone : siteNext cfg toUpperCase s (.sync i) = none := hhalt (.sync i) rfl
    rw [siteNext, hs] at hnone
    cases hnone
  | room r b =>
    obtain ⟨R, hR, hgoes⟩ := Option.any_eq_true _ _ |>.mp hgoes
    have hchat : s.server.chat r = R.chat := by
      rw [ServerState.chat, hR]
      rfl
    have hgoes : goes (s.conversation r).room b = true := by
      show goes (s.server.chat r) b = true
      rw [hchat]
      exact hgoes
    have hread : readsMessage (s.conversation r).room b = none := by
      by_contra hread
      obtain ⟨e, he⟩ := Option.ne_none_iff_exists'.mp hread
      rw [goes_of_reads he] at hgoes
      cases hgoes
    have hflows : siteFlows s (.room r b) = true := by
      rw [siteFlows, flows, hgoes, Bool.true_or]
    have hnone : siteNext cfg toUpperCase s (.room r b) = none := hhalt (.room r b) hflows
    have hroom : chatNext cfg.verbose cfg.backlog (s.conversation r).room b = some (server.chat r) :=
      (rooms_of_room hs).1
    rw [siteNext, hs, Option.bind_some, conversationNext, hroom, Option.bind_some, hread, takeFrame] at hnone
    cases hnone

include halive

omit h in
/-- So has every conversation in a room that has been made. -/
theorem conversation_halted (hr : s.server.nameOf r ≠ none) :
    (conversationRun cfg.verbose cfg.backlog toUpperCase).Halted flows (s.conversation r) := by
  intro a hflows
  by_contra hne
  obtain ⟨k, hk⟩ := Option.ne_none_iff_exists'.mp hne
  have hk : conversationNext cfg.verbose cfg.backlog toUpperCase (s.conversation r) a = some k := hk
  cases a with
  | visit c title hidden => cases hflows
  | page c e => cases hflows
  | receive c =>
    have hnone : siteNext cfg toUpperCase s (.receive r c) = none := hhalt (.receive r c) rfl
    rw [siteNext, hk] at hnone
    cases hnone
  | room b =>
    have hserver : b.ofServer = false := by
      cases b with
      | connect c => cases hflows
      | close i => cases hflows
      | _ => rfl
    have hlt := nameOf_ne_none_iff.mp hr
    have hR : s.server.rooms[r]? = some s.server.rooms[r] := List.getElem?_eq_getElem hlt
    have hchat : (s.conversation r).room = s.server.rooms[r].chat := by
      show s.server.chat r = _
      rw [ServerState.chat, hR]
      rfl
    have hnone : siteNext cfg toUpperCase s (.room r b) = none := hhalt (.room r b) hflows
    cases conversationStep_of_next hk with
    | @room _ t visitors hroom htake =>
      rw [hchat] at hroom
      rw [siteNext, serverNext_of_alive halive, serverAct, hserver, if_neg Bool.false_ne_true, roomStep, hR,
        Option.bind_some, hroom, Option.map_some, Option.bind_some, hk] at hnone
      cases hnone

end Halted

/-- **Delivery at the whole site**. -/
theorem site_settles (cfg : ServerConfig) (toUpperCase : CodeUnit → JsString) (hevicts : cfg.Evicts) :
    SiteSettles (siteRun cfg toUpperCase) where
  ends := fun s h => siteFlows_ends h
  halts := fun s h => Machine.exists_halted (siteFlows_ends h)
  settles := by
    intro s h halive hhalt
    have hserver := (server_simulation.path h trivial).2
    have hhalt' := server_halted h hhalt
    have hjoins := joins_of_halted halive hhalt' hevicts hserver
    refine ⟨?_, ⟨hjoins, ops_of_halted halive hhalt', ?_⟩, ?_⟩
    · rw [(siteOk_of_reachable h).joins] at hjoins
      exact List.map_eq_nil_iff.mp hjoins
    · intro R hR
      exact rooms_of_halted halive hhalt' hserver hR
    · intro r hr
      have hlt := nameOf_ne_none_iff.mp hr
      have hroom : (s.conversation r).room = s.server.rooms[r].chat := by
        show s.server.chat r = _
        rw [ServerState.chat, List.getElem?_eq_getElem hlt]
        rfl
      obtain ⟨hp, hlive⟩ := alive_chat.mp (halive _ (List.getElem_mem hlt))
      rw [← hroom] at hp hlive
      exact settled_of_halted (conversation_of_reachable h r) hp hlive (conversation_halted halive hhalt hr)

/-- The cache that removes the room used least recently. -/
theorem site_settles_of_lru : SiteSettles (siteRun oneRoomServer asciiUpperCase) :=
  site_settles oneRoomServer asciiUpperCase leastRecentlyUsed_evicts

end WebsocketHub
