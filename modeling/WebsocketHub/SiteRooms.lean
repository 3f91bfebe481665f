import WebsocketHub.Site

/-!
# WebsocketHub.SiteRooms — who hears whom

A page is led to the room of its location, and hears of the other pages only those of the same room: what it
is handed is a window of one transcript, that of its room, in which all that comes from a page has been
submitted there.  Pages with the same room meet, as long as the room is cached.
-/

namespace WebsocketHub

section Defs

/-- Where the page of a client is, if it is a visitor's: it has been let in with this location. -/
structure At (s : Site) (r : RoomId) (c : Cid) (config : WidgetConfig) (doc : PageLocation) (v : Visitor) :
    Prop where
  visitor : s.visitors r c = some v
  location : s.locations r c = some (config, doc)
  plain : config.Plain

/-- What holds of the whole of a site, in any run. -/
structure SiteKept (cfg : ServerConfig) (toUpperCase : CodeUnit → JsString) (M : Machine Site SiteAction) :
    Prop where
  /-- The server runs as a server. -/
  server : ∀ s, M.Reachable s → (serverRun cfg).Reachable s.server
  /-- Every room, made or to be made, runs as a conversation; what has been said in it stays said. -/
  conversations : ∀ s s' r, M.Reachable s → M.Path (fun _ _ => True) s s' →
    (conversationRun cfg.verbose cfg.backlog toUpperCase).Path (fun _ _ => True) (s.conversation r)
        (s'.conversation r) ∧
      (s.conversation r).transcript <+: (s'.conversation r).transcript
  /-- A page is in the room of its location. -/
  named : ∀ s r c config doc v, M.Reachable s → At s r c config doc v →
    s.server.nameOf r = some (Utf.bytesOf (roomOfPage config doc))
  /-- What a page is handed has been said in its room; and what comes from another page has been submitted in
  it, and it is a page of the same room. -/
  heard : ∀ s r c config doc v, M.Reachable s → At s r c config doc v → ∃ window,
    window <:+: (s.conversation r).transcript ∧ v.heard.map some = window.map (fun e => Utf.ofBytes e.2) ∧
      ∀ d m config' doc' w, (d, m) ∈ window → At s r d config' doc' w →
        roomOfPage config' doc' = roomOfPage config doc ∧
          ∃ said ∈ w.spoken, Utf.ofBytes m = some (Utf.toWellFormed (wireOf said))
  /-- Two pages of the same room are together, if the rooms that they are in are both cached. -/
  together : ∀ s r r' c d config doc config' doc' v w n n', M.Reachable s → At s r c config doc v →
    At s r' d config' doc' w → s.server.cache.lookup n = some r → s.server.cache.lookup n' = some r' →
    roomOfPage config doc = roomOfPage config' doc' → r = r'

end Defs

variable {cfg : ServerConfig} {toUpperCase : CodeUnit → JsString} {s s' : Site} {r r' : RoomId} {c d : Cid}
  {config config' : WidgetConfig} {doc doc' : PageLocation} {v w : Visitor}

/-- The name of the room that a page is in, and that the name is well-formed. -/
theorem At.room (h : At s r c config doc v) (hs : (siteRun cfg toUpperCase).Reachable s) :
    s.server.nameOf r = some (Utf.bytesOf (roomOfPage config doc)) ∧
      Utf.toWellFormed (roomOfPage config doc) = roomOfPage config doc := by
  obtain ⟨name, hname, url, hurl, hasks⟩ := (siteOk_of_reachable hs).led r c _ h.location
  rw [requestRoom_of_url h.plain hurl, Option.getD_some] at hasks
  rw [hname, hasks]
  exact ⟨rfl, wellFormed_of_url hurl⟩

/-- Pages in one room are of the same room. -/
theorem At.same (h : At s r c config doc v) (h' : At s r d config' doc' w)
    (hs : (siteRun cfg toUpperCase).Reachable s) : roomOfPage config' doc' = roomOfPage config doc := by
  obtain ⟨hname, hwell⟩ := h.room hs
  obtain ⟨hname', hwell'⟩ := h'.room hs
  exact (bytesOf_eq_iff hwell' hwell).mp (Option.some.inj (hname'.symm.trans hname))

/-- What a conversation has of a visitor, the visitor has spoken. -/
theorem spoken_of_transcript {toUpperCase : CodeUnit → JsString} {verbose : Bool} {L : Limits}
    {k : Conversation} {m : Bytes} (hk : (conversationRun verbose L toUpperCase).Reachable k)
    (hw : k.visitors d = some w) (hmem : (d, m) ∈ k.transcript) :
    ∃ said ∈ w.spoken, Utf.ofBytes m = some (Utf.toWellFormed (wireOf said)) := by
  have hm : m ∈ (k.transcript.filter fun e => e.1 = d).map Prod.snd :=
    List.mem_map.mpr ⟨(d, m), List.mem_filter.mpr ⟨hmem, decide_eq_true rfl⟩, rfl⟩
  obtain ⟨said, hsaid, rfl⟩ := List.mem_map.mp ((spoken_begins hk hw).subset hm)
  exact ⟨said, hsaid, Utf.ofBytes_bytesOf (wireOf said)⟩

/-- A room is cached under its own name. -/
theorem nameOf_of_cached {n : Bytes} (hok : SiteOk toUpperCase s) (hl : s.server.cache.lookup n = some r) :
    s.server.nameOf r = some n := by
  obtain ⟨R, hR, rfl, -⟩ := hok.rooms.cached n r hl
  rw [ServerState.nameOf, hR, Option.map_some]

/-- **The whole site**: server, rooms and pages, under every interleaving. -/
theorem site_kept (cfg : ServerConfig) (toUpperCase : CodeUnit → JsString) :
    SiteKept cfg toUpperCase (siteRun cfg toUpperCase) where
  server := fun s hs => (server_simulation.path hs trivial).2
  conversations := by
    intro s s' r hs hp
    have hpath := conversation_path (siteOk_of_reachable hs) hp r
    exact ⟨hpath, transcript_mono (conversation_of_reachable hs r) hpath⟩
  named := fun s r c config doc v hs h => (h.room hs).1
  heard := by
    intro s r c config doc v hs h
    have hk := conversation_of_reachable hs r
    obtain ⟨n, hheard⟩ := heard_window hk h.visitor
    refine ⟨_, (List.take_prefix _ _).isInfix.trans (List.drop_suffix n _).isInfix, hheard, ?_⟩
    intro d m config' doc' w hmem h'
    refine ⟨h.same h' hs, spoken_of_transcript hk h'.visitor ?_⟩
    exact List.mem_of_mem_drop (List.mem_of_mem_take hmem)
  together := by
    intro s r r' c d config doc config' doc' v w n n' hs h h' hl hl' hroom
    have hok := siteOk_of_reachable hs
    have hname := Option.some.inj ((h.room hs).1.symm.trans (nameOf_of_cached hok hl))
    have hname' := Option.some.inj ((h'.room hs).1.symm.trans (nameOf_of_cached hok hl'))
    rw [← hname, hroom, hname', hl'] at hl
    exact (Option.some.inj hl).symm

end WebsocketHub
