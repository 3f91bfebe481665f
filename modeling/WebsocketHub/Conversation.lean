import WebsocketHub.ChatroomAuthors
import WebsocketHub.Utf
import WebsocketHub.WidgetLife

/-!
# WebsocketHub.Conversation — a room and the pages of its visitors

The whole way of a text: from the chat input of one page over its socket, the room's reader, its queue, the
listener and the writer of another client, to the page of that client.  Some clients of the room are visitors
with the widget in their page, the others send and take what they like.

* A connection is a queue of frames in each direction.  A text that is given to a socket is sent in UTF-8,
  and lone surrogates become U+FFFD; a page is handed the text of a frame.  A frame that is not UTF-8 is
  handed to no page, which can only fail the connection.
* `spoken` and `heard` are history: what a visitor's page has given to its socket, with the nickname of that
  time, and what it has been handed.
* The steps of the room, of its queue and of the pages are those of their own machines, in any order.
-/

namespace WebsocketHub

open ChatroomState QueueState

section Defs

structure Visitor where
  tab : Tab
  /-- the frames that the room has not read -/
  outbox : List Bytes
  spoken : List (Option JsString × JsString)
  heard : List JsString

structure Conversation where
  room : ChatroomState
  said : List (Cid × Bytes)
  visitors : Cid → Option Visitor

inductive ConversationAction
  /-- the widget is loaded, and connects as client `c` -/
  | visit (c : Cid) (title : JsString) (hidden : Bool)
  /-- what happens in a page, but for messages -/
  | page (c : Cid) (e : TabEvent)
  /-- a page is handed the next text -/
  | receive (c : Cid)
  | room (a : ChatroomAction)
deriving DecidableEq, Repr

namespace Conversation

def init : Conversation where
  room := ChatroomState.init
  said := []
  visitors := fun _ => none

def setVisitor (s : Conversation) (c : Cid) (v : Visitor) : Conversation :=
  { s with visitors := Function.update s.visitors c (some v) }

/-- What has entered the queue of the room, and who has said it. -/
def transcript (s : Conversation) : List (Cid × Bytes) := WebsocketHub.transcript s.said s.room

end Conversation

def TabEvent.isMessage : TabEvent → Bool
  | .message _ => true
  | _ => false

/-- What is given to the socket when `txt` is submitted under a nickname. -/
def wireOf (r : Option JsString × JsString) : JsString := wireText ⟨r.1, []⟩ r.2

/-- The page shows nothing of a text under `name`: that is not its own nickname, and this is no pattern for a
regular expression. -/
def raises (w : Widget) (name : JsString) : Bool :=
  some name ≠ w.myname && (RegExp.parse (RegExp.word (nameText w.myname))).isNone

/-- A visitor after an event in its page. -/
def Visitor.after (v : Visitor) (t : Tab) : Visitor :=
  let new := t.page.sent.drop v.tab.page.sent.length
  { v with
    tab := t
    outbox := v.outbox ++ new.map Utf.bytesOf
    spoken := if new = [] then v.spoken else v.spoken ++ [(v.tab.page.widget.myname, v.tab.page.value)] }

/-- The reader of a visitor's client reads the first frame that it has sent. -/
def takeFrame (visitors : Cid → Option Visitor) : Option (Cid × Bytes) → Option (Cid → Option Visitor)
  | none => some visitors
  | some (c, m) =>
    match visitors c with
    | none => some visitors
    | some v =>
      match v.outbox with
      | [] => none
      | b :: rest => if b = m then some (Function.update visitors c (some { v with outbox := rest })) else none

variable (verbose : Bool) (L : Limits) (toUpperCase : CodeUnit → JsString)

def conversationNext (s : Conversation) : ConversationAction → Option Conversation
  | .visit c title hidden =>
    if (s.visitors c).isNone ∧ (s.room.conns c).isNone then
      some (s.setVisitor c ⟨chatroomwidgetMain title hidden none, [], [], []⟩)
    else none
  | .page c e =>
    (s.visitors c).bind fun v =>
      if e.isMessage then none
      else (tabNext toUpperCase v.tab e).map fun t => s.setVisitor c (v.after t)
  | .receive c =>
    (s.visitors c).bind fun v => (s.room.conns c).bind fun x =>
      ((x.written[v.heard.length]?).bind Utf.ofBytes).bind fun txt =>
        (tabNext toUpperCase v.tab (.message txt)).map fun t =>
          s.setVisitor c { v with tab := t, heard := v.heard ++ [txt] }
  | .room a =>
    (chatNext verbose L s.room a).bind fun room =>
      (takeFrame s.visitors (readsMessage s.room a)).map fun visitors =>
        { room, said := recordSaid s.room a s.said, visitors }

def conversationRun : Machine Conversation ConversationAction where
  init := Conversation.init
  next := conversationNext verbose L toUpperCase

/-- What an action does. -/
inductive ConversationStep (s : Conversation) : ConversationAction → Conversation → Prop
  | visit {c : Cid} {title : JsString} {hidden : Bool} (hv : s.visitors c = none)
    (hc : s.room.conns c = none) : ConversationStep s (.visit c title hidden)
    (s.setVisitor c ⟨chatroomwidgetMain title hidden none, [], [], []⟩)
  | page {c : Cid} {e : TabEvent} {v : Visitor} {t : Tab} (hv : s.visitors c = some v)
    (ht : TabStep v.tab e t) : ConversationStep s (.page c e) (s.setVisitor c (v.after t))
  | receive {c : Cid} {v : Visitor} {x : Client} {b : Bytes} {txt : JsString} {t : Tab}
    (hv : s.visitors c = some v) (hc : s.room.conns c = some x) (hb : x.written[v.heard.length]? = some b)
    (htxt : Utf.ofBytes b = some txt) (ht : TabStep v.tab (.message txt) t) :
    ConversationStep s (.receive c) (s.setVisitor c { v with tab := t, heard := v.heard ++ [txt] })
  | room {b : ChatroomAction} {r : ChatroomState} {visitors : Cid → Option Visitor}
    (hr : chatNext verbose L s.room b = some r)
    (htake : takeFrame s.visitors (readsMessage s.room b) = some visitors) :
    ConversationStep s (.room b) ⟨r, recordSaid s.room b s.said, visitors⟩

/-- A visitor and its connection. -/
structure Connected (room : ChatroomState) (said : List (Cid × Bytes)) (c : Cid) (v : Visitor) : Prop where
  wired : Wired v.tab
  spoken : v.tab.page.sent = v.spoken.map wireOf
  frames : (said.filter fun e => e.1 = c).map Prod.snd ++ v.outbox = v.tab.page.sent.map Utf.bytesOf
  heard : ∃ written, (∀ x, room.conns c = some x → written <+: x.written) ∧
    (room.conns c = none → written = []) ∧ written.map Utf.ofBytes = v.heard.map some

/-- What holds of every conversation. -/
structure Linked (s : Conversation) : Prop where
  /-- who is not in the room has said nothing -/
  silent : ∀ e ∈ s.said, s.room.conns e.1 ≠ none
  visitors : ∀ c v, s.visitors c = some v → Connected s.room s.said c v

end Defs

variable {verbose : Bool} {L : Limits} {toUpperCase : CodeUnit → JsString} {s s' : Conversation}
  {a : ConversationAction} {c d : Cid} {v w : Visitor} {x : Client}

/-! ## Clients of the room -/

section Room

variable {r r' : ChatroomState} {b : ChatroomAction} {said : List (Cid × Bytes)}

/-- A client keeps what has been written to it. -/
def KeepsWritten (r r' : ChatroomState) : Prop :=
  ∀ c x, r.conns c = some x → ∃ x', r'.conns c = some x' ∧ x.written <+: x'.written

theorem keepsWritten_of_set {x₀ x₁ : Client} (hd : r.conns d = some x₀)
    (hconns : r'.conns = Function.update r.conns d (some x₁)) (hwritten : x₀.written <+: x₁.written) :
    KeepsWritten r r' := by
  intro c x hc
  rw [hconns, Function.update_apply]
  split_ifs with heq
  · subst heq
    obtain rfl := Option.some.inj (hd.symm.trans hc)
    exact ⟨x₁, rfl, hwritten⟩
  · exact ⟨x, hc, List.prefix_refl _⟩

theorem keepsWritten_of_del {T : Thread} (hd : runDel verbose r T = some r') : KeepsWritten r r' := by
  intro c x hc
  obtain ⟨x', hc', hm⟩ := runDel_conn_of hd hc
  exact ⟨x', hc', by rw [hm.written]⟩

theorem keepsWritten_of_step (hs : ChatStep verbose L r b r') : KeepsWritten r r' := by
  cases hs with
  | connect hd =>
    intro c x hc
    refine ⟨x, ?_, List.prefix_refl _⟩
    rw [conns_setConn, if_neg, hc]
    rintro rfl
    rw [hd] at hc
    cases hc
  | addInc hd hr => exact keepsWritten_of_set hd rfl (List.prefix_refl _)
  | addLock hd hr hfree => exact keepsWritten_of_set hd rfl (List.prefix_refl _)
  | addInsert hd hr => exact keepsWritten_of_set hd rfl (List.prefix_refl _)
  | addUnlock hd hr => exact keepsWritten_of_set hd rfl (List.prefix_refl _)
  | addWatcher hd hr => exact keepsWritten_of_set hd rfl (List.prefix_refl _)
  | addWriter hd hr => exact keepsWritten_of_set hd rfl (List.prefix_refl _)
  | addListen hd hr hq => exact keepsWritten_of_set hd rfl (List.prefix_refl _)
  | addCount hd hr => exact keepsWritten_of_set hd rfl (List.prefix_refl _)
  | readFails hd hr => exact keepsWritten_of_set hd rfl (List.prefix_refl _)
  | readMsg hd hr hq => exact keepsWritten_of_set hd rfl (List.prefix_refl _)
  | appendReturns hd hr hret => exact keepsWritten_of_set hd rfl (List.prefix_refl _)
  | readerCloses hd hr hstep => exact keepsWritten_of_set hd rfl (List.prefix_refl _)
  | watcherWait hd hw hcl => exact keepsWritten_of_set hd rfl (List.prefix_refl _)
  | watcherQuit hd hw => exact keepsWritten_of_set hd rfl (List.prefix_refl _)
  | writerEnds hd hw hl => exact keepsWritten_of_set hd rfl (List.prefix_refl _)
  | writeOk hd hw => exact keepsWritten_of_set hd rfl (List.prefix_append _ _)
  | writeFails hd hw => exact keepsWritten_of_set hd rfl (List.prefix_refl _)
  | writerCloses hd hw hstep => exact keepsWritten_of_set hd rfl (List.prefix_refl _)
  | send hd hl hw hq => exact keepsWritten_of_set hd rfl (List.prefix_refl _)
  | readerDel hd => exact keepsWritten_of_del hd
  | writerDel hd => exact keepsWritten_of_del hd
  | del hd => exact keepsWritten_of_del hd
  | _ => exact fun c x hc => ⟨x, hc, List.prefix_refl _⟩

theorem KeepsWritten.ne_none (h : KeepsWritten r r') (hc : r.conns c ≠ none) : r'.conns c ≠ none := by
  obtain ⟨x, hx⟩ := Option.ne_none_iff_exists'.mp hc
  obtain ⟨x', hx', -⟩ := h c x hx
  rw [hx']
  exact Option.some_ne_none x'

/-- A step of the room in which the reader of `c` reads nothing. -/
theorem Connected.keep (h : Connected r said c v) (hk : KeepsWritten r r') {said' : List (Cid × Bytes)}
    (hsaid : (said'.filter fun e => e.1 = c) = said.filter fun e => e.1 = c) : Connected r' said' c v := by
  refine ⟨h.wired, h.spoken, by rw [hsaid]; exact h.frames, ?_⟩
  obtain ⟨written, hbegins, hnone, hheard⟩ := h.heard
  refine ⟨written, fun x' hx' => ?_, fun hx' => ?_, hheard⟩
  · cases hc : r.conns c with
    | none => rw [hnone hc]; exact List.nil_prefix
    | some x =>
      obtain ⟨x'', hx'', hle⟩ := hk c x hc
      obtain rfl := Option.some.inj (hx'.symm.trans hx'')
      exact (hbegins x hc).trans hle
  · apply hnone
    by_contra hne
    exact hk.ne_none hne hx'

end Room

/-! ## The visitors -/

theorem Conversation.setVisitor_visitors (s : Conversation) (c d : Cid) (v : Visitor) :
    (s.setVisitor c v).visitors d = if d = c then some v else s.visitors d :=
  Function.update_apply s.visitors c (some v) d

/-- One visitor changes. -/
theorem Linked.setVisitor (h : Linked s) (hv : Connected s.room s.said c v) :
    Linked (s.setVisitor c v) where
  silent := h.silent
  visitors := by
    intro d w hd
    rw [Conversation.setVisitor_visitors] at hd
    split_ifs at hd with heq
    · subst heq
      obtain rfl := Option.some.inj hd
      exact hv
    · exact h.visitors d w hd

/-- An event in the page of a visitor. -/
theorem Connected.after {r : ChatroomState} {said : List (Cid × Bytes)} {e : TabEvent} {t : Tab}
    (h : Connected r said c v) (hstep : TabStep v.tab e t) : Connected r said c (v.after t) := by
  have hwired := h.wired.step hstep
  rcases sent_of_step h.wired hstep with hsent | ⟨-, -, hsent⟩
  · have hnew : t.page.sent.drop v.tab.page.sent.length = [] := by rw [hsent, List.drop_length]
    have hafter : v.after t = { v with tab := t } := by
      unfold Visitor.after
      simp only [hnew, List.map_nil, List.append_nil, if_true]
    rw [hafter]
    exact ⟨hwired, hsent.trans h.spoken, h.frames.trans (congrArg _ hsent.symm), h.heard⟩
  · have hnew : t.page.sent.drop v.tab.page.sent.length =
        [wireText v.tab.page.widget v.tab.page.value] := by rw [hsent, List.drop_left]
    have hafter : v.after t = { v with
        tab := t
        outbox := v.outbox ++ [Utf.bytesOf (wireText v.tab.page.widget v.tab.page.value)]
        spoken := v.spoken ++ [(v.tab.page.widget.myname, v.tab.page.value)] } := by
      unfold Visitor.after
      simp only [hnew, List.map_cons, List.map_nil, if_neg (List.cons_ne_nil _ _)]
    rw [hafter]
    refine ⟨hwired, ?_, ?_, h.heard⟩
    · show t.page.sent = (v.spoken ++ _).map wireOf
      rw [hsent, h.spoken, List.map_append]
      rfl
    · show _ ++ (v.outbox ++ _) = t.page.sent.map Utf.bytesOf
      rw [hsent, List.map_append, ← List.append_assoc, h.frames]
      rfl

/-- A page is handed a text. -/
theorem Connected.receive {r : ChatroomState} {said : List (Cid × Bytes)} {t : Tab} {txt : JsString}
    {b : Bytes} (h : Connected r said c v) (hstep : TabStep v.tab (.message txt) t)
    (hc : r.conns c = some x) (hb : x.written[v.heard.length]? = some b) (htxt : Utf.ofBytes b = some txt) :
    Connected r said c { v with tab := t, heard := v.heard ++ [txt] } := by
  have hsent : t.page.sent = v.tab.page.sent := by
    rcases sent_of_step h.wired hstep with hsent | ⟨heq, -⟩
    · exact hsent
    · cases heq
  refine ⟨h.wired.step hstep, hsent.trans h.spoken, h.frames.trans (congrArg _ hsent.symm), ?_⟩
  obtain ⟨written, hbegins, hnone, hheard⟩ := h.heard
  have hlength : written.length = v.heard.length := by
    have hlen := congrArg List.length hheard
    rwa [List.length_map, List.length_map] at hlen
  refine ⟨written ++ [b], fun x' hx' => ?_, fun hx' => ?_, ?_⟩
  · obtain rfl := Option.some.inj (hc.symm.trans hx')
    obtain ⟨rest, hrest⟩ := hbegins x hc
    rw [← hrest, ← hlength, List.getElem?_append_right (Nat.le_refl _), Nat.sub_self] at hb
    obtain ⟨rest, rfl⟩ := List.head?_eq_some_iff.mp (List.head?_eq_getElem? ▸ hb)
    exact ⟨rest, by rw [List.append_assoc]; exact hrest⟩
  · rw [hc] at hx'
    cases hx'
  · rw [List.map_append, List.map_append, hheard, List.map_singleton, htxt]
    rfl

theorem conns_of_readsMessage {r : ChatroomState} {b : ChatroomAction} {e : Cid × Bytes}
    (h : readsMessage r b = some e) : r.conns e.1 ≠ none := by
  unfold readsMessage at h
  split at h
  · split_ifs at h with hread
    obtain rfl := Option.some.inj h
    intro hnone
    rw [hnone] at hread
    cases hread
  · cases h

theorem filter_said_concat {said : List (Cid × Bytes)} {e : Cid × Bytes} :
    (said ++ [e]).filter (fun e => e.1 = c) =
      (said.filter fun e => e.1 = c) ++ if e.1 = c then [e] else [] := by
  rw [List.filter_append]
  congr 1
  split_ifs with he
  · rw [List.filter_cons_of_pos (by rw [decide_eq_true_eq]; exact he), List.filter_nil]
  · rw [List.filter_cons_of_neg (by rw [decide_eq_true_eq]; exact he), List.filter_nil]

/-- A client that is no visitor reads what it likes, and a visitor's the first frame that it has sent. -/
theorem takeFrame_cases {visitors : Cid → Option Visitor} {e : Option (Cid × Bytes)}
    (h : takeFrame s.visitors e = some visitors) :
    visitors = s.visitors ∧ (∀ c m, e = some (c, m) → s.visitors c = none) ∨
      ∃ c m v rest, e = some (c, m) ∧ s.visitors c = some v ∧ v.outbox = m :: rest ∧
        visitors = Function.update s.visitors c (some { v with outbox := rest }) := by
  unfold takeFrame at h
  split at h
  · obtain rfl := Option.some.inj h
    exact .inl ⟨rfl, by rintro c m ⟨⟩⟩
  · next c m =>
    split at h
    · next hnone =>
      obtain rfl := Option.some.inj h
      refine .inl ⟨rfl, ?_⟩
      rintro d n ⟨⟩
      exact hnone
    · next v hv =>
      split at h
      · cases h
      · next b rest houtbox =>
        split_ifs at h with heq
        subst heq
        obtain rfl := Option.some.inj h
        exact .inr ⟨c, b, v, rest, rfl, hv, houtbox, rfl⟩

/-- A step of the room. -/
theorem Linked.room (h : Linked s) {b : ChatroomAction} {r : ChatroomState}
    {visitors : Cid → Option Visitor} (hs : ChatStep verbose L s.room b r)
    (htake : takeFrame s.visitors (readsMessage s.room b) = some visitors) :
    Linked ⟨r, recordSaid s.room b s.said, visitors⟩ := by
  have hkeeps := keepsWritten_of_step hs
  -- what another client has said
  have hother : ∀ {c v}, (∀ m, readsMessage s.room b ≠ some (c, m)) → s.visitors c = some v →
      Connected r (recordSaid s.room b s.said) c v := by
    intro c v hne hc
    refine (h.visitors c v hc).keep hkeeps ?_
    cases hread : readsMessage s.room b with
    | none => rw [recordSaid_of_none hread]
    | some e =>
      rw [recordSaid, hread, Option.toList_some, filter_said_concat, if_neg, List.append_nil]
      rintro rfl
      exact hne e.2 hread
  refine ⟨fun e he => ?_, fun c v hv => ?_⟩
  · rcases List.mem_append.mp he with he | he
    · exact hkeeps.ne_none (h.silent e he)
    · exact hkeeps.ne_none (conns_of_readsMessage (Option.mem_toList.mp he))
  · rcases takeFrame_cases htake with ⟨rfl, hnone⟩ | ⟨d, m, w, rest, hread, hw, houtbox, rfl⟩
    · refine hother (fun m hread => ?_) hv
      exact Option.some_ne_none v (hv.symm.trans (hnone c m hread))
    · by_cases hcd : c = d
      · -- the visitor whose frame has been read
        subst hcd
        obtain rfl : { w with outbox := rest } = v := by
          have hv : Function.update s.visitors c (some { w with outbox := rest }) c = some v := hv
          rwa [Function.update_self, Option.some.injEq] at hv
        have hc := h.visitors c w hw
        have hsame : Connected r s.said c w := hc.keep hkeeps rfl
        obtain ⟨hwired, hspoken, -, hheard⟩ := hsame
        refine ⟨hwired, hspoken, ?_, hheard⟩
        rw [recordSaid, hread, Option.toList_some, filter_said_concat, if_pos rfl, List.map_append,
          List.append_assoc, ← hc.frames, houtbox]
        rfl
      · have hv : Function.update s.visitors d (some { w with outbox := rest }) c = some v := hv
        rw [Function.update_of_ne hcd] at hv
        refine hother (fun n hn => hcd ?_) hv
        rw [hread, Option.some.injEq] at hn
        exact (congrArg Prod.fst hn).symm

/-- **Inversion**. -/
theorem conversationStep_of_next (hn : conversationNext verbose L toUpperCase s a = some s') :
    ConversationStep verbose L s a s' := by
  cases a with
  | visit c title hidden =>
    obtain ⟨⟨hv, hc⟩, rfl⟩ := Option.ite_some_none_eq_some.mp hn
    exact .visit (Option.isNone_iff_eq_none.mp hv) (Option.isNone_iff_eq_none.mp hc)
  | page c e =>
    obtain ⟨v, hv, hn⟩ := Option.bind_eq_some_iff.mp hn
    split_ifs at hn
    obtain ⟨t, ht, rfl⟩ := Option.map_eq_some_iff.mp hn
    exact .page hv (tabStep_of_next ht)
  | receive c =>
    obtain ⟨v, hv, hn⟩ := Option.bind_eq_some_iff.mp hn
    obtain ⟨x, hx, hn⟩ := Option.bind_eq_some_iff.mp hn
    obtain ⟨txt, htxt, hn⟩ := Option.bind_eq_some_iff.mp hn
    obtain ⟨b, hb, htxt⟩ := Option.bind_eq_some_iff.mp htxt
    obtain ⟨t, ht, rfl⟩ := Option.map_eq_some_iff.mp hn
    exact .receive hv hx hb htxt (tabStep_of_next ht)
  | room b =>
    obtain ⟨r, hr, hn⟩ := Option.bind_eq_some_iff.mp hn
    obtain ⟨visitors, hvisitors, rfl⟩ := Option.map_eq_some_iff.mp hn
    exact .room hr hvisitors

/-- **Step lemma**. -/
theorem Linked.step (h : Linked s) (hs : ConversationStep verbose L s a s') : Linked s' := by
  cases hs with
  | @visit c title hidden hv hc =>
    apply h.setVisitor
    have hnone : s.said.filter (fun e => e.1 = c) = [] := by
      rw [List.filter_eq_nil_iff]
      intro e he heq
      rw [decide_eq_true_eq] at heq
      exact h.silent e he (heq ▸ hc)
    exact ⟨wired_init title hidden none, rfl, by rw [hnone]; rfl,
      [], fun _ _ => List.nil_prefix, fun _ => rfl, rfl⟩
  | page hv ht => exact h.setVisitor ((h.visitors _ _ hv).after ht)
  | receive hv hc hb htxt ht => exact h.setVisitor ((h.visitors _ _ hv).receive ht hc hb htxt)
  | room hr htake => exact h.room (chatStep_of_next hr).2.2 htake

theorem linked_of_reaches {ok : Conversation → ConversationAction → Prop}
    (h : (conversationRun verbose L toUpperCase).Reaches ok s) : Linked s := by
  refine h.invariant (I := Linked) ⟨?_, ?_⟩ fun _ _ _ hI _ hn => hI.step (conversationStep_of_next hn)
  · intro e he
    exact absurd he List.not_mem_nil
  · rintro c v ⟨⟩

/-- **Simulation**: a conversation runs its room, with its log. -/
theorem room_simulation : Machine.Simulation (conversationRun verbose L toUpperCase) (saidRun verbose L)
    (fun _ => True) (fun _ _ => True) (fun _ _ => True) (fun s => (s.room, s.said)) where
  step := by
    rintro s a s' - - hn
    refine ⟨trivial, ?_⟩
    cases conversationStep_of_next hn with
    | @room b r visitors hr htake => exact .inr ⟨b, trivial, Option.map_eq_some_iff.mpr ⟨r, hr, rfl⟩⟩
    | _ => exact .inl rfl

/-! ## The transcript -/

/-- What is known of the room of a conversation. -/
theorem room_of_reachable (h : (conversationRun verbose L toUpperCase).Reachable s) :
    (chatRun verbose L).Reachable s.room ∧ Authors s.said s.room := by
  have hsaid : (saidRun verbose L).Reachable (s.room, s.said) := (room_simulation.path h trivial).2
  exact ⟨Machine.reachable_of_logged hsaid, authors_of_reaches hsaid⟩

/-- What has been written to a client is a window of the transcript. -/
theorem written_window (h : (conversationRun verbose L toUpperCase).Reachable s)
    (hc : s.room.conns c = some x) :
    ∃ n, x.written = ((s.transcript.drop n).take x.written.length).map Prod.snd := by
  obtain ⟨hroom, hauthors⟩ := room_of_reachable h
  have hqueue : (queueRun L).Reachable s.room.backlog := backlog_path hroom
  have hposts : s.transcript.map Prod.snd = s.room.backlog.log.posts :=
    hauthors.map_transcript (backlog_shape hroom)
  have hwritten := ((written_of_reaches hroom c).2 x hc).written
  cases hl : s.room.backlog.listeners c with
  | none =>
    have hnil : s.room.backlog.messages c = [] := by rw [QueueState.messages, hl]; rfl
    rw [hnil, List.prefix_nil] at hwritten
    exact ⟨0, by rw [hwritten]; rfl⟩
  | some y =>
    have hcursor : s.room.backlog.log.cursors c = some y.cursor := congrArg (Option.map Listener.cursor) hl
    have hwindow := ((BroadcastLog.sound_of_reachable (log_reachable hqueue)).window c _ hcursor).got
    have hmessages : s.room.backlog.messages c = y.cursor.got := by rw [QueueState.messages, hl]; rfl
    rw [hmessages] at hwritten
    refine ⟨y.cursor.start, ?_⟩
    rw [List.map_take, List.map_drop, hposts]
    calc x.written = y.cursor.got.take x.written.length := List.prefix_iff_eq_take.mp hwritten
      _ = ((s.room.backlog.log.posts.drop y.cursor.start).take y.cursor.got.length).take
          x.written.length := by rw [← hwindow]
      _ = (s.room.backlog.log.posts.drop y.cursor.start).take x.written.length := by
        rw [List.take_take, Nat.min_eq_left hwritten.length_le]

/-- What a page has been handed is a window of the transcript. -/
theorem heard_window (h : (conversationRun verbose L toUpperCase).Reachable s)
    (hv : s.visitors c = some v) : ∃ n, v.heard.map some =
      ((s.transcript.drop n).take v.heard.length).map fun e => Utf.ofBytes e.2 := by
  obtain ⟨written, hbegins, hnone, hheard⟩ := ((linked_of_reaches h).visitors c v hv).heard
  have hlength : written.length = v.heard.length := by
    have hlen := congrArg List.length hheard
    rwa [List.length_map, List.length_map] at hlen
  cases hc : s.room.conns c with
  | none =>
    rw [hnone hc] at hheard hlength
    exact ⟨0, by rw [← hheard, ← hlength]; rfl⟩
  | some x =>
    obtain ⟨n, hn⟩ := written_window h hc
    have hle := (hbegins x hc).length_le
    refine ⟨n, ?_⟩
    calc v.heard.map some = written.map Utf.ofBytes := hheard.symm
      _ = (x.written.take written.length).map Utf.ofBytes := by
        rw [← List.prefix_iff_eq_take.mp (hbegins x hc)]
      _ = ((((s.transcript.drop n).take x.written.length).map Prod.snd).take written.length).map
          Utf.ofBytes := by rw [← hn]
      _ = _ := by
        rw [← List.map_take, List.take_take, Nat.min_eq_left hle, hlength, List.map_map]
        rfl

/-- A visitor's part of the transcript is the beginning of what it has spoken. -/
theorem spoken_begins (h : (conversationRun verbose L toUpperCase).Reachable s)
    (hv : s.visitors c = some v) : (s.transcript.filter fun e => e.1 = c).map Prod.snd <+:
      v.spoken.map fun r => Utf.bytesOf (wireOf r) := by
  have hc := (linked_of_reaches h).visitors c v hv
  have hframes := hc.frames
  rw [hc.spoken, List.map_map] at hframes
  exact (((room_of_reachable h).2.filter_transcript c).map Prod.snd).trans ⟨v.outbox, hframes⟩

/-- The transcript only grows. -/
theorem transcript_mono (h : (conversationRun verbose L toUpperCase).Reachable s)
    (hp : (conversationRun verbose L toUpperCase).Path (fun _ _ => True) s s') :
    s.transcript <+: s'.transcript := by
  obtain ⟨hroom, hauthors⟩ := room_of_reachable h
  have hsaid : (saidRun verbose L).Path (fun _ _ => True) (s.room, s.said) (s'.room, s'.said) :=
    (room_simulation.path hp trivial).2
  have hqueue : (queueRun L).Path (fun _ _ => True) s.room.backlog s'.room.backlog :=
    backlog_path (Machine.path_of_logged hsaid)
  have hshape := backlog_shape hroom
  exact hauthors.transcript_mono hshape (said_prefix_of_path hsaid) (grows_of_path hshape hqueue).2.appenders

/-- What a visitor says later comes after all that has entered the queue. -/
theorem reply_after (h : (conversationRun verbose L toUpperCase).Reachable s)
    (hp : (conversationRun verbose L toUpperCase).Path (fun _ _ => True) s s')
    (hv : s.visitors c = some v) {j : ℕ} {m : Bytes} (hj : s'.transcript[j]? = some (c, m))
    (hlater : v.spoken.length ≤ ((s'.transcript.take j).filter fun e => e.1 = c).length) :
    s.transcript.length ≤ j := by
  by_contra hlt
  obtain ⟨rest, hrest⟩ := transcript_mono h hp
  rw [Nat.not_le] at hlt
  rw [← hrest] at hj hlater
  rw [List.getElem?_append_left hlt] at hj
  rw [List.take_append_of_le_length (Nat.le_of_lt hlt)] at hlater
  -- the visitor has more in the transcript than it has spoken
  have hcount : ((s.transcript.take (j + 1)).filter fun e => e.1 = c).length ≤ v.spoken.length := by
    have hsub := ((List.take_sublist (j + 1) s.transcript).filter fun e => decide (e.1 = c)).length_le
    have hspoken := (spoken_begins h hv).length_le
    rw [List.length_map, List.length_map] at hspoken
    exact hsub.trans hspoken
  rw [List.take_add_one, hj, Option.toList_some, List.filter_append,
    List.filter_cons_of_pos (by rw [decide_eq_true_eq]), List.length_append] at hcount
  have hpos : 0 < ((c, m) :: List.filter (fun e => decide (e.1 = c)) []).length := Nat.zero_lt_succ _
  omega

/-! ## What is shown -/

/-- A text that is sent under a nickname without a colon is taken apart into the nickname and the text. -/
theorem shown_of_wire {r : Option JsString × JsString} (hcolon : unit ':' ∉ nameText r.1) :
    senderName (Utf.toWellFormed (wireOf r)) = Utf.toWellFormed (nameText r.1) ∧
      messageText (Utf.toWellFormed (wireOf r)) = unit ' ' :: Utf.toWellFormed r.2 := by
  have hwire : wireOf r = nameText r.1 ++ unit ':' :: unit ' ' :: r.2 := by
    show nameText r.1 ++ [unit ':', unit ' '] ++ r.2 = _
    rw [List.append_assoc, List.cons_append, List.singleton_append]
  have hspace : Utf.toWellFormed (unit ' ' :: r.2) = unit ' ' :: Utf.toWellFormed r.2 :=
    Utf.toWellFormed_append_cons (a := []) (by decide)
  rw [hwire, Utf.toWellFormed_append_cons (by decide), hspace]
  have hnot : unit ':' ∉ Utf.toWellFormed (nameText r.1) := fun hmem =>
    hcolon (Utf.mem_of_mem_toWellFormed (by decide) hmem)
  exact ⟨senderName_append hnot, messageText_append hnot⟩

/-- What a page shows of a text that it is handed. -/
theorem shown_of_receive (h : (conversationRun verbose L toUpperCase).Reachable s) {v v' : Visitor}
    {txt : JsString} (hn : conversationNext verbose L toUpperCase s (.receive c) = some s')
    (hv : s.visitors c = some v) (hv' : s'.visitors c = some v') (htxt : v'.heard = v.heard ++ [txt]) :
    if raises v.tab.page.widget (senderName txt) then v'.tab.page = v.tab.page
    else ∃ highlight, v'.tab.page.widget.messages = v.tab.page.widget.messages ++
      [.message (senderName txt ++ [unit ':']) (messageText txt) highlight] := by
  have hwired := ((linked_of_reaches h).visitors c v hv).wired
  obtain ⟨v₀, hv₀, hn⟩ := Option.bind_eq_some_iff.mp hn
  obtain rfl := Option.some.inj (hv.symm.trans hv₀)
  obtain ⟨x, -, hn⟩ := Option.bind_eq_some_iff.mp hn
  obtain ⟨txt₀, -, hn⟩ := Option.bind_eq_some_iff.mp hn
  obtain ⟨t, ht, rfl⟩ := Option.map_eq_some_iff.mp hn
  rw [Conversation.setVisitor_visitors, if_pos rfl] at hv'
  obtain rfl := Option.some.inj hv'
  obtain rfl := (List.cons.inj (List.append_cancel_left htxt)).1
  obtain ⟨hopened, rfl⟩ := Option.ite_some_none_eq_some.mp ht
  have hattached : v.tab.attached = true := (hwired.opened hopened).1
  have hraises : raises v.tab.page.widget (senderName txt₀) = true ↔
      handleIncomingMessage toUpperCase v.tab.page.widget txt₀ = .error .syntaxError := by
    rw [raises_iff, raises, Bool.and_eq_true, decide_eq_true_eq, Option.isNone_iff_eq_none]
  unfold onmessage
  cases hshown : handleIncomingMessage toUpperCase v.tab.page.widget txt₀ with
  | error e =>
    cases e
    rw [if_pos (hraises.mpr hshown)]
  | ok w =>
    obtain ⟨highlight, hmessages⟩ := shown_of_ok hshown
    rw [if_neg fun h => nomatch hshown.symm.trans (hraises.mp h)]
    refine ⟨highlight, ?_⟩
    simp only [if_pos hattached]
    unfold announce
    split_ifs <;> exact hmessages

/-- What a conversation keeps. -/
structure ConversationKept (M : Machine Conversation ConversationAction) : Prop where
  /-- What a page is handed is a window of the transcript, decoded; and the part of it that comes from a
  visitor is a run of what that visitor has spoken, in this order. -/
  attributed : ∀ s c v d w, M.Reachable s → s.visitors c = some v → s.visitors d = some w →
    ∃ window, window <:+: s.transcript ∧
      v.heard.map some = window.map (fun e => Utf.ofBytes e.2) ∧
      (window.filter fun e => e.1 = d).map (fun e => Utf.ofBytes e.2) <:+:
        w.spoken.map fun r => some (Utf.toWellFormed (wireOf r))
  /-- The transcript only grows, and what a visitor says next comes after all that its page, or any other,
  has been handed. -/
  replies : ∀ s s' c v j m, M.Reachable s → M.Path (fun _ _ => True) s s' → s.visitors c = some v →
    s.transcript <+: s'.transcript ∧ (s'.transcript[j]? = some (c, m) →
      v.spoken.length ≤ ((s'.transcript.take j).filter fun e => e.1 = c).length → s.transcript.length ≤ j)
  /-- A text spoken under a nickname without a colon is shown under this nickname in a page that is handed it;
  but a page whose own nickname is no pattern for a regular expression shows its own texts only. -/
  shown : ∀ s s' c v v' r, M.Reachable s → M.next s (.receive c) = some s' → s.visitors c = some v →
    s'.visitors c = some v' → v'.heard = v.heard ++ [Utf.toWellFormed (wireOf r)] → unit ':' ∉ nameText r.1 →
    if raises v.tab.page.widget (Utf.toWellFormed (nameText r.1)) then v'.tab.page = v.tab.page
    else ∃ highlight, v'.tab.page.widget.messages = v.tab.page.widget.messages ++
      [.message (Utf.toWellFormed (nameText r.1) ++ [unit ':']) (unit ' ' :: Utf.toWellFormed r.2) highlight]

/-- **From page to page**: with any number of visitors and other clients, under every interleaving. -/
theorem conversation_kept (verbose : Bool) (L : Limits) (toUpperCase : CodeUnit → JsString) :
    ConversationKept (conversationRun verbose L toUpperCase) where
  attributed := by
    intro s c v d w h hv hw
    obtain ⟨n, hn⟩ := heard_window h hv
    have hwindow : (s.transcript.drop n).take v.heard.length <:+: s.transcript :=
      (List.take_prefix _ _).isInfix.trans (List.drop_suffix _ _).isInfix
    refine ⟨_, hwindow, hn, ?_⟩
    have hspoken := (spoken_begins h hw).isInfix.map Utf.ofBytes
    rw [List.map_map, List.map_map] at hspoken
    have hdecoded : w.spoken.map (Utf.ofBytes ∘ fun r => Utf.bytesOf (wireOf r)) =
        w.spoken.map fun r => some (Utf.toWellFormed (wireOf r)) :=
      List.map_congr_left fun r _ => Utf.ofBytes_bytesOf (wireOf r)
    rw [hdecoded] at hspoken
    exact ((hwindow.filter _).map _).trans hspoken
  replies := fun s s' c v j m h hp hv =>
    ⟨transcript_mono h hp, fun hj hlater => reply_after h hp hv hj hlater⟩
  shown := by
    intro s s' c v v' r h hn hv hv' htxt hcolon
    obtain ⟨hname, hmessage⟩ := shown_of_wire hcolon
    have hshown := shown_of_receive h hn hv hv' htxt
    rwa [hname, hmessage] at hshown

end WebsocketHub
