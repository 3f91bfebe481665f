import WebsocketHub.ChatroomRest
import WebsocketHub.Conversation

/-!
# WebsocketHub.ConversationRest — what has been said is heard

`flows` are the steps of a conversation that bring nothing new into it: the goroutines of the room take
theirs, its readers read the frames that the visitors have sent, and the pages are handed what has been
written to them.  They come to an end (`flow_lowers`), and then every visitor whose client has not been
closed has said all that its page has given to the socket, and heard all that has been said (`AllHeard`).
-/

namespace WebsocketHub

open ChatroomState QueueState

section Defs

/-- A read of a frame that a visitor has sent. -/
def carries (s : Conversation) : ChatroomAction → Bool
  | .reader c (some m) => (s.visitors c).any fun v => v.outbox.head? = some m
  | _ => false

/-- A step that brings nothing new. -/
def flows (s : Conversation) : ConversationAction → Bool
  | .visit _ _ _ => false
  | .page _ _ => false
  | .receive _ => true
  | .room b => goes s.room b || carries s b

namespace Conversation

variable (C : Finset Cid) (K : Finset Kid) (V : Finset Cid) (s : Conversation)

/-- The frames of the visitors that have not been read. -/
def pending : ℕ := ∑ c ∈ V, ((s.visitors c).map fun v => v.outbox.length).getD 0

/-- The entries that the queue will have. -/
def expected : ℕ := s.room.entries + s.pending V

/-- What the pages have not been handed of them. -/
def unheard : ℕ := ∑ c ∈ V, ((s.visitors c).map fun v => s.expected V - v.heard.length).getD 0

def flow : ℕ :=
  s.room.work C K + s.pending V * (readPrice C (s.room.nextCall + s.pending V) + 1) + s.unheard V

structure Populated : Prop where
  room : s.room.Known C K
  visitors : ∀ c, s.visitors c ≠ none → c ∈ V

end Conversation

/-- What a conversation looks like in which nothing flows any more. -/
structure AllHeard (s : Conversation) : Prop where
  room : AtRest s.room
  /-- What a visitor's page has given to its socket is in the transcript, unless the client has been closed. -/
  said : ∀ c v x, s.visitors c = some v → s.room.conns c = some x → x.closed = false →
    (s.transcript.filter fun e => e.1 = c).map Prod.snd = v.spoken.map fun r => Utf.bytesOf (wireOf r)
  /-- Its page has been handed the whole transcript from the beginning of its listener, decoded, unless its
  connection is closed or something in the transcript is no text. -/
  heard : ∀ c v x, s.visitors c = some v → s.room.conns c = some x → x.closed = false →
    v.tab.page.socket = .opened → (∀ e ∈ s.transcript, Utf.ofBytes e.2 ≠ none) →
    ∃ y, s.room.backlog.listeners c = some y ∧
      v.heard.map some = (s.transcript.drop y.start).map fun e => Utf.ofBytes e.2

end Defs

variable {verbose : Bool} {L : Limits} {toUpperCase : CodeUnit → JsString} {s s' : Conversation}
  {a : ConversationAction} {b : ChatroomAction} {r : ChatroomState} {c d : Cid} {v w : Visitor} {x : Client}
  {C V : Finset Cid} {K : Finset Kid} {m : Bytes}

/-! ## Reads -/

theorem readsMessage_cases (h : readsMessage r b = some (c, m)) :
    b = .reader c (some m) ∧ ∃ x, r.conns c = some x ∧ x.reader = .read := by
  unfold readsMessage at h
  split at h
  · next d n =>
    split_ifs at h with hread
    cases h
    obtain ⟨x, hx, hr⟩ := Option.map_eq_some_iff.mp hread
    exact ⟨rfl, x, hx, hr⟩
  · cases h

/-- A read is no step that a goroutine takes by itself. -/
theorem goes_of_reads {e : Cid × Bytes} (h : readsMessage r b = some e) : goes r b = false := by
  obtain ⟨rfl, x, hx, hr⟩ := readsMessage_cases h
  rw [goes, hx, Option.all_some, hr]
  rfl

/-- A step that flows reads nothing, or a frame of a visitor. -/
theorem flows_cases (hflows : flows s (.room b) = true) :
    readsMessage s.room b = none ∧ goes s.room b = true ∨
      ∃ c m x v rest, b = .reader c (some m) ∧ readsMessage s.room b = some (c, m) ∧
        s.room.conns c = some x ∧ x.reader = .read ∧ s.visitors c = some v ∧ v.outbox = m :: rest := by
  cases hread : readsMessage s.room b with
  | none =>
    refine .inl ⟨rfl, ?_⟩
    rcases Bool.or_eq_true_iff.mp hflows with hgoes | hcarries
    · exact hgoes
    · unfold carries at hcarries
      split at hcarries
      · next c m =>
        -- the reader does not stand at its read
        unfold goes
        rw [Option.all_eq_true]
        intro x hx
        rw [decide_eq_true_eq]
        intro hr
        rw [readsMessage, hx, Option.map_some, hr, if_pos rfl] at hread
        cases hread
      · cases hcarries
  | some e =>
    obtain ⟨c, m⟩ := e
    have hnot := goes_of_reads hread
    obtain ⟨rfl, x, hx, hr⟩ := readsMessage_cases hread
    right
    rw [flows, hnot, Bool.false_or, carries, Option.any_eq_true] at hflows
    obtain ⟨v, hv, hhead⟩ := hflows
    obtain ⟨rest, hrest⟩ := List.head?_eq_some_iff.mp (of_decide_eq_true hhead)
    exact ⟨c, m, x, v, rest, rfl, rfl, hx, hr, hv, hrest⟩

/-! ## What is left to flow -/

/-- A visitor's frames after one of them has been read. -/
theorem pending_change (hin : c ∈ V) (hv : s.visitors c = some v)
    (hvisitors : s'.visitors = Function.update s.visitors c (some w)) :
    s'.pending V + v.outbox.length = s.pending V + w.outbox.length := by
  have hsum := sum_update (S := V) (f := fun d => ((s.visitors d).map fun v => v.outbox.length).getD 0)
    (g := fun d => ((s'.visitors d).map fun v => v.outbox.length).getD 0) hin fun d hd => by
      rw [hvisitors, Function.update_of_ne hd]
  rw [hv, hvisitors, Function.update_self] at hsum
  rw [← hvisitors] at hsum
  exact hsum

/-- What its page has not been handed. -/
theorem unheard_change (hin : c ∈ V) (hv : s.visitors c = some v)
    (hvisitors : s'.visitors = Function.update s.visitors c (some w))
    (hexpected : s'.expected V = s.expected V) :
    s'.unheard V + (s.expected V - v.heard.length) = s.unheard V + (s.expected V - w.heard.length) := by
  have hsum := sum_update (S := V)
    (f := fun d => ((s.visitors d).map fun v => s.expected V - v.heard.length).getD 0)
    (g := fun d => ((s'.visitors d).map fun v => s.expected V - v.heard.length).getD 0) hin fun d hd => by
      rw [hvisitors, Function.update_of_ne hd]
  rw [hv, hvisitors, Function.update_self] at hsum
  rw [← hvisitors] at hsum
  unfold Conversation.unheard
  rw [hexpected]
  exact hsum

theorem unheard_congr (hvisitors : s'.visitors = s.visitors) (hexpected : s'.expected V = s.expected V) :
    s'.unheard V = s.unheard V := by
  unfold Conversation.unheard
  rw [hvisitors, hexpected]

/-- A page has not been handed more than there will be. -/
theorem heard_lt (h : (conversationRun verbose L toUpperCase).Reachable s) (hc : s.room.conns c = some x)
    {n : ℕ} (hn : n < x.written.length) : n < s.expected V := by
  obtain ⟨hroom, hauthors⟩ := room_of_reachable h
  obtain ⟨k, hk⟩ := written_window h hc
  have hle : x.written.length ≤ s.transcript.length := by
    rw [hk, List.length_map]
    exact ((List.take_sublist _ _).trans (List.drop_sublist _ _)).length_le
  have hposts : s.transcript.length = s.room.backlog.appenders.length := by
    have hmap := congrArg List.length (hauthors.map_transcript (backlog_shape hroom))
    rwa [List.length_map, show s.room.backlog.log.posts.length = s.room.backlog.appenders.length from
      List.length_map _] at hmap
  have hinstalled := (backlog_shape hroom).length
  unfold Conversation.expected entries ahead
  omega

/-- The price of a read rises with the reads. -/
theorem readPrice_mono {i j : ℕ} (h : i ≤ j) : readPrice C i ≤ readPrice C j := by
  unfold readPrice
  omega

/-- A frame is read. -/
theorem flow_read {p p' work work' u : ℕ} {P : ℕ} (hp : p' + 1 = p) (hwork : work' ≤ work + P) :
    work' + p' * (P + 1) + u < work + p * (P + 1) + u := by
  rw [← hp, Nat.succ_mul]
  omega

theorem Conversation.Populated.step (h : s.Populated C K V) (hflows : flows s a = true)
    (hs : ConversationStep verbose L s a s') : s'.Populated C K V := by
  have hset : ∀ {c v w}, s.visitors c = some v → s'.visitors = Function.update s.visitors c (some w) →
      ∀ d, s'.visitors d ≠ none → d ∈ V := by
    intro c v w hv hvisitors d hd
    by_cases hdc : d = c
    · rw [hdc]
      exact h.visitors c (by rw [hv]; exact Option.some_ne_none v)
    · rw [hvisitors, Function.update_of_ne hdc] at hd
      exact h.visitors d hd
  cases hs with
  | visit hv hc => cases hflows
  | page hv ht => cases hflows
  | receive hv hc hb htxt ht => exact ⟨h.room, hset hv rfl⟩
  | @room b r visitors hr htake =>
    have hroom : r.Known C K := by
      refine h.room.step ?_ ?_ (chatStep_of_next hr).2.2
      · rintro c rfl
        cases hflows
      · rintro k rfl
        cases hflows
    rcases flows_cases hflows with ⟨hread, -⟩ | ⟨c, m, x, v, rest, rfl, hread, -, -, hv, houtbox⟩
    · rw [hread] at htake
      obtain rfl := Option.some.inj htake
      exact ⟨hroom, h.visitors⟩
    · rw [hread, takeFrame, hv] at htake
      simp only [houtbox, if_true, Option.some.injEq] at htake
      subst htake
      exact ⟨hroom, hset hv rfl⟩

/-- A page is handed a text. -/
theorem flow_receive {t : Tab} {txt : JsString} (hin : c ∈ V) (hv : s.visitors c = some v)
    (hlt : v.heard.length < s.expected V) :
    (s.setVisitor c { v with tab := t, heard := v.heard ++ [txt] }).flow C K V < s.flow C K V := by
  let w : Visitor := { v with tab := t, heard := v.heard ++ [txt] }
  have hvisitors : (s.setVisitor c w).visitors = Function.update s.visitors c (some w) := rfl
  have hchange := pending_change hin hv hvisitors
  have hpending : (s.setVisitor c w).pending V = s.pending V := Nat.add_right_cancel hchange
  have hexpected : (s.setVisitor c w).expected V = s.expected V := by
    unfold Conversation.expected
    rw [hpending]
    rfl
  have hunheard := unheard_change hin hv hvisitors hexpected
  rw [show w.heard.length = v.heard.length + 1 from List.length_append] at hunheard
  have hflow : (s.setVisitor c w).flow C K V < s.flow C K V := by
    unfold Conversation.flow
    rw [hpending, show (s.setVisitor c w).room = s.room from rfl]
    omega
  exact hflow

/-- The room goes on. -/
theorem flow_goes (hvisitors : s'.visitors = s.visitors) (hentries : s'.room.entries = s.room.entries)
    (hnextCall : s'.room.nextCall = s.room.nextCall) (hwork : s'.room.work C K < s.room.work C K) :
    s'.flow C K V < s.flow C K V := by
  have hpending : s'.pending V = s.pending V := by
    unfold Conversation.pending
    rw [hvisitors]
  have hexpected : s'.expected V = s.expected V := by
    unfold Conversation.expected
    rw [hpending, hentries]
  unfold Conversation.flow
  rw [hpending, unheard_congr hvisitors hexpected, hnextCall]
  exact Nat.add_lt_add_right (Nat.add_lt_add_right hwork _) _

/-- The room reads a frame of a visitor. -/
theorem flow_carries {rest : List Bytes} (hin : c ∈ V) (hv : s.visitors c = some v)
    (houtbox : v.outbox = m :: rest)
    (hvisitors : s'.visitors = Function.update s.visitors c (some { v with outbox := rest }))
    (hnextCall : s'.room.nextCall = s.room.nextCall + 1) (hentries : s'.room.entries = s.room.entries + 1)
    (hwork : s'.room.work C K ≤ s.room.work C K + readPrice C s.room.nextCall) :
    s'.flow C K V < s.flow C K V := by
  have hpending : s'.pending V + 1 = s.pending V := by
    have hchange := pending_change hin hv hvisitors
    rw [houtbox, List.length_cons, show ({ v with outbox := rest } : Visitor).outbox.length = rest.length from
      rfl] at hchange
    omega
  have hexpected : s'.expected V = s.expected V := by
    unfold Conversation.expected
    omega
  have hchange := unheard_change hin hv hvisitors hexpected
  have hunheard : s'.unheard V = s.unheard V := Nat.add_right_cancel hchange
  have hprice : s'.room.nextCall + s'.pending V = s.room.nextCall + s.pending V := by
    rw [← hpending, hnextCall, Nat.add_right_comm, Nat.add_assoc]
  unfold Conversation.flow
  rw [hunheard, hprice]
  exact flow_read hpending (hwork.trans (Nat.add_le_add_left (readPrice_mono (Nat.le_add_right _ _)) _))

/-- Every step that flows lowers what is left. -/
theorem flow_lowers : (conversationRun verbose L toUpperCase).Lowers flows
    (fun s => (conversationRun verbose L toUpperCase).Reachable s ∧ s.Populated C K V)
    (fun s => s.flow C K V) := by
  rintro s a s' ⟨h, hpop⟩ hflows hn
  have hs := conversationStep_of_next hn
  refine ⟨⟨h.step hn trivial, hpop.step hflows hs⟩, ?_⟩
  have hin : ∀ {c v}, s.visitors c = some v → c ∈ V := fun hv =>
    hpop.visitors _ (by rw [hv]; exact Option.some_ne_none _)
  cases hs with
  | visit hv hc => cases hflows
  | page hv ht => cases hflows
  | receive hv hc hb htxt ht =>
    exact flow_receive (hin hv) hv (heard_lt h hc (List.getElem?_eq_some_iff.mp hb).1)
  | @room b r visitors hr htake =>
    obtain ⟨hp, hlive, hstep⟩ := chatStep_of_next hr
    have hcounting := counting_of_reaches (room_of_reachable h).1 hpop.room
    rcases flows_cases hflows with ⟨hread, hgoes⟩ | ⟨c, m, x, v, rest, rfl, hread, hc, hreader, hv, houtbox⟩
    · rw [hread] at htake
      obtain rfl := Option.some.inj htake
      obtain ⟨hentries, hnextCall⟩ := entries_of_goes hcounting hgoes hstep
      exact flow_goes rfl hentries hnextCall (work_step hcounting hp hlive hgoes hstep)
    · rw [hread, takeFrame, hv] at htake
      simp only [houtbox, if_true, Option.some.injEq] at htake
      cases saidStep_of_step hstep with
      | read hc' hr' hq =>
        obtain ⟨hentries, hwork⟩ := work_read hcounting hc' hr' hq rfl
        exact flow_carries (hin hv) hv houtbox htake.symm rfl hentries hwork
      | append hc' hr' hq =>
        obtain rfl := Option.some.inj (hc.symm.trans hc')
        rw [hreader] at hr'
        cases hr'
      | queue hnone => cases hread.symm.trans hnone
      | other hnone => cases hread.symm.trans hnone

/-- The visitors are finitely many, too. -/
theorem exists_populated (h : (conversationRun verbose L toUpperCase).Reachable s) :
    ∃ C K V, s.Populated C K V := by
  obtain ⟨C, K, hknown⟩ := exists_known (room_of_reachable h).1
  obtain ⟨V, hV⟩ : ∃ V : Finset Cid, ∀ c, s.visitors c ≠ none → c ∈ V := by
    refine h.invariant (I := fun s => ∃ V : Finset Cid, ∀ c, s.visitors c ≠ none → c ∈ V)
      ⟨∅, fun c hc => absurd rfl hc⟩ ?_
    rintro s a s' ⟨V, hV⟩ - hn
    have hset : ∀ (d : Cid) (w : Visitor), s'.visitors = Function.update s.visitors d (some w) →
        ∃ V : Finset Cid, ∀ c, s'.visitors c ≠ none → c ∈ V := by
      intro d w hvisitors
      refine ⟨insert d V, fun c hc => ?_⟩
      by_cases hcd : c = d
      · exact hcd ▸ Finset.mem_insert_self c V
      · rw [hvisitors, Function.update_of_ne hcd] at hc
        exact Finset.mem_insert_of_mem (hV c hc)
    cases conversationStep_of_next hn with
    | visit hv hc => exact hset _ _ rfl
    | page hv ht => exact hset _ _ rfl
    | receive hv hc hb htxt ht => exact hset _ _ rfl
    | room hr htake =>
      rcases takeFrame_cases htake with ⟨hvisitors, -⟩ | ⟨c, m, v, rest, -, -, -, hvisitors⟩
      · exact ⟨V, fun c hc => hV c (hvisitors ▸ hc)⟩
      · exact hset _ _ hvisitors
  exact ⟨C, K, V, hknown, hV⟩

/-! ## At the end -/

/-- A call that has not been made can be made. -/
theorem queueAct_append_ne_none {q : QueueState} {t : Tid} (h : q.calls t = none) :
    queueAct L q (.append t m) ≠ none := by
  rw [queueAct, h]
  dsimp only
  split <;> exact Option.some_ne_none _

section Halted

variable (h : (conversationRun verbose L toUpperCase).Reachable s) (hp : s.room.panic = none)
  (hlive : s.room.backlog.panic = none)
  (hhalt : (conversationRun verbose L toUpperCase).Halted flows s)

include h hp hlive hhalt

/-- The room of a conversation in which nothing flows has come to a halt. -/
theorem atRest_of_settled : AtRest s.room := by
  refine atRest_of_halted (room_of_reachable h).1 hp hlive fun b hgoes => ?_
  have hread : readsMessage s.room b = none := by
    by_contra hne
    obtain ⟨e, he⟩ := Option.ne_none_iff_exists'.mp hne
    rw [goes_of_reads he] at hgoes
    cases hgoes
  have hnone := hhalt (.room b) (by rw [flows, hgoes, Bool.true_or])
  by_contra hne
  obtain ⟨r, hr⟩ := Option.ne_none_iff_exists'.mp hne
  have hr : chatNext verbose L s.room b = some r := hr
  rw [conversationRun] at hnone
  simp only [conversationNext, hr, Option.bind_some, hread, takeFrame, Option.map_some] at hnone
  cases hnone

/-- All frames of a visitor that is being read from have been read. -/
theorem outbox_of_settled (hc : s.room.conns c = some x) (hr : x.reader = .read)
    (hv : s.visitors c = some v) : v.outbox = [] := by
  cases houtbox : v.outbox with
  | nil => rfl
  | cons m rest =>
    exfalso
    have hcarries : carries s (.reader c (some m)) = true := by
      rw [carries, hv, Option.any_some, houtbox, List.head?_cons, decide_eq_true_eq]
    have hnone := hhalt (.room (.reader c (some m))) (by rw [flows, hcarries, Bool.or_true])
    have hread : readsMessage s.room (.reader c (some m)) = some (c, m) :=
      readsMessage_of_read (by rw [hc, Option.map_some, hr])
    have hfresh := nextFresh_of_reaches (room_of_reachable h).1 s.room.nextCall (Nat.le_refl _)
    have hr' : chatNext verbose L s.room (.reader c (some m)) ≠ none := by
      rw [chatNext_of_alive hp hlive, chatAct, hc, Option.bind_some, readerStep, hr]
      exact mt Option.map_eq_none_iff.mp (queueAct_append_ne_none hfresh)
    obtain ⟨r, hr'⟩ := Option.ne_none_iff_exists'.mp hr'
    rw [conversationRun] at hnone
    simp [conversationNext, hr', hread, takeFrame, hv, houtbox] at hnone

/-- What it has said has entered the queue. -/
theorem said_of_settled (hc : s.room.conns c = some x) (hr : x.reader = .read)
    (hv : s.visitors c = some v) : (s.transcript.filter fun e => e.1 = c).map Prod.snd =
      v.spoken.map fun r => Utf.bytesOf (wireOf r) := by
  have hrest := atRest_of_settled h hp hlive hhalt
  obtain ⟨hroom, hauthors⟩ := room_of_reachable h
  have hframes := ((linked_of_reaches h).visitors c v hv).frames
  rw [outbox_of_settled h hp hlive hhalt hc hr hv, List.append_nil,
    ((linked_of_reaches h).visitors c v hv).spoken, List.map_map] at hframes
  rw [Conversation.transcript, hauthors.filter_transcript_eq fun t ht => ?_]
  · exact hframes
  · rcases ht with ⟨d, hd, hret⟩ | ⟨y, hy, hyr⟩
    · exact ((backlog_shape hroom).started t).mpr ⟨d, hd, by rw [hret]; decide⟩
    · obtain rfl := Option.some.inj (hc.symm.trans hy)
      rw [hr] at hyr
      cases hyr

omit hp hlive in
/-- Its page has been handed all that has been written to its client. -/
theorem heard_of_settled (hc : s.room.conns c = some x) (hv : s.visitors c = some v)
    (hopened : v.tab.page.socket = .opened) (htexts : ∀ b ∈ x.written, Utf.ofBytes b ≠ none) :
    v.heard.map some = x.written.map Utf.ofBytes := by
  obtain ⟨written, hbegins, -, hheard⟩ := ((linked_of_reaches h).visitors c v hv).heard
  obtain ⟨rest, hrest⟩ := hbegins x hc
  have hlength : written.length = v.heard.length := by
    have hlen := congrArg List.length hheard
    rwa [List.length_map, List.length_map] at hlen
  cases rest with
  | nil => rw [← hrest, List.append_nil, hheard]
  | cons b rest =>
    exfalso
    have hb : x.written[v.heard.length]? = some b := by
      rw [← hrest, ← hlength, List.getElem?_append_right (Nat.le_refl _), Nat.sub_self]
      rfl
    obtain ⟨txt, htxt⟩ := Option.ne_none_iff_exists'.mp (htexts b (List.mem_of_getElem? hb))
    have hnone := hhalt (.receive c) rfl
    rw [conversationRun] at hnone
    simp [conversationNext, tabNext, hv, hc, hb, htxt, hopened] at hnone

theorem settled_of_halted : AllHeard s := by
  have hrest := atRest_of_settled h hp hlive hhalt
  obtain ⟨hroom, hauthors⟩ := room_of_reachable h
  refine ⟨hrest, fun c v x hv hc hclosed => ?_, fun c v x hv hc hclosed hopened htexts => ?_⟩
  · exact said_of_settled h hp hlive hhalt hc (hrest.delivered c x hc hclosed).1 hv
  · obtain ⟨-, y, hy, hwritten⟩ := hrest.delivered c x hc hclosed
    have hposts : s.transcript.map Prod.snd = s.room.backlog.log.posts :=
      hauthors.map_transcript (backlog_shape hroom)
    rw [← hposts, ← List.map_drop] at hwritten
    refine ⟨y, hy, ?_⟩
    rw [heard_of_settled h hhalt hc hv hopened ?_, hwritten, List.map_map]
    · rfl
    · intro b hb
      rw [hwritten] at hb
      obtain ⟨e, he, rfl⟩ := List.mem_map.mp hb
      exact htexts e (List.mem_of_mem_drop he)

end Halted

/-- What becomes of a conversation to which nothing is added. -/
structure SettlesDown (M : Machine Conversation ConversationAction) : Prop where
  /-- What has been given to the sockets flows in boundedly many steps, whatever their order. -/
  bounded : ∀ s, M.Reachable s → ∃ n, ∀ k s', M.RunsFor flows k s s' → k ≤ n
  /-- It can flow until nothing is left. -/
  halts : ∀ s, M.Reachable s → ∃ k s', M.RunsFor flows k s s' ∧ M.Halted flows s'
  /-- Then, unless the room has panicked, what has been said has been heard. -/
  settles : ∀ s, M.Reachable s → s.room.panic = none → s.room.backlog.panic = none → M.Halted flows s →
    AllHeard s

/-- **Delivery from page to page**. -/
theorem conversation_settles (verbose : Bool) (L : Limits) (toUpperCase : CodeUnit → JsString) :
    SettlesDown (conversationRun verbose L toUpperCase) where
  bounded := by
    intro s h
    obtain ⟨C, K, V, hpop⟩ := exists_populated h
    exact ⟨s.flow C K V, fun k s' hrun => hrun.le flow_lowers ⟨h, hpop⟩⟩
  halts := by
    intro s h
    obtain ⟨C, K, V, hpop⟩ := exists_populated h
    exact Machine.exists_halted (Machine.ends_of_lowers flow_lowers ⟨h, hpop⟩)
  settles := fun s h hp hlive hhalt => settled_of_halted h hp hlive hhalt

end WebsocketHub
