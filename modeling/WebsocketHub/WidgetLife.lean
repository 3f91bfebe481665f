import WebsocketHub.ChatroomTab

/-!
# WebsocketHub.WidgetLife — what holds of the widget as long as its document lives

* `Wired`: socket, handlers, document and the state that is shown agree; the quit handler runs once at the
  most, and the widget is in the document until then (`widget_life`).
* `Titled`: the title changes to and fro while the document is hidden, and is restored (`title_kept`).
* `Styled`: the class attribute is never that of the test in `showMessage` (`mustScrollToBottom_eq`).
-/

namespace WebsocketHub

section Defs

/-- Socket, handlers and document agree. -/
structure Wired (t : Tab) : Prop where
  unset : t.page.socket = .unset → t.attached = true ∧ t.onquitHandlers ≠ some true ∧ t.connState = .error
  handlers : t.page.socket ≠ .unset → (t.attached = true ↔ t.onquitHandlers = some true) ∧
    t.onquitHandlers ≠ some false
  connecting : t.page.socket = .connecting →
    t.attached = true ∧ t.connState = .connecting ∧ t.handshake = false
  opened : t.page.socket = .opened → t.attached = true ∧ t.connState = .connected ∧ t.handshake = true
  closing : t.page.socket = .closing → if t.handshake then t.connState = .connected else
    t.connState = .connecting
  closed : t.page.socket = .closed → t.connState = .closed ∨ t.connState = .error
  uncaught : .typeError ∈ t.uncaught → t.onquitHandlers = none

/-- What is more, the widget has been quit if a countdown has come to its end. -/
structure QuitOnce (t : Tab) : Prop extends Wired t where
  quit : t.onquitHandlers = none ↔ ∃ c ∈ t.page.countdowns, c.cleared = true

/-- The functions of `callAlternating` are called in turn, while the document is hidden. -/
structure Alternating (t : Tab) : Prop where
  alternating : ∀ i, t.titleInterval = some i → i < 2 ∧ t.hidden = true
  unset : t.page.socket = .unset → t.titleInterval = none

/-- The title is the document's own, or changes between it and the announcement. -/
structure Titled (t : Tab) : Prop where
  still : t.titleInterval = none → t.title = t.ownTitle
  announced : t.titleInterval ≠ none → t.oldTitle = t.ownTitle ∧
    (t.title = t.ownTitle ∨ t.title = "new messages - ".toList.map unit ++ t.ownTitle)

structure Styled (t : Tab) : Prop where
  cleanslate : .cleanslate ∈ t.classes
  configMode : .configMode ∈ t.classes ↔ t.page.configMode = true

/-- Nothing has been shown or sent in between. -/
structure SameLog (t t' : Tab) : Prop where
  widget : t'.page.widget = t.page.widget
  errors : t'.page.errors = t.page.errors
  sent : t'.page.sent = t.page.sent

/-- The document leaves its title alone while that alternates. -/
def retitlesQuietly (t : Tab) (e : TabEvent) : Prop := ∀ title, e = .retitle title → t.titleInterval = none

/-- The title that announces messages. -/
def announcement (t : Tab) : JsString := "new messages - ".toList.map unit ++ t.ownTitle

/-- The next turn of the interval; in between the document does not become visible. -/
def Turn (M : Machine Tab TabEvent) (t t' : Tab) : Prop :=
  ∃ t₀, M.Path (fun t e => retitlesQuietly t e ∧ e ≠ .titleInterval ∧ e ≠ .visibilitychange) t t₀ ∧
    M.next t₀ .titleInterval = some t'

/-- An interval is running, and of two turns one shows the announcement and one the document's own title. -/
structure Announcing (M : Machine Tab TabEvent) (t : Tab) : Prop where
  running : ∃ t', M.next t .titleInterval = some t'
  turns : ∀ t₁ t₂, Turn M t t₁ → Turn M t₁ t₂ →
    t₁.title = announcement t ∧ t₂.title = t.ownTitle ∨ t₁.title = t.ownTitle ∧ t₂.title = announcement t

end Defs

variable {toUpperCase : CodeUnit → JsString} {title : JsString} {hidden : Bool}
  {failure : Option (JsString × ℕ)} {t t' : Tab} {e : TabEvent} {c : Countdown} {i : ℕ}

/-! ## Socket, handlers and document -/

/-- The fields that `Wired` is about. -/
theorem Wired.congr (h : Wired t) (hsocket : t'.page.socket = t.page.socket)
    (hattached : t'.attached = t.attached) (hstate : t'.connState = t.connState)
    (hhandlers : t'.onquitHandlers = t.onquitHandlers) (hhandshake : t'.handshake = t.handshake)
    (huncaught : .typeError ∈ t'.uncaught → .typeError ∈ t.uncaught) : Wired t' where
  unset := by
    rw [hsocket, hattached, hstate, hhandlers]
    exact h.unset
  handlers := by
    rw [hsocket, hattached, hhandlers]
    exact h.handlers
  connecting := by
    rw [hsocket, hattached, hstate, hhandshake]
    exact h.connecting
  opened := by
    rw [hsocket, hattached, hstate, hhandshake]
    exact h.opened
  closing := by
    rw [hsocket, hstate, hhandshake]
    exact h.closing
  closed := by
    rw [hsocket, hstate]
    exact h.closed
  uncaught := by
    rw [hhandlers]
    exact fun hu => h.uncaught (huncaught hu)

/-- A widget that is not in the document has been quit. -/
theorem Wired.quit_of_detached (h : Wired t) (hattached : t.attached = false) :
    t.onquitHandlers = none ∧ (t.page.socket = .closing ∨ t.page.socket = .closed) := by
  have hne : ¬t.attached = true := by rw [hattached]; exact Bool.false_ne_true
  have hunset : t.page.socket ≠ .unset := fun hs => hne (h.unset hs).1
  obtain ⟨hiff, hfalse⟩ := h.handlers hunset
  constructor
  · cases hq : t.onquitHandlers with
    | none => rfl
    | some b =>
      cases b with
      | true => exact absurd (hiff.mpr hq) hne
      | false => exact absurd hq hfalse
  · cases hs : t.page.socket with
    | unset => exact absurd hs hunset
    | connecting => exact absurd (h.connecting hs).1 hne
    | opened => exact absurd (h.opened hs).1 hne
    | closing => exact .inl rfl
    | closed => exact .inr rfl

theorem wired_init (title : JsString) (hidden : Bool) (failure : Option (JsString × ℕ)) :
    Wired (chatroomwidgetMain title hidden failure) := by
  cases failure with
  | none => constructor <;> simp [chatroomwidgetMain, createWidget, Page.init]
  | some e =>
    obtain ⟨messages, errors, connMsg, uncaught, heq, hnone⟩ := exists_main_failure title hidden e
    rw [heq]
    constructor <;> simp [createWidget, Page.init, hnone]

/-- The state before the close event, when the connection has failed and when it has not. -/
theorem Wired.connState_of_end (h : Wired t) (hunset : t.page.socket ≠ .unset)
    (hclosed : t.page.socket ≠ .closed) (hdone : t.handshake = true) : t.connState = .connected := by
  cases hsocket : t.page.socket with
  | unset => exact absurd hsocket hunset
  | closed => exact absurd hsocket hclosed
  | connecting =>
    have hnot := (h.connecting hsocket).2.2
    rw [hdone] at hnot
    cases hnot
  | opened => exact (h.opened hsocket).2.1
  | closing =>
    have hstate := h.closing hsocket
    rwa [if_pos hdone] at hstate

theorem exists_quitImmediately (t : Tab) : ∃ socket attached uncaught,
    quitImmediately t = { t with
      page := { t.page with socket := socket }
      attached := attached
      onquitHandlers := none
      uncaught := uncaught } := by
  unfold quitImmediately
  split
  · next h => exact ⟨_, _, _, by rw [← h]⟩
  · exact ⟨_, _, _, rfl⟩
  · exact ⟨_, _, _, rfl⟩

theorem close_cases (s : Socket) : s = .unset ∧ s.close = .unset ∨ s = .closed ∧ s.close = .closed ∨
    (s = .connecting ∨ s = .opened ∨ s = .closing) ∧ s.close = .closing := by
  cases s <;> decide

theorem Wired.quitImmediately (h : Wired t) : Wired (quitImmediately t) := by
  unfold WebsocketHub.quitImmediately
  split
  · next hq =>
    refine ⟨h.unset, h.handlers, h.connecting, h.opened, h.closing, h.closed, fun _ => hq⟩
  · next hq =>
    have hunset : t.page.socket = .unset := by
      by_contra hne
      exact (h.handlers hne).2 hq
    obtain ⟨hattached, -, hstate⟩ := h.unset hunset
    exact ⟨fun _ => ⟨hattached, nofun, hstate⟩, fun hne => absurd hunset hne, h.connecting, h.opened,
      h.closing, h.closed, fun _ => rfl⟩
  · next hq =>
    have hunset : t.page.socket ≠ .unset := fun hs => (h.unset hs).2.1 hq
    rcases close_cases t.page.socket with ⟨hs, -⟩ | ⟨hs, hclose⟩ | ⟨hs, hclose⟩
    · exact absurd hs hunset
    · have hnot : ∀ x, x ≠ Socket.closed → t.page.socket.close ≠ x := fun x hx heq =>
        hx (heq.symm.trans hclose)
      exact ⟨fun hu => absurd hu (hnot _ (by decide)), fun _ => ⟨iff_of_false nofun nofun, nofun⟩,
        fun hu => absurd hu (hnot _ (by decide)), fun hu => absurd hu (hnot _ (by decide)),
        fun hu => absurd hu (hnot _ (by decide)), fun _ => h.closed hs, fun _ => rfl⟩
    · have hnot : ∀ x, x ≠ Socket.closing → t.page.socket.close ≠ x := fun x hx heq =>
        hx (heq.symm.trans hclose)
      refine ⟨fun hu => absurd hu (hnot _ (by decide)), fun _ => ⟨iff_of_false nofun nofun, nofun⟩,
        fun hu => absurd hu (hnot _ (by decide)), fun hu => absurd hu (hnot _ (by decide)), fun _ => ?_,
        fun hu => absurd hu (hnot _ (by decide)), fun _ => rfl⟩
      show if t.handshake = true then t.connState = .connected else t.connState = .connecting
      rcases hs with hs | hs | hs
      · obtain ⟨-, hstate, hdone⟩ := h.connecting hs
        rw [hdone, if_neg Bool.false_ne_true]
        exact hstate
      · obtain ⟨-, hstate, hdone⟩ := h.opened hs
        rw [if_pos hdone]
        exact hstate
      · exact h.closing hs

/-- A countdown that goes on, or a new one. -/
theorem cleared_set {l : List Countdown} {d : Countdown} (hc : l[i]? = some c)
    (hcleared : c.cleared = false) : (∃ x ∈ l.set i d, x.cleared = true) ↔
      (∃ x ∈ l, x.cleared = true) ∨ d.cleared = true := by
  constructor
  · rintro ⟨x, hx, hxc⟩
    rcases List.mem_or_eq_of_mem_set hx with hmem | rfl
    · exact .inl ⟨x, hmem, hxc⟩
    · exact .inr hxc
  · rintro (⟨x, hx, hxc⟩ | hd)
    · obtain ⟨j, hj⟩ := List.mem_iff_getElem?.mp hx
      have hne : i ≠ j := by
        rintro rfl
        rw [hc] at hj
        obtain rfl := Option.some.inj hj
        rw [hcleared] at hxc
        cases hxc
      exact ⟨x, List.mem_iff_getElem?.mpr ⟨j, by rw [List.getElem?_set_ne hne]; exact hj⟩, hxc⟩
    · exact ⟨d, List.mem_set (List.getElem?_eq_some_iff.mp hc).1 d, hd⟩

theorem quitOnce_init (title : JsString) (hidden : Bool) (failure : Option (JsString × ℕ)) :
    QuitOnce (chatroomwidgetMain title hidden failure) := by
  refine ⟨wired_init title hidden failure, ?_⟩
  have hnone : ¬∃ c ∈ ([] : List Countdown), c.cleared = true := by
    rintro ⟨c, hc, -⟩
    exact absurd hc List.not_mem_nil
  cases failure with
  | none => exact iff_of_false (Option.some_ne_none true) hnone
  | some e =>
    obtain ⟨messages, errors, connMsg, uncaught, heq, -⟩ := exists_main_failure title hidden e
    rw [heq]
    exact iff_of_false (Option.some_ne_none false) hnone

/-- **Step lemma**. -/
theorem Wired.step (h : Wired t) (hstep : TabStep t e t') : Wired t' := by
  have hlogged : ∀ {uncaught : List Uncaught}, t.page.socket ≠ .unset →
      (.typeError ∈ uncaught → .typeError ∈ t.uncaught ∨ t.attached = false) →
      .typeError ∈ uncaught → t.onquitHandlers = none := by
    intro uncaught hunset huncaught hu
    rcases huncaught hu with hu | hu
    · exact h.uncaught hu
    · exact (h.quit_of_detached hu).1
  cases hstep with
  | opened hs =>
    have hunset : t.page.socket ≠ .unset := by rw [hs]; decide
    exact ⟨nofun, fun _ => h.handlers hunset, nofun, fun _ => ⟨(h.connecting hs).1, rfl, rfl⟩, nofun, nofun,
      h.uncaught⟩
  | message hs huncaught htitle =>
    have hunset : t.page.socket ≠ .unset := by rw [hs]; decide
    exact ⟨h.unset, h.handlers, h.connecting, h.opened, h.closing, h.closed, hlogged hunset huncaught⟩
  | closing hs =>
    obtain ⟨-, hstate, hdone⟩ := h.opened hs
    have hunset : t.page.socket ≠ .unset := by rw [hs]; decide
    refine ⟨nofun, fun _ => h.handlers hunset, nofun, nofun, fun _ => ?_, nofun, h.uncaught⟩
    rw [if_pos hdone]
    exact hstate
  | @closed failed _ _ _ _ _ hunset hclosed hfailed huncaught hlog =>
    refine ⟨nofun, fun _ => h.handlers hunset, nofun, nofun, nofun, fun _ => ?_, hlogged hunset huncaught⟩
    show (if failed = true then ConnState.error else
      if t.connState = .connected then .closed else t.connState) = _ ∨ _
    split_ifs with hf hstate
    · exact .inr rfl
    · exact .inl rfl
    · exact absurd (h.connState_of_end hunset hclosed (hfailed.resolve_left hf)) hstate
  | submitName hattached => exact h.congr rfl rfl rfl rfl rfl id
  | input hattached => exact h.congr rfl rfl rfl rfl rfl id
  | submitInput hattached hp => exact h.congr hp.socket rfl rfl rfl rfl id
  | countdown hc hrunning hgoes => exact h.congr rfl rfl rfl rfl rfl id
  | quits hc hrunning hend => exact Wired.quitImmediately (h.congr rfl rfl rfl rfl rfl id)
  | titleInterval hi htitle => exact h.congr rfl rfl rfl rfl rfl id
  | visibilitychange htitle => exact h.congr rfl rfl rfl rfl rfl id
  | minifier hattached => exact h.congr rfl rfl rfl rfl rfl id
  | retitle => exact h.congr rfl rfl rfl rfl rfl id

/-- **Step lemma**. -/
theorem QuitOnce.step (h : QuitOnce t) (hstep : TabStep t e t') : QuitOnce t' := by
  refine ⟨h.toWired.step hstep, ?_⟩
  have hquit := h.quit
  cases hstep with
  | submitInput hattached hp =>
    refine hquit.trans ?_
    rcases hp.countdowns with heq | ⟨arg, heq⟩
    · rw [heq]
    · rw [heq]
      constructor
      · rintro ⟨c, hc, hcleared⟩
        exact ⟨c, List.mem_append_left _ hc, hcleared⟩
      · rintro ⟨c, hc, hcleared⟩
        rcases List.mem_append.mp hc with hc | hc
        · exact ⟨c, hc, hcleared⟩
        · -- the new countdown has not come to its end
          obtain rfl := List.mem_singleton.mp hc
          exact nomatch hcleared
  | @countdown i c hc hrunning hgoes =>
    refine hquit.trans ((cleared_set hc hrunning).trans (or_iff_left ?_)).symm
    rw [hgoes]
    exact Bool.false_ne_true
  | @quits i c hc hrunning hend =>
    obtain ⟨socket, attached, uncaught, heq⟩ := exists_quitImmediately { t with page := ticked t.page i c }
    rw [heq]
    exact iff_of_true rfl ((cleared_set hc hrunning).mpr (.inr hend))
  | _ => exact hquit

theorem quitOnce_of_reaches {ok : Tab → TabEvent → Prop}
    (h : (tabRun toUpperCase title hidden failure).Reaches ok t) : QuitOnce t :=
  h.invariant (I := QuitOnce) (quitOnce_init title hidden failure) fun _ _ _ hI _ hn =>
    hI.step (tabStep_of_next hn)

/-! ## After the end -/

theorem SameLog.trans {t₁ t₂ t₃ : Tab} (h : SameLog t₁ t₂) (h' : SameLog t₂ t₃) : SameLog t₁ t₃ :=
  ⟨h'.widget.trans h.widget, h'.errors.trans h.errors, h'.sent.trans h.sent⟩

/-- **Step lemma**: a widget that is not in the document. -/
theorem sameLog_of_step (h : Wired t) (hgone : t.attached = false) (hstep : TabStep t e t') :
    t'.attached = false ∧ SameLog t t' := by
  obtain ⟨hquit, hsocket⟩ := h.quit_of_detached hgone
  have hno : t.attached ≠ true := by rw [hgone]; exact Bool.false_ne_true
  have hopened : t.page.socket ≠ .opened := fun hs => hno (h.opened hs).1
  cases hstep with
  | opened hs => exact absurd (h.connecting hs).1 hno
  | message hs huncaught htitle => exact absurd hs hopened
  | closing hs => exact absurd hs hopened
  | closed hunset hclosed hfailed huncaught hlog =>
    obtain ⟨rfl, rfl⟩ := hlog hgone
    exact ⟨hgone, rfl, rfl, rfl⟩
  | submitName hattached => exact absurd hattached hno
  | input hattached => exact absurd hattached hno
  | submitInput hattached hp => exact absurd hattached hno
  | @quits i c hc hrunning hend =>
    have heq : quitImmediately { t with page := ticked t.page i c } =
        { t with page := ticked t.page i c, uncaught := t.uncaught ++ [.typeError] } := by
      unfold quitImmediately
      simp only [hquit]
    rw [heq]
    exact ⟨hgone, rfl, rfl, rfl⟩
  | minifier hattached => exact absurd hattached hno
  | _ => exact ⟨hgone, rfl, rfl, rfl⟩

/-- **Run lemma**. -/
theorem sameLog_of_path {ok : Tab → TabEvent → Prop} (h : QuitOnce t) (hgone : t.attached = false)
    (hp : (tabRun toUpperCase title hidden failure).Path ok t t') : t'.attached = false ∧ SameLog t t' := by
  induction hp with
  | refl => exact ⟨hgone, rfl, rfl, rfl⟩
  | step hp hn _ ih =>
    have hquitOnce := hp.invariant (I := QuitOnce) (fun _ _ _ hI _ hn => hI.step (tabStep_of_next hn)) h
    obtain ⟨hgone', hlog'⟩ := sameLog_of_step hquitOnce.toWired ih.1 (tabStep_of_next hn)
    exact ⟨hgone', ih.2.trans hlog'⟩

/-- What a page gives to its socket. -/
theorem sent_of_step (h : Wired t) (hstep : TabStep t e t') : t'.page.sent = t.page.sent ∨
    e = .submitInput ∧ t.connState = .connected ∧
      t'.page.sent = t.page.sent ++ [wireText t.page.widget t.page.value] := by
  cases hstep with
  | submitInput hattached hp =>
    rcases hp.sends with heq | ⟨hopened, heq⟩
    · exact .inl heq
    · exact .inr ⟨rfl, (h.opened hopened).2.1, heq⟩
  | @quits i c hc hrunning hend =>
    obtain ⟨socket, attached, uncaught, heq⟩ := exists_quitImmediately { t with page := ticked t.page i c }
    rw [heq]
    exact .inl rfl
  | _ => exact .inl rfl

/-! ## The title -/

theorem alternating_init (title : JsString) (hidden : Bool) (failure : Option (JsString × ℕ)) :
    Alternating (chatroomwidgetMain title hidden failure) := by
  cases failure with
  | none => exact ⟨nofun, nofun⟩
  | some e =>
    obtain ⟨messages, errors, connMsg, uncaught, heq, -⟩ := exists_main_failure title hidden e
    rw [heq]
    exact ⟨nofun, fun _ => rfl⟩

/-- The fields that `Alternating` is about. -/
theorem Alternating.congr (h : Alternating t) (hinterval : t'.titleInterval = t.titleInterval)
    (hhidden : t'.hidden = t.hidden) (hsocket : t'.page.socket = .unset → t.page.socket = .unset) :
    Alternating t' where
  alternating := by
    rw [hinterval, hhidden]
    exact h.alternating
  unset := by
    rw [hinterval]
    exact fun hs => h.unset (hsocket hs)

theorem Alternating.quitImmediately (h : Alternating t) : Alternating (quitImmediately t) := by
  unfold WebsocketHub.quitImmediately
  split
  · exact h.congr rfl rfl id
  · exact h.congr rfl rfl id
  · refine h.congr rfl rfl fun hs => ?_
    have hclose : t.page.socket.close = .unset := hs
    rcases close_cases t.page.socket with ⟨hs, -⟩ | ⟨-, heq⟩ | ⟨-, heq⟩
    · exact hs
    · rw [heq] at hclose
      cases hclose
    · rw [heq] at hclose
      cases hclose

/-- **Step lemma**. -/
theorem Alternating.step (h : Alternating t) (hstep : TabStep t e t') : Alternating t' := by
  cases hstep with
  | opened hs => exact h.congr rfl rfl nofun
  | message hs huncaught htitle =>
    rcases htitle with ⟨rfl, rfl⟩ | ⟨hhidden, hnone, rfl, rfl⟩
    · exact h.congr rfl rfl id
    · refine ⟨?_, fun hu => absurd (hs.symm.trans hu) (by decide)⟩
      rintro i hi
      obtain rfl := Option.some.inj hi
      exact ⟨Nat.zero_lt_two, hhidden⟩
  | closing hs => exact h.congr rfl rfl nofun
  | closed hunset hclosed hfailed huncaught hlog => exact h.congr rfl rfl nofun
  | submitInput hattached hp => exact h.congr rfl rfl fun hs => hp.socket.symm.trans hs
  | quits hc hrunning hend => exact Alternating.quitImmediately (h.congr rfl rfl id)
  | @titleInterval i title interval hi htitle =>
    obtain ⟨hlt, hhidden⟩ := h.alternating i hi
    obtain ⟨rfl, -⟩ := htitle hlt
    refine ⟨?_, fun hu => absurd ((h.unset hu).symm.trans hi) nofun⟩
    rintro j hj
    obtain rfl := Option.some.inj hj
    exact ⟨by omega, hhidden⟩
  | visibilitychange htitle =>
    rcases htitle with ⟨rfl, rfl, hquiet⟩ | ⟨-, hsome, rfl, rfl⟩
    · -- nothing alternates
      have hnone : t.titleInterval = none := by
        rcases hquiet with hu | hvisible | hnone
        · exact h.unset hu
        · cases hi : t.titleInterval with
          | none => rfl
          | some i =>
            rw [(h.alternating i hi).2] at hvisible
            cases hvisible
        · exact hnone
      exact ⟨fun i hi => absurd (hnone.symm.trans hi) nofun, h.unset⟩
    · exact ⟨nofun, fun _ => rfl⟩
  | _ => exact h.congr rfl rfl id

theorem alternating_of_reaches {ok : Tab → TabEvent → Prop}
    (h : (tabRun toUpperCase title hidden failure).Reaches ok t) : Alternating t :=
  h.invariant (I := Alternating) (alternating_init title hidden failure) fun _ _ _ hI _ hn =>
    hI.step (tabStep_of_next hn)

theorem titled_init (title : JsString) (hidden : Bool) (failure : Option (JsString × ℕ)) :
    Titled (chatroomwidgetMain title hidden failure) := by
  cases failure with
  | none => exact ⟨fun _ => rfl, fun hne => absurd rfl hne⟩
  | some e =>
    obtain ⟨messages, errors, connMsg, uncaught, heq, -⟩ := exists_main_failure title hidden e
    rw [heq]
    exact ⟨fun _ => rfl, fun hne => absurd rfl hne⟩

/-- **Step lemma**. -/
theorem Titled.step (h : Titled t) (ha : Alternating t) (hok : retitlesQuietly t e)
    (hstep : TabStep t e t') : Titled t' := by
  cases hstep with
  | message hs huncaught htitle =>
    rcases htitle with ⟨rfl, rfl⟩ | ⟨hhidden, hnone, rfl, rfl⟩
    · exact ⟨h.still, h.announced⟩
    · have hown := h.still hnone
      exact ⟨nofun, fun _ => ⟨hown, .inl hown⟩⟩
  | @quits i c hc hrunning hend =>
    obtain ⟨socket, attached, uncaught, heq⟩ := exists_quitImmediately { t with page := ticked t.page i c }
    rw [heq]
    exact ⟨h.still, h.announced⟩
  | @titleInterval i title interval hi htitle =>
    obtain ⟨rfl, rfl⟩ := htitle (ha.alternating i hi).1
    have hold := (h.announced (by rw [hi]; exact Option.some_ne_none i)).1
    refine ⟨nofun, fun _ => ⟨hold, ?_⟩⟩
    dsimp only
    rw [hold]
    split_ifs
    · exact .inr rfl
    · exact .inl rfl
  | visibilitychange htitle =>
    rcases htitle with ⟨rfl, rfl, -⟩ | ⟨-, hsome, rfl, rfl⟩
    · exact ⟨h.still, h.announced⟩
    · exact ⟨fun _ => (h.announced hsome).1, fun hne => absurd rfl hne⟩
  | retitle => exact ⟨fun _ => rfl, fun hne => absurd (hok _ rfl) hne⟩
  | _ => exact ⟨h.still, h.announced⟩

/-- A message that is shown to a hidden document. -/
theorem announced_of_message {txt : JsString} (hhidden : t.hidden = true)
    (hshown : (onmessage toUpperCase t txt).page.widget.messages ≠ t.page.widget.messages) :
    (onmessage toUpperCase t txt).titleInterval = some (t.titleInterval.getD 0) := by
  unfold onmessage at hshown ⊢
  split
  · next heq =>
    rw [heq] at hshown
    exact absurd rfl hshown
  · next w heq =>
    rw [heq] at hshown
    split_ifs with hattached
    · unfold announce
      split_ifs with hstart
      · rw [hstart.2]
        rfl
      · show t.titleInterval = _
        cases hi : t.titleInterval with
        | none => exact absurd ⟨hhidden, hi⟩ hstart
        | some i => rfl
    · simp only [if_neg hattached] at hshown
      exact absurd rfl hshown

/-- **Step lemma**: the title alternates until the document is visible. -/
theorem alternates_of_step (ha : Alternating t) (hne : e ≠ .visibilitychange)
    (halternates : t.titleInterval ≠ none) (hstep : TabStep t e t') : t'.titleInterval ≠ none := by
  cases hstep with
  | message hs huncaught htitle =>
    rcases htitle with ⟨rfl, rfl⟩ | ⟨-, -, rfl, rfl⟩
    · exact halternates
    · exact Option.some_ne_none 0
  | @quits i c hc hrunning hend =>
    obtain ⟨socket, attached, uncaught, heq⟩ := exists_quitImmediately { t with page := ticked t.page i c }
    rw [heq]
    exact halternates
  | @titleInterval i title interval hi htitle =>
    obtain ⟨rfl, -⟩ := htitle (ha.alternating i hi).1
    exact Option.some_ne_none _
  | visibilitychange htitle => exact absurd rfl hne
  | _ => exact halternates

/-- An interval that is running, and the titles that it is about. -/
structure Running (i : ℕ) (own : JsString) (t : Tab) : Prop where
  interval : t.titleInterval = some i
  oldTitle : t.oldTitle = own
  ownTitle : t.ownTitle = own

/-- **Step lemma**: between two turns the interval is left alone. -/
theorem Running.step {own : JsString} (h : Running i own t) (hquiet : retitlesQuietly t e)
    (hturn : e ≠ .titleInterval) (hvisible : e ≠ .visibilitychange) (hstep : TabStep t e t') :
    Running i own t' := by
  have hsome : t.titleInterval ≠ none := by
    rw [h.interval]
    exact Option.some_ne_none i
  cases hstep with
  | message hs huncaught htitle =>
    rcases htitle with ⟨rfl, rfl⟩ | ⟨-, hnone, -, -⟩
    · exact ⟨h.interval, h.oldTitle, h.ownTitle⟩
    · exact absurd hnone hsome
  | @quits i c hc hrunning hend =>
    obtain ⟨socket, attached, uncaught, heq⟩ := exists_quitImmediately { t with page := ticked t.page i c }
    rw [heq]
    exact ⟨h.interval, h.oldTitle, h.ownTitle⟩
  | titleInterval hi htitle => exact absurd rfl hturn
  | visibilitychange htitle => exact absurd rfl hvisible
  | retitle => exact absurd (hquiet _ rfl) hsome
  | _ => exact ⟨h.interval, h.oldTitle, h.ownTitle⟩

/-- The title after a turn, and whose turn is next. -/
theorem Running.turn {own : JsString} (h : Running i own t) (hlt : i < 2)
    (hturn : Turn (tabRun toUpperCase title hidden failure) t t') : Running (1 - i) own t' ∧
      t'.title = if i = 0 then "new messages - ".toList.map unit ++ own else own := by
  obtain ⟨t₀, hpath, hn⟩ := hturn
  have h₀ : Running i own t₀ := hpath.invariant (I := Running i own)
    (fun _ _ _ hI hok hn => hI.step hok.1 hok.2.1 hok.2.2 (tabStep_of_next hn)) h
  have hn : tabNext toUpperCase t₀ .titleInterval = some t' := hn
  have hstep := tabStep_of_next hn
  cases hstep with
  | titleInterval hi htitle =>
    obtain rfl := Option.some.inj (hi.symm.trans h₀.interval)
    obtain ⟨rfl, rfl⟩ := htitle hlt
    refine ⟨⟨rfl, h₀.oldTitle, h₀.ownTitle⟩, ?_⟩
    dsimp only
    rw [h₀.oldTitle]

theorem titled_of_reaches (h : (tabRun toUpperCase title hidden failure).Reaches retitlesQuietly t) :
    Titled t :=
  h.invariant_of (I := Titled) (J := Alternating) (fun _ => alternating_of_reaches)
    (titled_init title hidden failure) fun _ _ _ ha _ hI hok hn => hI.step ha hok (tabStep_of_next hn)

theorem running_of_reaches (h : (tabRun toUpperCase title hidden failure).Reaches retitlesQuietly t)
    (hi : t.titleInterval = some i) : i < 2 ∧ Running i t.ownTitle t :=
  ⟨((alternating_of_reaches h).alternating i hi).1, hi,
    ((titled_of_reaches h).announced (by rw [hi]; exact Option.some_ne_none i)).1, rfl⟩

/-- A title that alternates shows the announcement at every other turn. -/
theorem announcing_of_reaches (h : (tabRun toUpperCase title hidden failure).Reaches retitlesQuietly t)
    (hsome : t.titleInterval ≠ none) : Announcing (tabRun toUpperCase title hidden failure) t := by
  obtain ⟨i, hi⟩ := Option.ne_none_iff_exists'.mp hsome
  obtain ⟨hlt, hrunning⟩ := running_of_reaches h hi
  refine ⟨⟨callAlternating titleFuncs t i, ?_⟩, fun t₁ t₂ h₁ h₂ => ?_⟩
  · show t.titleInterval.map _ = _
    rw [hi, Option.map_some]
  · obtain ⟨hrunning₁, htitle₁⟩ := hrunning.turn hlt h₁
    obtain ⟨-, htitle₂⟩ := hrunning₁.turn (by omega) h₂
    have hcases : i = 0 ∨ i = 1 := by omega
    rcases hcases with rfl | rfl
    · exact .inl ⟨htitle₁, htitle₂⟩
    · exact .inr ⟨htitle₁, htitle₂⟩

/-! ## The class attribute -/

theorem styled_init (title : JsString) (hidden : Bool) (failure : Option (JsString × ℕ)) :
    Styled (chatroomwidgetMain title hidden failure) := by
  have hcleanslate : ClassName.cleanslate ∈
      [ClassName.configMode, .cleanslate, .initConfig, .mini] := by decide
  have hconfigMode : ClassName.configMode ∈
      [ClassName.configMode, .cleanslate, .initConfig, .mini] := by decide
  cases failure with
  | none => exact ⟨hcleanslate, iff_of_true hconfigMode rfl⟩
  | some e =>
    obtain ⟨messages, errors, connMsg, uncaught, heq, -⟩ := exists_main_failure title hidden e
    rw [heq]
    exact ⟨hcleanslate, iff_of_true hconfigMode rfl⟩

/-- **Step lemma**. -/
theorem Styled.step (h : Styled t) (hstep : TabStep t e t') : Styled t' := by
  cases hstep with
  | submitName hattached =>
    refine ⟨?_, iff_of_false (fun hmem => ?_) nofun⟩
    · exact mem_classRemove.mpr ⟨mem_classRemove.mpr ⟨h.cleanslate, by decide⟩, by decide⟩
    · exact (mem_classRemove.mp (mem_classRemove.mp hmem).1).2 rfl
  | @submitInput p hattached hp =>
    have hclean : ClassName.cleanslate ∈ (if p.configMode = true then classAdd t.classes .configMode
        else t.classes) := by
      split_ifs
      · exact mem_classAdd.mpr (.inl h.cleanslate)
      · exact h.cleanslate
    refine ⟨hclean, ?_⟩
    show .configMode ∈ (if p.configMode = true then classAdd t.classes .configMode else t.classes) ↔
      p.configMode = true
    by_cases hmode : p.configMode = true
    · rw [if_pos hmode]
      exact iff_of_true (mem_classAdd.mpr (.inr rfl)) hmode
    · rw [if_neg hmode]
      exact iff_of_false (fun hmem => hmode (hp.configMode (h.configMode.mp hmem))) hmode
  | @quits i c hc hrunning hend =>
    obtain ⟨socket, attached, uncaught, heq⟩ := exists_quitImmediately { t with page := ticked t.page i c }
    rw [heq]
    exact ⟨h.cleanslate, h.configMode⟩
  | minifier hattached =>
    have hother : ∀ {c : ClassName}, c ≠ .mini → (c ∈ (if .mini ∈ t.classes then
        classRemove t.classes .mini else classAdd t.classes .mini) ↔ c ∈ t.classes) := by
      intro c hc
      split_ifs
      · rw [mem_classRemove, and_iff_left hc]
      · rw [mem_classAdd, or_iff_left hc]
    exact ⟨(hother (by decide)).mpr h.cleanslate, (hother (by decide)).trans h.configMode⟩
  | _ => exact ⟨h.cleanslate, h.configMode⟩

theorem styled_of_reaches {ok : Tab → TabEvent → Prop}
    (h : (tabRun toUpperCase title hidden failure).Reaches ok t) : Styled t :=
  h.invariant (I := Styled) (styled_init title hidden failure) fun _ _ _ hI _ hn =>
    hI.step (tabStep_of_next hn)

/-- A list of classes with another than `mini` in it does not read `mini`. -/
theorem className_ne_mini {l : List ClassName} (h : .cleanslate ∈ l) :
    className l ≠ ClassName.text .mini := by
  have hspace : unit ' ' ∉ ClassName.text .mini := by decide
  intro heq
  match l with
  | [] => exact absurd h List.not_mem_nil
  | [c] =>
    obtain rfl := List.mem_singleton.mp h
    exact absurd heq (by decide)
  | c :: d :: l =>
    -- two classes are separated by a space
    apply hspace
    rw [← heq]
    show unit ' ' ∈ [unit ' '].intercalate (c.text :: d.text :: l.map ClassName.text)
    rw [List.intercalate_cons_cons]
    simp

/-! ## The life of the widget -/

/-- What holds of a widget in its document. -/
structure WidgetLife (M : Machine Tab TabEvent) : Prop where
  /-- Socket, handlers, document and state agree, and the widget has been quit if and only if a countdown has
  come to its end. -/
  quitOnce : ∀ t, M.Reachable t → QuitOnce t
  /-- A widget that is out of the document stays out, and shows and sends nothing more. -/
  gone : ∀ t t', M.Reachable t → t.attached = false → M.Path (fun _ _ => True) t t' →
    t'.attached = false ∧ SameLog t t'
  /-- Only what is submitted while the widget is connected is given to the socket, under the nickname. -/
  sent : ∀ t e t', M.Reachable t → M.next t e = some t' → t'.page.sent = t.page.sent ∨
    e = .submitInput ∧ t.connState = .connected ∧
      t'.page.sent = t.page.sent ++ [wireText t.page.widget t.page.value]

/-- **Life of the widget**: in every order of events, with a socket or without. -/
theorem widget_life (toUpperCase : CodeUnit → JsString) (title : JsString) (hidden : Bool)
    (failure : Option (JsString × ℕ)) :
    WidgetLife (tabRun toUpperCase title hidden failure) where
  quitOnce := fun _ h => quitOnce_of_reaches h
  gone := fun _ _ h hgone hp => sameLog_of_path (quitOnce_of_reaches h) hgone hp
  sent := fun _ _ _ h hn => sent_of_step (quitOnce_of_reaches h).toWired (tabStep_of_next hn)

/-- What becomes of the title of the document. -/
structure TitleKept (M : Machine Tab TabEvent) : Prop where
  /-- A visible document has its own title, and a hidden one its own or the announcement. -/
  restored : ∀ t, M.Reaches retitlesQuietly t → (t.hidden = false → t.title = t.ownTitle) ∧
    (t.title = t.ownTitle ∨ t.title = announcement t)
  /-- A message that is shown while the document is hidden is announced, at once if no other is yet, -/
  announced : ∀ t txt t', M.Reaches retitlesQuietly t → M.next t (.message txt) = some t' → t.hidden = true →
    t'.page.widget.messages ≠ t.page.widget.messages → Announcing M t' ∧
      (t.titleInterval = none → ∀ t₁, Turn M t' t₁ → t₁.title = announcement t')
  /-- until the document is visible. -/
  lasts : ∀ t t', M.Reaches retitlesQuietly t → t.titleInterval ≠ none →
    M.Path (fun t e => retitlesQuietly t e ∧ e ≠ .visibilitychange) t t' → Announcing M t'

/-- **The title**: announcements last until they are seen, and leave no trace. -/
theorem title_kept (toUpperCase : CodeUnit → JsString) (title : JsString) (hidden : Bool)
    (failure : Option (JsString × ℕ)) : TitleKept (tabRun toUpperCase title hidden failure) where
  restored := by
    intro t h
    have hkept := titled_of_reaches h
    by_cases hi : t.titleInterval = none
    · exact ⟨fun _ => hkept.still hi, .inl (hkept.still hi)⟩
    · obtain ⟨i, hsome⟩ := Option.ne_none_iff_exists'.mp hi
      refine ⟨fun hvisible => ?_, (hkept.announced hi).2⟩
      rw [((alternating_of_reaches h).alternating i hsome).2] at hvisible
      cases hvisible
  announced := by
    intro t txt t' h hn hhidden hshown
    have ht' := h.step hn nofun
    obtain ⟨-, rfl⟩ := Option.ite_some_none_eq_some.mp hn
    have hi := announced_of_message hhidden hshown
    refine ⟨announcing_of_reaches ht' (by rw [hi]; exact Option.some_ne_none _), fun hnone t₁ h₁ => ?_⟩
    rw [hnone] at hi
    obtain ⟨hlt, hrunning⟩ := running_of_reaches ht' hi
    exact (hrunning.turn hlt h₁).2
  lasts := by
    intro t t' h halternates hp
    refine announcing_of_reaches (h.path (hp.mono fun _ _ hok => hok.1)) ?_
    suffices hI : Alternating t' ∧ t'.titleInterval ≠ none from hI.2
    refine hp.invariant (I := fun t => Alternating t ∧ t.titleInterval ≠ none) ?_
      ⟨alternating_of_reaches h, halternates⟩
    rintro t e t' ⟨ha, hsome⟩ hok hn
    exact ⟨ha.step (tabStep_of_next hn), alternates_of_step ha hok.2 hsome (tabStep_of_next hn)⟩

/-- **The test for `mini` is dead**: whether the list of messages is scrolled depends on its position only,
minified or not. -/
theorem mustScrollToBottom_eq (h : (tabRun toUpperCase title hidden failure).Reachable t) (el : ScrollBox) :
    mustScrollToBottom t el = isScrolledToBottom el := by
  have hne := className_ne_mini (styled_of_reaches h).cleanslate
  unfold mustScrollToBottom
  rw [show idText ++ "mini".toList.map unit = ClassName.text .mini from rfl, decide_eq_false hne,
    Bool.or_false]

/-- A new widget is minified, and its list of messages stays where it is. -/
theorem mustScrollToBottom_eq_of_mini :
    .mini ∈ (chatroomwidgetMain [] false none).classes ∧
    mustScrollToBottom (chatroomwidgetMain [] false none) ⟨100, 10, 0⟩ =
      isScrolledToBottom ⟨100, 10, 0⟩ ∧ isScrolledToBottom ⟨100, 10, 0⟩ = false :=
  have h : (tabRun asciiUpperCase [] false none).Reachable (chatroomwidgetMain [] false none) := .init
  ⟨by decide, mustScrollToBottom_eq h ⟨100, 10, 0⟩, by decide⟩

end WebsocketHub
