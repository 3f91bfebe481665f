import WebsocketHub.ChatroomInput

/-!
# WebsocketHub.ChatroomTab — `static/chatroomwidget.js`: the life of the widget in its document

`chatroomwidgetMain` builds the widget and makes its socket; what happens then are the events of `TabEvent`.
The browser's part is in the guards of `tabNext`: a socket opens once, its messages come while it is open and
its close event is the last, with an error event before it when the connection has failed; a form that is not
in the document is not submitted.

* The class attribute is kept as the list of its tokens (`className`).
* Exceptions that reach the event loop are kept in `uncaught`.
* `TabStep` says what an event does.
-/

namespace WebsocketHub

open RegExp

section Defs

/-- `node.dataset.connState` -/
inductive ConnState
  | connecting
  | connected
  | closed
  | error
deriving DecidableEq, Repr

/-- The classes of the widget's node. -/
inductive ClassName
  | configMode
  | cleanslate
  | initConfig
  | mini
deriving DecidableEq, Repr

/-- An exception that reaches the event loop. -/
inductive Uncaught
  | typeError
  | syntaxError
deriving DecidableEq, Repr

structure CloseEvent where
  reason : JsString
  code : ℕ
  wasClean : Bool
deriving DecidableEq, Repr

structure Tab where
  page : Page
  connState : ConnState
  /-- the text of `.connMsg` -/
  connMsg : JsString
  classes : List ClassName
  /-- `none` is `undefined`; whether the handler of `chatroomwidget_main_aux` is in the list -/
  onquitHandlers : Option Bool
  /-- the widget is in the document -/
  attached : Bool
  title : JsString
  oldTitle : JsString
  /-- the function that `callAlternating` calls next -/
  titleInterval : Option ℕ
  hidden : Bool
  uncaught : List Uncaught
  /-- the handshake of the socket is done -/
  handshake : Bool
  /-- the title that the document has given itself -/
  ownTitle : JsString

def idText : JsString := "websockethub_chatroom_".toList.map unit

def ClassName.text : ClassName → JsString
  | .configMode => idText ++ "configMode".toList.map unit
  | .cleanslate => idText ++ "cleanslate".toList.map unit
  | .initConfig => idText ++ "initConfig".toList.map unit
  | .mini => idText ++ "mini".toList.map unit

/-- `node.classList.add(c)` -/
def classAdd (l : List ClassName) (c : ClassName) : List ClassName := if c ∈ l then l else l ++ [c]

/-- `node.classList.remove(c)` -/
def classRemove (l : List ClassName) (c : ClassName) : List ClassName := l.filter (· ≠ c)

/-- `node.className` -/
def className (l : List ClassName) : JsString := [unit ' '].intercalate (l.map ClassName.text)

def logErrorToUser (p : Page) (msg : JsString) : Page := { p with errors := p.errors ++ [.string msg] }

def onerror (t : Tab) : Tab := { t with connState := .error }

/-- `(e.reason || "disconnected") + ' [' + e.code + ']'` -/
def CloseEvent.message (e : CloseEvent) : JsString :=
  (if e.reason = [] then "disconnected".toList.map unit else e.reason) ++
    [unit ' ', unit '['] ++ decimal e.code ++ [unit ']']

/-- A widget that is not in the document has no list of messages to log to. -/
def onclose (t : Tab) (e : CloseEvent) : Tab :=
  let msg := e.message
  let t := if t.connState = .connected then { t with connState := .closed } else t
  if t.attached then
    if e.wasClean then { t with page := logInfoToUser t.page msg, connMsg := msg }
    else
      let msg := "error: ".toList.map unit ++ msg
      { t with page := logErrorToUser t.page msg, connMsg := msg }
  else { t with uncaught := t.uncaught ++ [.typeError] }

/-- The connection ends: `ws.onerror`, if it has failed, and `ws.onclose`. -/
def onend (failed : Bool) (e : CloseEvent) (t : Tab) : Tab :=
  let t := { t with page := { t.page with socket := .closed } }
  onclose (if failed then onerror t else t) e

def onopen (t : Tab) : Tab :=
  { t with
    page := { t.page with socket := .opened }
    connState := .connected
    connMsg := "connected".toList.map unit
    handshake := true }

/-- The functions that `callAlternating` is given. -/
def titleFuncs : List (Tab → Tab) :=
  [fun t => { t with title := "new messages - ".toList.map unit ++ t.oldTitle },
    fun t => { t with title := t.oldTitle }]

/-- A turn of the interval of `callAlternating`, at the function number `i`. -/
def callAlternating (funcs : List (Tab → Tab)) (t : Tab) (i : ℕ) : Tab :=
  match funcs[i]? with
  | some f => { f t with titleInterval := some ((i + 1) % funcs.length) }
  | none => t

/-- The end of `handleIncomingMessage`. -/
def announce (t : Tab) : Tab :=
  if t.hidden ∧ t.titleInterval = none then { t with oldTitle := t.title, titleInterval := some 0 } else t

def onmessage (toUpperCase : CodeUnit → JsString) (t : Tab) (txt : JsString) : Tab :=
  match handleIncomingMessage toUpperCase t.page.widget txt with
  | .error .syntaxError => { t with uncaught := t.uncaught ++ [.syntaxError] }
  | .ok w =>
    if t.attached then announce { t with page := { t.page with widget := w } }
    else { t with uncaught := t.uncaught ++ [.typeError] }

def onvisibilitychange (t : Tab) : Tab :=
  if t.hidden = false ∧ t.titleInterval ≠ none then
    { t with titleInterval := none, title := t.oldTitle }
  else t

/-- `ws.close()` -/
def Socket.close : Socket → Socket
  | .connecting | .opened => .closing
  | s => s

/-- The handler that `chatroomwidget_main_aux` pushes. -/
def onquit (t : Tab) : Tab :=
  { t with page := { t.page with socket := t.page.socket.close }, attached := false }

def quitImmediately (t : Tab) : Tab :=
  match t.onquitHandlers with
  | none => { t with uncaught := t.uncaught ++ [.typeError] }
  | some false => { t with onquitHandlers := none }
  | some true => { onquit t with onquitHandlers := none }

def ticked (p : Page) (i : ℕ) (c : Countdown) : Page := { p with countdowns := p.countdowns.set i (tick c) }

/-- A tick of the countdown number `i`. -/
def tickCountdown (t : Tab) (i : ℕ) (c : Countdown) : Tab :=
  let t := { t with page := ticked t.page i c }
  if (tick c).quits ≠ c.quits then quitImmediately t else t

def onMinifierClicked (t : Tab) : Tab :=
  { t with
    classes := if .mini ∈ t.classes then classRemove t.classes .mini else classAdd t.classes .mini }

/-- The handler of the name form. -/
def submitName (t : Tab) (name : JsString) : Tab :=
  { t with
    page := { t.page with widget := setName t.page.widget name, configMode := false }
    classes := classRemove (classRemove t.classes .configMode) .initConfig }

/-- The handler of the form of the chat input. -/
def submitInput (t : Tab) : Tab :=
  { t with
    page := submit t.page
    classes := if (submit t.page).configMode then classAdd t.classes .configMode else t.classes }

/-- `createWidget`, in a document with this title. -/
def createWidget (title : JsString) (hidden : Bool) : Tab where
  page := .init .unset []
  connState := .connecting
  connMsg := "connecting...".toList.map unit
  classes := [.configMode, .cleanslate, .initConfig, .mini]
  onquitHandlers := some false
  attached := true
  title := title
  oldTitle := title
  titleInterval := none
  hidden := hidden
  uncaught := []
  handshake := false
  ownTitle := title

/-- `chatroomwidget_main_aux`; `failure` is what `new WebSocket(url)` throws, its message and code. -/
def chatroomwidgetMain (title : JsString) (hidden : Bool) (failure : Option (JsString × ℕ)) : Tab :=
  let t := createWidget title hidden
  match failure with
  | some e => onclose (onerror t) ⟨e.1, e.2, false⟩
  | none => { t with page := .init .connecting [], onquitHandlers := some true }

inductive TabEvent
  | opened
  | message (txt : JsString)
  /-- the other end begins to close the connection -/
  | closing
  | closed (failed : Bool) (e : CloseEvent)
  | submitName (name : JsString)
  /-- the user changes the chat input -/
  | input (value : JsString)
  | submitInput
  | countdown (i : ℕ)
  | titleInterval
  | visibilitychange
  | minifier
  /-- the document changes its own title -/
  | retitle (title : JsString)
deriving DecidableEq, Repr

def tabNext (toUpperCase : CodeUnit → JsString) (t : Tab) : TabEvent → Option Tab
  | .opened => if t.page.socket = .connecting then some (onopen t) else none
  | .message txt => if t.page.socket = .opened then some (onmessage toUpperCase t txt) else none
  | .closing =>
    if t.page.socket = .opened then some { t with page := { t.page with socket := .closing } } else none
  | .closed failed e =>
    if t.page.socket ≠ .unset ∧ t.page.socket ≠ .closed ∧ (failed = true ∨ t.handshake = true) then
      some (onend failed e t)
    else none
  | .submitName name => if t.attached then some (submitName t name) else none
  | .input value => if t.attached then some { t with page := { t.page with value := value } } else none
  | .submitInput => if t.attached then some (submitInput t) else none
  | .countdown i =>
    (t.page.countdowns[i]?).bind fun c => if c.cleared then none else some (tickCountdown t i c)
  | .titleInterval => t.titleInterval.map fun i => callAlternating titleFuncs t i
  | .visibilitychange =>
    -- without a socket there is no listener
    let t := { t with hidden := !t.hidden }
    some (if t.page.socket = .unset then t else onvisibilitychange t)
  | .minifier => if t.attached then some (onMinifierClicked t) else none
  | .retitle title => some { t with title := title, ownTitle := title }

def tabRun (toUpperCase : CodeUnit → JsString) (title : JsString) (hidden : Bool)
    (failure : Option (JsString × ℕ)) : Machine Tab TabEvent where
  init := chatroomwidgetMain title hidden failure
  next := tabNext toUpperCase

/-- Where the list of messages is scrolled to. -/
structure ScrollBox where
  scrollHeight : ℤ
  offsetHeight : ℤ
  scrollTop : ℤ

def isScrolledToBottom (el : ScrollBox) : Bool := el.scrollHeight < el.offsetHeight + el.scrollTop + 3

/-- The condition in `showMessage`. -/
def mustScrollToBottom (t : Tab) (el : ScrollBox) : Bool :=
  isScrolledToBottom el || className t.classes = idText ++ "mini".toList.map unit

/-- What the handler of the chat input may do. -/
inductive Submitted (p : Page) : Page → Prop
  | command (c : Command) (arg : Option JsString) :
    Submitted p { c.run p arg with calls := p.calls ++ [(c, arg)], value := [] }
  | ignored : Submitted p { p with value := [] }
  | reported (e : Thrown) : Submitted p { p with errors := p.errors ++ [e] }
  | sent (hopened : p.socket = .opened) :
    Submitted p { p with sent := p.sent ++ [wireText p.widget p.value], value := [] }

/-- What an event does. -/
inductive TabStep (t : Tab) : TabEvent → Tab → Prop
  | opened (hs : t.page.socket = .connecting) : TabStep t .opened (onopen t)
  | message {txt : JsString} {w : Widget} {oldTitle : JsString} {interval : Option ℕ}
    {uncaught : List Uncaught} (hs : t.page.socket = .opened)
    (huncaught : .typeError ∈ uncaught → .typeError ∈ t.uncaught ∨ t.attached = false)
    (htitle : oldTitle = t.oldTitle ∧ interval = t.titleInterval ∨
      t.hidden = true ∧ t.titleInterval = none ∧ oldTitle = t.title ∧ interval = some 0) :
    TabStep t (.message txt) { t with
      page := { t.page with widget := w }
      oldTitle := oldTitle
      titleInterval := interval
      uncaught := uncaught }
  | closing (hs : t.page.socket = .opened) :
    TabStep t .closing { t with page := { t.page with socket := .closing } }
  | closed {failed : Bool} {e : CloseEvent} {messages : List Entry} {errors : List Thrown}
    {connMsg : JsString} {uncaught : List Uncaught} (hunset : t.page.socket ≠ .unset)
    (hclosed : t.page.socket ≠ .closed) (hfailed : failed = true ∨ t.handshake = true)
    (huncaught : .typeError ∈ uncaught → .typeError ∈ t.uncaught ∨ t.attached = false)
    (hlog : t.attached = false → messages = t.page.widget.messages ∧ errors = t.page.errors) :
    TabStep t (.closed failed e) { t with
      page := { t.page with
        widget := { t.page.widget with messages := messages }
        socket := .closed
        errors := errors }
      connState := if failed then .error else if t.connState = .connected then .closed else t.connState
      connMsg := connMsg
      uncaught := uncaught }
  | submitName {name : JsString} (hattached : t.attached = true) :
    TabStep t (.submitName name) (submitName t name)
  | input {value : JsString} (hattached : t.attached = true) :
    TabStep t (.input value) { t with page := { t.page with value := value } }
  | submitInput {p : Page} (hattached : t.attached = true) (hp : Submitted t.page p) :
    TabStep t .submitInput { t with
      page := p
      classes := if p.configMode then classAdd t.classes .configMode else t.classes }
  | countdown {i : ℕ} {c : Countdown} (hc : t.page.countdowns[i]? = some c) (hrunning : c.cleared = false)
    (hgoes : (tick c).cleared = false) :
    TabStep t (.countdown i) { t with page := ticked t.page i c }
  | quits {i : ℕ} {c : Countdown} (hc : t.page.countdowns[i]? = some c) (hrunning : c.cleared = false)
    (hend : (tick c).cleared = true) :
    TabStep t (.countdown i) (quitImmediately { t with page := ticked t.page i c })
  | titleInterval {i : ℕ} {title : JsString} {interval : Option ℕ} (hi : t.titleInterval = some i)
    (htitle : i < 2 → interval = some (1 - i) ∧
      title = if i = 0 then "new messages - ".toList.map unit ++ t.oldTitle else t.oldTitle) :
    TabStep t .titleInterval { t with title := title, titleInterval := interval }
  | visibilitychange {title : JsString} {interval : Option ℕ}
    (htitle : title = t.title ∧ interval = t.titleInterval ∧
        (t.page.socket = .unset ∨ t.hidden = false ∨ t.titleInterval = none) ∨
      t.hidden = true ∧ t.titleInterval ≠ none ∧ title = t.oldTitle ∧ interval = none) :
    TabStep t .visibilitychange
      { t with hidden := !t.hidden, title := title, titleInterval := interval }
  | minifier (hattached : t.attached = true) : TabStep t .minifier (onMinifierClicked t)
  | retitle {title : JsString} : TabStep t (.retitle title) { t with title := title, ownTitle := title }

end Defs

variable {toUpperCase : CodeUnit → JsString} {title : JsString} {hidden : Bool}
  {failure : Option (JsString × ℕ)} {t t' : Tab} {e : TabEvent} {p p' : Page} {c : Countdown} {i : ℕ}

/-! ## The handlers -/

theorem submitted (p : Page) : Submitted p (submit p) := by
  unfold submit handleMessageInput
  split
  · next p' hok =>
    split at hok
    · unfold handleCommand at hok
      split at hok
      · obtain rfl := Except.ok.inj hok
        exact .command _ _
      · split_ifs at hok
        obtain rfl := Except.ok.inj hok
        exact .ignored
      · cases hok
    · unfold sendMessage at hok
      split at hok
      · cases hok
      · cases hok
      · next hsocket =>
        obtain rfl := Except.ok.inj hok
        exact .sent hsocket
      · obtain rfl := Except.ok.inj hok
        exact .ignored
      · obtain rfl := Except.ok.inj hok
        exact .ignored
  · exact .reported _

theorem Submitted.socket (h : Submitted p p') : p'.socket = p.socket := by
  cases h with
  | command c arg => cases c <;> rfl
  | ignored => rfl
  | reported e => rfl
  | sent hopened => rfl

theorem Submitted.countdowns (h : Submitted p p') :
    p'.countdowns = p.countdowns ∨ ∃ arg, p'.countdowns = p.countdowns ++ [quitDelay arg] := by
  cases h with
  | command c arg =>
    cases c with
    | quit => exact .inr ⟨arg, rfl⟩
    | exit => exact .inr ⟨arg, rfl⟩
    | _ => exact .inl rfl
  | ignored => exact .inl rfl
  | reported e => exact .inl rfl
  | sent hopened => exact .inl rfl

theorem Submitted.sends (h : Submitted p p') : p'.sent = p.sent ∨
    p.socket = .opened ∧ p'.sent = p.sent ++ [wireText p.widget p.value] := by
  cases h with
  | command c arg => exact .inl (by cases c <;> rfl)
  | ignored => exact .inl rfl
  | reported e => exact .inl rfl
  | sent hopened => exact .inr ⟨hopened, rfl⟩

theorem Submitted.configMode (h : Submitted p p') : p.configMode = true → p'.configMode = true := by
  cases h with
  | command c arg =>
    cases c with
    | config => exact fun _ => rfl
    | _ => exact id
  | ignored => exact id
  | reported e => exact id
  | sent hopened => exact id

/-- A tick calls `quitImmediately` when it clears its interval. -/
theorem tick_quits (h : c.cleared = false) : (tick c).quits ≠ c.quits ↔ (tick c).cleared = true := by
  unfold tick
  rw [if_neg (by rw [h]; exact Bool.false_ne_true)]
  by_cases hzero : c.seconds.toNumber.sub (.ofRat 1) = .ofRat 0
  · simp only [if_pos hzero]
    exact iff_of_true (Nat.succ_ne_self _) trivial
  · simp only [if_neg hzero]
    exact iff_of_false (fun hne => hne rfl) (by rw [h]; exact Bool.false_ne_true)

theorem mem_classAdd {l : List ClassName} {a b : ClassName} : a ∈ classAdd l b ↔ a ∈ l ∨ a = b := by
  unfold classAdd
  split_ifs with hb
  · refine ⟨.inl, ?_⟩
    rintro (ha | rfl)
    · exact ha
    · exact hb
  · rw [List.mem_append, List.mem_singleton]

theorem mem_classRemove {l : List ClassName} {a b : ClassName} :
    a ∈ classRemove l b ↔ a ∈ l ∧ a ≠ b := by
  rw [classRemove, List.mem_filter, decide_eq_true_eq]

/-- What `onclose` does: to the log of the page, its state and the message over it. -/
theorem exists_onclose (t : Tab) (e : CloseEvent) : ∃ messages errors connMsg uncaught,
    onclose t e = { t with
      page := { t.page with widget := { t.page.widget with messages := messages }, errors := errors }
      connState := if t.connState = .connected then .closed else t.connState
      connMsg := connMsg
      uncaught := uncaught } ∧
    (.typeError ∈ uncaught → .typeError ∈ t.uncaught ∨ t.attached = false) ∧
    (t.attached = false → messages = t.page.widget.messages ∧ errors = t.page.errors) := by
  unfold onclose
  by_cases hstate : t.connState = .connected
  · simp only [if_pos hstate]
    split_ifs with hattached hclean
    · exact ⟨_, _, _, _, rfl, .inl, fun h => absurd (hattached.symm.trans h) (by decide)⟩
    · exact ⟨_, _, _, _, rfl, .inl, fun h => absurd (hattached.symm.trans h) (by decide)⟩
    · exact ⟨_, _, _, _, rfl, fun _ => .inr (Bool.not_eq_true _ ▸ hattached), fun _ => ⟨rfl, rfl⟩⟩
  · simp only [if_neg hstate]
    split_ifs with hattached hclean
    · exact ⟨_, _, _, _, rfl, .inl, fun h => absurd (hattached.symm.trans h) (by decide)⟩
    · exact ⟨_, _, _, _, rfl, .inl, fun h => absurd (hattached.symm.trans h) (by decide)⟩
    · exact ⟨_, _, _, _, rfl, fun _ => .inr (Bool.not_eq_true _ ▸ hattached), fun _ => ⟨rfl, rfl⟩⟩

/-- A widget without a socket. -/
theorem exists_main_failure (title : JsString) (hidden : Bool) (e : JsString × ℕ) :
    ∃ messages errors connMsg uncaught, chatroomwidgetMain title hidden (some e) =
      { createWidget title hidden with
        page := { Page.init .unset [] with widget := ⟨none, messages⟩, errors := errors }
        connState := .error
        connMsg := connMsg
        uncaught := uncaught } ∧ .typeError ∉ uncaught := by
  obtain ⟨messages, errors, connMsg, uncaught, heq, huncaught, -⟩ :=
    exists_onclose (onerror (createWidget title hidden)) ⟨e.1, e.2, false⟩
  refine ⟨messages, errors, connMsg, uncaught, heq, fun h => ?_⟩
  rcases huncaught h with h | h
  · exact absurd h List.not_mem_nil
  · exact nomatch h

theorem exists_onend (failed : Bool) (e : CloseEvent) (t : Tab) : ∃ messages errors connMsg uncaught,
    onend failed e t = { t with
      page := { t.page with
        widget := { t.page.widget with messages := messages }
        socket := .closed
        errors := errors }
      connState := if failed then .error else if t.connState = .connected then .closed else t.connState
      connMsg := connMsg
      uncaught := uncaught } ∧
    (.typeError ∈ uncaught → .typeError ∈ t.uncaught ∨ t.attached = false) ∧
    (t.attached = false → messages = t.page.widget.messages ∧ errors = t.page.errors) := by
  cases failed with
  | true =>
    exact exists_onclose (onerror { t with page := { t.page with socket := .closed } }) e
  | false => exact exists_onclose { t with page := { t.page with socket := .closed } } e

/-- What `onmessage` does: to the widget, or to the log of exceptions. -/
theorem exists_onmessage (toUpperCase : CodeUnit → JsString) (t : Tab) (txt : JsString) :
    ∃ w oldTitle interval uncaught,
    onmessage toUpperCase t txt = { t with
      page := { t.page with widget := w }
      oldTitle := oldTitle
      titleInterval := interval
      uncaught := uncaught } ∧
    (.typeError ∈ uncaught → .typeError ∈ t.uncaught ∨ t.attached = false) ∧
    (oldTitle = t.oldTitle ∧ interval = t.titleInterval ∨
      t.hidden = true ∧ t.titleInterval = none ∧ oldTitle = t.title ∧ interval = some 0) := by
  unfold onmessage
  split
  · exact ⟨_, _, _, _, rfl, fun h => .inl (by simpa using h), .inl ⟨rfl, rfl⟩⟩
  · split_ifs with hattached
    · unfold announce
      split_ifs with h
      · exact ⟨_, _, _, _, rfl, .inl, .inr ⟨h.1, h.2, rfl, rfl⟩⟩
      · exact ⟨_, _, _, _, rfl, .inl, .inl ⟨rfl, rfl⟩⟩
    · exact ⟨_, _, _, _, rfl, fun _ => .inr (Bool.not_eq_true _ ▸ hattached), .inl ⟨rfl, rfl⟩⟩

/-- The two functions of the title take turns. -/
theorem exists_callAlternating (t : Tab) (i : ℕ) : ∃ title interval,
    callAlternating titleFuncs t i = { t with title := title, titleInterval := interval } ∧
    (i < 2 → interval = some (1 - i) ∧
      title = if i = 0 then "new messages - ".toList.map unit ++ t.oldTitle else t.oldTitle) := by
  have hcases : i = 0 ∨ i = 1 ∨ titleFuncs[i]? = none := by
    by_cases hi : i < 2
    · omega
    · exact .inr (.inr (List.getElem?_eq_none (Nat.not_lt.mp hi)))
  rcases hcases with rfl | rfl | hnone
  · exact ⟨_, _, rfl, fun _ => ⟨rfl, rfl⟩⟩
  · exact ⟨_, _, rfl, fun _ => ⟨rfl, rfl⟩⟩
  · refine ⟨t.title, t.titleInterval, ?_, fun hi => ?_⟩
    · rw [callAlternating, hnone]
    · rw [List.getElem?_eq_none_iff] at hnone
      exact absurd hi (Nat.not_lt.mpr hnone)

theorem exists_visibilitychange (t : Tab) : ∃ title interval,
    (if t.page.socket = .unset then { t with hidden := !t.hidden }
      else onvisibilitychange { t with hidden := !t.hidden }) =
      { t with hidden := !t.hidden, title := title, titleInterval := interval } ∧
    (title = t.title ∧ interval = t.titleInterval ∧
        (t.page.socket = .unset ∨ t.hidden = false ∨ t.titleInterval = none) ∨
      t.hidden = true ∧ t.titleInterval ≠ none ∧ title = t.oldTitle ∧ interval = none) := by
  by_cases hunset : t.page.socket = .unset
  · exact ⟨_, _, if_pos hunset, .inl ⟨rfl, rfl, .inl hunset⟩⟩
  · rw [if_neg hunset]
    by_cases hend : (!t.hidden) = false ∧ t.titleInterval ≠ none
    · exact ⟨_, _, if_pos hend, .inr ⟨by simpa using hend.1, hend.2, rfl, rfl⟩⟩
    · refine ⟨_, _, if_neg hend, .inl ⟨rfl, rfl, .inr ?_⟩⟩
      by_cases hhidden : t.hidden = false
      · exact .inl hhidden
      · exact .inr (by_contra fun hne => hend ⟨by simpa using hhidden, hne⟩)

/-- **Inversion**: what an event does. -/
theorem tabStep_of_next (hn : tabNext toUpperCase t e = some t') : TabStep t e t' := by
  cases e with
  | opened =>
    obtain ⟨hs, rfl⟩ := Option.ite_some_none_eq_some.mp hn
    exact .opened hs
  | message txt =>
    obtain ⟨hs, rfl⟩ := Option.ite_some_none_eq_some.mp hn
    obtain ⟨w, oldTitle, interval, uncaught, heq, huncaught, htitle⟩ := exists_onmessage toUpperCase t txt
    rw [heq]
    exact .message hs huncaught htitle
  | closing =>
    obtain ⟨hs, rfl⟩ := Option.ite_some_none_eq_some.mp hn
    exact .closing hs
  | closed failed e =>
    obtain ⟨⟨hunset, hclosed, hfailed⟩, rfl⟩ := Option.ite_some_none_eq_some.mp hn
    obtain ⟨messages, errors, connMsg, uncaught, heq, huncaught, hlog⟩ := exists_onend failed e t
    rw [heq]
    exact .closed hunset hclosed hfailed huncaught hlog
  | submitName name =>
    obtain ⟨hattached, rfl⟩ := Option.ite_some_none_eq_some.mp hn
    exact .submitName hattached
  | input value =>
    obtain ⟨hattached, rfl⟩ := Option.ite_some_none_eq_some.mp hn
    exact .input hattached
  | submitInput =>
    obtain ⟨hattached, rfl⟩ := Option.ite_some_none_eq_some.mp hn
    exact .submitInput hattached (submitted t.page)
  | countdown i =>
    obtain ⟨c, hc, hn⟩ := Option.bind_eq_some_iff.mp hn
    split_ifs at hn with hcleared
    obtain rfl := Option.some.inj hn
    have hrunning : c.cleared = false := Bool.not_eq_true _ ▸ hcleared
    have hquits := tick_quits hrunning
    unfold tickCountdown
    by_cases hend : (tick c).quits ≠ c.quits
    · simp only [if_pos hend]
      exact .quits hc hrunning (hquits.mp hend)
    · simp only [if_neg hend]
      exact .countdown hc hrunning (Bool.not_eq_true _ ▸ mt hquits.mpr hend)
  | titleInterval =>
    obtain ⟨i, hi, rfl⟩ := Option.map_eq_some_iff.mp hn
    obtain ⟨title, interval, heq, htitle⟩ := exists_callAlternating t i
    rw [heq]
    exact .titleInterval hi htitle
  | visibilitychange =>
    obtain ⟨title, interval, heq, htitle⟩ := exists_visibilitychange t
    have ht' : t' = _ := (Option.some.inj hn).symm.trans heq
    rw [ht']
    exact .visibilitychange htitle
  | minifier =>
    obtain ⟨hattached, rfl⟩ := Option.ite_some_none_eq_some.mp hn
    exact .minifier hattached
  | retitle title =>
    obtain rfl := Option.some.inj hn
    exact .retitle

end WebsocketHub
