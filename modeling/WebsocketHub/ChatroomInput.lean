import WebsocketHub.ChatroomWidget
import WebsocketHub.QuitCountdown
import WebsocketHub.Utf
import Mathlib.Data.List.TakeWhile

/-!
# WebsocketHub.ChatroomInput — `static/chatroomwidget.js`: the chat input and its commands

What is submitted is a command, if it begins with a slash and a word, or it is sent.  The expression that
recognises a command does not look at the whole text, and the handler is a property of an ordinary object,
so that something else than one of the six commands may run, and something else than the text may be
passed to them.

* `submit` is the handler of the form; it keeps a log of the calls of the six commands.
* `Handled` says what may become of a text and `WellHandled` for which texts that is so
  (`handled_iff`).  What is sent is read again from the bytes of its frame.
* Elements of different kinds in the list of messages are kept in lists of their own.
-/

namespace WebsocketHub

open RegExp

section Defs

/-- `ws.readyState`; before there is a socket `sendMessage` throws. -/
inductive Socket
  | unset
  | connecting
  | opened
  | closing
  | closed
deriving DecidableEq, Repr

/-- What is thrown. -/
inductive Thrown
  | string (s : JsString)
  | typeError
  | invalidStateError
deriving DecidableEq, Repr

/-- The own properties of `commandHandlers`. -/
inductive Command
  | nick
  | config
  | about
  | quit
  | exit
  | help
deriving DecidableEq, Repr

/-- The properties that it has from `Object.prototype`. -/
inductive Inherited
  | constructor
  | hasOwnProperty
  | isPrototypeOf
  | propertyIsEnumerable
  | toLocaleString
  | toString
  | valueOf
  | defineGetter
  | defineSetter
  | lookupGetter
  | lookupSetter
  | proto
deriving DecidableEq, Repr

def Command.all : List Command := [.nick, .config, .about, .quit, .exit, .help]

def Command.name : Command → JsString
  | .nick => "nick".toList.map unit
  | .config => "config".toList.map unit
  | .about => "about".toList.map unit
  | .quit => "quit".toList.map unit
  | .exit => "exit".toList.map unit
  | .help => "help".toList.map unit

def Inherited.all : List Inherited :=
  [.constructor, .hasOwnProperty, .isPrototypeOf, .propertyIsEnumerable, .toLocaleString, .toString,
    .valueOf, .defineGetter, .defineSetter, .lookupGetter, .lookupSetter, .proto]

def Inherited.name : Inherited → JsString
  | .constructor => "constructor".toList.map unit
  | .hasOwnProperty => "hasOwnProperty".toList.map unit
  | .isPrototypeOf => "isPrototypeOf".toList.map unit
  | .propertyIsEnumerable => "propertyIsEnumerable".toList.map unit
  | .toLocaleString => "toLocaleString".toList.map unit
  | .toString => "toString".toList.map unit
  | .valueOf => "valueOf".toList.map unit
  | .defineGetter => "__defineGetter__".toList.map unit
  | .defineSetter => "__defineSetter__".toList.map unit
  | .lookupGetter => "__lookupGetter__".toList.map unit
  | .lookupSetter => "__lookupSetter__".toList.map unit
  | .proto => "__proto__".toList.map unit

/-- Called as a function with a string or nothing, these return; the others need an object as `this`, and
`__proto__` is none. -/
def Inherited.returns : Inherited → Bool
  | .constructor | .isPrototypeOf | .toString => true
  | _ => false

/-- `commandHandlers[cmd]` -/
def commandHandlers (cmd : JsString) : Option (Command ⊕ Inherited) :=
  match Command.all.find? (·.name = cmd) with
  | some c => some (.inl c)
  | none => (Inherited.all.find? (·.name = cmd)).map .inr

structure Page where
  widget : Widget
  socket : Socket
  configMode : Bool
  countdowns : List Countdown
  /-- the errors that are shown -/
  errors : List Thrown
  /-- `mesgInput.value` -/
  value : JsString
  /-- what the socket has been given and sends -/
  sent : List JsString
  /-- the calls of the six commands -/
  calls : List (Command × Option JsString)

/-- Before anything has happened. -/
def Page.init (socket : Socket) (value : JsString) : Page where
  widget := .init
  socket := socket
  configMode := true
  countdowns := []
  errors := []
  value := value
  sent := []
  calls := []

def logInfoToUser (p : Page) (msg : JsString) : Page :=
  { p with widget := { p.widget with messages := p.widget.messages ++ [.info msg] } }

/-- The address in the text becomes a link. -/
def about (p : Page) : Page :=
  logInfoToUser p ("websockethub.com groupchat. It's crazy, but it works.".toList.map unit)

def Command.run (p : Page) (arg : Option JsString) : Command → Page
  | .nick => { p with widget := WebsocketHub.nick p.widget arg }
  | .config => { p with configMode := true }
  | .about => WebsocketHub.about p
  | .quit | .exit => { p with countdowns := p.countdowns ++ [quitDelay arg] }
  | .help => logInfoToUser (WebsocketHub.about p)
      ("Available commands: /nick, /config, /about, /quit".toList.map unit)

def unknownCommand (cmd : JsString) : JsString :=
  "unknown command: ".toList.map unit ++ cmd ++ " (try /help)".toList.map unit

def handleCommand (p : Page) (cmd : JsString) (arg : Option JsString) : Except Thrown Page :=
  match commandHandlers cmd with
  | some (.inl c) => .ok { c.run p arg with calls := p.calls ++ [(c, arg)] }
  | some (.inr m) => if m.returns then .ok p else .error .typeError
  | none => .error (.string (unknownCommand cmd))

/-- A socket that is closed takes what it is given and does nothing. -/
def sendMessage (p : Page) (txt : JsString) : Except Thrown Page :=
  match p.socket with
  | .unset => .error (.string ("sendMessage not set to custom function yet".toList.map unit))
  | .connecting => .error .invalidStateError
  | .opened => .ok { p with sent := p.sent ++ [wireText p.widget txt] }
  | .closing | .closed => .ok p

def commandRex : Node := literal r"^\/(\w+)(?: (.*))?"

/-- `match[1]` is part of every match. -/
def handleMessageInput (p : Page) (txt : JsString) : Except Thrown Page :=
  match exec exactCase commandRex txt with
  | some m => handleCommand p (nameText (m.captures 1)) (m.captures 2)
  | none => sendMessage p txt

/-- The handler of the form. -/
def submit (p : Page) : Page :=
  match handleMessageInput p p.value with
  | .ok p' => { p' with value := [] }
  | .error e => { p with errors := p.errors ++ [e] }

/-! ## What should become of a text -/

/-- `/name` or `/name arg` -/
def commandText (name : JsString) (arg : Option JsString) : JsString :=
  unit '/' :: name ++ (arg.map (unit ' ' :: ·)).getD []

/-- It begins with a slash and a word. -/
def isCommand : JsString → Bool
  | u :: v :: _ => u = unit '/' && isWordChar v
  | _ => false

/-- What a command is for. -/
def Command.Effect (arg : Option JsString) (p p' : Page) : Command → Prop
  | .nick =>
    match arg with
    | some (u :: name) => p'.widget.myname = some (u :: name)
    | _ => p'.widget.messages = p.widget.messages ++
        [.info ("Your nickname: ".toList.map unit ++ nameText p.widget.myname)]
  | .config => p'.configMode = true
  | .about => p'.widget.messages = p.widget.messages ++
      [.info ("websockethub.com groupchat. It's crazy, but it works.".toList.map unit)]
  | .quit | .exit => p'.countdowns = p.countdowns ++ [quitDelay arg]
  | .help => p'.widget.messages = p.widget.messages ++
      [.info ("websockethub.com groupchat. It's crazy, but it works.".toList.map unit),
        .info ("Available commands: /nick, /config, /about, /quit".toList.map unit)]

/-- What the others in the room read: a surrogate that is in no pair is no text for a frame. -/
def received (w : Widget) (txt : JsString) : Option JsString := Utf.ofBytes (Utf.bytesOf (wireText w txt))

/-- Exactly one of these things happens. -/
inductive Handled (p p' : Page) : Prop
  | executed (c : Command) (arg : Option JsString) (htxt : p.value = commandText c.name arg)
      (hpage : p' = { c.run p arg with calls := p.calls ++ [(c, arg)], value := [] })
      (heffect : c.Effect arg p p')
  | reported (e : Thrown) (hcommand : isCommand p.value = true)
      (hother : ∀ c arg, p.value ≠ commandText (Command.name c) arg)
      (hpage : p' = { p with errors := p.errors ++ [e] })
  | sent (hpage : p' = { p with sent := p.sent ++ [wireText p.widget p.value], value := [] })
      (hreceived : ∃ header, received p.widget [] = some header ∧
        received p.widget p.value = some (header ++ p.value))

/-- The name of a command and what follows it. -/
def commandParts (txt : JsString) : Option (JsString × JsString) :=
  if isCommand txt then some (txt.tail.takeWhile isWordChar, txt.tail.dropWhile isWordChar) else none

def isLineTerminator (u : CodeUnit) : Bool := u = 10 || u = 13 || u = 0x2028 || u = 0x2029

/-- The argument that is passed. -/
def passedArg : JsString → Option JsString
  | [] => none
  | u :: rest => if u = unit ' ' then some (rest.takeWhile fun v => !isLineTerminator v) else none

/-- What follows the name is nothing, or an argument that is passed as a whole. -/
def isWholeArg : JsString → Bool
  | [] => true
  | u :: rest => u = unit ' ' && rest.all fun v => !isLineTerminator v

/-- A text is well-formed and sent while the socket is open, one of the six commands has nothing after its
name or its whole argument, and every other command is reported. -/
def WellHandled (p : Page) : Prop :=
  match commandParts p.value with
  | none => p.socket = .opened ∧ Utf.isWellFormed p.value = true
  | some (name, rest) =>
    match commandHandlers name with
    | some (.inl _) => isWholeArg rest = true
    | some (.inr m) => m.returns = false
    | none => True

end Defs

variable {p : Page} {txt name rest : JsString} {arg : Option JsString}

/-! ## The expression that recognises a command -/

theorem isCommand_cons {u : CodeUnit} {s : JsString} :
    isCommand (u :: s) = true ↔ u = unit '/' ∧ s.takeWhile isWordChar ≠ [] := by
  cases s with
  | nil => simp [isCommand]
  | cons v s =>
    unfold isCommand
    rw [Bool.and_eq_true, decide_eq_true_eq]
    refine and_congr_right fun _ => ?_
    cases hv : isWordChar v with
    | true => simp [List.takeWhile_cons_of_pos hv]
    | false => simp [hv]

/-- `(\w+)` -/
def nameGroup : Node :=
  .capture 1 (.seq (.repeated ⟨1, none, true⟩ 1 0 (.atom (.set false wordSet))) .empty)

/-- `(.*)` -/
def argGroup : Node :=
  .capture 2 (.seq (.repeated ⟨0, none, true⟩ 2 0 (.atom (.set false dotSet))) .empty)

/-- `(?: (.*))?` -/
def optionalArg : Node :=
  .repeated ⟨0, some 1, true⟩ 1 1 (.seq (.atom (.char (unit ' '))) (.seq argGroup .empty))

theorem commandRex_eq : commandRex = .seq (.assertion .inputStart)
    (.seq (.atom (.char (unit '/'))) (.seq nameGroup (.seq optionalArg .empty))) :=
  literal_eq (by decide)

theorem hits_wordSet (u : CodeUnit) : hits exactCase wordSet u = isWordChar u := by
  rw [hits_exactCase (by decide), Bool.eq_iff_iff]
  have hunderscore : unit '_' = 95 := rfl
  unfold isWordChar isLetter isDigit inRange
  rw [hunderscore]
  simp only [wordSet, List.any_cons, List.any_nil, Bool.or_false, Bool.or_eq_true, Bool.and_eq_true,
    decide_eq_true_eq, UInt16.le_iff_toNat_le, ← UInt16.toNat_inj]
  show (48 ≤ u.toNat ∧ u.toNat ≤ 57 ∨ 65 ≤ u.toNat ∧ u.toNat ≤ 90 ∨ 95 ≤ u.toNat ∧ u.toNat ≤ 95 ∨
    97 ≤ u.toNat ∧ u.toNat ≤ 122) ↔ ((97 ≤ u.toNat ∧ u.toNat ≤ 122 ∨ 65 ≤ u.toNat ∧ u.toNat ≤ 90) ∨
      48 ≤ u.toNat ∧ u.toNat ≤ 57) ∨ u.toNat = 95
  omega

theorem hits_dotSet (u : CodeUnit) : hits exactCase dotSet u = !isLineTerminator u := by
  have hlt := UInt16.toNat_lt u
  rw [hits_exactCase (by decide), Bool.eq_iff_iff]
  unfold isLineTerminator
  simp only [dotSet, List.any_cons, List.any_nil, Bool.or_false, Bool.or_eq_true, Bool.and_eq_true,
    Bool.not_eq_true', Bool.or_eq_false_iff, decide_eq_true_eq, decide_eq_false_iff_not,
    UInt16.le_iff_toNat_le, ← UInt16.toNat_inj]
  show (0 ≤ u.toNat ∧ u.toNat ≤ 9 ∨ 11 ≤ u.toNat ∧ u.toNat ≤ 12 ∨ 14 ≤ u.toNat ∧ u.toNat ≤ 8231 ∨
    8234 ≤ u.toNat ∧ u.toNat ≤ 65535) ↔
      ((¬u.toNat = 10 ∧ ¬u.toNat = 13) ∧ ¬u.toNat = 8232) ∧ ¬u.toNat = 8233
  have hsize : UInt16.size = 65536 := rfl
  omega

theorem head?_nameGroup (x : MatchState) : (runs exactCase nameGroup x).head? =
    let name := x.after.takeWhile isWordChar
    if name = [] then none
    else some { x.advance name.length with captures := Function.update x.captures 1 (some name) } := by
  have h : (runs exactCase nameGroup x).head? = _ := head?_capture_greedy false wordSet 1 1 1 x
  have hclass : (fun v => hits exactCase wordSet v != false) = isWordChar := by
    funext v
    rw [hits_wordSet, Bool.bne_false]
  rw [h, hclass]
  by_cases hname : x.after.takeWhile isWordChar = []
  · simp only [hname]
    rfl
  · simp only [if_neg hname]
    rw [if_pos (Nat.one_le_iff_ne_zero.mpr (mt List.length_eq_zero_iff.mp hname))]

theorem head?_argGroup (x : MatchState) : (runs exactCase argGroup x).head? =
    let arg := x.after.takeWhile fun v => !isLineTerminator v
    some { x.advance arg.length with captures := Function.update x.captures 2 (some arg) } := by
  have h : (runs exactCase argGroup x).head? = _ := head?_capture_greedy false dotSet 0 2 2 x
  rw [h]
  simp only [hits_dotSet, Bool.bne_false, if_pos (Nat.zero_le _)]

/-- The optional argument. -/
theorem exists_run_optionalArg (x : MatchState) (hx : x.captures 2 = none) :
    ∃ y, (runs exactCase optionalArg x).head? = some y ∧
      y.captures 1 = x.captures 1 ∧ y.captures 2 = passedArg x.after := by
  by_cases hhead : x.after.head? = some (unit ' ')
  · obtain ⟨rest, hrest⟩ := List.head?_eq_some_iff.mp hhead
    have hspace : runs exactCase (.atom (.char (unit ' '))) (x.clear 1 1) = [(x.clear 1 1).advance 1] :=
      runs_char_self hrest
    have hafter : ((x.clear 1 1).advance 1).after = rest := after_advance (a := [unit ' ']) hrest
    have harg := head?_argGroup ((x.clear 1 1).advance 1)
    rw [← runs_seq_empty, hafter] at harg
    refine ⟨_, head?_optional (head?_seq (congrArg List.head? hspace) harg) ?_, ?_, ?_⟩
    · show (List.drop _ (((x.clear 1 1).advance 1).after)).length < _
      rw [hafter, hrest, List.length_drop, List.length_cons]
      omega
    · simp [MatchState.advance, MatchState.clear]
    · rw [hrest, passedArg, if_pos rfl]
      simp
  · refine ⟨x, ?_, rfl, ?_⟩
    · unfold optionalArg
      rw [runs_optional_of_nil (runs_seq_of_nil (runs_char_exact_of_ne hhead))]
      rfl
    · rw [hx]
      cases hafter : x.after with
      | nil => rfl
      | cons v rest =>
        rw [hafter] at hhead
        rw [passedArg, if_neg fun heq => hhead (congrArg some heq)]

/-- The words that are captured. -/
theorem exec_commandRex (txt : JsString) :
    (exec exactCase commandRex txt).map (fun m => (m.captures 1, m.captures 2)) =
      (commandParts txt).map fun q => (some q.1, passedArg q.2) := by
  rw [commandRex_eq, exec_inputStart]
  unfold matchAt commandParts
  generalize hx : (⟨[], txt, fun _ => none⟩ : MatchState) = x
  have hafter : x.after = txt := by rw [← hx]
  have hnone : x.captures = fun _ => none := by rw [← hx]
  by_cases hslash : txt.head? = some (unit '/')
  · obtain ⟨s, rfl⟩ := List.head?_eq_some_iff.mp hslash
    have hone : runs exactCase (.atom (.char (unit '/'))) x = [x.advance 1] := runs_char_self hafter
    have hrest : (x.advance 1).after = s := after_advance (a := [unit '/']) hafter
    have hname := head?_nameGroup (x.advance 1)
    rw [hrest] at hname
    by_cases hnil : s.takeWhile isWordChar = []
    · -- no word follows
      have hcommand : ¬isCommand (unit '/' :: s) = true := fun h => (isCommand_cons.mp h).2 hnil
      simp only [if_pos hnil] at hname
      have hruns : runs exactCase (.seq (.atom (.char (unit '/')))
          (.seq nameGroup (.seq optionalArg .empty))) x = [] := by
        show List.flatMap _ _ = []
        rw [hone, List.flatMap_singleton]
        exact runs_seq_of_nil (List.head?_eq_none_iff.mp hname)
      rw [if_neg hcommand, hruns]
      rfl
    · have hcommand : isCommand (unit '/' :: s) = true := isCommand_cons.mpr ⟨rfl, hnil⟩
      simp only [if_neg hnil] at hname
      obtain ⟨y, hy, h1, h2⟩ := exists_run_optionalArg
        { (x.advance 1).advance (s.takeWhile isWordChar).length with
          captures := Function.update (x.advance 1).captures 1 (some (s.takeWhile isWordChar)) }
        (by simp [MatchState.advance, hnone])
      have hdrop : ((x.advance 1).advance (s.takeWhile isWordChar).length).after =
          s.dropWhile isWordChar :=
        after_advance (by rw [hrest, List.takeWhile_append_dropWhile])
      rw [← runs_seq_empty] at hy
      rw [if_pos hcommand, head?_seq (congrArg List.head? hone) (head?_seq hname hy)]
      simp only [Option.map_some, h1, h2, hdrop, Function.update_self]
      rfl
  · have hcommand : ¬isCommand txt = true := by
      intro h
      cases txt with
      | nil => cases h
      | cons u s => exact hslash (congrArg some (isCommand_cons.mp h).1)
    rw [if_neg hcommand, runs_seq_of_nil (runs_char_exact_of_ne (by rw [hafter]; exact hslash))]
    rfl

/-! ## What becomes of a text -/

theorem handleMessageInput_eq (p : Page) (txt : JsString) : handleMessageInput p txt =
    match commandParts txt with
    | some (name, rest) => handleCommand p name (passedArg rest)
    | none => sendMessage p txt := by
  have h := exec_commandRex txt
  unfold handleMessageInput
  cases hparts : commandParts txt with
  | none =>
    rw [hparts, Option.map_none] at h
    rw [Option.map_eq_none_iff.mp h]
  | some q =>
    rw [hparts, Option.map_some] at h
    obtain ⟨m, hm, heq⟩ := Option.map_eq_some_iff.mp h
    obtain ⟨h1, h2⟩ := Prod.mk.inj heq
    rw [hm]
    simp only [h1, h2]
    rfl

theorem commandParts_some (h : commandParts txt = some (name, rest)) :
    txt = unit '/' :: (name ++ rest) ∧ isCommand txt = true := by
  unfold commandParts at h
  split_ifs at h with hcommand
  obtain ⟨rfl, rfl⟩ := Prod.mk.inj (Option.some.inj h)
  cases txt with
  | nil => cases hcommand
  | cons u s =>
    obtain ⟨rfl, -⟩ := isCommand_cons.mp hcommand
    exact ⟨by rw [List.tail_cons, List.takeWhile_append_dropWhile], hcommand⟩

theorem isWordChar_name (c : Command) : ∀ u ∈ c.name, isWordChar u = true := by
  have hall : c.name.all isWordChar = true := by
    cases c <;> decide
  exact List.all_eq_true.mp hall

theorem name_ne_nil (c : Command) : c.name ≠ [] := by
  cases c <;> decide

/-- The name of a command is read off its text. -/
theorem commandParts_commandText (c : Command) (arg : Option JsString) :
    commandParts (commandText c.name arg) = some (c.name, (arg.map (unit ' ' :: ·)).getD []) := by
  have htake : (c.name ++ (arg.map (unit ' ' :: ·)).getD []).takeWhile isWordChar = c.name := by
    rw [List.takeWhile_append_of_pos (isWordChar_name c)]
    cases arg with
    | none => simp
    | some s => rw [Option.map_some, Option.getD_some, List.takeWhile_cons_of_neg (by decide),
        List.append_nil]
  have hdrop : (c.name ++ (arg.map (unit ' ' :: ·)).getD []).dropWhile isWordChar =
      (arg.map (unit ' ' :: ·)).getD [] := by
    rw [List.dropWhile_append_of_pos (isWordChar_name c)]
    cases arg with
    | none => rfl
    | some s => rw [Option.map_some, Option.getD_some, List.dropWhile_cons_of_neg (by decide)]
  have htext : commandText c.name arg =
      unit '/' :: (c.name ++ (arg.map (unit ' ' :: ·)).getD []) := rfl
  have hcommand : isCommand (commandText c.name arg) = true := by
    rw [htext]
    exact isCommand_cons.mpr ⟨rfl, by rw [htake]; exact name_ne_nil c⟩
  unfold commandParts
  rw [if_pos hcommand, htext, List.tail_cons, htake, hdrop]

theorem commandHandlers_name (c : Command) : commandHandlers c.name = some (.inl c) := by
  cases c <;> decide

theorem name_of_commandHandlers {c : Command} (h : commandHandlers name = some (.inl c)) :
    c.name = name := by
  unfold commandHandlers at h
  split at h
  · rename_i c' hfind
    obtain rfl := Sum.inl.inj (Option.some.inj h)
    exact of_decide_eq_true (List.find?_some (p := fun c : Command => decide (c.name = name)) hfind)
  · obtain ⟨m, -, hm⟩ := Option.map_eq_some_iff.mp h
    cases hm

/-- A name that is none of the six does not stand in the text of a command. -/
theorem no_commandText (hparts : commandParts txt = some (name, rest))
    (h : ∀ c, commandHandlers name ≠ some (.inl c)) (c : Command) (arg : Option JsString) :
    txt ≠ commandText c.name arg := by
  rintro rfl
  rw [commandParts_commandText] at hparts
  obtain ⟨rfl, -⟩ := Prod.mk.inj (Option.some.inj hparts)
  exact h c (commandHandlers_name c)

theorem effect_run (c : Command) (p : Page) (arg : Option JsString) (calls : List (Command × Option JsString))
    (value : JsString) : c.Effect arg p { c.run p arg with calls := calls, value := value } := by
  cases c with
  | nick =>
    match arg with
    | some (u :: name) => rfl
    | some [] => rfl
    | none => rfl
  | help => exact List.append_assoc _ _ _
  | _ => rfl

/-- What is read of a text: the header, and the text if it is well-formed. -/
theorem received_eq (w : Widget) (txt : JsString) : received w txt =
    some (Utf.toWellFormed (nameText w.myname ++ [unit ':']) ++ unit ' ' :: Utf.toWellFormed txt) := by
  have hwire : wireText w txt = (nameText w.myname ++ [unit ':']) ++ unit ' ' :: txt := by
    show nameText w.myname ++ [unit ':', unit ' '] ++ txt = _
    simp
  rw [received, Utf.ofBytes_bytesOf, hwire, Utf.toWellFormed_append_cons (by decide)]

theorem received_iff (w : Widget) (txt : JsString) :
    (∃ header, received w [] = some header ∧ received w txt = some (header ++ txt)) ↔
      Utf.isWellFormed txt = true := by
  simp only [received_eq, Option.some.injEq, exists_eq_left', List.append_assoc, List.cons_append,
    List.append_cancel_left_eq, List.cons.injEq, true_and]
  exact Utf.toWellFormed_eq_self_iff

/-- What follows the name is what is passed, exactly when it is nothing or a whole argument. -/
theorem isWholeArg_iff : isWholeArg rest = true ↔ rest = ((passedArg rest).map (unit ' ' :: ·)).getD [] := by
  cases rest with
  | nil => exact ⟨fun _ => rfl, fun _ => rfl⟩
  | cons u rest =>
    rw [isWholeArg, passedArg, Bool.and_eq_true, decide_eq_true_eq]
    by_cases hu : u = unit ' '
    · subst hu
      rw [if_pos rfl, Option.map_some, Option.getD_some, List.cons.injEq, List.all_eq_true,
        ← List.takeWhile_eq_self_iff]
      exact and_congr_right fun _ => eq_comm
    · rw [if_neg hu]
      exact ⟨fun h => absurd h.1 hu, fun h => (nomatch h)⟩

/-- A command that is not one of the six and is reported. -/
theorem handled_of_error {e : Thrown} (hparts : commandParts p.value = some (name, rest))
    (h : ∀ c, commandHandlers name ≠ some (.inl c)) (herror : handleMessageInput p p.value = .error e) :
    Handled p (submit p) := by
  unfold submit
  rw [herror]
  exact .reported e (commandParts_some hparts).2
    (fun c arg htxt => no_commandText hparts h c arg htxt) rfl

/-- Nothing has happened. -/
theorem not_handled {p' : Page} (hcalls : p'.calls = p.calls) (hsent : p'.sent = p.sent)
    (herrors : p'.errors = p.errors ∨ isCommand p.value = false) : ¬Handled p p' := by
  have hne : ∀ {α : Type} (l : List α) (a : α), l ≠ l ++ [a] := fun l a h =>
    List.cons_ne_nil a [] (List.self_eq_append_right.mp h)
  intro h
  cases h with
  | executed c arg htxt hpage => exact hne _ _ (hcalls.symm.trans (congrArg Page.calls hpage))
  | reported e hcommand hother hpage =>
    rcases herrors with herrors | hcommand'
    · exact hne _ _ (herrors.symm.trans (congrArg Page.errors hpage))
    · rw [hcommand] at hcommand'
      cases hcommand'
  | sent hpage => exact hne _ _ (hsent.symm.trans (congrArg Page.sent hpage))

/-- One of the six runs with what is passed to it. -/
theorem submit_own {c : Command} (hparts : commandParts p.value = some (name, rest))
    (hhandler : commandHandlers name = some (.inl c)) :
    submit p = { c.run p (passedArg rest) with calls := p.calls ++ [(c, passedArg rest)], value := [] } := by
  have hinput := handleMessageInput_eq p p.value
  rw [hparts] at hinput
  simp only at hinput
  unfold handleCommand at hinput
  rw [hhandler] at hinput
  unfold submit
  rw [hinput]

/-- **`/quit` and `/exit`** start the countdown of their argument. -/
theorem submit_quit {c : Command} (hc : c = .quit ∨ c = .exit)
    (hvalue : p.value = commandText c.name arg) (harg : ∀ s ∈ arg, ∀ u ∈ s, isLineTerminator u = false) :
    (submit p).countdowns = p.countdowns ++ [quitDelay arg] := by
  have hparts : commandParts p.value = some (c.name, (arg.map (unit ' ' :: ·)).getD []) := by
    rw [hvalue]
    exact commandParts_commandText c arg
  have hpassed : passedArg ((arg.map (unit ' ' :: ·)).getD []) = arg := by
    cases arg with
    | none => rfl
    | some s =>
      rw [Option.map_some, Option.getD_some, passedArg, if_pos rfl,
        List.takeWhile_eq_self_iff.mpr fun u hu => by rw [harg s rfl u hu]; rfl]
  rw [submit_own hparts (commandHandlers_name c), hpassed]
  rcases hc with rfl | rfl
  · rfl
  · rfl

theorem handled_of_own {c : Command} (hparts : commandParts p.value = some (name, rest))
    (hhandler : commandHandlers name = some (.inl c)) :
    Handled p (submit p) ↔ isWholeArg rest = true := by
  have hname := name_of_commandHandlers hhandler
  obtain ⟨htxt, -⟩ := commandParts_some hparts
  rw [isWholeArg_iff, submit_own hparts hhandler]
  constructor
  · intro h
    cases h with
    | executed c' arg htxt' hpage =>
      obtain ⟨-, hcall⟩ := List.append_inj' (congrArg Page.calls hpage) rfl
      obtain ⟨rfl, rfl⟩ := Prod.mk.inj (List.cons.inj hcall).1
      rw [htxt, ← hname] at htxt'
      exact List.append_cancel_left (List.cons.inj htxt').2
    | reported e hcommand hother hpage =>
      exact absurd (List.append_right_eq_self.mp (congrArg Page.calls hpage)) (List.cons_ne_nil _ _)
    | sent hpage =>
      exact absurd (List.append_right_eq_self.mp (congrArg Page.calls hpage)) (List.cons_ne_nil _ _)
  · intro hwhole
    refine .executed c (passedArg rest) ?_ rfl (effect_run c p _ _ _)
    rw [htxt, ← hname]
    conv_lhs => rw [hwhole]
    rfl

/-- A function of `Object.prototype` runs, or throws. -/
theorem handled_of_inherited {m : Inherited} (hparts : commandParts p.value = some (name, rest))
    (hhandler : commandHandlers name = some (.inr m)) :
    Handled p (submit p) ↔ m.returns = false := by
  have hinput := handleMessageInput_eq p p.value
  rw [hparts] at hinput
  simp only at hinput
  unfold handleCommand at hinput
  rw [hhandler] at hinput
  cases hreturns : m.returns with
  | true =>
    simp only [hreturns, if_true] at hinput
    unfold submit
    rw [hinput]
    exact iff_of_false (not_handled rfl rfl (.inl rfl)) (fun h => nomatch h)
  | false =>
    simp only [hreturns, Bool.false_eq_true, if_false] at hinput
    refine iff_of_true (handled_of_error hparts (fun c h => ?_) hinput) rfl
    rw [hhandler] at h
    cases h

/-- A text that is no command is sent, if the socket is open. -/
theorem handled_of_text (hparts : commandParts p.value = none) :
    Handled p (submit p) ↔ p.socket = .opened ∧ Utf.isWellFormed p.value = true := by
  have hinput := handleMessageInput_eq p p.value
  rw [hparts] at hinput
  simp only at hinput
  have hcommand : isCommand p.value = false := by
    unfold commandParts at hparts
    split_ifs at hparts with h
    exact Bool.eq_false_iff.mpr h
  unfold sendMessage at hinput
  unfold submit
  rw [hinput]
  cases hsocket : p.socket with
  | opened =>
    rw [← received_iff p.widget]
    constructor
    · intro h
      cases h with
      | executed c arg htxt hpage =>
        exact absurd (List.self_eq_append_right.mp (congrArg Page.calls hpage)) (List.cons_ne_nil _ _)
      | reported e hcommand' =>
        rw [hcommand] at hcommand'
        cases hcommand'
      | sent hpage hreceived => exact ⟨rfl, hreceived⟩
    · exact fun h => .sent (by simp only [hsocket]) h.2
  | unset => exact iff_of_false (not_handled rfl rfl (.inr hcommand)) (fun h => nomatch h.1)
  | connecting => exact iff_of_false (not_handled rfl rfl (.inr hcommand)) (fun h => nomatch h.1)
  | closing => exact iff_of_false (not_handled rfl rfl (.inl rfl)) (fun h => nomatch h.1)
  | closed => exact iff_of_false (not_handled rfl rfl (.inl rfl)) (fun h => nomatch h.1)

/-- **What is submitted** is executed, reported or sent exactly as `WellHandled` says. -/
theorem handled_iff (p : Page) : Handled p (submit p) ↔ WellHandled p := by
  unfold WellHandled
  cases hparts : commandParts p.value with
  | none => exact handled_of_text hparts
  | some q =>
    obtain ⟨name, rest⟩ := q
    simp only
    cases hhandler : commandHandlers name with
    | some v =>
      cases v with
      | inl c => exact handled_of_own hparts hhandler
      | inr m => exact handled_of_inherited hparts hhandler
    | none =>
      have hinput := handleMessageInput_eq p p.value
      rw [hparts] at hinput
      simp only at hinput
      unfold handleCommand at hinput
      rw [hhandler] at hinput
      refine iff_of_true (handled_of_error hparts (fun c h => ?_) hinput) trivial
      rw [hhandler] at h
      cases h

/-- **A handler runs for what is not its command**: `/quit!` quits, and `/toString` is swallowed. -/
theorem command_with_suffix :
    (¬Handled (.init .opened (['/', 'q', 'u', 'i', 't', '!'].map unit))
        (submit (.init .opened (['/', 'q', 'u', 'i', 't', '!'].map unit))) ∧
      (submit (.init .opened (['/', 'q', 'u', 'i', 't', '!'].map unit))).calls = [(.quit, none)]) ∧
    ¬Handled (.init .opened (['/', 't', 'o', 'S', 't', 'r', 'i', 'n', 'g'].map unit))
        (submit (.init .opened (['/', 't', 'o', 'S', 't', 'r', 'i', 'n', 'g'].map unit))) ∧
      submit (.init .opened (['/', 't', 'o', 'S', 't', 'r', 'i', 'n', 'g'].map unit)) =
        .init .opened [] := by
  have hquit : ¬Handled (.init .opened (['/', 'q', 'u', 'i', 't', '!'].map unit))
      (submit (.init .opened (['/', 'q', 'u', 'i', 't', '!'].map unit))) := by
    have hparts : commandParts (['/', 'q', 'u', 'i', 't', '!'].map unit) =
        some (['q', 'u', 'i', 't'].map unit, [unit '!']) := by decide
    rw [handled_of_own hparts (c := .quit) (by decide)]
    decide
  have hswallowed : ¬Handled (.init .opened (['/', 't', 'o', 'S', 't', 'r', 'i', 'n', 'g'].map unit))
      (submit (.init .opened (['/', 't', 'o', 'S', 't', 'r', 'i', 'n', 'g'].map unit))) := by
    have hparts : commandParts (['/', 't', 'o', 'S', 't', 'r', 'i', 'n', 'g'].map unit) =
        some (['t', 'o', 'S', 't', 'r', 'i', 'n', 'g'].map unit, []) := by decide
    rw [handled_of_inherited hparts (m := .toString) (by decide)]
    decide
  exact ⟨⟨hquit, rfl⟩, hswallowed, rfl⟩

end WebsocketHub
