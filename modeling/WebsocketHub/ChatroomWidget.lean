import WebsocketHub.Machine
import WebsocketHub.RegExpMatch
import Mathlib.Data.Int.Notation
import Mathlib.Data.List.Forall2

/-!
# WebsocketHub.ChatroomWidget — `static/chatroomwidget.js`: incoming messages, mentions, the wire format

The widget shows a message that has come from the hub and highlights it when it mentions the user's
nickname, which it looks for with a regular expression made of the nickname as it is.  Where that is a
plain pattern the expression matches exactly the mentions; where it is none `new RegExp` throws before
the message is shown, and where its characters have a meaning of their own it matches something else.

What is sent is the nickname, a colon and the text, and what comes in is cut at its first colon; this is
undone exactly for the nicknames without a colon, and a text without a colon is not cut at all
(`wire_round_trip`).

Only the state that decides this is here: the nickname and what is in the list of messages.
`widgetRun` is the widget with its events, the name form, the command `/nick` and a message; it keeps a
log of the messages that have come, with the nickname of that time.
-/

namespace WebsocketHub

open RegExp

section Defs

/-- An element of the list of messages. -/
inductive Entry
  /-- `nameEl.textContent`, `contentEl.textContent` before `urlify`, and whether the class `highlight` is
  set -/
  | message (name content : JsString) (highlight : Bool)
  | info (text : JsString)
deriving DecidableEq, Repr

inductive JsError
  | syntaxError
deriving DecidableEq, Repr

structure Widget where
  /-- `none` is `undefined` -/
  myname : Option JsString
  messages : List Entry
deriving DecidableEq, Repr

namespace Widget

def init : Widget where
  myname := none
  messages := []

end Widget

/-- `'' + myname` -/
def nameText (myname : Option JsString) : JsString :=
  myname.getD ("undefined".toList.map unit)

/-- `s.indexOf(c)` -/
def indexOf (s : JsString) (c : CodeUnit) : ℤ :=
  match s.findIdx? (· = c) with
  | some i => i
  | none => -1

/-- A position of `s.slice`: a negative one counts from the end. -/
def slicePosition (s : JsString) (i : ℤ) : ℕ :=
  if i < 0 then (s.length + i).toNat else min i.toNat s.length

/-- `s.slice(start, stop)` -/
def slice (s : JsString) (start stop : ℤ) : JsString :=
  (s.take (slicePosition s stop)).drop (slicePosition s start)

/-- `txt.slice(0, i)` -/
def senderName (txt : JsString) : JsString := slice txt 0 (indexOf txt (unit ':'))

/-- `txt.slice(i + 1)` -/
def messageText (txt : JsString) : JsString := slice txt (indexOf txt (unit ':') + 1) txt.length

def setName (w : Widget) (name : JsString) : Widget := { w with myname := some name }

/-- `myname + ': ' + msg`, which `sendMessage` gives to the socket -/
def wireText (w : Widget) (msg : JsString) : JsString :=
  nameText w.myname ++ [unit ':', unit ' '] ++ msg

/-- `commandHandlers.nick` -/
def nick (w : Widget) (newname : Option JsString) : Widget :=
  match newname with
  | some (u :: name) => setName w (u :: name)
  | _ => { w with
      messages := w.messages ++ [.info ("Your nickname: ".toList.map unit ++ nameText w.myname)] }

/-- `new RegExp(pattern, 'i')` -/
def newRegExp (pattern : JsString) : Except JsError Node :=
  match parse pattern with
  | some re => .ok re
  | none => .error .syntaxError

def handleIncomingMessage (toUpperCase : CodeUnit → JsString) (w : Widget) (txt : JsString) :
    Except JsError Widget :=
  let name := senderName txt
  let message := messageText txt
  let highlight : Except JsError Bool :=
    if some name ≠ w.myname then
      (newRegExp ([unit '\\', unit 'b'] ++ nameText w.myname ++ [unit '\\', unit 'b'])).map fun re =>
        test toUpperCase re message
    else .ok false
  highlight.map fun highlight =>
    { w with messages := w.messages ++ [.message (name ++ [unit ':']) message highlight] }

inductive WidgetAction
  /-- the name form -/
  | submit (name : JsString)
  | nick (newname : Option JsString)
  /-- `ws.onmessage` -/
  | message (txt : JsString)
deriving DecidableEq, Repr

/-- The widget outlives an exception, which leaves it as it was. -/
def widgetNext (toUpperCase : CodeUnit → JsString) (w : Widget) : WidgetAction → Option Widget
  | .submit name => some (setName w name)
  | .nick newname => some (nick w newname)
  | .message txt =>
    match handleIncomingMessage toUpperCase w txt with
    | .ok w' => some w'
    | .error _ => some w

/-- The log of the messages. -/
def recordMessage (w : Widget) (a : WidgetAction) (log : List (Option JsString × JsString)) :
    List (Option JsString × JsString) :=
  match a with
  | .message txt => log ++ [(w.myname, txt)]
  | _ => log

def widgetRun (toUpperCase : CodeUnit → JsString) :
    Machine (Widget × List (Option JsString × JsString)) WidgetAction :=
  (Machine.mk Widget.init (widgetNext toUpperCase)).logged recordMessage []

/-- A nickname that is set is a plain pattern. -/
def setsPlainName : WidgetAction → Bool
  | .submit name => plain name
  | .nick newname => newname.all plain
  | .message _ => true

def Entry.isMessage : Entry → Bool
  | .message .. => true
  | .info _ => false

/-- The message is shown, and highlighted if it comes from somebody else and mentions the nickname. -/
def ShownAs (toUpperCase : CodeUnit → JsString) (m : Option JsString × JsString) (e : Entry) : Prop :=
  ∃ highlight, e = .message (senderName m.2 ++ [unit ':']) (messageText m.2) highlight ∧
    (some (senderName m.2) ≠ m.1 →
      (highlight = true ↔ ContainsWord toUpperCase (nameText m.1) (messageText m.2)))

/-- `toUpperCase` of the letters of ASCII. -/
def asciiUpperCase (u : CodeUnit) : JsString := [if inRange 'a' 'z' u then u - 32 else u]

end Defs

variable {toUpperCase : CodeUnit → JsString} {w : Widget} {name txt : JsString}

/-- What becomes of a message from somebody else. -/
theorem handleIncomingMessage_of_ne (hne : some (senderName txt) ≠ w.myname) :
    handleIncomingMessage toUpperCase w txt = (newRegExp (word (nameText w.myname))).map fun re =>
      { w with
        messages := w.messages ++
          [.message (senderName txt ++ [unit ':']) (messageText txt)
            (test toUpperCase re (messageText txt))] } := by
  unfold handleIncomingMessage
  simp only [if_pos hne]
  show Except.map _ (Except.map _ (newRegExp (word (nameText w.myname)))) = _
  cases newRegExp (word (nameText w.myname)) with
  | error e => rfl
  | ok re => rfl

/-- A message is lost exactly when it comes from somebody else and the nickname makes no regular
expression. -/
theorem raises_iff : handleIncomingMessage toUpperCase w txt = .error .syntaxError ↔
    some (senderName txt) ≠ w.myname ∧ parse (word (nameText w.myname)) = none := by
  by_cases hne : some (senderName txt) ≠ w.myname
  · rw [handleIncomingMessage_of_ne hne, newRegExp, and_iff_right hne]
    cases parse (word (nameText w.myname)) with
    | none => exact ⟨fun _ => rfl, fun _ => rfl⟩
    | some re => exact ⟨fun h => (nomatch h), fun h => (nomatch h)⟩
  · unfold handleIncomingMessage
    simp only [if_neg hne]
    exact ⟨fun h => (nomatch h), fun h => absurd h.1 hne⟩

/-- The expression that is made of a nickname is the one that stands for its characters exactly when the
nickname is plain. -/
theorem newRegExp_literal_iff : newRegExp (word name) = .ok (wordNode name) ↔ plain name = true := by
  rw [← parse_word_iff, newRegExp]
  cases parse (word name) with
  | none => exact ⟨fun h => (nomatch h), fun h => (nomatch h)⟩
  | some re => rw [Except.ok.injEq, Option.some.injEq]

/-- **Step lemma**: with a plain nickname a message is shown as it should be. -/
theorem shown_of_plain (toUpperCase : CodeUnit → JsString) (txt : JsString)
    (hplain : plain (nameText w.myname) = true) :
    ∃ e, handleIncomingMessage toUpperCase w txt = .ok { w with messages := w.messages ++ [e] } ∧
      ShownAs toUpperCase (w.myname, txt) e := by
  by_cases hne : some (senderName txt) ≠ w.myname
  · refine ⟨_, ?_, _, rfl, fun _ => test_wordNode⟩
    rw [handleIncomingMessage_of_ne hne, newRegExp, parse_word hplain]
    rfl
  · refine ⟨_, ?_, false, rfl, fun h => absurd h hne⟩
    unfold handleIncomingMessage
    simp only [if_neg hne]
    rfl

/-- **Every message is shown**, in any run whose nicknames are plain. -/
theorem all_shown {log : List (Option JsString × JsString)}
    (h : (widgetRun toUpperCase).Reaches (fun _ a => setsPlainName a = true) (w, log)) :
    List.Forall₂ (ShownAs toUpperCase) log (w.messages.filter Entry.isMessage) := by
  suffices hI : plain (nameText w.myname) = true ∧
      List.Forall₂ (ShownAs toUpperCase) log (w.messages.filter Entry.isMessage) from hI.2
  have hundefined : plain (nameText none) = true := by decide
  refine h.invariant (I := fun s => plain (nameText s.1.myname) = true ∧
    List.Forall₂ (ShownAs toUpperCase) s.2 (s.1.messages.filter Entry.isMessage))
    ⟨hundefined, .nil⟩ ?_
  rintro ⟨w, log⟩ a ⟨w', log'⟩ ⟨hplain, hshown⟩ hok hn
  obtain ⟨hnext, hlog⟩ := Machine.logged_cases hn
  have hnext' : widgetNext toUpperCase w a = some w' := hnext
  have hlog' : log' = recordMessage w a log := hlog
  subst hlog'
  cases a with
  | submit name =>
    obtain rfl := Option.some.inj hnext'
    exact ⟨hok, hshown⟩
  | nick newname =>
    obtain rfl := Option.some.inj hnext'
    unfold nick
    split
    · exact ⟨hok, hshown⟩
    · -- the nickname is only shown
      refine ⟨hplain, ?_⟩
      show List.Forall₂ _ log _
      rw [List.filter_append, List.filter_cons_of_neg (by simp [Entry.isMessage]), List.filter_nil,
        List.append_nil]
      exact hshown
  | message txt =>
    obtain ⟨e, hw, he⟩ := shown_of_plain toUpperCase txt hplain
    have hmessage : e.isMessage = true := by
      obtain ⟨highlight, rfl, -⟩ := he
      rfl
    rw [widgetNext, hw] at hnext'
    obtain rfl := Option.some.inj hnext'
    refine ⟨hplain, ?_⟩
    rw [List.filter_append, List.filter_cons_of_pos hmessage]
    exact List.rel_append hshown (.cons he .nil)

/-- **Mentions are highlighted**: with a nickname none of whose characters has a meaning in a pattern. -/
theorem highlighted_iff_mentioned (hplain : plain name = true) (hname : senderName txt ≠ name) :
    ∃ highlight, handleIncomingMessage toUpperCase (setName w name) txt =
        .ok { setName w name with
          messages := w.messages ++
            [.message (senderName txt ++ [unit ':']) (messageText txt) highlight] } ∧
      (highlight = true ↔ ContainsWord toUpperCase name (messageText txt)) := by
  obtain ⟨e, hw, highlight, rfl, hiff⟩ :=
    shown_of_plain (w := setName w name) toUpperCase txt hplain
  exact ⟨highlight, hw, hiff fun h => hname (Option.some.inj h)⟩

/-- The message `bob: hi ANN` to `ann`. -/
theorem highlighted_iff_mentioned_of_ann :
    plain (['a', 'n', 'n'].map unit) = true ∧
    ∃ highlight, handleIncomingMessage asciiUpperCase (setName .init (['a', 'n', 'n'].map unit))
        (['b', 'o', 'b', ':', ' ', 'h', 'i', ' ', 'A', 'N', 'N'].map unit) =
        .ok { setName .init (['a', 'n', 'n'].map unit) with
          messages := [.message (['b', 'o', 'b', ':'].map unit)
            ([' ', 'h', 'i', ' ', 'A', 'N', 'N'].map unit) highlight] } ∧
      (highlight = true ↔ ContainsWord asciiUpperCase (['a', 'n', 'n'].map unit)
        ([' ', 'h', 'i', ' ', 'A', 'N', 'N'].map unit)) :=
  have hplain : plain (['a', 'n', 'n'].map unit) = true := by decide
  ⟨hplain, highlighted_iff_mentioned hplain (by decide)⟩

/-- **A nickname is no pattern**: `(` loses every message, and `a.c` is found in `abc`. -/
theorem nickname_as_pattern :
    (senderName (['b', 'o', 'b', ':', 'a', 'b', 'c'].map unit) ≠ ['('].map unit ∧
      handleIncomingMessage asciiUpperCase (setName .init (['('].map unit))
        (['b', 'o', 'b', ':', 'a', 'b', 'c'].map unit) = .error .syntaxError) ∧
    senderName (['b', 'o', 'b', ':', 'a', 'b', 'c'].map unit) ≠ ['a', '.', 'c'].map unit ∧
      handleIncomingMessage asciiUpperCase (setName .init (['a', '.', 'c'].map unit))
          (['b', 'o', 'b', ':', 'a', 'b', 'c'].map unit) =
        .ok { setName .init (['a', '.', 'c'].map unit) with
          messages := [.message (['b', 'o', 'b', ':'].map unit) (['a', 'b', 'c'].map unit) true] } ∧
      ¬ContainsWord asciiUpperCase (['a', '.', 'c'].map unit) (['a', 'b', 'c'].map unit) := by
  refine ⟨⟨by decide, rfl⟩, by decide, by decide, ?_⟩
  rintro ⟨pre, mid, post, hs, htext, -, -⟩
  -- no character of `abc` is a dot
  have hdot : unit '.' ∈ mid.map (canonicalize asciiUpperCase) := by
    rw [of_decide_eq_true htext]
    decide
  obtain ⟨v, hv, heq⟩ := List.mem_map.mp hdot
  have hmem : v ∈ ['a', 'b', 'c'].map unit := by
    rw [hs]
    exact List.mem_append_left _ (List.mem_append_right _ hv)
  have hnone : (['a', 'b', 'c'].map unit).all
      (fun v => canonicalize asciiUpperCase v != unit '.') = true := by decide
  have hne := List.all_eq_true.mp hnone v hmem
  rw [heq] at hne
  cases hne

/-! ## The wire format -/

variable {w' : Widget} {a r msg : JsString}

theorem slicePosition_natCast (s : JsString) (i : ℕ) : slicePosition s i = min i s.length :=
  if_neg (Int.not_lt.mpr (Int.natCast_nonneg i))

theorem findIdx?_of_not_mem {c : CodeUnit} (h : c ∉ a) : a.findIdx? (· = c) = none :=
  List.findIdx?_eq_none_iff.mpr fun _ hu => decide_eq_false fun heq => h (heq ▸ hu)

theorem indexOf_append {c : CodeUnit} (h : c ∉ a) : indexOf (a ++ c :: r) c = a.length := by
  unfold indexOf
  rw [List.findIdx?_append, findIdx?_of_not_mem h, List.findIdx?_cons, decide_eq_true rfl]
  simp

theorem indexOf_of_not_mem {c : CodeUnit} (h : c ∉ a) : indexOf a c = -1 := by
  unfold indexOf
  rw [findIdx?_of_not_mem h]

/-- A text is cut at its first colon. -/
theorem senderName_append (h : unit ':' ∉ a) : senderName (a ++ unit ':' :: r) = a := by
  unfold senderName slice
  rw [indexOf_append h, slicePosition_natCast, List.length_append,
    Nat.min_eq_left (Nat.le_add_right _ _), List.take_left]
  show a.drop (slicePosition _ ((0 : ℕ) : ℤ)) = a
  rw [slicePosition_natCast, Nat.zero_min, List.drop_zero]

theorem messageText_append (h : unit ':' ∉ a) : messageText (a ++ unit ':' :: r) = r := by
  have hsplit : a ++ unit ':' :: r = (a ++ [unit ':']) ++ r := by simp
  unfold messageText slice
  rw [indexOf_append h, slicePosition_natCast, Nat.min_self, List.take_length]
  show (a ++ unit ':' :: r).drop (slicePosition _ ((a.length + 1 : ℕ) : ℤ)) = r
  rw [slicePosition_natCast, hsplit, List.length_append, List.length_append, List.length_singleton,
    Nat.min_eq_left (Nat.le_add_right _ _), ← List.length_singleton (a := unit ':'),
    ← List.length_append, List.drop_left]

theorem messageText_of_not_mem (h : unit ':' ∉ txt) : messageText txt = txt := by
  unfold messageText slice
  rw [indexOf_of_not_mem h, slicePosition_natCast, Nat.min_self, List.take_length]
  show txt.drop (slicePosition txt ((0 : ℕ) : ℤ)) = txt
  rw [slicePosition_natCast, Nat.zero_min, List.drop_zero]

/-- What is shown of a message. -/
theorem shown_of_ok (h : handleIncomingMessage toUpperCase w txt = .ok w') :
    ∃ highlight, w'.messages =
      w.messages ++ [.message (senderName txt ++ [unit ':']) (messageText txt) highlight] := by
  by_cases hne : some (senderName txt) ≠ w.myname
  · rw [handleIncomingMessage_of_ne hne] at h
    cases hre : newRegExp (word (nameText w.myname)) with
    | error e =>
      rw [hre] at h
      cases h
    | ok re =>
      rw [hre] at h
      obtain rfl := Except.ok.inj h
      exact ⟨_, rfl⟩
  · unfold handleIncomingMessage at h
    simp only [if_neg hne] at h
    obtain rfl := Except.ok.inj h
    exact ⟨false, rfl⟩

/-- What is shown is the text that has come, exactly when there is a colon in it. -/
theorem shown_eq_iff : senderName txt ++ [unit ':'] ++ messageText txt = txt ↔ unit ':' ∈ txt := by
  by_cases h : unit ':' ∈ txt
  · obtain ⟨a, r, rfl, ha⟩ := List.eq_append_cons_of_mem h
    rw [senderName_append ha, messageText_append ha]
    simp
  · refine iff_of_false (fun heq => ?_) h
    have hlength := congrArg List.length heq
    rw [messageText_of_not_mem h, List.length_append, List.length_append,
      List.length_singleton] at hlength
    omega

theorem split_wireText_iff : senderName (wireText (setName w name) msg) = name ∧
    messageText (wireText (setName w name) msg) = unit ' ' :: msg ↔ unit ':' ∉ name := by
  have hwire : wireText (setName w name) msg = name ++ unit ':' :: unit ' ' :: msg := by
    show name ++ [unit ':', unit ' '] ++ msg = _
    simp
  rw [hwire]
  constructor
  · rintro ⟨hname, -⟩ hmem
    obtain ⟨a, r, rfl, ha⟩ := List.eq_append_cons_of_mem hmem
    rw [List.append_assoc, List.cons_append, senderName_append ha] at hname
    exact absurd (List.self_eq_append_right.mp hname) (List.cons_ne_nil _ _)
  · intro h
    exact ⟨senderName_append h, messageText_append h⟩

/-- **The wire format** is undone exactly for the nicknames without a colon; and of what comes in, exactly
the texts with a colon are shown as they are. -/
theorem wire_round_trip (toUpperCase : CodeUnit → JsString) (w w' : Widget) (name msg txt : JsString) :
    (senderName (wireText (setName w name) msg) = name ∧
        messageText (wireText (setName w name) msg) = unit ' ' :: msg ↔ unit ':' ∉ name) ∧
    (handleIncomingMessage toUpperCase w txt = .ok w' →
      ∃ shownName content highlight,
        w'.messages = w.messages ++ [.message shownName content highlight] ∧
        (shownName ++ content = txt ↔ unit ':' ∈ txt)) := by
  refine ⟨split_wireText_iff, fun h => ?_⟩
  obtain ⟨highlight, hmessages⟩ := shown_of_ok h
  exact ⟨_, _, highlight, hmessages, shown_eq_iff⟩

/-- `bob: hi` comes in. -/
theorem wire_round_trip_of_bob :
    unit ':' ∉ ['b', 'o', 'b'].map unit ∧
    ∃ shownName content highlight,
      [Entry.message (['b', 'o', 'b', ':'].map unit) ([' ', 'h', 'i'].map unit) false] =
        [] ++ [.message shownName content highlight] ∧
      (shownName ++ content = ['b', 'o', 'b', ':', ' ', 'h', 'i'].map unit ↔
        unit ':' ∈ ['b', 'o', 'b', ':', ' ', 'h', 'i'].map unit) :=
  have h := wire_round_trip asciiUpperCase (setName .init (['b', 'o', 'b'].map unit))
    { setName .init (['b', 'o', 'b'].map unit) with
      messages := [.message (['b', 'o', 'b', ':'].map unit) ([' ', 'h', 'i'].map unit) false] }
    (['b', 'o', 'b'].map unit) ([' ', 'h', 'i'].map unit)
    (['b', 'o', 'b', ':', ' ', 'h', 'i'].map unit)
  ⟨by decide, h.2 rfl⟩

/-- **A colon is no separator**: the nickname `a:b` comes back as `a`, and the stress tester's `Test` is
shown as `Tes:Test`. -/
theorem nickname_with_colon :
    senderName (wireText (setName .init (['a', ':', 'b'].map unit)) (['h', 'i'].map unit)) =
      ['a'].map unit ∧
    handleIncomingMessage asciiUpperCase .init (['T', 'e', 's', 't'].map unit) =
      .ok { Widget.init with
        messages := [.message (['T', 'e', 's', ':'].map unit) (['T', 'e', 's', 't'].map unit) false] } :=
  ⟨rfl, rfl⟩

end WebsocketHub
