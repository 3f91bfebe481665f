import WebsocketHub.RegExpSyntax

/-!
# WebsocketHub.HtmlTokens — the text of a node written as HTML, and HTML read as tokens

`escape` is how a text node is serialised.  `tokenize` is the tokenizer of the HTML standard on characters
and tags: a character of the text is a token of its own, character references are left for later, and the
values of attributes are kept as they are written.

* Comments, declarations and processing instructions are not read, `none`.
* A state keeps the tag, and the name and the value of its attribute, as far as they have been read.
-/

namespace WebsocketHub.Html

open RegExp

section Defs

/-! ## Serialisation -/

/-- The character reference that stands for a character of a text node. -/
def escapeName (u : CodeUnit) : Option JsString :=
  if u = unit '&' then some ("amp".toList.map unit)
  else if u = 0xA0 then some ("nbsp".toList.map unit)
  else if u = unit '<' then some ("lt".toList.map unit)
  else if u = unit '>' then some ("gt".toList.map unit)
  else none

/-- The characters with a reference, and their names. -/
def references : List (CodeUnit × JsString) :=
  [(unit '&', "amp".toList.map unit), (0xA0, "nbsp".toList.map unit), (unit '<', "lt".toList.map unit),
    (unit '>', "gt".toList.map unit)]

def escapeChar (u : CodeUnit) : JsString :=
  match escapeName u with
  | some name => unit '&' :: (name ++ [unit ';'])
  | none => [u]

/-- The characters of references. -/
def isReferenceChar (u : CodeUnit) : Bool := u = unit '&' || isLetter u || u = unit ';'

/-- `innerHTML` of an element, after `textContent` has been set to `s`. -/
def escape (s : JsString) : JsString := s.flatMap escapeChar

/-! ## Tokens -/

structure Tag where
  /-- an end tag -/
  closing : Bool
  name : JsString
  attributes : List (JsString × JsString)
  selfClosing : Bool
deriving DecidableEq, Repr

inductive Token
  | char (u : CodeUnit)
  | tag (t : Tag)
deriving DecidableEq, Repr

def Token.chars : Token → JsString
  | .char u => [u]
  | .tag _ => []

def Token.tags : Token → List Tag
  | .char _ => []
  | .tag t => [t]

def charsOf (T : List Token) : JsString := T.flatMap Token.chars

def tagsOf (T : List Token) : List Tag := T.flatMap Token.tags

/-- A tag without attributes. -/
def Tag.named (closing : Bool) (name : JsString) : Tag := ⟨closing, name, [], false⟩

/-- Of two attributes of one name the first one counts. -/
def Tag.add (t : Tag) (name value : JsString) : Tag :=
  if t.attributes.any (·.1 = name) then t else { t with attributes := t.attributes ++ [(name, value)] }

/-! ## The tokenizer -/

inductive State
  | data
  | tagOpen
  | endTagOpen
  | tagName (t : Tag)
  | beforeAttributeName (t : Tag)
  | attributeName (t : Tag) (name : JsString)
  | afterAttributeName (t : Tag) (name : JsString)
  | beforeAttributeValue (t : Tag) (name : JsString)
  | quotedValue (quote : CodeUnit) (t : Tag) (name value : JsString)
  | unquotedValue (t : Tag) (name value : JsString)
  | selfClosing (t : Tag)
deriving DecidableEq, Repr

def isSpace (u : CodeUnit) : Bool := u = 9 || u = 10 || u = 12 || u = 32

/-- NUL is replaced inside of tags. -/
def inTag (u : CodeUnit) : CodeUnit := if u = 0 then 0xFFFD else u

/-- Names of tags and attributes are in lower case. -/
def inName (u : CodeUnit) : CodeUnit := if inRange 'A' 'Z' u then u + 32 else inTag u

def dataStep (u : CodeUnit) : List Token × State :=
  if u = unit '<' then ([], .tagOpen) else ([.char u], .data)

/-- After a quoted value a space may be missing, so that the next attribute begins in the same way. -/
def attributesStep (t : Tag) (u : CodeUnit) : List Token × State :=
  if isSpace u then ([], .beforeAttributeName t)
  else if u = unit '/' then ([], .selfClosing t)
  else if u = unit '>' then ([.tag t], .data)
  else ([], .attributeName t [inName u])

def step : State → CodeUnit → Option (List Token × State)
  | .data, u => some (dataStep u)
  | .tagOpen, u =>
    if u = unit '/' then some ([], .endTagOpen)
    else if isLetter u then some ([], .tagName (.named false [inName u]))
    else if u = unit '!' || u = unit '?' then none
    else some (.char (unit '<') :: (dataStep u).1, (dataStep u).2)
  | .endTagOpen, u =>
    if isLetter u then some ([], .tagName (.named true [inName u]))
    else if u = unit '>' then some ([], .data)
    else none
  | .tagName t, u =>
    if isSpace u then some ([], .beforeAttributeName t)
    else if u = unit '/' then some ([], .selfClosing t)
    else if u = unit '>' then some ([.tag t], .data)
    else some ([], .tagName { t with name := t.name ++ [inName u] })
  | .beforeAttributeName t, u => some (attributesStep t u)
  | .attributeName t name, u =>
    if isSpace u then some ([], .afterAttributeName t name)
    else if u = unit '/' then some ([], .selfClosing (t.add name []))
    else if u = unit '>' then some ([.tag (t.add name [])], .data)
    else if u = unit '=' then some ([], .beforeAttributeValue t name)
    else some ([], .attributeName t (name ++ [inName u]))
  | .afterAttributeName t name, u =>
    if isSpace u then some ([], .afterAttributeName t name)
    else if u = unit '/' then some ([], .selfClosing (t.add name []))
    else if u = unit '>' then some ([.tag (t.add name [])], .data)
    else if u = unit '=' then some ([], .beforeAttributeValue t name)
    else some ([], .attributeName (t.add name []) [inName u])
  | .beforeAttributeValue t name, u =>
    if isSpace u then some ([], .beforeAttributeValue t name)
    else if u = unit '"' || u = 39 then some ([], .quotedValue u t name [])
    else if u = unit '>' then some ([.tag (t.add name [])], .data)
    else some ([], .unquotedValue t name [inTag u])
  | .quotedValue quote t name value, u =>
    if u = quote then some ([], .beforeAttributeName (t.add name value))
    else some ([], .quotedValue quote t name (value ++ [inTag u]))
  | .unquotedValue t name value, u =>
    if isSpace u then some ([], .beforeAttributeName (t.add name value))
    else if u = unit '>' then some ([.tag (t.add name value)], .data)
    else some ([], .unquotedValue t name (value ++ [inTag u]))
  | .selfClosing t, u =>
    if u = unit '>' then some ([.tag { t with selfClosing := true }], .data)
    else some (attributesStep t u)

def run : State → JsString → Option (List Token × State)
  | q, [] => some ([], q)
  | q, u :: s => (step q u).bind fun p => (run p.2 s).map fun p' => (p.1 ++ p'.1, p'.2)

/-- A tag that is not finished is dropped. -/
def atEnd : State → List Token
  | .tagOpen => [.char (unit '<')]
  | .endTagOpen => [.char (unit '<'), .char (unit '/')]
  | _ => []

def tokenize (s : JsString) : Option (List Token) := (run .data s).map fun p => p.1 ++ atEnd p.2

/-- The line ends of the input are single line feeds. -/
def normalizeNewlines : JsString → JsString
  | [] => []
  | u :: s => (if u = 13 then if s.head? = some 10 then [] else [10] else [u]) ++ normalizeNewlines s

end Defs

variable {u : CodeUnit} {s t : JsString}

/-! ## Serialised text -/

theorem mem_references (h : escapeName u = some t) : (u, t) ∈ references := by
  unfold escapeName at h
  split_ifs at h with h1 h2 h3 h4
  · obtain rfl := Option.some.inj h
    exact h1 ▸ .head _
  · obtain rfl := Option.some.inj h
    exact h2 ▸ .tail _ (.head _)
  · obtain rfl := Option.some.inj h
    exact h3 ▸ .tail _ (.tail _ (.head _))
  · obtain rfl := Option.some.inj h
    exact h4 ▸ .tail _ (.tail _ (.tail _ (.head _)))

/-- A fact about the four references. -/
theorem of_references {p : CodeUnit × JsString → Bool} (h : escapeName u = some t)
    (hall : references.all p = true) : p (u, t) = true :=
  List.all_eq_true.mp hall _ (mem_references h)

/-- The names are made of letters. -/
theorem isLetter_escapeName (h : escapeName u = some t) : ∀ v ∈ t, isLetter v = true :=
  List.all_eq_true.mp (of_references (p := fun r => r.2.all isLetter) h (by decide))

theorem escapeChar_of_some (h : escapeName u = some t) :
    escapeChar u = unit '&' :: (t ++ [unit ';']) := by
  unfold escapeChar
  rw [h]

theorem escapeChar_of_none (h : escapeName u = none) : escapeChar u = [u] := by
  unfold escapeChar
  rw [h]

@[simp] theorem escape_nil : escape [] = [] := rfl

@[simp] theorem escape_cons (u : CodeUnit) (s : JsString) :
    escape (u :: s) = escapeChar u ++ escape s := rfl

@[simp] theorem escape_append (s t : JsString) : escape (s ++ t) = escape s ++ escape t :=
  List.flatMap_append

theorem isReferenceChar_of_isLetter (h : isLetter u = true) : isReferenceChar u = true := by
  unfold isReferenceChar
  rw [h, Bool.or_true]
  rfl

/-- Other characters than those of references are characters of the text that need none. -/
theorem of_mem_escapeChar {v : CodeUnit} (h : v ∈ escapeChar u) (hv : isReferenceChar v = false) :
    v = u ∧ escapeName v = none := by
  cases hname : escapeName u with
  | none =>
    rw [escapeChar_of_none hname] at h
    obtain rfl := List.mem_singleton.mp h
    exact ⟨rfl, hname⟩
  | some name =>
    have hall : ∀ w ∈ escapeChar u, isReferenceChar w = true := by
      rw [escapeChar_of_some hname]
      intro w hw
      rcases List.mem_cons.mp hw with rfl | hw
      · decide
      rcases List.mem_append.mp hw with hw | hw
      · exact isReferenceChar_of_isLetter (isLetter_escapeName hname w hw)
      · obtain rfl := List.mem_singleton.mp hw
        decide
    rw [hall v h] at hv
    cases hv

theorem of_mem_escape {v : CodeUnit} (h : v ∈ escape s) (hv : isReferenceChar v = false) :
    v ∈ s ∧ escapeName v = none := by
  obtain ⟨u, hu, hmem⟩ := List.mem_flatMap.mp h
  obtain ⟨rfl, hname⟩ := of_mem_escapeChar hmem hv
  exact ⟨hu, hname⟩

/-- No tag begins in a serialised text. -/
theorem ne_lt_of_mem_escape {v : CodeUnit} (h : v ∈ escape s) : v ≠ unit '<' := by
  rintro rfl
  exact absurd (of_mem_escape h (by decide)).2 (by decide)

/-- The serialised text is cut between two characters of the text, or inside of a reference. -/
theorem escape_split {a b : JsString} (h : escape s = a ++ b) :
    (∃ pre post, s = pre ++ post ∧ a = escape pre ∧ b = escape post) ∨
      ∃ pre u post x y, s = pre ++ u :: post ∧ a = escape pre ++ x ∧ b = y ++ escape post ∧
        escapeChar u = x ++ y ∧ x ≠ [] ∧ y ≠ [] := by
  induction s generalizing a with
  | nil =>
    obtain ⟨rfl, rfl⟩ := List.append_eq_nil_iff.mp h.symm
    exact .inl ⟨[], [], rfl, rfl, rfl⟩
  | cons u s ih =>
    rcases List.append_eq_append_iff.mp ((escape_cons u s).symm.trans h) with
      ⟨c, ha, hs⟩ | ⟨c, hu, hb⟩
    · -- behind the first character
      rcases ih hs with ⟨pre, post, rfl, rfl, rfl⟩ | ⟨pre, v, post, x, y, rfl, rfl, rfl, hrest⟩
      · exact .inl ⟨u :: pre, post, rfl, by rw [ha, escape_cons], rfl⟩
      · refine .inr ⟨u :: pre, v, post, x, y, rfl, ?_, rfl, hrest⟩
        rw [ha, escape_cons, List.append_assoc]
    · -- inside of it
      by_cases ha : a = []
      · subst ha
        exact .inl ⟨[], u :: s, rfl, rfl, h.symm⟩
      by_cases hc : c = []
      · subst hc
        rw [List.append_nil] at hu
        exact .inl ⟨[u], s, rfl, by rw [escape_cons, escape_nil, List.append_nil, hu], hb⟩
      · exact .inr ⟨[], u, s, a, c, rfl, rfl, hb, hu, ha, hc⟩

/-- Where a reference is cut. -/
theorem escapeChar_cut {x y : JsString} (h : escapeChar u = x ++ y) (hx : x ≠ []) (hy : y ≠ []) :
    ∃ name a c, escapeName u = some name ∧ x = unit '&' :: a ∧ name = a ++ c ∧ y = c ++ [unit ';'] := by
  obtain ⟨v, a, rfl⟩ := List.exists_cons_of_ne_nil hx
  obtain ⟨c, w, rfl⟩ : ∃ c w, y = c ++ [w] := ⟨_, _, (List.dropLast_append_getLast hy).symm⟩
  cases hname : escapeName u with
  | none =>
    rw [escapeChar_of_none hname] at h
    have hlength := congrArg List.length h
    simp only [List.length_append, List.length_cons, List.length_nil] at hlength
    omega
  | some name =>
    rw [escapeChar_of_some hname, List.cons_append, ← List.append_assoc] at h
    obtain ⟨rfl, htail⟩ := List.cons.inj h
    obtain ⟨hbody, hw⟩ := List.append_inj' htail rfl
    obtain ⟨rfl, -⟩ := List.cons.inj hw
    exact ⟨name, a, c, rfl, rfl, hbody, rfl⟩

/-- A reference in a serialised text has its semicolon. -/
theorem semicolon_of_escape {a b : JsString} (h : escape s = a ++ unit '&' :: b) : unit ';' ∈ b := by
  rcases escape_split h with ⟨pre, post, -, -, hb⟩ | ⟨pre, u, post, x, y, -, -, hb, hu, hx, hy⟩
  · cases post with
    | nil => cases hb
    | cons v post =>
      rw [escape_cons] at hb
      cases hname : escapeName v with
      | none =>
        rw [escapeChar_of_none hname] at hb
        obtain ⟨rfl, -⟩ := List.cons.inj hb
        cases hname
      | some name =>
        rw [escapeChar_of_some hname] at hb
        obtain ⟨-, rfl⟩ := List.cons.inj hb
        simp
  · -- behind a cut there is no ampersand
    obtain ⟨name, c, d, hname, -, rfl, rfl⟩ := escapeChar_cut hu hx hy
    cases d with
    | nil =>
      obtain ⟨hv, -⟩ := List.cons.inj hb
      exact absurd hv (by decide)
    | cons v d =>
      obtain ⟨rfl, -⟩ := List.cons.inj hb
      have hletter := isLetter_escapeName hname (unit '&') (by simp)
      exact absurd hletter (by decide)

/-! ## Line ends -/

theorem normalizeNewlines_append (h : 13 ∉ s) (t : JsString) :
    normalizeNewlines (s ++ t) = s ++ normalizeNewlines t := by
  induction s with
  | nil => rfl
  | cons u s ih =>
    rw [List.mem_cons, not_or] at h
    rw [List.cons_append, normalizeNewlines, if_neg (Ne.symm h.1), ih h.2]
    rfl

theorem normalizeNewlines_of_not_mem (h : 13 ∉ s) : normalizeNewlines s = s := by
  have happend := normalizeNewlines_append h []
  rwa [List.append_nil, normalizeNewlines, List.append_nil] at happend

theorem not_mem_normalizeNewlines (s : JsString) : 13 ∉ normalizeNewlines s := by
  induction s with
  | nil => exact List.not_mem_nil
  | cons u s ih =>
    rw [normalizeNewlines, List.mem_append, not_or]
    refine ⟨?_, ih⟩
    split_ifs with h13 h10
    · exact List.not_mem_nil
    · decide
    · exact fun hmem => h13 (List.mem_singleton.mp hmem).symm

theorem head?_escape (s : JsString) : (escape s).head? = some 10 ↔ s.head? = some 10 := by
  cases s with
  | nil => rfl
  | cons u s =>
    rw [escape_cons, List.head?_cons]
    cases hname : escapeName u with
    | none => rw [escapeChar_of_none hname, List.singleton_append, List.head?_cons]
    | some name =>
      rw [escapeChar_of_some hname, List.cons_append, List.head?_cons]
      refine iff_of_false (by decide) fun hu => ?_
      rw [Option.some.inj hu] at hname
      cases hname

/-- Line ends are not escaped. -/
theorem normalizeNewlines_escape (s : JsString) :
    normalizeNewlines (escape s) = escape (normalizeNewlines s) := by
  induction s with
  | nil => rfl
  | cons u s ih =>
    by_cases h13 : u = 13
    · subst h13
      show (if (13 : CodeUnit) = 13 then if (escape s).head? = some 10 then [] else [10] else [13]) ++
        normalizeNewlines (escape s) = _
      rw [normalizeNewlines, if_pos rfl, if_pos rfl, escape_append, ih]
      simp only [head?_escape]
      split_ifs
      · rfl
      · rfl
    · rw [escape_cons, normalizeNewlines, if_neg h13, List.singleton_append, escape_cons, ← ih]
      have hmem : 13 ∉ escapeChar u := fun h => h13 (of_mem_escapeChar h (by decide)).1.symm
      exact normalizeNewlines_append hmem (escape s)

/-! ## The tokenizer on pieces -/

@[simp] theorem charsOf_append (T T' : List Token) : charsOf (T ++ T') = charsOf T ++ charsOf T' :=
  List.flatMap_append

@[simp] theorem charsOf_char (u : CodeUnit) (T : List Token) :
    charsOf (.char u :: T) = u :: charsOf T := rfl

@[simp] theorem charsOf_tag (t : Tag) (T : List Token) : charsOf (.tag t :: T) = charsOf T := rfl

@[simp] theorem charsOf_map (s : JsString) : charsOf (s.map .char) = s := by
  unfold charsOf
  rw [List.flatMap_map]
  exact List.flatMap_singleton' s

@[simp] theorem tagsOf_append (T T' : List Token) : tagsOf (T ++ T') = tagsOf T ++ tagsOf T' :=
  List.flatMap_append

@[simp] theorem tagsOf_tag (t : Tag) (T : List Token) : tagsOf (.tag t :: T) = t :: tagsOf T := rfl

@[simp] theorem tagsOf_map (s : JsString) : tagsOf (s.map .char) = [] := by
  induction s with
  | nil => rfl
  | cons u s ih => exact ih

/-- A tag stands behind the characters in front. -/
theorem behind_chars {T T₁ T₂ : List Token} {tag : Tag} (h : s.map .char ++ T = T₁ ++ .tag tag :: T₂) :
    ∃ T₃, T₁ = s.map .char ++ T₃ ∧ T = T₃ ++ .tag tag :: T₂ := by
  induction s generalizing T₁ with
  | nil => exact ⟨T₁, rfl, h⟩
  | cons u s ih =>
    cases T₁ with
    | nil => cases (List.cons.inj h).1
    | cons t T₁ =>
      obtain ⟨rfl, hrest⟩ := List.cons.inj h
      obtain ⟨T₃, rfl, hT⟩ := ih hrest
      exact ⟨T₃, rfl, hT⟩

/-- One piece of the input after the other. -/
theorem run_append {q q' q'' : State} {T T' : List Token} (h : run q s = some (T, q'))
    (h' : run q' t = some (T', q'')) : run q (s ++ t) = some (T ++ T', q'') := by
  induction s generalizing q T with
  | nil =>
    obtain ⟨rfl, rfl⟩ := Prod.mk.inj (Option.some.inj h)
    exact h'
  | cons u s ih =>
    unfold run at h
    obtain ⟨⟨out, p⟩, hstep, hmap⟩ := Option.bind_eq_some_iff.mp h
    obtain ⟨⟨T₁, q₁⟩, hrun, heq⟩ := Option.map_eq_some_iff.mp hmap
    obtain ⟨rfl, rfl⟩ := Prod.mk.inj heq
    rw [List.cons_append, run, hstep, Option.bind_some, ih hrun, List.append_assoc]
    rfl

/-- Text without tags. -/
theorem run_data (h : ∀ u ∈ s, u ≠ unit '<') : run .data s = some (s.map .char, .data) := by
  induction s with
  | nil => rfl
  | cons u s ih =>
    have hstep : step .data u = some ([.char u], .data) := by
      show some (dataStep u) = _
      rw [dataStep, if_neg (h u List.mem_cons_self)]
    rw [run, hstep, Option.bind_some, ih fun v hv => h v (List.mem_cons_of_mem _ hv)]
    rfl

/-- The value of an attribute goes on until its quote. -/
theorem run_quotedValue {quote : CodeUnit} {tag : Tag} {name value : JsString}
    (h : ∀ u ∈ s, u ≠ quote ∧ u ≠ 0) :
    run (.quotedValue quote tag name value) s =
      some ([], .quotedValue quote tag name (value ++ s)) := by
  induction s generalizing value with
  | nil =>
    rw [List.append_nil]
    rfl
  | cons u s ih =>
    obtain ⟨hquote, hzero⟩ := h u List.mem_cons_self
    have hstep : step (.quotedValue quote tag name value) u =
        some ([], .quotedValue quote tag name (value ++ [u])) := by
      show (if u = quote then _ else some ([], State.quotedValue quote tag name (value ++ [inTag u]))) = _
      rw [if_neg hquote, inTag, if_neg hzero]
    rw [run, hstep, Option.bind_some, ih fun v hv => h v (List.mem_cons_of_mem _ hv),
      List.append_assoc]
    rfl

end WebsocketHub.Html
