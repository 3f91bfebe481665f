import Mathlib.Data.List.Basic

/-!
# WebsocketHub.RegExpSyntax — patterns of regular expressions in JavaScript

The patterns of ECMAScript 2017 with its Annex B, without the flag `u`: a string is a list of UTF-16
code units and each of them stands for itself.  A pattern is cut into tokens (`lex`) and these are folded
into a tree (`parse`) over a stack of the groups that are still open; `none` is a `SyntaxError`.

* `lexFrom` recurses on the pattern, the number says how many code units a token has already taken.
* A back reference to a group that the pattern does not have is a legacy octal escape, so that the groups
  are counted first.
-/

namespace WebsocketHub

/-- A code unit of UTF-16. -/
abbrev CodeUnit := UInt16

/-- A string of JavaScript. -/
abbrev JsString := List CodeUnit

def unit (c : Char) : CodeUnit := UInt16.ofNat c.toNat

namespace RegExp

section Defs

/-! ## Trees -/

/-- The code units from `lo` to `hi`. -/
structure CharRange where
  lo : CodeUnit
  hi : CodeUnit
deriving DecidableEq, Repr

/-- The union of some ranges. -/
abbrev CharSet := List CharRange

inductive Atom
  | char (u : CodeUnit)
  | set (invert : Bool) (A : CharSet)
  | backReference (k : ℕ)
deriving DecidableEq, Repr

inductive Assertion
  | inputStart
  | inputEnd
  | wordBoundary
  | notWordBoundary
deriving DecidableEq, Repr

inductive Group
  | capture
  | plain
  | lookahead (negative : Bool)
deriving DecidableEq, Repr

/-- `max = none` is no bound. -/
structure Quantifier where
  min : ℕ
  max : Option ℕ
  greedy : Bool
deriving DecidableEq, Repr

inductive Node
  | empty
  | atom (a : Atom)
  | assertion (a : Assertion)
  | seq (m n : Node)
  | alt (m n : Node)
  /-- capture number `k` -/
  | capture (k : ℕ) (n : Node)
  | lookahead (negative : Bool) (n : Node)
  /-- `n` has the captures `k + 1` to `k + count` -/
  | repeated (q : Quantifier) (k count : ℕ) (n : Node)
deriving DecidableEq, Repr

inductive Token
  | atom (a : Atom)
  | assertion (a : Assertion)
  | quantifier (q : Quantifier)
  | bar
  | lparen (g : Group)
  | rparen
deriving DecidableEq, Repr

/-! ## Characters -/

def inRange (lo hi : Char) (u : CodeUnit) : Bool := unit lo ≤ u && u ≤ unit hi

def isDigit (u : CodeUnit) : Bool := inRange '0' '9' u

def isOctalDigit (u : CodeUnit) : Bool := inRange '0' '7' u

def isLetter (u : CodeUnit) : Bool := inRange 'a' 'z' u || inRange 'A' 'Z' u

def isWordChar (u : CodeUnit) : Bool := isLetter u || isDigit u || u = unit '_'

def digitValue (u : CodeUnit) : ℕ := u.toNat - 48

def decimalValue (ds : JsString) : ℕ := ds.foldl (fun n u => 10 * n + digitValue u) 0

def hexDigit (u : CodeUnit) : Option ℕ :=
  if isDigit u then some (digitValue u)
  else if inRange 'a' 'f' u then some (u.toNat - 87)
  else if inRange 'A' 'F' u then some (u.toNat - 55)
  else none

/-- The value of the first `n` characters, if they are hexadecimal digits. -/
def hexDigits (n : ℕ) (s : JsString) : Option ℕ :=
  if n ≤ s.length then (s.take n).foldlM (fun v u => (hexDigit u).map (16 * v + ·)) 0 else none

def digitSet : CharSet := [⟨48, 57⟩]
def notDigitSet : CharSet := [⟨0, 47⟩, ⟨58, 0xFFFF⟩]
def wordSet : CharSet := [⟨48, 57⟩, ⟨65, 90⟩, ⟨95, 95⟩, ⟨97, 122⟩]
def notWordSet : CharSet := [⟨0, 47⟩, ⟨58, 64⟩, ⟨91, 94⟩, ⟨96, 96⟩, ⟨123, 0xFFFF⟩]
/-- `WhiteSpace` and `LineTerminator` -/
def spaceSet : CharSet :=
  [⟨9, 13⟩, ⟨32, 32⟩, ⟨0xA0, 0xA0⟩, ⟨0x1680, 0x1680⟩, ⟨0x2000, 0x200A⟩, ⟨0x2028, 0x2029⟩,
    ⟨0x202F, 0x202F⟩, ⟨0x205F, 0x205F⟩, ⟨0x3000, 0x3000⟩, ⟨0xFEFF, 0xFEFF⟩]
def notSpaceSet : CharSet :=
  [⟨0, 8⟩, ⟨14, 31⟩, ⟨33, 0x9F⟩, ⟨0xA1, 0x167F⟩, ⟨0x1681, 0x1FFF⟩, ⟨0x200B, 0x2027⟩,
    ⟨0x202A, 0x202E⟩, ⟨0x2030, 0x205E⟩, ⟨0x2060, 0x2FFF⟩, ⟨0x3001, 0xFEFE⟩, ⟨0xFF00, 0xFFFF⟩]
/-- What `.` matches: everything but `LineTerminator`. -/
def dotSet : CharSet := [⟨0, 9⟩, ⟨11, 12⟩, ⟨14, 0x2027⟩, ⟨0x202A, 0xFFFF⟩]

/-! ## Escapes -/

def characterClassEscape (u : CodeUnit) : Option CharSet :=
  if u = unit 'd' then some digitSet
  else if u = unit 'D' then some notDigitSet
  else if u = unit 's' then some spaceSet
  else if u = unit 'S' then some notSpaceSet
  else if u = unit 'w' then some wordSet
  else if u = unit 'W' then some notWordSet
  else none

/-- `LegacyOctalEscapeSequence` after its first digit `d`. -/
def octalEscape (d : ℕ) : JsString → CodeUnit × JsString
  | [] => (.ofNat d, [])
  | u :: r =>
    if isOctalDigit u then
      match r with
      | [] => (.ofNat (8 * d + digitValue u), [])
      | v :: r' =>
        if d ≤ 3 && isOctalDigit v then
          (.ofNat (64 * d + 8 * digitValue u + digitValue v), r')
        else (.ofNat (8 * d + digitValue u), r)
    else (.ofNat d, u :: r)

/-- `CharacterEscape`, `u :: r` is what follows the backslash.  A `\c` without its letter is a backslash,
an unknown escape the character itself. -/
def characterEscape (u : CodeUnit) (r : JsString) : CodeUnit × JsString :=
  if u = unit 't' then (9, r)
  else if u = unit 'n' then (10, r)
  else if u = unit 'v' then (11, r)
  else if u = unit 'f' then (12, r)
  else if u = unit 'r' then (13, r)
  else if u = unit 'c' then
    match r with
    | l :: r' => if isLetter l then (l % 32, r') else (unit '\\', u :: r)
    | [] => (unit '\\', u :: r)
  else if u = unit 'x' then
    match hexDigits 2 r with
    | some v => (.ofNat v, r.drop 2)
    | none => (u, r)
  else if u = unit 'u' then
    match hexDigits 4 r with
    | some v => (.ofNat v, r.drop 4)
    | none => (u, r)
  else if isOctalDigit u then octalEscape (digitValue u) r
  else (u, r)

/-- The token that a backslash begins, with the rest of the pattern. -/
def lexEscape (groups : ℕ) : JsString → Option (Token × JsString)
  | [] => none
  | u :: r =>
    if u = unit 'b' then some (.assertion .wordBoundary, r)
    else if u = unit 'B' then some (.assertion .notWordBoundary, r)
    else if inRange '1' '9' u &&
        decimalValue ((u :: r).takeWhile isDigit) ≤ groups then
      some (.atom (.backReference (decimalValue ((u :: r).takeWhile isDigit))), r.dropWhile isDigit)
    else
      match characterClassEscape u with
      | some A => some (.atom (.set false A), r)
      | none => some (.atom (.char (characterEscape u r).1), (characterEscape u r).2)

/-! ## Classes -/

/-- `ClassAtom`, which `u :: r` begins with. -/
def classAtom (u : CodeUnit) (r : JsString) : Option ((CodeUnit ⊕ CharSet) × JsString) :=
  if u = unit '\\' then
    match r with
    | [] => none
    | v :: r' =>
      if v = unit 'b' then some (.inl 8, r')
      else if v = unit 'c' then
        match r' with
        | l :: r'' =>
          if isWordChar l then some (.inl (l % 32), r'') else some (.inl (unit '\\'), r)
        | [] => some (.inl (unit '\\'), r)
      else
        match characterClassEscape v with
        | some A => some (.inr A, r')
        | none => some (.inl (characterEscape v r').1, (characterEscape v r').2)
  else some (.inl u, r)

def atomSet : CodeUnit ⊕ CharSet → CharSet
  | .inl u => [⟨u, u⟩]
  | .inr A => A

/-- `a-b` in a class. -/
def classRange : CodeUnit ⊕ CharSet → CodeUnit ⊕ CharSet → Option CharSet
  | .inl u, .inl v => if u ≤ v then some [⟨u, v⟩] else none
  | a, b => some (atomSet a ++ [⟨unit '-', unit '-'⟩] ++ atomSet b)

/-- `ClassRanges` and the bracket that ends them. -/
def classRanges : ℕ → JsString → Option (CharSet × JsString)
  | _, [] => none
  | k + 1, _ :: r => classRanges k r
  | 0, u :: r =>
    if u = unit ']' then some ([], r)
    else
      (classAtom u r).bind fun (a, r₁) =>
        match r₁ with
        | d :: v :: r₂ =>
          if d = unit '-' && v != unit ']' then
            (classAtom v r₂).bind fun (b, r₃) => (classRange a b).bind fun A =>
              (classRanges (r.length - r₃.length) r).map fun B => (A ++ B.1, B.2)
          else (classRanges (r.length - r₁.length) r).map fun B => (atomSet a ++ B.1, B.2)
        | _ => (classRanges (r.length - r₁.length) r).map fun B => (atomSet a ++ B.1, B.2)

def lexClass (r : JsString) : Option (Token × JsString) :=
  match r with
  | u :: r' =>
    if u = unit '^' then (classRanges 0 r').map fun B => (.atom (.set true B.1), B.2)
    else (classRanges 0 r).map fun B => (.atom (.set false B.1), B.2)
  | [] => none

/-! ## Tokens -/

/-- The bounds of the quantifier that `{` begins, if it is one. -/
def braced (r : JsString) : Option ((ℕ × Option ℕ) × JsString) :=
  let n := decimalValue (r.takeWhile isDigit)
  if r.takeWhile isDigit = [] then none
  else
    match r.dropWhile isDigit with
    | [] => none
    | u :: r₁ =>
      if u = unit '}' then some ((n, some n), r₁)
      else if u = unit ',' then
        match r₁.dropWhile isDigit with
        | [] => none
        | v :: r₂ =>
          if v = unit '}' then
            if r₁.takeWhile isDigit = [] then some ((n, none), r₂)
            else some ((n, some (decimalValue (r₁.takeWhile isDigit))), r₂)
          else none
      else none

/-- A quantifier, which is lazy before a question mark. -/
def quantified (min : ℕ) (max : Option ℕ) (r : JsString) : Token × JsString :=
  match r with
  | u :: r' =>
    if u = unit '?' then (.quantifier ⟨min, max, false⟩, r') else (.quantifier ⟨min, max, true⟩, r)
  | [] => (.quantifier ⟨min, max, true⟩, r)

def lexGroup (r : JsString) : Token × JsString :=
  match r with
  | u :: v :: r' =>
    if u = unit '?' && v = unit ':' then (.lparen .plain, r')
    else if u = unit '?' && v = unit '=' then (.lparen (.lookahead false), r')
    else if u = unit '?' && v = unit '!' then (.lparen (.lookahead true), r')
    else (.lparen .capture, r)
  | _ => (.lparen .capture, r)

/-- The token at the head of `u :: r`, with the rest of the pattern. -/
def lexOne (groups : ℕ) (u : CodeUnit) (r : JsString) : Option (Token × JsString) :=
  if u = unit '^' then some (.assertion .inputStart, r)
  else if u = unit '$' then some (.assertion .inputEnd, r)
  else if u = unit '\\' then lexEscape groups r
  else if u = unit '.' then some (.atom (.set false dotSet), r)
  else if u = unit '*' then some (quantified 0 none r)
  else if u = unit '+' then some (quantified 1 none r)
  else if u = unit '?' then some (quantified 0 (some 1) r)
  else if u = unit '(' then some (lexGroup r)
  else if u = unit ')' then some (.rparen, r)
  else if u = unit '[' then lexClass r
  else if u = unit '|' then some (.bar, r)
  else
    match if u = unit '{' then braced r else none with
    | some ((min, max), r') => some (quantified min max r')
    | none => some (.atom (.char u), r)

def lexFrom (groups : ℕ) : ℕ → JsString → Option (List Token)
  | _, [] => some []
  | k + 1, _ :: r => lexFrom groups k r
  | 0, u :: r =>
    (lexOne groups u r).bind fun (t, rest) =>
      (lexFrom groups (r.length - rest.length) r).map (t :: ·)

def lex (groups : ℕ) (p : JsString) : Option (List Token) := lexFrom groups 0 p

/-! ## The tree of a pattern -/

/-- A group that is being read; the lists have the latest first. -/
structure Frame where
  group : Group
  /-- the captures before it -/
  index : ℕ
  alternatives : List Node
  terms : List Node
  /-- a term that a quantifier may follow, and the captures before it -/
  last : Option (Node × ℕ)
deriving DecidableEq, Repr

structure ParserState where
  top : Frame
  stack : List Frame
  captures : ℕ
deriving DecidableEq, Repr

namespace Frame

def new (g : Group) (index : ℕ) : Frame := ⟨g, index, [], [], none⟩

def allTerms (f : Frame) : List Node := (f.last.map Prod.fst).toList ++ f.terms

def alternative (f : Frame) : Node := f.allTerms.foldl (fun n m => .seq m n) .empty

def disjunction (f : Frame) : Node := f.alternatives.foldl (fun n m => .alt m n) f.alternative

def node (f : Frame) : Node :=
  match f.group with
  | .capture => .capture (f.index + 1) f.disjunction
  | .plain => f.disjunction
  | .lookahead negative => .lookahead negative f.disjunction

end Frame

def ParserState.init : ParserState := ⟨.new .plain 0, [], 0⟩

def parseToken (s : ParserState) : Token → Option ParserState
  | .atom a => some { s with
      top := { s.top with terms := s.top.allTerms, last := some (.atom a, s.captures) } }
  | .assertion a => some { s with
      top := { s.top with terms := .assertion a :: s.top.allTerms, last := none } }
  | .bar => some { s with
      top := { s.top with
        alternatives := s.top.alternative :: s.top.alternatives, terms := [], last := none } }
  | .lparen g => some
      { top := .new g s.captures
        stack := s.top :: s.stack
        captures := if g = .capture then s.captures + 1 else s.captures }
  | .rparen =>
    match s.stack with
    | [] => none
    | f :: fs => some { s with
        top := { f with terms := f.allTerms, last := some (s.top.node, s.top.index) }, stack := fs }
  | .quantifier q =>
    match s.top.last with
    | none => none
    | some (n, k) =>
      if q.max.any (· < q.min) then none
      else some { s with
        top := { s.top with
          terms := .repeated q k (s.captures - k) n :: s.top.terms, last := none } }

def ParserState.finish (s : ParserState) : Option Node :=
  if s.stack = [] then some s.top.disjunction else none

/-- The groups of a pattern that are captured. -/
def groupCount (p : JsString) : ℕ :=
  ((lex 0 p).getD []).countP (· = .lparen .capture)

/-- The tree of a pattern. -/
def parse (p : JsString) : Option Node :=
  (lex (groupCount p) p).bind fun ts =>
    (ts.foldlM parseToken ParserState.init).bind ParserState.finish

end Defs

end RegExp

end WebsocketHub
