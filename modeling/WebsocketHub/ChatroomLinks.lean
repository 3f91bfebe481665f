import WebsocketHub.ChatroomWidget
import WebsocketHub.RegExpLanguage
import WebsocketHub.HtmlText

/-!
# WebsocketHub.ChatroomLinks — `static/chatroomwidget.js`: the links in a message

The text of a message is set as the text of an element and `urlify` then replaces addresses in its HTML by
links.  The expression `htmlrex` does not look at the text but at the text with its characters escaped.

* `htmlrex_eq` is the expression taken apart.  From its parts the alphabet and the beginning of everything
  that it matches are read off.
* What is written has no other tags than those of the links (`links_inject_nothing`), and every link
  begins between two characters of the text (`link_begins`).
-/

namespace WebsocketHub

open RegExp Html

section Defs

variable (toUpperCase : CodeUnit → JsString)

@[irreducible] def htmlrex : Node := literal
  r"((?:(http|https|rtsp):\/\/(?:(?:[a-zA-Z0-9\$\-\_\.\+\!\*\'\(\)\,\;\?\&\=]|(?:\%[a-fA-F0-9]{2})){1,64}(?:\:(?:[a-zA-Z0-9\$\-\_\.\+\!\*\'\(\)\,\;\?\&\=]|(?:\%[a-fA-F0-9]{2})){1,25})?\@)?)?((?:(?:[a-zA-Z0-9][a-zA-Z0-9\-]{0,64}\.)+(?:(?:aero|arpa|asia|a[cdefgilmnoqrstuwxz])|(?:biz|b[abdefghijmnorstvwyz])|(?:cat|com|coop|c[acdfghiklmnoruvxyz])|d[ejkmoz]|(?:edu|e[cegrstu])|f[ijkmor]|(?:gov|g[abdefghilmnpqrstuwy])|h[kmnrtu]|(?:info|int|i[delmnoqrst])|(?:jobs|j[emop])|k[eghimnrwyz]|l[abcikrstuvy]|(?:mil|mobi|museum|m[acdghklmnopqrstuvwxyz])|(?:name|net|n[acefgilopruz])|(?:org|om)|(?:pro|p[aefghklmnrstwy])|qa|r[eouw]|s[abcdeghijklmnortuvyz]|(?:tel|travel|t[cdfghjklmnoprtvwz])|u[agkmsyz]|v[aceginu]|w[fs]|y[etu]|z[amw]))|(?:(?:25[0-5]|2[0-4][0-9]|[0-1][0-9]{2}|[1-9][0-9]|[1-9])\.(?:25[0-5]|2[0-4][0-9]|[0-1][0-9]{2}|[1-9][0-9]|[1-9]|0)\.(?:25[0-5]|2[0-4][0-9]|[0-1][0-9]{2}|[1-9][0-9]|[1-9]|0)\.(?:25[0-5]|2[0-4][0-9]|[0-1][0-9]{2}|[1-9][0-9]|[0-9])))(?:\:\d{1,5})?)(\/(?:(?:[a-zA-Z0-9\;\/\?\:\@\&\=\#\~\-\.\+\!\*\'\(\)\,\_])|(?:\%[a-fA-F0-9]{2}))*)?(?:\b|$)"

/-- The expression in `urlify`. -/
def schemeRex : Node := literal r"^[a-z]+:\/\/"

def href (url : JsString) : JsString :=
  if test exactCase schemeRex url then url else "http://".toList.map unit ++ url

/-- The function in `urlify`. -/
def link (url : JsString) : JsString :=
  "<a target=_blank href=\"".toList.map unit ++ href url ++ "\">".toList.map unit ++ url ++
    "</a>".toList.map unit

/-- `innerHTML` before and after. -/
def urlify (innerHTML : JsString) : JsString := replaceAll toUpperCase htmlrex link innerHTML

/-- `innerHTML` of `contentEl`. -/
def contentHtml (message : JsString) : JsString := urlify toUpperCase (escape message)

/-! ## The expression, taken apart -/

namespace Htmlrex

/-- `a|b|c` -/
def oneOf : List Node → Node
  | [] => .empty
  | [n] => n
  | n :: l => .alt n (oneOf l)

/-- `(?:n)`, as a whole alternative -/
def alone (n : Node) : Node := .seq n .empty

def char (c : Char) : Node := .atom (.char (unit c))

def text (s : String) : Node := chars (s.toList.map unit) .empty

def singles (s : String) : CharSet := s.toList.map fun c => ⟨unit c, unit c⟩

def alnum : CharSet := [⟨97, 122⟩, ⟨65, 90⟩, ⟨48, 57⟩]

/-- `[a-fA-F0-9]` -/
def hexSet : CharSet := [⟨97, 102⟩, ⟨65, 70⟩, ⟨48, 57⟩]

def userSet : CharSet := alnum ++ singles "$-_.+!*'(),;?&="

def pathSet : CharSet := alnum ++ singles ";/?:@&=#~-.+!*'(),_"

def exactly (i k : ℕ) (A : CharSet) : Node := .repeated ⟨i, some i, true⟩ k 0 (.atom (.set false A))

/-- `(?:\%[a-fA-F0-9]{2})` -/
def percent (k : ℕ) : Node := alone (.seq (char '%') (alone (exactly 2 k hexSet)))

def userChar : Node := .alt (alone (.atom (.set false userSet))) (percent 2)

def userInfo : Node :=
  .seq (.repeated ⟨1, some 64, true⟩ 2 0 userChar)
    (.seq (optionally 2 0 (.seq (char ':') (alone (.repeated ⟨1, some 25, true⟩ 2 0 userChar))))
      (alone (char '@')))

def scheme : Node := oneOf [text "http", text "https", text "rtsp"]

def schemePart : Node :=
  .seq (.capture 2 scheme)
    (.seq (char ':') (.seq (char '/') (.seq (char '/') (alone (optionally 2 0 userInfo)))))

/-- `c[s]` -/
def country (c : Char) (s : String) : Node :=
  .seq (char c) (alone (.atom (.set false (singles s))))

def topLevelDomain : Node :=
  oneOf
    [alone (oneOf [text "aero", text "arpa", text "asia", country 'a' "cdefgilmnoqrstuwxz"]),
      alone (oneOf [text "biz", country 'b' "abdefghijmnorstvwyz"]),
      alone (oneOf [text "cat", text "com", text "coop", country 'c' "acdfghiklmnoruvxyz"]),
      country 'd' "ejkmoz",
      alone (oneOf [text "edu", country 'e' "cegrstu"]),
      country 'f' "ijkmor",
      alone (oneOf [text "gov", country 'g' "abdefghilmnpqrstuwy"]),
      country 'h' "kmnrtu",
      alone (oneOf [text "info", text "int", country 'i' "delmnoqrst"]),
      alone (oneOf [text "jobs", country 'j' "emop"]),
      country 'k' "eghimnrwyz",
      country 'l' "abcikrstuvy",
      alone (oneOf [text "mil", text "mobi", text "museum", country 'm' "acdghklmnopqrstuvwxyz"]),
      alone (oneOf [text "name", text "net", country 'n' "acefgilopruz"]),
      alone (oneOf [text "org", text "om"]),
      alone (oneOf [text "pro", country 'p' "aefghklmnrstwy"]),
      text "qa",
      country 'r' "eouw",
      country 's' "abcdeghijklmnortuvyz",
      alone (oneOf [text "tel", text "travel", country 't' "cdfghjklmnoprtvwz"]),
      country 'u' "agkmsyz",
      country 'v' "aceginu",
      country 'w' "fs",
      country 'y' "etu",
      country 'z' "amw"]

def label : Node :=
  .seq (.atom (.set false alnum))
    (.seq (.repeated ⟨0, some 64, true⟩ 3 0 (.atom (.set false (alnum ++ singles "-")))) (alone (char '.')))

def domainName : Node := .seq (.repeated ⟨1, none, true⟩ 3 0 label) (alone topLevelDomain)

def digits (lo hi : Char) : Node := .atom (.set false [⟨unit lo, unit hi⟩])

/-- A number up to 255, but for the last alternatives. -/
def octet (last : List Node) : Node :=
  oneOf ([.seq (char '2') (.seq (char '5') (alone (digits '0' '5'))),
    .seq (char '2') (.seq (digits '0' '4') (alone (digits '0' '9'))),
    .seq (digits '0' '1') (alone (exactly 2 3 [⟨48, 57⟩])),
    .seq (digits '1' '9') (alone (digits '0' '9'))] ++ last)

def address : Node :=
  .seq (octet [alone (digits '1' '9')]) (.seq (char '.')
    (.seq (octet [alone (digits '1' '9'), alone (char '0')]) (.seq (char '.')
      (.seq (octet [alone (digits '1' '9'), alone (char '0')]) (.seq (char '.')
        (alone (octet [alone (digits '0' '9')])))))))

def host : Node := .alt (alone domainName) (alone address)

def port : Node := .seq (char ':') (alone (.repeated ⟨1, some 5, true⟩ 3 0 (.atom (.set false digitSet))))

def pathChar : Node := .alt (alone (alone (.atom (.set false pathSet)))) (percent 4)

def path : Node := .capture 4 (.seq (char '/') (alone (.repeated ⟨0, none, true⟩ 4 0 pathChar)))

def ending : Node := .alt (alone (.assertion .wordBoundary)) (alone (.assertion .inputEnd))

def server : Node :=
  .capture 1 (.seq (optionally 1 1 schemePart) (.seq (.capture 3 host) (alone (optionally 3 0 port))))

end Htmlrex

/-! ## What the links should be -/

def linkPunctuation : JsString := "$-_.+!*'(),;?&=%:@/~#".toList.map unit

/-- The alphabet of `htmlrex`. -/
def isLinkChar (u : CodeUnit) : Bool := isLetter u || isDigit u || u ∈ linkPunctuation

def isLabelChar (u : CodeUnit) : Bool := isLetter u || isDigit u || u = unit '-'

/-- `\s` -/
def isWhiteSpace (u : CodeUnit) : Bool := spaceSet.any fun c => c.lo ≤ u && u ≤ c.hi

def markup : Segment → JsString
  | .kept u => [u]
  | .found t => link t

/-- The links, in their order. -/
def linksOf : List Segment → List JsString
  | [] => []
  | .kept _ :: l => linksOf l
  | .found t :: l => t :: linksOf l

/-- `<a target=_blank` -/
def targetTag : Tag :=
  ⟨false, ['a'].map unit, [("target".toList.map unit, "_blank".toList.map unit)], false⟩

/-- `<a target=_blank href="h">` -/
def openTag (h : JsString) : Tag :=
  ⟨false, ['a'].map unit, [("target".toList.map unit, "_blank".toList.map unit),
    ("href".toList.map unit, h)], false⟩

def closeTag : Tag := .named true (['a'].map unit)

def segmentTokens : Segment → List Html.Token
  | .kept u => [.char u]
  | .found t => .tag (openTag (href t)) :: (t.map .char ++ [.tag closeTag])

/-- The pieces of the string whose line ends are single line feeds. -/
def withNewlines : List Segment → List Segment
  | [] => []
  | .kept u :: l =>
    (if u = 13 then if l.head? = some (.kept 10) then [] else [.kept 10] else [.kept u]) ++ withNewlines l
  | .found t :: l => .found t :: withNewlines l

def schemes : List JsString :=
  ["http://".toList.map unit, "https://".toList.map unit, "rtsp://".toList.map unit]

/-- The link `t` between `before` and `after`. -/
structure IsLink (before t after : JsString) : Prop where
  matched : MatchedBetween toUpperCase htmlrex before t after
  alphabet : ∀ u ∈ t, u ≠ unit '<' ∧ u ≠ unit '>' ∧ u ≠ unit '"' ∧ isWhiteSpace u = false
  scheme : ∃ p ∈ schemes, p <+: href t

/-- The link ends in a character reference, in front of its semicolon. -/
def CutsReference (t after : JsString) : Prop :=
  ∃ u name, escapeName u = some name ∧ unit '&' :: name <:+ t ∧ after.head? = some (unit ';')

end Defs

open Htmlrex

set_option maxRecDepth 10000 in
theorem htmlrex_eq : htmlrex = .seq server (.seq (optionally 3 1 path) (alone ending)) := by
  unfold htmlrex
  exact literal_eq (by decide +kernel)

theorem schemeRex_eq : schemeRex = .seq (.assertion .inputStart)
    (.seq (.repeated ⟨1, none, true⟩ 0 0 (.atom (.set false [⟨97, 122⟩])))
      (.seq (char ':') (.seq (char '/') (alone (char '/'))))) :=
  literal_eq (by decide)

/-! ## The alphabet of a link -/

theorem isDigit_iff {u : CodeUnit} : isDigit u = true ↔ 48 ≤ u.toNat ∧ u.toNat ≤ 57 := by
  unfold isDigit inRange
  rw [Bool.and_eq_true, decide_eq_true_eq, decide_eq_true_eq]
  rfl

/-- Between the space and DEL. -/
theorem isLinkChar_bounds {u : CodeUnit} (h : isLinkChar u = true) : 33 ≤ u.toNat ∧ u.toNat < 127 := by
  unfold isLinkChar at h
  rw [Bool.or_eq_true, Bool.or_eq_true, isLetter_iff, isDigit_iff, decide_eq_true_eq] at h
  rcases h with (h | h) | h
  · omega
  · omega
  · have hall : linkPunctuation.all (fun v => 33 ≤ v.toNat && v.toNat < 127) = true := by decide
    have hu := List.all_eq_true.mp hall u h
    rw [Bool.and_eq_true, decide_eq_true_eq, decide_eq_true_eq] at hu
    exact hu

theorem isLabelChar_bounds {u : CodeUnit} (h : isLabelChar u = true) : u.toNat < 127 := by
  unfold isLabelChar at h
  rw [Bool.or_eq_true, Bool.or_eq_true, isLetter_iff, isDigit_iff, decide_eq_true_eq] at h
  rcases h with (h | h) | h
  · omega
  · omega
  · subst h
    decide

theorem isLinkChar_of_isLetter {u : CodeUnit} (h : isLetter u = true) : isLinkChar u = true := by
  unfold isLinkChar
  rw [h]
  rfl

theorem isLabelChar_of_isLetter {u : CodeUnit} (h : isLetter u = true) : isLabelChar u = true := by
  unfold isLabelChar
  rw [h]
  rfl

theorem isLetter_of_lower {u : CodeUnit} (h : inRange 'a' 'z' u = true) : isLetter u = true := by
  unfold isLetter
  rw [h]
  rfl

theorem isWhiteSpace_of_isLinkChar {u : CodeUnit} (h : isLinkChar u = true) :
    isWhiteSpace u = false := by
  obtain ⟨hlo, hhi⟩ := isLinkChar_bounds h
  refine List.any_eq_false.mpr fun c hc hmem => ?_
  have hall : spaceSet.all (fun c => c.hi.toNat ≤ 32 || 127 ≤ c.lo.toNat) = true := by decide
  have hc' := List.all_eq_true.mp hall c hc
  rw [Bool.or_eq_true, decide_eq_true_eq, decide_eq_true_eq] at hc'
  rw [Bool.and_eq_true, decide_eq_true_eq, decide_eq_true_eq, UInt16.le_iff_toNat_le,
    UInt16.le_iff_toNat_le] at hmem
  omega

theorem lt_128_of_toNat {u : CodeUnit} (h : u.toNat < 127) : u < 128 := by
  rw [UInt16.lt_iff_toNat_lt]
  exact Nat.lt_trans h (by decide)

section Case

variable {toUpperCase : CodeUnit → JsString} {s t : JsString}
  (hcase : ∀ u < 128, toUpperCase u = asciiUpperCase u)

include hcase

theorem isLinkChar_case : ∀ u v, isLinkChar u = true →
    canonicalize toUpperCase v = canonicalize toUpperCase u → isLinkChar v = true :=
  case_closed hcase (fun _ h => lt_128_of_toNat (isLinkChar_bounds h).2)
    fun _ _ _ _ hv => isLinkChar_of_isLetter hv

theorem isLabelChar_case : ∀ u v, isLabelChar u = true →
    canonicalize toUpperCase v = canonicalize toUpperCase u → isLabelChar v = true :=
  case_closed hcase (fun _ h => lt_128_of_toNat (isLabelChar_bounds h))
    fun _ _ _ _ hv => isLabelChar_of_isLetter hv

/-- Whatever is matched is made of these characters. -/
theorem isLinkChar_of_mem (h : t ∈ htmlrex.language toUpperCase) : ∀ u ∈ t, isLinkChar u = true :=
  mem_within (isLinkChar_case hcase) (by rw [htmlrex_eq]; decide +kernel) t h

/-! ## The beginning of a link -/

theorem mem_colon (h : s ∈ (char ':').language toUpperCase) : s = [unit ':'] :=
  mem_char hcase (by decide) h

theorem mem_slash (h : s ∈ (char '/').language toUpperCase) : s = [unit '/'] :=
  mem_char hcase (by decide) h

theorem mem_dot (h : s ∈ (char '.').language toUpperCase) : s = [unit '.'] :=
  mem_char hcase (by decide) h

theorem mem_schemePart (h : s ∈ schemePart.language toUpperCase) :
    ∃ a ∈ scheme.language toUpperCase, ∃ b, s = a ++ ("://".toList.map unit ++ b) := by
  obtain ⟨a, ha, s₁, h₁, rfl⟩ := Language.mem_mul.mp h
  obtain ⟨c, hc, s₂, h₂, rfl⟩ := Language.mem_mul.mp h₁
  obtain ⟨d, hd, s₃, h₃, rfl⟩ := Language.mem_mul.mp h₂
  obtain ⟨e, he, b, -, rfl⟩ := Language.mem_mul.mp h₃
  rw [mem_colon hcase hc, mem_slash hcase hd, mem_slash hcase he]
  exact ⟨a, ha, b, rfl⟩

/-- A label and its dot, or the first number of an address. -/
theorem mem_host (h : s ∈ host.language toUpperCase) :
    ∃ a b, s = a ++ unit '.' :: b ∧ ∀ u ∈ a, isLabelChar u = true := by
  have hlabel := fun (n : Node) (hn : n.within isLabelChar = true) =>
    mem_within (isLabelChar_case hcase) hn
  rcases h with h | h
  · obtain ⟨labels, hlabels, tld, -, rfl⟩ := Language.mem_mul.mp (mem_seq_empty h)
    obtain ⟨l, hl, rest, rfl⟩ := mem_plus hlabels
    obtain ⟨a, ha, l₁, hl₁, rfl⟩ := Language.mem_mul.mp hl
    obtain ⟨b, hb, l₂, hl₂, rfl⟩ := Language.mem_mul.mp hl₁
    rw [mem_dot hcase (mem_seq_empty hl₂)]
    refine ⟨a ++ b, rest ++ tld, by simp, fun u hu => ?_⟩
    rcases List.mem_append.mp hu with hu | hu
    · exact hlabel _ (by decide) a ha u hu
    · exact hlabel _ (by decide) b hb u hu
  · obtain ⟨a, ha, s₁, h₁, rfl⟩ := Language.mem_mul.mp (mem_seq_empty h)
    obtain ⟨d, hd, s₂, -, rfl⟩ := Language.mem_mul.mp h₁
    rw [mem_dot hcase hd]
    exact ⟨a, s₂, rfl, hlabel _ (by decide) a ha⟩

/-- **A link begins** with a scheme, or with a label and a dot. -/
theorem link_cases (h : t ∈ htmlrex.language toUpperCase) :
    (∃ a ∈ scheme.language toUpperCase, ∃ b, t = a ++ ("://".toList.map unit ++ b)) ∨
      ∃ a b, t = a ++ unit '.' :: b ∧ ∀ u ∈ a, isLabelChar u = true := by
  rw [htmlrex_eq] at h
  obtain ⟨s, hs, rest, -, rfl⟩ := Language.mem_mul.mp h
  obtain ⟨o, ho, s₁, h₁, rfl⟩ := Language.mem_mul.mp hs
  rcases mem_optionally ho with rfl | ho
  · obtain ⟨n, hn, p, -, rfl⟩ := Language.mem_mul.mp h₁
    obtain ⟨a, b, rfl, ha⟩ := mem_host hcase hn
    exact .inr ⟨a, b ++ p ++ rest, by simp, ha⟩
  · obtain ⟨a, ha, b, rfl⟩ := mem_schemePart hcase ho
    exact .inl ⟨a, ha, b ++ s₁ ++ rest, by simp⟩

theorem mem_scheme (h : s ∈ scheme.language toUpperCase) : (∀ u ∈ s, isLetter u = true) ∧
    ∃ w, w ++ "://".toList.map unit ∈ schemes ∧ (∀ u ∈ w, inRange 'a' 'z' u = true) ∧
      s.map asciiUpper = w.map asciiUpper := by
  have hletter : ∀ u v, isLetter u = true →
      canonicalize toUpperCase v = canonicalize toUpperCase u → isLetter v = true :=
    case_closed hcase (fun u hu => lt_128_of_toNat (by rw [isLetter_iff] at hu; omega))
      fun _ _ _ _ hv => hv
  have hword : ∀ {w : String}, (w.toList.map unit).all (inRange 'a' 'z') = true →
      s ∈ (text w).language toUpperCase →
      (∀ u ∈ w.toList.map unit, inRange 'a' 'z' u = true) ∧
        s.map asciiUpper = (w.toList.map unit).map asciiUpper := by
    intro w hw hs
    have hlower := List.all_eq_true.mp hw
    refine ⟨hlower, map_asciiUpper_eq hcase (fun u hu => lt_128_of_toNat ?_) (mem_chars hs)⟩
    have hu := isLetter_iff.mp (isLetter_of_lower (hlower u hu))
    omega
  refine ⟨mem_within hletter (by decide) s h, ?_⟩
  rcases h with h | h | h
  · exact ⟨_, .head _, hword (by decide) h⟩
  · exact ⟨_, .tail _ (.head _), hword (by decide) h⟩
  · exact ⟨_, .tail _ (.tail _ (.head _)), hword (by decide) h⟩

omit hcase in
/-- A text that `schemeRex` finds its scheme in. -/
theorem exists_of_test (h : test exactCase schemeRex t = true) :
    ∃ a b, t = a ++ ("://".toList.map unit ++ b) ∧ ∀ u ∈ a, inRange 'a' 'z' u = true := by
  have hexact : ∀ u v : CodeUnit, canonicalize exactCase v = canonicalize exactCase u → v = u := by
    intro u v hv
    rwa [canonicalize_exactCase, canonicalize_exactCase] at hv
  have hchar : ∀ {c : Char} {s : JsString}, s ∈ (char c).language exactCase → s = [unit c] := by
    rintro c s ⟨v, rfl, hv⟩
    rw [hexact _ v hv]
  rw [schemeRex_eq] at h
  obtain ⟨s, hs, rest, rfl⟩ := mem_of_test_inputStart h
  obtain ⟨a, ha, s₁, h₁, rfl⟩ := Language.mem_mul.mp hs
  obtain ⟨c, hc, s₂, h₂, rfl⟩ := Language.mem_mul.mp h₁
  obtain ⟨d, hd, s₃, h₃, rfl⟩ := Language.mem_mul.mp h₂
  rw [hchar hc, hchar hd, hchar (mem_seq_empty h₃)]
  refine ⟨a, rest, by simp, mem_within (fun u v hu hv => ?_) (by decide) a ha⟩
  rwa [hexact u v hv]

/-- **The address of a link** has one of three schemes, in lower case. -/
theorem href_scheme (h : t ∈ htmlrex.language toUpperCase) : ∃ p ∈ schemes, p <+: href t := by
  unfold href
  split_ifs with htest
  · obtain ⟨a, b, ht, ha⟩ := exists_of_test htest
    have haletter : ∀ u ∈ a, isLetter u = true := fun u hu => isLetter_of_lower (ha u hu)
    rcases link_cases hcase h with ⟨a', hmem, b', ht'⟩ | ⟨a', b', ht', ha'⟩
    · -- the same scheme, so that it is in lower case
      obtain ⟨hletters, w, hw, hlower, hmap⟩ := mem_scheme hcase hmem
      obtain ⟨rfl, -, -⟩ := eq_of_first_outside (u := unit ':') haletter (by decide)
        (v := unit ':') hletters (by decide) (ht.symm.trans ht')
      obtain rfl := eq_of_map_asciiUpper ha hlower hmap
      refine ⟨a ++ "://".toList.map unit, hw, ?_⟩
      rw [ht, ← List.append_assoc]
      exact List.prefix_append _ _
    · -- a label is no scheme
      obtain ⟨-, hcolon, -⟩ := eq_of_first_outside (u := unit ':')
        (fun u hu => isLabelChar_of_isLetter (haletter u hu)) (by decide)
        (v := unit '.') ha' (by decide) (ht.symm.trans ht')
      exact absurd hcolon (by decide)
  · exact ⟨_, .head _, List.prefix_append _ _⟩

/-- **A link begins between two characters** of the text. -/
theorem link_begins {text before after : JsString} (h : escape text = before ++ (t ++ after))
    (ht : t ∈ htmlrex.language toUpperCase) : ∃ pre, pre <+: text ∧ before = escape pre := by
  rcases escape_split h with ⟨pre, post, rfl, rfl, -⟩ |
    ⟨pre, u, post, x, y, rfl, rfl, hafter, hu, hx, hy⟩
  · exact ⟨pre, List.prefix_append _ _, rfl⟩
  · -- the rest of a reference is letters and a semicolon
    obtain ⟨name, a, c, hname, -, rfl, rfl⟩ := escapeChar_cut hu hx hy
    have hc : ∀ v ∈ c, isLabelChar v = true := fun v hv =>
      isLabelChar_of_isLetter (isLetter_escapeName hname v (List.mem_append_right _ hv))
    rw [List.append_assoc] at hafter
    rcases link_cases hcase ht with ⟨s, hs, b, rfl⟩ | ⟨s, b, rfl, hs⟩
    · rw [List.append_assoc] at hafter
      obtain ⟨-, hcolon, -⟩ := eq_of_first_outside (u := unit ':')
        (fun v hv => isLabelChar_of_isLetter ((mem_scheme hcase hs).1 v hv)) (by decide)
        (v := unit ';') hc (by decide) hafter
      exact absurd hcolon (by decide)
    · rw [List.append_assoc] at hafter
      obtain ⟨-, hdot, -⟩ := eq_of_first_outside (u := unit '.') hs (by decide) (v := unit ';') hc
        (by decide) hafter
      exact absurd hdot (by decide)

end Case

/-! ## The HTML that is written -/

variable {t : JsString} {l : List Segment}

theorem replaceAll_markup (toUpperCase : CodeUnit → JsString) (text : JsString) :
    contentHtml toUpperCase text = (segments toUpperCase htmlrex (escape text)).flatMap markup := by
  unfold contentHtml urlify replaceAll
  refine List.flatMap_congr fun g _ => ?_
  cases g with
  | kept u => rfl
  | found t => rfl

theorem isLinkChar_ne {u v : CodeUnit} (h : isLinkChar u = true) (hv : isLinkChar v = false) : u ≠ v := by
  rintro rfl
  rw [h] at hv
  cases hv

theorem mem_href {u : CodeUnit} (ht : ∀ u ∈ t, isLinkChar u = true) (h : u ∈ href t) :
    isLinkChar u = true := by
  have hall : ("http://".toList.map unit).all isLinkChar = true := by decide
  unfold href at h
  split_ifs at h
  · exact ht u h
  · rcases List.mem_append.mp h with h | h
    · exact List.all_eq_true.mp hall u h
    · exact ht u h

/-- **A link is read as its two tags** and the text between them. -/
theorem run_link (ht : ∀ u ∈ t, isLinkChar u = true) :
    run .data (link t) = some (segmentTokens (.found t), .data) := by
  have hopen : run .data ("<a target=_blank href=\"".toList.map unit) =
      some ([], .quotedValue (unit '"') targetTag ("href".toList.map unit) []) := by
    decide
  have hvalue : run (.quotedValue (unit '"') targetTag ("href".toList.map unit) []) (href t) =
      some ([], .quotedValue (unit '"') targetTag ("href".toList.map unit) (href t)) :=
    run_quotedValue fun u hu =>
      ⟨isLinkChar_ne (mem_href ht hu) (by decide), isLinkChar_ne (mem_href ht hu) (by decide)⟩
  have hend : run (.quotedValue (unit '"') targetTag ("href".toList.map unit) (href t))
      ("\">".toList.map unit) = some ([.tag (openTag (href t))], .data) := rfl
  have htext := run_data (s := t) fun u hu => isLinkChar_ne (ht u hu) (by decide)
  have hclose : run .data ("</a>".toList.map unit) = some ([.tag closeTag], .data) := by decide
  exact run_append (run_append (run_append (run_append hopen hvalue) hend) htext) hclose

theorem run_markup (hkept : ∀ u ∈ joined l, u ≠ unit '<')
    (hfound : ∀ t, .found t ∈ l → ∀ u ∈ t, isLinkChar u = true) :
    run .data (l.flatMap markup) = some (l.flatMap segmentTokens, .data) := by
  induction l with
  | nil => rfl
  | cons g l ih =>
    have hrest := ih (fun u hu => hkept u (List.mem_append_right _ hu))
      fun t ht => hfound t (List.mem_cons_of_mem _ ht)
    have hpiece : run .data (markup g) = some (segmentTokens g, .data) := by
      cases g with
      | kept u =>
        refine run_data fun v hv => hkept v (List.mem_append_left _ ?_)
        exact hv
      | found t => exact run_link (hfound t List.mem_cons_self)
    exact run_append hpiece hrest

theorem charsOf_tokens (l : List Segment) : charsOf (l.flatMap segmentTokens) = joined l := by
  induction l with
  | nil => rfl
  | cons g l ih =>
    rw [List.flatMap_cons, charsOf_append, ih]
    cases g with
    | kept u => rfl
    | found t =>
      unfold segmentTokens
      rw [charsOf_tag, charsOf_append, charsOf_map, charsOf_tag]
      simp [charsOf]

theorem tagsOf_tokens (l : List Segment) :
    tagsOf (l.flatMap segmentTokens) = (linksOf l).flatMap fun t => [openTag (href t), closeTag] := by
  induction l with
  | nil => rfl
  | cons g l ih =>
    rw [List.flatMap_cons, tagsOf_append, ih]
    cases g with
    | kept u => rfl
    | found t =>
      unfold segmentTokens
      rw [tagsOf_tag, tagsOf_append, tagsOf_map]
      rfl

theorem linkTokens (l : List Segment) : (l.flatMap segmentTokens).all isLinkToken = true := by
  refine List.all_eq_true.mpr fun τ hτ => ?_
  obtain ⟨g, -, hg⟩ := List.mem_flatMap.mp hτ
  cases g with
  | kept u =>
    obtain rfl := List.mem_singleton.mp hg
    rfl
  | found t =>
    rcases List.mem_cons.mp hg with rfl | hg
    · rfl
    rcases List.mem_append.mp hg with hg | hg
    · obtain ⟨u, -, rfl⟩ := List.mem_map.mp hg
      rfl
    · obtain rfl := List.mem_singleton.mp hg
      rfl

/-! ## Line ends between the links -/

@[simp] theorem linksOf_withNewlines (l : List Segment) : linksOf (withNewlines l) = linksOf l := by
  induction l with
  | nil => rfl
  | cons g l ih =>
    cases g with
    | kept u =>
      unfold withNewlines
      split_ifs
      · exact ih
      · exact ih
      · exact ih
    | found t => exact congrArg (t :: ·) ih

theorem mem_linksOf : t ∈ linksOf l ↔ .found t ∈ l := by
  induction l with
  | nil => simp [linksOf]
  | cons g l ih =>
    cases g with
    | kept u => simp [linksOf, ih]
    | found t' => simp [linksOf, ih]

/-- Line ends are made single in the pieces that are no links, for the text and for what is written. -/
theorem normalizeNewlines_flatMap {f : Segment → JsString} (hkept : ∀ u, f (.kept u) = [u])
    (hfound : ∀ t, .found t ∈ l → 13 ∉ f (.found t) ∧ ∃ v s, f (.found t) = v :: s ∧ v ≠ 10) :
    normalizeNewlines (l.flatMap f) = (withNewlines l).flatMap f := by
  induction l with
  | nil => rfl
  | cons g l ih =>
    have hrest := ih fun t ht => hfound t (List.mem_cons_of_mem _ ht)
    cases g with
    | kept u =>
      have hhead : (l.flatMap f).head? = some 10 ↔ l.head? = some (.kept 10) := by
        cases l with
        | nil => simp
        | cons g l =>
          cases g with
          | kept v => simp [hkept]
          | found t =>
            obtain ⟨-, v, s, hv, hne⟩ := hfound t (by simp)
            simp [hv, hne]
      rw [List.flatMap_cons, hkept, List.singleton_append, normalizeNewlines, hrest, withNewlines,
        List.flatMap_append]
      simp only [hhead]
      split_ifs
      · rfl
      · simp [hkept]
      · simp [hkept]
    | found t =>
      rw [List.flatMap_cons, normalizeNewlines_append (hfound t List.mem_cons_self).1, hrest]
      rfl

theorem withNewlines_of_not_mem (h : 13 ∉ joined l) : withNewlines l = l := by
  induction l with
  | nil => rfl
  | cons g l ih =>
    have hrest := ih fun hmem => h (List.mem_append_right _ hmem)
    cases g with
    | kept u =>
      have hne : u ≠ 13 := by
        rintro rfl
        exact h List.mem_cons_self
      rw [withNewlines, if_neg hne, hrest]
      rfl
    | found t =>
      rw [withNewlines, hrest]

section Content

variable {toUpperCase : CodeUnit → JsString} (hcase : ∀ u < 128, toUpperCase u = asciiUpperCase u)
  (text : JsString)

theorem first_of_links {r : List Segment}
    (h : segments toUpperCase htmlrex (escape text) = l ++ .found t :: r) :
    FirstBetween toUpperCase htmlrex (joined l) t (joined r) ∧ t ∈ htmlrex.language toUpperCase := by
  have hfirst := first_segments h
  exact ⟨hfirst, language_of_matched hfirst.matched⟩

theorem mem_of_found (h : .found t ∈ segments toUpperCase htmlrex (escape text)) :
    t ∈ htmlrex.language toUpperCase := by
  obtain ⟨l, r, hl⟩ := List.append_of_mem h
  exact (first_of_links text hl).2

theorem link_ne_nil (h : t ∈ htmlrex.language toUpperCase) : t ≠ [] := by
  rintro rfl
  have hnullable : htmlrex.nullable = false := by
    rw [htmlrex_eq]
    decide
  rw [nullable_of_nil htmlrex h] at hnullable
  cases hnullable

include hcase

theorem not_mem_markup (h : t ∈ htmlrex.language toUpperCase) :
    13 ∉ markup (.found t) ∧ ∃ v s, markup (.found t) = v :: s ∧ v ≠ 10 := by
  have ht := isLinkChar_of_mem hcase h
  have hhref : 13 ∉ href t := fun hmem => isLinkChar_ne (mem_href ht hmem) (by decide) rfl
  have htext : 13 ∉ t := fun hmem => isLinkChar_ne (ht 13 hmem) (by decide) rfl
  refine ⟨?_, _, _, rfl, by decide⟩
  show 13 ∉ link t
  unfold link
  simp only [List.mem_append, not_or]
  exact ⟨⟨⟨⟨by decide, hhref⟩, by decide⟩, htext⟩, by decide⟩

theorem joined_withNewlines :
    joined (withNewlines (segments toUpperCase htmlrex (escape text))) =
      escape (normalizeNewlines text) := by
  have hpieces : normalizeNewlines (joined (segments toUpperCase htmlrex (escape text))) =
      joined (withNewlines (segments toUpperCase htmlrex (escape text))) := by
    refine normalizeNewlines_flatMap (fun _ => rfl) fun t ht => ?_
    have hmem := mem_of_found text ht
    have hchars := isLinkChar_of_mem hcase hmem
    obtain ⟨v, s, hv⟩ := List.exists_cons_of_ne_nil (link_ne_nil hmem)
    exact ⟨fun h13 => isLinkChar_ne (hchars 13 h13) (by decide) rfl, v, s, hv,
      isLinkChar_ne (hchars v (by rw [hv]; exact List.mem_cons_self)) (by decide)⟩
  rw [← hpieces, joined_segments, normalizeNewlines_escape]

/-- How the HTML of a message is read. -/
theorem tokenize_contentHtml : tokenize (normalizeNewlines (contentHtml toUpperCase text)) =
    some ((withNewlines (segments toUpperCase htmlrex (escape text))).flatMap segmentTokens) := by
  have hrun := run_markup (l := withNewlines (segments toUpperCase htmlrex (escape text)))
    (fun u hu => ne_lt_of_mem_escape (by rwa [joined_withNewlines hcase text] at hu))
    fun t ht => isLinkChar_of_mem hcase
      (mem_of_found text (mem_linksOf.mp (by rw [← linksOf_withNewlines]; exact mem_linksOf.mpr ht)))
  rw [replaceAll_markup, normalizeNewlines_flatMap (fun _ => rfl)
    fun t ht => not_mem_markup hcase (mem_of_found text ht)]
  unfold tokenize
  rw [hrun, Option.map_some]
  exact congrArg some (List.append_nil _)

/-- **Links inject no markup.** -/
theorem links_inject_nothing : ∃ segs, joined segs = escape text ∧
    contentHtml toUpperCase text = segs.flatMap markup ∧
    (∀ l t r, segs = l ++ .found t :: r → IsLink toUpperCase (joined l) t (joined r)) ∧
    ∃ T, tokenize (normalizeNewlines (contentHtml toUpperCase text)) = some T ∧
      charsOf T = escape (normalizeNewlines text) ∧
      tagsOf T = (linksOf segs).flatMap fun t => [openTag (href t), closeTag] := by
  refine ⟨segments toUpperCase htmlrex (escape text), joined_segments _ _, replaceAll_markup _ _,
    fun l t r h => ?_, _, tokenize_contentHtml hcase text, ?_, ?_⟩
  · obtain ⟨hfirst, hmem⟩ := first_of_links text h
    refine ⟨hfirst.matched, fun u hu => ?_, href_scheme hcase hmem⟩
    have hchar := isLinkChar_of_mem hcase hmem u hu
    exact ⟨isLinkChar_ne hchar (by decide), isLinkChar_ne hchar (by decide),
      isLinkChar_ne hchar (by decide), isWhiteSpace_of_isLinkChar hchar⟩
  · rw [charsOf_tokens, joined_withNewlines hcase text]
  · rw [tagsOf_tokens, linksOf_withNewlines]

omit hcase text in
theorem links_inject_nothing_of_address : ∃ segs,
    joined segs = escape (['x', '.', 'd', 'e', '/', '<'].map unit) ∧
    contentHtml asciiUpperCase (['x', '.', 'd', 'e', '/', '<'].map unit) = segs.flatMap markup ∧
    (∀ l t r, segs = l ++ .found t :: r → IsLink asciiUpperCase (joined l) t (joined r)) ∧
    ∃ T, tokenize (normalizeNewlines
        (contentHtml asciiUpperCase (['x', '.', 'd', 'e', '/', '<'].map unit))) = some T ∧
      charsOf T = escape (normalizeNewlines (['x', '.', 'd', 'e', '/', '<'].map unit)) ∧
      tagsOf T = (linksOf segs).flatMap fun t => [openTag (href t), closeTag] :=
  links_inject_nothing (fun _ _ => rfl) _

end Content

end WebsocketHub
