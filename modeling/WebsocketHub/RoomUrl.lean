import Mathlib.Data.Bool.AllAny
import WebsocketHub.PercentCoding
import WebsocketHub.RegExpSyntax
import WebsocketHub.Server
import WebsocketHub.Utf

/-!
# WebsocketHub.RoomUrl — from the location of a page to its room

`getWebsocketUrl` names the room of a page in a URL, the browser makes a request of it, and `handleHub` reads
the name out of the request; `handleRooms` lists the rooms whose names are links.

* `encodeURIComponent` throws on a surrogate that is in no pair: `none`.
* Of a URL without a fragment the browser sends what follows the first question mark, in UTF-8 and with the
  characters escaped that a query may not have.
-/

namespace WebsocketHub

section Defs

/-- What `getWebsocketUrl` looks at of its argument; `none` is `undefined`. -/
structure WidgetConfig where
  useTLS : Option Bool
  websockethost : Option JsString
  websocketpath : Option JsString
  room : Option JsString
deriving DecidableEq, Repr

/-- What it looks at of the document: `canonical` is the `href` of the first `[rel=canonical]`. -/
structure PageLocation where
  protocol : JsString
  origin : JsString
  pathname : JsString
  canonical : Option JsString
deriving DecidableEq, Repr

def jsText (s : String) : JsString := s.toList.map unit

/-- `v || default` -/
def orDefault (v : Option JsString) (default : JsString) : JsString :=
  if v.getD [] = [] then default else v.getD []

def getDocumentLoc (doc : PageLocation) : JsString :=
  match doc.canonical with
  | some href => href
  | none => doc.origin ++ doc.pathname

/-- The characters that `encodeURIComponent` leaves alone. -/
def isUnescaped (c : Char) : Bool := c.isAlphanum || "-_.!~*'()".toList.contains c

def encodeURIComponent (s : JsString) : Option JsString :=
  if Utf.isWellFormed s then
    some ((Utf.scalars s).flatMap fun c =>
      if isUnescaped c then [unit c]
      else (String.utf8EncodeChar c).flatMap fun b => (Percent.escape b).map UInt8.toUInt16)
  else none

variable (config : WidgetConfig) (doc : PageLocation)

def urlProto : JsString :=
  if config.useTLS.getD (doc.protocol = jsText "https:") then jsText "wss:" else jsText "ws:"

def urlHost : JsString := orDefault config.websockethost (jsText "hub.websockethub.com")

def urlPath : JsString := orDefault config.websocketpath (jsText "/hub")

def roomOfPage : JsString := orDefault config.room (getDocumentLoc doc)

def getWebsocketUrl : Option JsString :=
  (encodeURIComponent (roomOfPage config doc)).map fun room =>
    urlProto config doc ++ jsText "//" ++ urlHost config ++ urlPath config ++ jsText "?room=" ++ room

/-- The query of a URL. -/
def urlQuery (url : JsString) : JsString :=
  ((url.takeWhile (· ≠ unit '#')).dropWhile (· ≠ unit '?')).drop 1

/-- The bytes that a query may have. -/
def isQueryByte (b : UInt8) : Bool :=
  !(b.toNat ≤ 32 || [34, 35, 39, 60, 62].contains b.toNat || 126 < b.toNat)

/-- The query of the request that `new WebSocket(url)` makes. -/
def requestQuery (url : JsString) : Bytes := Percent.encode isQueryByte (Utf.bytesOf (urlQuery url))

/-- `room` -/
def roomKey : Bytes := "room".toList.flatMap String.utf8EncodeChar

/-- `r.FormValue("room")` -/
def requestRoom (url : JsString) : Option Bytes := Percent.formValue (requestQuery url) roomKey

def linkStarts : List Bytes := ["http://", "https://"].map fun s => s.toList.flatMap String.utf8EncodeChar

/-- `linkre.MatchString(name)` -/
def isLink (name : Bytes) : Bool := linkStarts.any fun l => l.isPrefixOf name

/-- The names that `handleRooms` answers with; `names` are those of `roomNames`, in some order. -/
def handleRooms (names : List Bytes) : List Bytes := names.filter isLink

/-- The host and the path have no query and no fragment of their own. -/
def WidgetConfig.Plain : Prop := ∀ u ∈ urlHost config ++ urlPath config, u ≠ unit '?' ∧ u ≠ unit '#'

instance : Decidable config.Plain :=
  List.decidableBAll (fun u => u ≠ unit '?' ∧ u ≠ unit '#') (urlHost config ++ urlPath config)

/-- What a widget and the server make of the location of a page. -/
structure JoinsRoomOfPage : Prop where
  /-- There is a URL, unless a surrogate is in no pair. -/
  fails : getWebsocketUrl config doc = none ↔ Utf.isWellFormed (roomOfPage config doc) = false
  /-- The server reads the room of the page out of the request. -/
  room : ∀ url, getWebsocketUrl config doc = some url →
    requestRoom url = some (Utf.bytesOf (roomOfPage config doc))
  /-- It has nothing to complain of, and goes on with this room. -/
  hub : ∀ url, getWebsocketUrl config doc = some url → roomOfPage config doc ≠ [] →
    handleHub (requestRoom url) .conn = ([], some (Utf.bytesOf (roomOfPage config doc)))
  /-- Two pages are led to one room only if theirs are the same. -/
  same : ∀ config' doc' url url', config'.Plain → getWebsocketUrl config doc = some url →
    getWebsocketUrl config' doc' = some url' →
    (requestRoom url = requestRoom url' ↔ roomOfPage config doc = roomOfPage config' doc')
  /-- The room is listed if it is known and the page is at a link. -/
  listed : ∀ names, Utf.bytesOf (roomOfPage config doc) ∈ handleRooms names ↔
    Utf.bytesOf (roomOfPage config doc) ∈ names ∧
      (jsText "http://" <+: roomOfPage config doc ∨ jsText "https://" <+: roomOfPage config doc)

end Defs

variable {config config' : WidgetConfig} {doc doc' : PageLocation} {s : JsString} {url url' : JsString}

/-! ## `encodeURIComponent` -/

/-- The bytes that `encodeURIComponent` leaves alone. -/
def isUnescapedByte (b : UInt8) : Bool := b.toNat < 128 && isUnescaped (Char.ofNat b.toNat)

theorem lt_of_isUnescaped {c : Char} (h : isUnescaped c = true) : c.toNat < 128 := by
  rcases Bool.or_eq_true_iff.mp h with h | h
  · have hranges : (decide (c.val ≥ 65 ∧ c.val ≤ 90) || (c.val ≥ 97 && c.val ≤ 122) ||
        (c.val ≥ 48 && c.val ≤ 57)) = true := h
    simp only [Bool.or_eq_true, Bool.and_eq_true, decide_eq_true_eq, UInt32.le_iff_toNat_le] at hranges
    show c.val.toNat < 128
    rcases hranges with (⟨-, h⟩ | ⟨-, h⟩) | ⟨-, h⟩ <;> exact Nat.lt_of_le_of_lt h (by decide)
  · have hall : ∀ c ∈ "-_.!~*'()".toList, c.toNat < 128 := List.all_iff_forall_prop.mp (by decide)
    exact hall c (List.contains_iff_mem.mp h)

theorem isUnescapedByte_of_char {c : Char} (h : c.toNat < 128) :
    isUnescapedByte (UInt8.ofNat c.toNat) = isUnescaped c := by
  have hbyte : (UInt8.ofNat c.toNat).toNat = c.toNat := by
    rw [UInt8.toNat_ofNat', Nat.mod_eq_of_lt (by omega)]
  rw [isUnescapedByte, hbyte, decide_eq_true h, Bool.true_and, Char.ofNat_toNat]

theorem unit_of_char {c : Char} (h : c.toNat < 128) : (UInt8.ofNat c.toNat).toUInt16 = unit c := by
  rw [← UInt16.toNat_inj, UInt8.toNat_toUInt16, unit, UInt8.toNat_ofNat', UInt16.toNat_ofNat',
    Nat.mod_eq_of_lt (by omega), Nat.mod_eq_of_lt (by omega)]

/-- It escapes the bytes of a string. -/
theorem encodeURIComponent_eq (h : Utf.isWellFormed s = true) : encodeURIComponent s =
    some ((Percent.encode isUnescapedByte (Utf.bytesOf s)).map UInt8.toUInt16) := by
  rw [encodeURIComponent, if_pos h, Option.some.injEq]
  unfold Percent.encode Utf.bytesOf Utf.encode
  rw [List.flatMap_assoc, List.map_flatMap]
  refine List.flatMap_congr fun c _ => ?_
  by_cases hc : c.toNat < 128
  · rw [Utf.utf8EncodeChar_ascii hc, List.flatMap_singleton, List.flatMap_singleton,
      isUnescapedByte_of_char hc]
    split_ifs
    · rw [List.map_singleton, unit_of_char hc]
    · rfl
  · -- all bytes are escaped
    rw [if_neg fun hkeep => hc (lt_of_isUnescaped hkeep), List.map_flatMap]
    refine List.flatMap_congr fun b hb => ?_
    have hle := Utf.le_of_mem_utf8EncodeChar (Nat.not_lt.mp hc) hb
    rw [isUnescapedByte, decide_eq_false (Nat.not_lt.mpr hle), Bool.false_and, if_neg Bool.false_ne_true]

theorem encodeURIComponent_eq_none : encodeURIComponent s = none ↔ Utf.isWellFormed s = false := by
  rw [encodeURIComponent]
  by_cases h : Utf.isWellFormed s = true
  · rw [if_pos h, h]
    exact iff_of_false (Option.some_ne_none _) (by decide)
  · rw [if_neg h]
    exact iff_of_true rfl (Bool.eq_false_iff.mpr h)

/-! ## The request -/

theorem isQueryByte_of_isEscape {b : UInt8} (h : Percent.isEscape b = true) : isQueryByte b = true := by
  have hcases := Percent.isEscape_cases h
  unfold isQueryByte
  simp only [List.contains_eq_mem, List.mem_cons, List.not_mem_nil, or_false, Bool.not_eq_true',
    Bool.or_eq_false_iff, decide_eq_false_iff_not]
  omega

/-- What `encodeURIComponent` makes is ASCII, and ends no query. -/
theorem ascii_of_mem_encode {b : UInt8} {bs : Bytes} (h : b ∈ Percent.encode isUnescapedByte bs) :
    b.toNat < 128 ∧ b ≠ 35 := by
  rcases Percent.mem_encode h with hkeep | hescape
  · refine ⟨of_decide_eq_true (Bool.and_eq_true_iff.mp hkeep).1, ?_⟩
    rintro rfl
    exact absurd hkeep (by decide)
  · have hcases := Percent.isEscape_cases hescape
    refine ⟨by omega, ?_⟩
    rintro rfl
    exact absurd hescape (by decide)

/-- The query of the URL. -/
theorem urlQuery_append {front room : JsString} (hfront : ∀ u ∈ front, u ≠ unit '?' ∧ u ≠ unit '#')
    (hroom : ∀ u ∈ room, u ≠ unit '#') :
    urlQuery (front ++ jsText "?room=" ++ room) = jsText "room=" ++ room := by
  have hwhole : ∀ u ∈ front ++ jsText "?room=" ++ room, decide (u ≠ unit '#') = true := by
    intro u hu
    rw [decide_eq_true_eq]
    rcases List.mem_append.mp hu with hu | hu
    · rcases List.mem_append.mp hu with hu | hu
      · exact (hfront u hu).2
      · have hkey : ∀ u ∈ jsText "?room=", u ≠ unit '#' := List.all_iff_forall_prop.mp (by decide)
        exact hkey u hu
    · exact hroom u hu
  rw [urlQuery, List.takeWhile_eq_self_iff.mpr hwhole, List.append_assoc,
    List.dropWhile_append_of_pos fun u hu => decide_eq_true (hfront u hu).1]
  rfl

/-- What is left of an encoded text when the browser has escaped what a query may not have. -/
def isKept (b : UInt8) : Bool := isUnescapedByte b && isQueryByte b

/-- The query of the request. -/
theorem requestQuery_append {front : JsString} {bs : Bytes}
    (hfront : ∀ u ∈ front, u ≠ unit '?' ∧ u ≠ unit '#') :
    requestQuery (front ++ jsText "?room=" ++ (Percent.encode isUnescapedByte bs).map UInt8.toUInt16) =
      roomKey ++ 61 :: Percent.encode isKept bs := by
  have hroom : ∀ u ∈ (Percent.encode isUnescapedByte bs).map UInt8.toUInt16, u ≠ unit '#' := by
    rintro u hu rfl
    obtain ⟨b, hb, heq⟩ := List.mem_map.mp hu
    refine (ascii_of_mem_encode hb).2 ?_
    rw [← UInt8.toNat_inj, ← UInt8.toNat_toUInt16, heq]
    rfl
  have hbytes : Utf.bytesOf (jsText "room=" ++ (Percent.encode isUnescapedByte bs).map UInt8.toUInt16) =
      (roomKey ++ [61]) ++ Percent.encode isUnescapedByte bs := by
    have hfirst : jsText "room=" = (roomKey ++ [61]).map UInt8.toUInt16 := by decide
    have hascii : ∀ b ∈ Percent.encode isUnescapedByte bs, b.toNat < 128 := by
      intro b hb
      exact (ascii_of_mem_encode hb).1
    have hrest := Utf.bytesOf_map_append (s := []) hascii
    have hnil : Utf.bytesOf [] = [] := rfl
    rw [hfirst, Utf.bytesOf_map_append (List.all_iff_forall_prop.mp (by decide)),
      ← List.append_nil (List.map _ _), hrest, hnil, List.append_nil]
  have hkey : Percent.encode isQueryByte (roomKey ++ [61]) = roomKey ++ [61] := by decide
  unfold requestQuery
  rw [urlQuery_append hfront hroom, hbytes, Percent.encode, List.flatMap_append]
  have hencode : Percent.encode isQueryByte (Percent.encode isUnescapedByte bs) = Percent.encode isKept bs :=
    Percent.encode_encode (fun b => isQueryByte_of_isEscape) bs
  unfold Percent.encode at hencode hkey ⊢
  rw [hencode, hkey, List.append_assoc]
  rfl

theorem formValue_room (bs : Bytes) :
    Percent.formValue (roomKey ++ 61 :: Percent.encode isKept bs) roomKey = some bs := by
  apply Percent.formValue_single
  · decide
  · decide
  · intro b hb
    unfold Percent.isSeparator at hb
    rw [Bool.or_eq_true, decide_eq_true_eq, decide_eq_true_eq] at hb
    rcases hb with rfl | rfl <;> decide
  · exact List.all_iff_forall_prop.mp (by decide)
  · decide

/-! ## Pages -/

theorem front_plain (h : config.Plain) : ∀ u ∈ urlProto config doc ++ jsText "//" ++ urlHost config ++
    urlPath config, u ≠ unit '?' ∧ u ≠ unit '#' := by
  intro u hu
  rw [List.append_assoc] at hu
  rcases List.mem_append.mp hu with hu | hu
  · have hproto : ∀ u ∈ jsText "wss:" ++ jsText "ws:" ++ jsText "//", u ≠ unit '?' ∧ u ≠ unit '#' :=
      List.all_iff_forall_prop.mp (by decide)
    apply hproto u
    unfold urlProto at hu
    simp only [List.mem_append] at hu ⊢
    refine hu.imp_left fun hu => ?_
    split_ifs at hu
    · exact Or.inl hu
    · exact Or.inr hu
  · exact h u hu

/-- **Round trip** of the name of a room. -/
theorem requestRoom_of_url (h : config.Plain) (hurl : getWebsocketUrl config doc = some url) :
    requestRoom url = some (Utf.bytesOf (roomOfPage config doc)) := by
  obtain ⟨room, hroom, rfl⟩ := Option.map_eq_some_iff.mp hurl
  have hwell : Utf.isWellFormed (roomOfPage config doc) = true := by
    by_contra hnot
    rw [encodeURIComponent_eq_none.mpr (Bool.eq_false_iff.mpr hnot)] at hroom
    cases hroom
  rw [encodeURIComponent_eq hwell] at hroom
  obtain rfl := Option.some.inj hroom
  rw [requestRoom, requestQuery_append (front_plain h), formValue_room]

theorem wellFormed_of_url (hurl : getWebsocketUrl config doc = some url) :
    Utf.toWellFormed (roomOfPage config doc) = roomOfPage config doc := by
  rw [Utf.toWellFormed_eq_self_iff]
  by_contra hnot
  rw [getWebsocketUrl, encodeURIComponent_eq_none.mpr (Bool.eq_false_iff.mpr hnot)] at hurl
  cases hurl

theorem bytesOf_eq_iff {t : JsString} (hs : Utf.toWellFormed s = s) (ht : Utf.toWellFormed t = t) :
    Utf.bytesOf s = Utf.bytesOf t ↔ s = t := by
  refine ⟨fun heq => ?_, fun heq => by rw [heq]⟩
  have hdecoded := Utf.ofBytes_bytesOf s
  rw [heq, Utf.ofBytes_bytesOf, Option.some.injEq, hs, ht] at hdecoded
  exact hdecoded.symm

/-- A name that is a link. -/
theorem isLink_bytesOf :
    isLink (Utf.bytesOf s) = true ↔ jsText "http://" <+: s ∨ jsText "https://" <+: s := by
  have hascii : ∀ l ∈ linkStarts, ∀ b ∈ l, b.toNat < 128 := by
    simp only [← List.all_iff_forall_prop]
    decide
  have hstarts : linkStarts.map (List.map UInt8.toUInt16) = [jsText "http://", jsText "https://"] := by decide
  have hany : isLink (Utf.bytesOf s) = true ↔ ∃ l ∈ linkStarts.map (List.map UInt8.toUInt16), l <+: s := by
    rw [isLink, List.any_eq_true]
    constructor
    · rintro ⟨l, hl, hbegins⟩
      refine ⟨_, List.mem_map_of_mem hl, ?_⟩
      exact (Utf.ascii_begins_iff (hascii l hl)).mp (List.isPrefixOf_iff_prefix.mp hbegins)
    · rintro ⟨_, hmem, hbegins⟩
      obtain ⟨l, hl, rfl⟩ := List.mem_map.mp hmem
      exact ⟨l, hl, List.isPrefixOf_iff_prefix.mpr ((Utf.ascii_begins_iff (hascii l hl)).mpr hbegins)⟩
  rw [hany, hstarts]
  simp

/-- **The room of a page**: where the host and the path that are configured have no query of their own. -/
theorem joins_room_of_page (config : WidgetConfig) (doc : PageLocation) (h : config.Plain) :
    JoinsRoomOfPage config doc where
  fails := by
    rw [getWebsocketUrl, Option.map_eq_none_iff]
    exact encodeURIComponent_eq_none
  room := fun url hurl => requestRoom_of_url h hurl
  hub := by
    intro url hurl hne
    have hbytes : Utf.bytesOf (roomOfPage config doc) ≠ [] := fun hnil =>
      hne ((bytesOf_eq_iff (wellFormed_of_url hurl) rfl).mp hnil)
    rw [requestRoom_of_url h hurl, handleHub, Option.getD_some]
    simp only [if_neg hbytes]
  same := by
    intro config' doc' url url' h' hurl hurl'
    rw [requestRoom_of_url h hurl, requestRoom_of_url h' hurl', Option.some.injEq]
    exact bytesOf_eq_iff (wellFormed_of_url hurl) (wellFormed_of_url hurl')
  listed := by
    intro names
    rw [handleRooms, List.mem_filter, isLink_bytesOf]

/-- A page with the script and nothing configured. -/
theorem joins_room_of_plain_page : JoinsRoomOfPage ⟨none, none, none, none⟩
    ⟨jsText "https:", jsText "https://example.com", jsText "/a%20b", none⟩ :=
  joins_room_of_page _ _ (by decide)

end WebsocketHub
