import Mathlib.Data.UInt
import Mathlib.Data.List.TakeWhile

/-!
# WebsocketHub.PercentCoding — percent-encoded bytes and the queries of requests

`encode keep` escapes the bytes that `keep` does not keep.  Read back by a server (`unescape`, `parseQuery`,
where `+` is a space and pairs are separated by `&` or `;`) the bytes are the same, if none of these and no
percent sign is kept (`formValue_single`); and it does not matter if the text is escaped again on its way, as
long as the escapes are kept (`encode_encode`).
-/

namespace WebsocketHub.Percent

section Defs

/-- a digit, or a capital letter -/
def hexChar (n : ℕ) : UInt8 := UInt8.ofNat (if n < 10 then 48 + n else 55 + n)

/-- `%XX` -/
def escape (b : UInt8) : List UInt8 := [37, hexChar (b.toNat / 16), hexChar (b.toNat % 16)]

def encode (keep : UInt8 → Bool) (bs : List UInt8) : List UInt8 :=
  bs.flatMap fun b => if keep b then [b] else escape b

def hexValue (b : UInt8) : Option ℕ :=
  if 48 ≤ b.toNat ∧ b.toNat ≤ 57 then some (b.toNat - 48)
  else if 65 ≤ b.toNat ∧ b.toNat ≤ 70 then some (b.toNat - 55)
  else if 97 ≤ b.toNat ∧ b.toNat ≤ 102 then some (b.toNat - 87)
  else none

/-- `none` for a percent sign without two hexadecimal digits. -/
def unescape : List UInt8 → Option (List UInt8)
  | [] => some []
  | b :: bs =>
    if b = 37 then
      match bs with
      | h :: l :: rest => (hexValue h).bind fun x => (hexValue l).bind fun y =>
          (unescape rest).map (UInt8.ofNat (16 * x + y) :: ·)
      | _ => none
    else (unescape bs).map ((if b = 43 then 32 else b) :: ·)

/-- `&` and `;` -/
def isSeparator (b : UInt8) : Bool := b = 38 || b = 59

/-- A pair, at the first `=` of a part of a query. -/
def parsePair (part : List UInt8) : Option (List UInt8 × List UInt8) :=
  if part = [] then none
  else (unescape (part.takeWhile (· ≠ 61))).bind fun key =>
    (unescape ((part.dropWhile (· ≠ 61)).drop 1)).map fun value => (key, value)

/-- The pairs of a query, without those that have a faulty escape. -/
def parseQuery (query : List UInt8) : List (List UInt8 × List UInt8) :=
  (query.splitOnP isSeparator).filterMap parsePair

/-- The first value for a key. -/
def formValue (query key : List UInt8) : Option (List UInt8) :=
  ((parseQuery query).find? fun e => e.1 = key).map Prod.snd

/-- The bytes that escapes are made of. -/
def isEscape (b : UInt8) : Bool := b = 37 || (hexValue b).isSome

end Defs

variable {keep keep' : UInt8 → Bool} {b : UInt8} {bs key : List UInt8} {n : ℕ}

/-! ## Escapes -/

theorem toNat_hexChar (hn : n < 16) : (hexChar n).toNat = if n < 10 then 48 + n else 55 + n := by
  unfold hexChar
  rw [UInt8.toNat_ofNat']
  split_ifs <;> omega

theorem hexValue_hexChar (hn : n < 16) : hexValue (hexChar n) = some n := by
  unfold hexValue
  rw [toNat_hexChar hn]
  split_ifs <;> first | omega | (rw [Option.some.injEq]; omega)

theorem div_lt (b : UInt8) : b.toNat / 16 < 16 := by
  have hlt := b.toNat_lt
  omega

theorem mod_lt (b : UInt8) : b.toNat % 16 < 16 := Nat.mod_lt _ (by decide)

theorem isEscape_of_mem_escape {c : UInt8} (h : c ∈ escape b) : isEscape c = true := by
  unfold escape at h
  rw [List.mem_cons, List.mem_cons, List.mem_singleton] at h
  rcases h with rfl | rfl | rfl
  · rfl
  · rw [isEscape, hexValue_hexChar (div_lt b), Option.isSome_some, Bool.or_true]
  · rw [isEscape, hexValue_hexChar (mod_lt b), Option.isSome_some, Bool.or_true]

theorem isEscape_cases (h : isEscape b = true) : b.toNat = 37 ∨ 48 ≤ b.toNat ∧ b.toNat ≤ 57 ∨
    65 ≤ b.toNat ∧ b.toNat ≤ 70 ∨ 97 ≤ b.toNat ∧ b.toNat ≤ 102 := by
  rcases Bool.or_eq_true_iff.mp h with h | h
  · rw [decide_eq_true_eq] at h
    exact .inl (by rw [h]; rfl)
  · unfold hexValue at h
    split_ifs at h with h₁ h₂ h₃
    · exact .inr (.inl h₁)
    · exact .inr (.inr (.inl h₂))
    · exact .inr (.inr (.inr h₃))
    · cases h

/-- What an encoded text consists of. -/
theorem mem_encode (h : b ∈ encode keep bs) : keep b = true ∨ isEscape b = true := by
  obtain ⟨c, -, hb⟩ := List.mem_flatMap.mp h
  split_ifs at hb with hc
  · rw [List.mem_singleton.mp hb]
    exact .inl hc
  · exact .inr (isEscape_of_mem_escape hb)

theorem encode_cons : encode keep (b :: bs) = (if keep b then [b] else escape b) ++ encode keep bs :=
  List.flatMap_cons

theorem encode_of_keep : ∀ {bs : List UInt8}, (∀ b ∈ bs, keep b = true) → encode keep bs = bs
  | [], _ => rfl
  | b :: bs, h => by
    rw [encode_cons, if_pos (h b List.mem_cons_self),
      encode_of_keep fun c hc => h c (List.mem_cons_of_mem b hc)]
    rfl

/-- A text that is escaped again on its way. -/
theorem encode_encode (hkeep : ∀ b, isEscape b = true → keep' b = true) (bs : List UInt8) :
    encode keep' (encode keep bs) = encode (fun b => keep b && keep' b) bs := by
  induction bs with
  | nil => rfl
  | cons b bs ih =>
    rw [encode_cons, encode_cons, ← ih]
    unfold encode
    rw [List.flatMap_append]
    congr 1
    by_cases hb : keep b = true
    · simp only [hb, if_true, Bool.true_and, List.flatMap_singleton]
    · rw [if_neg hb, if_neg (by simp [hb])]
      exact encode_of_keep fun c hc => hkeep c (isEscape_of_mem_escape hc)

/-! ## Reading -/

theorem unescape_of_ne (hb : b ≠ 37) : unescape (b :: bs) =
    (unescape bs).map ((if b = 43 then 32 else b) :: ·) := by
  rw [unescape.eq_def]
  simp only [if_neg hb]

theorem unescape_escape (b : UInt8) (bs : List UInt8) :
    unescape (escape b ++ bs) = (unescape bs).map (b :: ·) := by
  have hb : UInt8.ofNat (16 * (b.toNat / 16) + b.toNat % 16) = b := by
    rw [Nat.div_add_mod, UInt8.ofNat_toNat]
  show unescape (37 :: hexChar (b.toNat / 16) :: hexChar (b.toNat % 16) :: bs) = _
  rw [unescape, if_pos rfl]
  simp only [hexValue_hexChar (div_lt b), hexValue_hexChar (mod_lt b), Option.bind_some, hb]

/-- **Round trip**. -/
theorem unescape_encode (hpercent : keep 37 = false) (hplus : keep 43 = false) (bs : List UInt8) :
    unescape (encode keep bs) = some bs := by
  induction bs with
  | nil => rfl
  | cons b bs ih =>
    rw [encode_cons]
    by_cases hb : keep b = true
    · have hne : ∀ c, keep c = false → b ≠ c := by
        rintro c hc rfl
        rw [hb] at hc
        cases hc
      rw [if_pos hb, List.singleton_append, unescape_of_ne (hne 37 hpercent), ih, if_neg (hne 43 hplus)]
      rfl
    · rw [if_neg hb, unescape_escape, ih]
      rfl

/-- The part of a query for a key and a value. -/
theorem parsePair_append {value : List UInt8} (hkey : ∀ b ∈ key, b ≠ 61) :
    parsePair (key ++ 61 :: value) =
      (unescape key).bind fun k => (unescape value).map fun v => (k, v) := by
  have htake : (key ++ 61 :: value).takeWhile (· ≠ 61) = key := by
    rw [List.takeWhile_append_of_pos fun b hb => decide_eq_true (hkey b hb)]
    simp
  have hdrop : (key ++ 61 :: value).dropWhile (· ≠ 61) = 61 :: value := by
    rw [List.dropWhile_append_of_pos fun b hb => decide_eq_true (hkey b hb)]
    simp
  rw [parsePair, if_neg (by simp), htake, hdrop]
  rfl

/-- **Round trip** of a query with one value. -/
theorem formValue_single (hpercent : keep 37 = false) (hplus : keep 43 = false)
    (hseparator : ∀ b, isSeparator b = true → keep b = false)
    (hkey : ∀ b ∈ key, b ≠ 61 ∧ isSeparator b = false) (hread : unescape key = some key)
    (value : List UInt8) : formValue (key ++ 61 :: encode keep value) key = some value := by
  have hesc : ∀ b, isEscape b = true → isSeparator b = false := by
    intro b hb
    unfold isSeparator
    by_contra hnot
    simp only [Bool.not_eq_false, Bool.or_eq_true, decide_eq_true_eq] at hnot
    rcases hnot with rfl | rfl <;> cases hb
  have hwhole : ∀ b ∈ key ++ 61 :: encode keep value, isSeparator b = false := by
    intro b hb
    rcases List.mem_append.mp hb with hb | hb
    · exact (hkey b hb).2
    · rcases List.mem_cons.mp hb with rfl | hb
      · rfl
      · rcases mem_encode hb with hkeep | hescape
        · by_contra hnot
          rw [Bool.not_eq_false] at hnot
          rw [hseparator b hnot] at hkeep
          cases hkeep
        · exact hesc b hescape
  have hpair : parsePair (key ++ 61 :: encode keep value) = some (key, value) := by
    rw [parsePair_append fun b hb => (hkey b hb).1, hread, unescape_encode hpercent hplus]
    rfl
  rw [formValue, parseQuery, List.splitOnP_eq_singleton hwhole, List.filterMap_cons, hpair,
    List.filterMap_nil, List.find?_cons_of_pos (by simp)]
  rfl

end WebsocketHub.Percent
