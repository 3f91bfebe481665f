import Mathlib.Data.UInt
import Mathlib.Data.Char

/-!
# WebsocketHub.Utf — strings of code units, of scalar values and of bytes

A string of 16-bit code units may hold surrogates that are not in a pair.  Made a sequence of scalar values
(`scalars`) each of these becomes U+FFFD, and nothing else is lost (`toWellFormed_eq_self_iff`).  Scalar
values go to bytes and back unchanged.
-/

namespace WebsocketHub.Utf

section Defs

def isLead (u : UInt16) : Bool := 0xD800 ≤ u.toNat && u.toNat < 0xDC00

def isTrail (u : UInt16) : Bool := 0xDC00 ≤ u.toNat && u.toNat < 0xE000

def isSurrogate (u : UInt16) : Bool := isLead u || isTrail u

/-- A code unit that is in no pair. -/
def scalar (u : UInt16) : Char := if isSurrogate u then '\uFFFD' else Char.ofNat u.toNat

def pair (u v : UInt16) : Char :=
  Char.ofNat (0x10000 + (u.toNat - 0xD800) * 0x400 + (v.toNat - 0xDC00))

def scalars : List UInt16 → List Char
  | [] => []
  | [u] => [scalar u]
  | u :: v :: s => if isLead u && isTrail v then pair u v :: scalars s else scalar u :: scalars (v :: s)

def charUnits (c : Char) : List UInt16 :=
  if c.toNat < 0x10000 then [UInt16.ofNat c.toNat]
  else [UInt16.ofNat (0xD800 + (c.toNat - 0x10000) / 0x400),
    UInt16.ofNat (0xDC00 + (c.toNat - 0x10000) % 0x400)]

def units (cs : List Char) : List UInt16 := cs.flatMap charUnits

/-- `s.toWellFormed()` -/
def toWellFormed (s : List UInt16) : List UInt16 := units (scalars s)

/-- Every surrogate is in a pair. -/
def isWellFormed : List UInt16 → Bool
  | [] => true
  | [u] => !isSurrogate u
  | u :: v :: s =>
    if isLead u && isTrail v then isWellFormed s else !isSurrogate u && isWellFormed (v :: s)

def encode (cs : List Char) : List UInt8 := cs.flatMap String.utf8EncodeChar

/-- `none` for bytes that are not UTF-8. -/
def decode (b : List UInt8) : Option (List Char) := b.toByteArray.utf8Decode?.map Array.toList

/-- A string of code units in bytes. -/
def bytesOf (s : List UInt16) : List UInt8 := encode (scalars s)

def ofBytes (b : List UInt8) : Option (List UInt16) := (decode b).map units

end Defs

variable {u v : UInt16} {s a b : List UInt16} {c : Char} {cs : List Char}

/-! ## Code units and scalar values -/

theorem isLead_iff : isLead u = true ↔ 0xD800 ≤ u.toNat ∧ u.toNat < 0xDC00 := by
  rw [isLead, Bool.and_eq_true, decide_eq_true_eq, decide_eq_true_eq]

theorem isTrail_iff : isTrail u = true ↔ 0xDC00 ≤ u.toNat ∧ u.toNat < 0xE000 := by
  rw [isTrail, Bool.and_eq_true, decide_eq_true_eq, decide_eq_true_eq]

theorem isSurrogate_iff : isSurrogate u = true ↔ 0xD800 ≤ u.toNat ∧ u.toNat < 0xE000 := by
  rw [isSurrogate, Bool.or_eq_true, isLead_iff, isTrail_iff]
  omega

theorem isLead_of_not_isSurrogate (h : isSurrogate u = false) : isLead u = false :=
  (Bool.or_eq_false_iff.mp h).1

theorem isTrail_of_not_isSurrogate (h : isSurrogate u = false) : isTrail u = false :=
  (Bool.or_eq_false_iff.mp h).2

theorem toNat_ofNat_char {n : ℕ} (h : n.isValidChar) : (Char.ofNat n).toNat = n := by
  rw [Char.ofNat, dif_pos h]
  rfl

theorem toNat_scalar (h : isSurrogate u = false) : (scalar u).toNat = u.toNat := by
  have hlt := UInt16.toNat_lt u
  have hu := mt isSurrogate_iff.mpr (Bool.eq_false_iff.mp h)
  rw [scalar, h, if_neg Bool.false_ne_true, toNat_ofNat_char]
  show u.toNat < 0xD800 ∨ 0xDFFF < u.toNat ∧ u.toNat < 0x110000
  omega

theorem toNat_pair (hu : isLead u = true) (hv : isTrail v = true) :
    (pair u v).toNat = 0x10000 + (u.toNat - 0xD800) * 0x400 + (v.toNat - 0xDC00) := by
  rw [isLead_iff] at hu
  rw [isTrail_iff] at hv
  rw [pair, toNat_ofNat_char]
  refine .inr ⟨?_, ?_⟩ <;> omega

theorem charUnits_of_lt (h : c.toNat < 0x10000) : charUnits c = [UInt16.ofNat c.toNat] := if_pos h

theorem charUnits_scalar (h : isSurrogate u = false) : charUnits (scalar u) = [u] := by
  have hlt := UInt16.toNat_lt u
  rw [charUnits_of_lt (by rw [toNat_scalar h]; exact hlt), toNat_scalar h, UInt16.ofNat_toNat]

theorem charUnits_pair (hu : isLead u = true) (hv : isTrail v = true) :
    charUnits (pair u v) = [u, v] := by
  have hpair := toNat_pair hu hv
  rw [isLead_iff] at hu
  rw [isTrail_iff] at hv
  rw [charUnits, if_neg (by omega), hpair]
  have hlead : 0xD800 + (0x10000 + (u.toNat - 0xD800) * 0x400 + (v.toNat - 0xDC00) - 0x10000) / 0x400 =
      u.toNat := by omega
  have htrail : 0xDC00 + (0x10000 + (u.toNat - 0xD800) * 0x400 + (v.toNat - 0xDC00) - 0x10000) % 0x400 =
      v.toNat := by omega
  rw [hlead, htrail, UInt16.ofNat_toNat, UInt16.ofNat_toNat]

/-- What a lone surrogate becomes. -/
theorem charUnits_replacement : charUnits '\uFFFD' = [0xFFFD] := by decide

theorem scalars_pair (hu : isLead u = true) (hv : isTrail v = true) :
    scalars (u :: v :: s) = pair u v :: scalars s := by
  rw [scalars, hu, hv]
  exact if_pos rfl

/-- A code unit that is no lead stands for itself. -/
theorem scalars_cons (hu : isLead u = false) : scalars (u :: s) = scalar u :: scalars s := by
  cases s with
  | nil => rfl
  | cons v s =>
    rw [scalars, hu]
    exact if_neg Bool.false_ne_true

/-- A text is converted in two parts, unless a pair is cut. -/
theorem scalars_append (h : ∀ v ∈ b.head?, isTrail v = false) :
    scalars (a ++ b) = scalars a ++ scalars b := by
  induction a using scalars.induct with
  | case1 => rfl
  | case2 u =>
    cases b with
    | nil => rfl
    | cons v b =>
      show scalars (u :: v :: b) = scalar u :: scalars (v :: b)
      rw [scalars, h v rfl, Bool.and_false]
      exact if_neg Bool.false_ne_true
  | case3 u v s hpair ih =>
    rw [Bool.and_eq_true] at hpair
    rw [scalars_pair hpair.1 hpair.2, List.cons_append, List.cons_append, scalars_pair hpair.1 hpair.2,
      ih, List.cons_append]
  | case4 u v s hpair ih =>
    have hleft : scalars (u :: v :: s) = scalar u :: scalars (v :: s) := by
      rw [scalars, if_neg hpair]
    have hright : scalars (u :: v :: s ++ b) = scalar u :: scalars (v :: s ++ b) := by
      show scalars (u :: v :: (s ++ b)) = scalar u :: scalars (v :: (s ++ b))
      rw [scalars, if_neg hpair]
    rw [hleft, hright, ih, List.cons_append]

theorem units_append (cs ds : List Char) : units (cs ++ ds) = units cs ++ units ds :=
  List.flatMap_append

theorem units_cons (c : Char) (cs : List Char) : units (c :: cs) = charUnits c ++ units cs :=
  List.flatMap_cons

/-- Nothing but lone surrogates is lost. -/
theorem toWellFormed_eq_self_iff : toWellFormed s = s ↔ isWellFormed s = true := by
  induction s using scalars.induct with
  | case1 => exact ⟨fun _ => rfl, fun _ => rfl⟩
  | case2 u =>
    show charUnits (scalar u) ++ [] = [u] ↔ (!isSurrogate u) = true
    rw [List.append_nil, Bool.not_eq_true']
    refine ⟨fun h => ?_, charUnits_scalar⟩
    by_contra hu
    rw [scalar, if_pos (Bool.not_eq_false _ ▸ hu), charUnits_replacement] at h
    obtain rfl := (List.cons.inj h).1
    exact hu (by decide)
  | case3 u v s hpair ih =>
    have hw : isWellFormed (u :: v :: s) = isWellFormed s := by rw [isWellFormed, if_pos hpair]
    rw [Bool.and_eq_true] at hpair
    rw [hw, toWellFormed, scalars_pair hpair.1 hpair.2, units_cons, charUnits_pair hpair.1 hpair.2, ← ih]
    exact ⟨fun h => List.append_cancel_left h, fun h => congrArg ([u, v] ++ ·) h⟩
  | case4 u v s hpair ih =>
    have hs : scalars (u :: v :: s) = scalar u :: scalars (v :: s) := by rw [scalars, if_neg hpair]
    have hw : isWellFormed (u :: v :: s) = (!isSurrogate u && isWellFormed (v :: s)) := by
      rw [isWellFormed, if_neg hpair]
    rw [toWellFormed, hs, hw, units_cons, Bool.and_eq_true, Bool.not_eq_true', ← ih]
    by_cases hu : isSurrogate u = true
    · refine iff_of_false (fun h => ?_) (fun h => by rw [hu] at h; exact absurd h.1 (by decide))
      rw [scalar, if_pos hu, charUnits_replacement] at h
      obtain rfl := (List.cons.inj h).1
      exact absurd hu (by decide)
    · rw [Bool.not_eq_true] at hu
      rw [charUnits_scalar hu, hu, List.singleton_append, List.cons.injEq]
      exact and_congr_left' (iff_of_true rfl rfl)

/-- A text around a code unit that is no surrogate. -/
theorem toWellFormed_append_cons (hu : isSurrogate u = false) :
    toWellFormed (a ++ u :: b) = toWellFormed a ++ u :: toWellFormed b := by
  have htrail := isTrail_of_not_isSurrogate hu
  rw [toWellFormed, scalars_append (by simpa using htrail), scalars_cons (isLead_of_not_isSurrogate hu),
    units_append, units_cons, charUnits_scalar hu, List.singleton_append]
  rfl

/-- No code unit but U+FFFD is new. -/
theorem mem_of_mem_toWellFormed (hu : u ≠ 0xFFFD) (h : u ∈ toWellFormed s) : u ∈ s := by
  have hscalar : ∀ v, u ∈ charUnits (scalar v) → u = v := by
    intro v hv
    by_cases hsurrogate : isSurrogate v = true
    · rw [scalar, if_pos hsurrogate, charUnits_replacement] at hv
      exact absurd (List.mem_singleton.mp hv) hu
    · rw [charUnits_scalar (Bool.not_eq_true _ ▸ hsurrogate)] at hv
      exact List.mem_singleton.mp hv
  induction s using scalars.induct with
  | case1 => exact h
  | case2 v =>
    obtain rfl := hscalar v (by simpa [toWellFormed, scalars, units] using h)
    exact List.mem_singleton.mpr rfl
  | case3 v w s hpair ih =>
    rw [Bool.and_eq_true] at hpair
    rw [toWellFormed, scalars_pair hpair.1 hpair.2, units_cons, charUnits_pair hpair.1 hpair.2] at h
    rcases List.mem_append.mp h with h | h
    · exact List.mem_append_left s h
    · exact List.mem_append_right [v, w] (ih h)
  | case4 v w s hpair ih =>
    have hs : scalars (v :: w :: s) = scalar v :: scalars (w :: s) := by rw [scalars, if_neg hpair]
    rw [toWellFormed, hs, units_cons] at h
    rcases List.mem_append.mp h with h | h
    · exact hscalar v h ▸ List.mem_cons_self
    · exact List.mem_cons_of_mem v (ih h)

/-! ## Bytes -/

theorem toByteArray_encode (cs : List Char) : (encode cs).toByteArray = cs.utf8Encode := rfl

theorem decode_encode (cs : List Char) : decode (encode cs) = some cs := by
  rw [decode, toByteArray_encode, List.utf8Decode?_utf8Encode, Option.map_some]

/-- **Round trip** of a string of code units. -/
theorem ofBytes_bytesOf (s : List UInt16) : ofBytes (bytesOf s) = some (toWellFormed s) := by
  rw [ofBytes, bytesOf, decode_encode, Option.map_some]
  rfl

/-! ## ASCII -/

theorem utf8EncodeChar_ascii (h : c.toNat < 0x80) : String.utf8EncodeChar c = [UInt8.ofNat c.toNat] :=
  if_pos (Nat.le_of_lt_succ h)

/-- Outside ASCII, all bytes are. -/
theorem le_of_mem_utf8EncodeChar (h : 0x80 ≤ c.toNat) {b : UInt8} (hb : b ∈ String.utf8EncodeChar c) :
    0x80 ≤ b.toNat := by
  unfold String.utf8EncodeChar at hb
  have hnot : ¬c.val.toNat ≤ 0x7f := Nat.not_le.mpr h
  simp only [hnot, if_false] at hb
  split_ifs at hb <;> simp only [List.mem_cons, List.not_mem_nil, or_false] at hb <;>
    rcases hb with rfl | rfl | rfl | rfl <;> rw [UInt8.toNat_ofNat'] <;> omega

theorem scalars_cons_ascii (h : u.toNat < 0x80) : scalars (u :: s) = scalar u :: scalars s := by
  apply scalars_cons
  rw [Bool.eq_false_iff, Ne, isLead_iff]
  omega

theorem bytesOf_cons_ascii (h : u.toNat < 0x80) : bytesOf (u :: s) = UInt8.ofNat u.toNat :: bytesOf s := by
  have hsurrogate : isSurrogate u = false := by
    rw [Bool.eq_false_iff, Ne, isSurrogate_iff]
    omega
  have hchar : (scalar u).toNat = u.toNat := toNat_scalar hsurrogate
  rw [bytesOf, scalars_cons_ascii h, encode, List.flatMap_cons, utf8EncodeChar_ascii (by rw [hchar]; exact h),
    hchar]
  rfl

/-- Bytes that are ASCII, as code units. -/
theorem bytesOf_map_append {l : List UInt8} (h : ∀ b ∈ l, b.toNat < 0x80) :
    bytesOf (l.map UInt8.toUInt16 ++ s) = l ++ bytesOf s := by
  induction l with
  | nil => rfl
  | cons b l ih =>
    have hb : b.toUInt16.toNat = b.toNat := UInt8.toNat_toUInt16 b
    rw [List.map_cons, List.cons_append, bytesOf_cons_ascii (by rw [hb]; exact h b List.mem_cons_self), hb,
      UInt8.ofNat_toNat, ih fun c hc => h c (List.mem_cons_of_mem b hc), List.cons_append]

/-- A string that begins with something else than ASCII. -/
theorem head_scalars (h : 0x80 ≤ u.toNat) : ∃ c cs, scalars (u :: s) = c :: cs ∧ 0x80 ≤ c.toNat := by
  have hscalar : 0x80 ≤ (scalar u).toNat := by
    by_cases hsurrogate : isSurrogate u = true
    · rw [scalar, if_pos hsurrogate]
      decide
    · rw [toNat_scalar (Bool.eq_false_iff.mpr hsurrogate)]
      exact h
  cases s with
  | nil => exact ⟨_, _, rfl, hscalar⟩
  | cons v s =>
    by_cases hpair : isLead u = true ∧ isTrail v = true
    · refine ⟨_, _, scalars_pair hpair.1 hpair.2, ?_⟩
      rw [toNat_pair hpair.1 hpair.2]
      omega
    · refine ⟨scalar u, scalars (v :: s), ?_, hscalar⟩
      rw [scalars, if_neg (by rw [Bool.and_eq_true]; exact hpair)]

/-- A beginning that is ASCII can be seen in the bytes. -/
theorem ascii_begins_iff {l : List UInt8} (h : ∀ b ∈ l, b.toNat < 0x80) :
    l <+: bytesOf s ↔ l.map UInt8.toUInt16 <+: s := by
  induction l generalizing s with
  | nil => exact iff_of_true List.nil_prefix List.nil_prefix
  | cons b l ih =>
    have hb := h b List.mem_cons_self
    cases s with
    | nil => exact iff_of_false (by simp [bytesOf, encode, scalars]) (by simp)
    | cons u s =>
      by_cases hu : u.toNat < 0x80
      · have heq : b = UInt8.ofNat u.toNat ↔ b.toUInt16 = u := by
          rw [← UInt8.toNat_inj, ← UInt16.toNat_inj, UInt8.toNat_toUInt16, UInt8.toNat_ofNat',
            Nat.mod_eq_of_lt (by omega)]
        rw [bytesOf_cons_ascii hu, List.cons_prefix_cons, List.map_cons, List.cons_prefix_cons, heq,
          ih fun c hc => h c (List.mem_cons_of_mem b hc)]
      · obtain ⟨c, cs, hscalars, hc⟩ := head_scalars (s := s) (Nat.not_lt.mp hu)
        refine iff_of_false (fun hbegins => ?_) fun hbegins => ?_
        · obtain ⟨d, ds, hd⟩ := List.exists_cons_of_ne_nil (String.utf8EncodeChar_ne_nil (c := c))
          rw [bytesOf, hscalars, encode, List.flatMap_cons, hd, List.cons_append,
            List.cons_prefix_cons] at hbegins
          have hle := le_of_mem_utf8EncodeChar hc (b := d) (by rw [hd]; exact List.mem_cons_self)
          rw [← hbegins.1] at hle
          omega
        · rw [List.map_cons, List.cons_prefix_cons] at hbegins
          rw [← hbegins.1, UInt8.toNat_toUInt16] at hu
          exact hu hb

end WebsocketHub.Utf
