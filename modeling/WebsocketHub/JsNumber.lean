import WebsocketHub.RegExpSyntax
import Mathlib.Algebra.Order.Field.Basic
import Mathlib.Data.Int.Log
import Mathlib.Data.Rat.Floor
import Mathlib.Tactic.Linarith
import Mathlib.Tactic.Ring

/-!
# WebsocketHub.JsNumber — numbers of JavaScript

The finite numbers are the rational numbers that binary64 has (`IsDouble`) and every operation yields the
one nearest to the exact result, of two the even one (`nearest`).

* The sign of zero is left out: neither `===` nor the text of a number shows it.
* `nearest` is exact on a number of binary64 (`nearest_of_isDouble`) and respects the order with one
  (`nearest_le`, `le_nearest`).
* `stringToNumber` and `numberToString` are the conversions from and to strings.
-/

namespace WebsocketHub

section Defs

/-! ## Rounding -/

/-- `q` has at most 53 bits, and none below the last one. -/
def Fits (q : ℚ) : Prop := ∃ m e : ℤ, |m| ≤ 2 ^ 53 ∧ -1074 ≤ e ∧ q = m * 2 ^ e

/-- The finite numbers of binary64. -/
def IsDouble (q : ℚ) : Prop := |q| < 2 ^ 1024 ∧ Fits q

/-- The nearest integer, of two the even one. -/
def roundEven (q : ℚ) : ℤ :=
  if q - ⌊q⌋ < 1 / 2 then ⌊q⌋
  else if 1 / 2 < q - ⌊q⌋ then ⌊q⌋ + 1
  else if ⌊q⌋ % 2 = 0 then ⌊q⌋
  else ⌊q⌋ + 1

/-- The exponent of the last bit. -/
def lastBit (q : ℚ) : ℤ := max (-1074) (Int.log 2 |q| - 52)

/-- Rounding to 53 bits, without a largest number. -/
def nearest (q : ℚ) : ℚ := roundEven (q / 2 ^ lastBit q) * 2 ^ lastBit q

end Defs

variable {q r : ℚ} {n : ℤ}

/-! ## The nearest integer -/

theorem roundEven_intCast (n : ℤ) : roundEven n = n := by
  unfold roundEven
  rw [Int.floor_intCast, sub_self, if_pos (by norm_num)]

theorem floor_le_roundEven (q : ℚ) : ⌊q⌋ ≤ roundEven q := by
  unfold roundEven
  split_ifs <;> omega

theorem le_roundEven (h : (n : ℚ) ≤ q) : n ≤ roundEven q :=
  (Int.le_floor.mpr h).trans (floor_le_roundEven q)

theorem roundEven_le (h : q ≤ n) : roundEven q ≤ n := by
  have hfloor : ⌊q⌋ ≤ n := by exact_mod_cast (Int.floor_le q).trans h
  -- the integer above is taken only if `q` is not the one below
  have hceil : 1 / 2 ≤ q - ⌊q⌋ → ⌊q⌋ + 1 ≤ n := by
    intro hfrac
    have hlt : (⌊q⌋ : ℚ) < n := by linarith
    exact_mod_cast hlt
  unfold roundEven
  split_ifs with h1 h2 h3
  · exact hfloor
  · exact hceil h2.le
  · exact hfloor
  · exact hceil (not_lt.mp h1)

/-! ## Rounding to 53 bits -/

theorem two_zpow_pos (e : ℤ) : (0 : ℚ) < 2 ^ e := zpow_pos (by norm_num) e

theorem two_zpow_le {a b : ℤ} (h : a ≤ b) : (2 : ℚ) ^ a ≤ 2 ^ b :=
  zpow_le_zpow_right₀ (by norm_num) h

theorem two_zpow_add (a b : ℤ) : (2 : ℚ) ^ (a + b) = 2 ^ a * 2 ^ b := zpow_add₀ (by norm_num) a b

/-- A number is less than the one after 53 bits. -/
theorem abs_lt_of_lastBit (q : ℚ) : |q| < 2 ^ (lastBit q + 53) := by
  have hlog := Int.lt_zpow_succ_log_self (b := 2) (by norm_num) |q|
  refine lt_of_lt_of_le hlog (two_zpow_le ?_)
  have := le_max_right (-1074) (Int.log 2 |q| - 52)
  unfold lastBit
  omega

/-- Unless it is as small as can be, the last bit is the 53rd. -/
theorem le_abs_of_lastBit (hq : q ≠ 0) (h : -1074 < lastBit q) : 2 ^ (lastBit q + 52) ≤ |q| := by
  have hlast : lastBit q + 52 = Int.log 2 |q| := by
    unfold lastBit at h ⊢
    omega
  rw [hlast]
  exact Int.zpow_log_le_self (by norm_num) (abs_pos.mpr hq)

/-- A number that fits is a multiple of the last bit of `q`, or it is smaller than `q`. -/
theorem Fits.grid (hr : Fits r) (q : ℚ) : (∃ k : ℤ, r = k * 2 ^ lastBit q) ∨
    -1074 < lastBit q ∧ |r| ≤ 2 ^ (lastBit q + 52) := by
  obtain ⟨m, e, hm, he, rfl⟩ := hr
  rcases le_or_gt (lastBit q) e with hle | hlt
  · refine .inl ⟨m * 2 ^ (e - lastBit q).toNat, ?_⟩
    have hsplit : (2 : ℚ) ^ e = 2 ^ (e - lastBit q).toNat * 2 ^ lastBit q := by
      rw [← zpow_natCast, Int.toNat_of_nonneg (by omega), ← two_zpow_add, sub_add_cancel]
    rw [hsplit]
    push_cast
    ring
  · refine .inr ⟨by omega, ?_⟩
    have hmq : |(m : ℚ)| ≤ 2 ^ (53 : ℤ) := by exact_mod_cast hm
    calc |(m : ℚ) * 2 ^ e| = |(m : ℚ)| * 2 ^ e := by rw [abs_mul, abs_of_pos (two_zpow_pos e)]
      _ ≤ 2 ^ (53 : ℤ) * 2 ^ e := mul_le_mul_of_nonneg_right hmq (two_zpow_pos e).le
      _ = 2 ^ (53 + e) := (two_zpow_add _ _).symm
      _ ≤ 2 ^ (lastBit q + 52) := two_zpow_le (by omega)

theorem nearest_le_mul (h : q ≤ n * 2 ^ lastBit q) : nearest q ≤ n * 2 ^ lastBit q := by
  have hpos := two_zpow_pos (lastBit q)
  have hround : roundEven (q / 2 ^ lastBit q) ≤ n := roundEven_le ((div_le_iff₀ hpos).mpr h)
  exact mul_le_mul_of_nonneg_right (by exact_mod_cast hround) hpos.le

theorem mul_le_nearest (h : n * 2 ^ lastBit q ≤ q) : n * 2 ^ lastBit q ≤ nearest q := by
  have hpos := two_zpow_pos (lastBit q)
  have hround : n ≤ roundEven (q / 2 ^ lastBit q) := le_roundEven ((le_div_iff₀ hpos).mpr h)
  exact mul_le_mul_of_nonneg_right (by exact_mod_cast hround) hpos.le

theorem nearest_zero : nearest 0 = 0 := by
  unfold nearest
  rw [zero_div, show (0 : ℚ) = ((0 : ℤ) : ℚ) from rfl, roundEven_intCast]
  simp

theorem two_zpow_lastBit (q : ℚ) : (2 : ℚ) ^ (lastBit q + 52) = ((2 ^ 52 : ℤ) : ℚ) * 2 ^ lastBit q := by
  rw [add_comm, two_zpow_add]
  norm_num

/-- **Rounding respects the order** with the numbers that fit. -/
theorem nearest_le (hr : Fits r) (h : q ≤ r) : nearest q ≤ r := by
  rcases hr.grid q with ⟨k, rfl⟩ | ⟨hlast, hsmall⟩
  · exact nearest_le_mul h
  by_cases hq : q = 0
  · rw [hq, nearest_zero, ← hq]
    exact h
  have hbig := le_abs_of_lastBit hq hlast
  have hbounds := abs_le.mp hsmall
  rw [two_zpow_lastBit] at hbig hbounds
  rcases le_total 0 q with hsign | hsign
  · -- both are the smallest number with this last bit
    rw [abs_of_nonneg hsign] at hbig
    have heq : r = ((2 ^ 52 : ℤ) : ℚ) * 2 ^ lastBit q := le_antisymm hbounds.2 (hbig.trans h)
    rw [heq] at h ⊢
    exact nearest_le_mul h
  · rw [abs_of_nonpos hsign] at hbig
    have hle : q ≤ ((-2 ^ 52 : ℤ) : ℚ) * 2 ^ lastBit q := by
      push_cast at hbig ⊢
      linarith
    refine (nearest_le_mul hle).trans (le_trans (le_of_eq ?_) hbounds.1)
    push_cast
    ring

theorem le_nearest (hr : Fits r) (h : r ≤ q) : r ≤ nearest q := by
  rcases hr.grid q with ⟨k, rfl⟩ | ⟨hlast, hsmall⟩
  · exact mul_le_nearest h
  by_cases hq : q = 0
  · rw [hq, nearest_zero, ← hq]
    exact h
  have hbig := le_abs_of_lastBit hq hlast
  have hbounds := abs_le.mp hsmall
  rw [two_zpow_lastBit] at hbig hbounds
  rcases le_total 0 q with hsign | hsign
  · rw [abs_of_nonneg hsign] at hbig
    exact hbounds.2.trans (mul_le_nearest hbig)
  · rw [abs_of_nonpos hsign] at hbig
    have heq : r = ((-2 ^ 52 : ℤ) : ℚ) * 2 ^ lastBit q := by
      push_cast at hbig hbounds ⊢
      linarith
    rw [heq] at h ⊢
    exact mul_le_nearest h

/-- Rounding leaves a number that fits as it is. -/
theorem nearest_of_fits (h : Fits q) : nearest q = q :=
  le_antisymm (nearest_le h le_rfl) (le_nearest h le_rfl)

theorem fits_nearest (q : ℚ) : Fits (nearest q) := by
  have hpos := two_zpow_pos (lastBit q)
  have hlt : |q / 2 ^ lastBit q| < 2 ^ (53 : ℤ) := by
    rw [abs_div, abs_of_pos hpos, div_lt_iff₀ hpos, ← two_zpow_add, add_comm]
    exact abs_lt_of_lastBit q
  have hbounds := abs_lt.mp hlt
  refine ⟨roundEven (q / 2 ^ lastBit q), lastBit q, ?_, le_max_left _ _, rfl⟩
  rw [abs_le]
  constructor
  · exact le_roundEven (by push_cast; exact hbounds.1.le)
  · exact roundEven_le (by push_cast; exact hbounds.2.le)

theorem fits_intCast (h : |n| ≤ 2 ^ 53) : Fits n := ⟨n, 0, h, by norm_num, by simp⟩

section Defs

/-! ## Numbers -/

structure Double where
  val : ℚ
  isDouble : IsDouble val
deriving DecidableEq

inductive Number
  | nan
  | infinity (negative : Bool)
  | finite (x : Double)
deriving DecidableEq

namespace Number

/-- The number for an exact result. -/
def ofRat (q : ℚ) : Number :=
  if h : |nearest q| < 2 ^ 1024 then .finite ⟨nearest q, h, fits_nearest q⟩
  else .infinity (q < 0)

/-- `x - y` -/
def sub : Number → Number → Number
  | .nan, _ => .nan
  | _, .nan => .nan
  | .infinity a, .infinity b => if a = b then .nan else .infinity a
  | .infinity a, .finite _ => .infinity a
  | .finite _, .infinity b => .infinity !b
  | .finite x, .finite y => ofRat (x.val - y.val)

end Number

/-! ## Strings to numbers -/

/-- `StrWhiteSpaceChar` -/
def isStrWhiteSpace (u : CodeUnit) : Bool := RegExp.spaceSet.any fun c => c.lo ≤ u && u ≤ c.hi

def trim (s : JsString) : JsString :=
  ((s.dropWhile isStrWhiteSpace).reverse.dropWhile isStrWhiteSpace).reverse

/-- The value of one or more digits to the base `b`. -/
def digitsToNat (b : ℕ) (s : JsString) : Option ℕ :=
  if s = [] then none
  else s.foldlM (fun v u => (RegExp.hexDigit u).bind fun d => if d < b then some (b * v + d) else none) 0

/-- `SignedInteger` -/
def signedInteger : JsString → Option ℤ
  | [] => none
  | u :: s =>
    if u = unit '+' then (digitsToNat 10 s).map fun v => (v : ℤ)
    else if u = unit '-' then (digitsToNat 10 s).map fun v => -(v : ℤ)
    else (digitsToNat 10 (u :: s)).map fun v => (v : ℤ)

/-- `ExponentPart`, if there is one. -/
def exponentPart : JsString → Option ℤ
  | [] => some 0
  | u :: s => if u = unit 'e' || u = unit 'E' then signedInteger s else none

/-- `StrUnsignedDecimalLiteral`, but for `Infinity` -/
def unsignedDecimal (s : JsString) : Option ℚ :=
  let int := s.takeWhile RegExp.isDigit
  let rest := s.dropWhile RegExp.isDigit
  let point := rest.head? = some (unit '.')
  let frac := if point then rest.tail.takeWhile RegExp.isDigit else []
  let rest := if point then rest.tail.dropWhile RegExp.isDigit else rest
  (digitsToNat 10 (int ++ frac)).bind fun v => (exponentPart rest).map fun e : ℤ =>
    (v : ℚ) * 10 ^ (e - (frac.length : ℤ))

/-- `StrUnsignedDecimalLiteral` after its sign -/
def decimalLiteral (negative : Bool) (s : JsString) : Number :=
  if s = "Infinity".toList.map unit then .infinity negative
  else
    match unsignedDecimal s with
    | some q => .ofRat (if negative then -q else q)
    | none => .nan

/-- The base that the letter after a zero stands for. -/
def radix (u : CodeUnit) : Option ℕ :=
  if u = unit 'x' || u = unit 'X' then some 16
  else if u = unit 'o' || u = unit 'O' then some 8
  else if u = unit 'b' || u = unit 'B' then some 2
  else none

/-- `StrNumericLiteral` -/
def numericLiteral : JsString → Number
  | [] => .ofRat 0
  | [u] => decimalLiteral false [u]
  | u :: v :: s =>
    if u = unit '+' then decimalLiteral false (v :: s)
    else if u = unit '-' then decimalLiteral true (v :: s)
    else
      match if u = unit '0' then radix v else none with
      | some b => ((digitsToNat b s).map fun n => Number.ofRat n).getD .nan
      | none => decimalLiteral false (u :: v :: s)

/-- `Number(s)` -/
def stringToNumber (s : JsString) : Number := numericLiteral (trim s)

/-! ## Numbers to strings -/

def decimal (n : ℕ) : JsString := (Nat.toDigits 10 n).map unit

/-- `s * 10 ^ (n - k)`, where `s` has `k` digits -/
structure Decimal where
  digits : ℕ
  count : ℕ
  point : ℤ
deriving DecidableEq, Repr

namespace Decimal

def val (d : Decimal) : ℚ := d.digits * 10 ^ (d.point - d.count)

/-- `s` with `k` digits, unless it is the next power of ten -/
def ofDigits (k : ℕ) (n s : ℤ) : Decimal :=
  if s = 10 ^ k then ⟨10 ^ (k - 1), k, n + 1⟩ else ⟨s.toNat, k, n⟩

/-- The decimals with `k` digits next to `q`, the nearest first. -/
def candidates (q : ℚ) (k : ℕ) : List Decimal :=
  let n := Int.log 10 q + 1
  let x := q / 10 ^ (n - k)
  let s := roundEven x
  [ofDigits k n s, ofDigits k n (if s = ⌊x⌋ then s + 1 else ⌊x⌋)]

/-- The shortest decimal that is rounded to `q`. -/
def shortest (q : ℚ) : Decimal :=
  (((List.range 17).flatMap fun k => candidates q (k + 1)).find? fun d => nearest d.val = q).getD
    ⟨0, 1, 1⟩

def text (d : Decimal) : JsString :=
  let digits := decimal d.digits
  let exponent := (if 0 < d.point then [unit '+'] else [unit '-']) ++ decimal (d.point - 1).natAbs
  if d.count ≤ d.point ∧ d.point ≤ 21 then
    digits ++ List.replicate (d.point - d.count).toNat (unit '0')
  else if 0 < d.point ∧ d.point ≤ 21 then
    digits.take d.point.toNat ++ unit '.' :: digits.drop d.point.toNat
  else if -6 < d.point ∧ d.point ≤ 0 then
    [unit '0', unit '.'] ++ List.replicate (-d.point).toNat (unit '0') ++ digits
  else if d.count = 1 then digits ++ unit 'e' :: exponent
  else digits.take 1 ++ unit '.' :: digits.drop 1 ++ unit 'e' :: exponent

end Decimal

/-- `'' + x` -/
def numberToString : Number → JsString
  | .nan => "NaN".toList.map unit
  | .infinity negative => (if negative then [unit '-'] else []) ++ "Infinity".toList.map unit
  | .finite x =>
    if x.val = 0 then [unit '0']
    else if x.val < 0 then unit '-' :: (Decimal.shortest (-x.val)).text
    else (Decimal.shortest x.val).text

end Defs

variable {N : ℕ}

/-! ## Natural numbers -/

theorem isDouble_intCast (h : |n| ≤ 2 ^ 53) : IsDouble n := by
  refine ⟨?_, fits_intCast h⟩
  have hcast : |(n : ℚ)| ≤ 2 ^ 53 := by exact_mod_cast h
  exact lt_of_le_of_lt hcast (pow_lt_pow_right₀ (by norm_num) (by norm_num))

theorem isDouble_natCast (h : N ≤ 2 ^ 53) : IsDouble N := by
  have := isDouble_intCast (n := N) (by rw [Nat.abs_cast]; exact_mod_cast h)
  exact_mod_cast this

theorem Number.ofRat_of_isDouble (h : IsDouble q) : Number.ofRat q = .finite ⟨q, h⟩ := by
  unfold Number.ofRat
  have hq := nearest_of_fits h.2
  rw [dif_pos (by rw [hq]; exact h.1)]
  congr 2

/-- A natural number that is rounded to a smaller one than `2 ^ 53` is that number. -/
theorem eq_of_nearest_eq {M : ℕ} (h : nearest M = N) (hN : N < 2 ^ 53) : M = N := by
  rcases Nat.lt_or_ge (2 ^ 53) M with hbig | hsmall
  · -- it is not rounded below `2 ^ 53`
    have hfits : Fits ((2 ^ 53 : ℕ) : ℚ) := (isDouble_natCast le_rfl).2
    have hle := le_nearest hfits (q := M) (by exact_mod_cast hbig.le)
    rw [h] at hle
    exact absurd (by exact_mod_cast hle) (Nat.not_le.mpr hN)
  · rw [nearest_of_fits (isDouble_natCast hsmall).2] at h
    exact_mod_cast h

theorem decimal_mul_pow (hN : 0 < N) (j : ℕ) :
    decimal (N * 10 ^ j) = decimal N ++ List.replicate j (unit '0') := by
  induction j with
  | zero => simp
  | succ j ih =>
    have hdigits := Nat.toDigits_append_toDigits (b := 10) (n := N * 10 ^ j) (d := 0) (by decide)
      (by positivity) (by decide)
    have hstep : decimal (N * 10 ^ (j + 1)) = decimal (N * 10 ^ j) ++ [unit '0'] := by
      unfold decimal
      rw [show N * 10 ^ (j + 1) = 10 * (N * 10 ^ j) + 0 by ring, ← hdigits, List.map_append]
      rfl
    rw [hstep, ih, List.append_assoc, ← List.replicate_succ']

theorem isDigit_decimal (N : ℕ) : ∀ u ∈ decimal N, RegExp.isDigit u = true := by
  intro u hu
  obtain ⟨c, hc, rfl⟩ := List.mem_map.mp hu
  have hdigit := Nat.isDigit_of_mem_toDigits (by decide) (by decide) hc
  unfold Char.isDigit at hdigit
  rw [Bool.and_eq_true, decide_eq_true_eq, decide_eq_true_eq, ge_iff_le, UInt32.le_iff_toNat_le,
    UInt32.le_iff_toNat_le] at hdigit
  have hlo : 48 ≤ c.toNat := hdigit.1
  have hhi : c.toNat ≤ 57 := hdigit.2
  have hval : (unit c).toNat = c.toNat :=
    UInt16.toNat_ofNat_of_lt' (Nat.lt_of_le_of_lt hhi (by decide))
  unfold RegExp.isDigit RegExp.inRange
  rw [Bool.and_eq_true, decide_eq_true_eq, decide_eq_true_eq, UInt16.le_iff_toNat_le,
    UInt16.le_iff_toNat_le, hval]
  exact ⟨hlo, hhi⟩

namespace Decimal

theorem val_eq {d : Decimal} (h : (d.count : ℤ) ≤ d.point) :
    d.val = ((d.digits * 10 ^ (d.point - d.count).toNat : ℕ) : ℚ) := by
  unfold val
  push_cast
  rw [← zpow_natCast, Int.toNat_of_nonneg (by omega)]

theorem ofDigits_cases (k : ℕ) (n s : ℤ) : (ofDigits k n s).count = k ∧
    ((ofDigits k n s).point = n ∨ (ofDigits k n s).point = n + 1) := by
  unfold ofDigits
  split_ifs
  · exact ⟨rfl, .inr rfl⟩
  · exact ⟨rfl, .inl rfl⟩

/-- The search for a natural number ends at its own digits, or before. -/
theorem shortest_spec (h1 : 1 ≤ N) (h2 : N < 2 ^ 53) :
    ((shortest N).count : ℤ) ≤ (shortest N).point ∧ (shortest N).point ≤ 21 ∧
      nearest (shortest N).val = N := by
  have hlog : Int.log 10 (N : ℚ) = Nat.log 10 N := Int.log_natCast 10 N
  have hlt : N < 10 ^ (Nat.log 10 N + 1) := Nat.lt_pow_succ_log_self (by decide) N
  have hsmall : Nat.log 10 N < 16 :=
    Nat.log_lt_of_lt_pow (by omega) (lt_trans h2 (by norm_num))
  -- the number itself is a candidate
  have hself : (⟨N, Nat.log 10 N + 1, Nat.log 10 N + 1⟩ : Decimal) ∈
      candidates N (Nat.log 10 N + 1) := by
    refine List.mem_cons.mpr (.inl ?_)
    have hx : (N : ℚ) / 10 ^ ((Nat.log 10 N : ℤ) + 1 - ((Nat.log 10 N + 1 : ℕ) : ℤ)) = ((N : ℤ) : ℚ) := by
      push_cast
      rw [sub_self, zpow_zero, div_one]
    rw [hlog, hx, roundEven_intCast]
    unfold ofDigits
    rw [if_neg (by exact_mod_cast hlt.ne), Int.toNat_natCast]
  -- so that the search does not go further
  let early := (List.range (Nat.log 10 N + 1)).flatMap fun k => candidates N (k + 1)
  let late := ((List.range (16 - Nat.log 10 N)).map (Nat.log 10 N + 1 + ·)).flatMap
    fun k => candidates N (k + 1)
  have hsplit : (List.range 17).flatMap (fun k => candidates N (k + 1)) = early ++ late := by
    rw [show 17 = Nat.log 10 N + 1 + (16 - Nat.log 10 N) by omega, List.range_add,
      List.flatMap_append]
  have hmem : (⟨N, Nat.log 10 N + 1, Nat.log 10 N + 1⟩ : Decimal) ∈ early :=
    List.mem_flatMap.mpr ⟨Nat.log 10 N, List.mem_range.mpr (Nat.lt_succ_self _), hself⟩
  have hround : nearest (⟨N, Nat.log 10 N + 1, Nat.log 10 N + 1⟩ : Decimal).val = N := by
    rw [val_eq (by simp)]
    simpa using nearest_of_fits (isDouble_natCast h2.le).2
  obtain ⟨d, hd⟩ : ∃ d, early.find? (fun d => nearest d.val = N) = some d :=
    Option.isSome_iff_exists.mp (List.find?_isSome.mpr ⟨_, hmem, decide_eq_true hround⟩)
  have hshortest : shortest N = d := by
    unfold shortest
    rw [hsplit, List.find?_append, hd]
    rfl
  obtain ⟨k, hk, hcand⟩ := List.mem_flatMap.mp (List.mem_of_find?_eq_some hd)
  have hdigits : d.count = k + 1 ∧
      (d.point = Nat.log 10 N + 1 ∨ d.point = Nat.log 10 N + 1 + 1) := by
    rw [← hlog]
    rcases List.mem_cons.mp hcand with rfl | hcand
    · exact ofDigits_cases _ _ _
    · obtain rfl := List.mem_singleton.mp hcand
      exact ofDigits_cases _ _ _
  have hround' : nearest d.val = N :=
    of_decide_eq_true (List.find?_some (p := fun d : Decimal => decide (nearest d.val = N)) hd)
  have := List.mem_range.mp hk
  rw [hshortest]
  exact ⟨by omega, by omega, hround'⟩

end Decimal

/-- **The text of a natural number** below `2 ^ 53` is its decimal numeral. -/
theorem numberToString_natCast (h1 : 1 ≤ N) (h2 : N < 2 ^ 53) (hd : IsDouble N) :
    numberToString (.finite ⟨N, hd⟩) = decimal N := by
  obtain ⟨hcount, hpoint, hround⟩ := Decimal.shortest_spec h1 h2
  have hpos : (0 : ℚ) < N := by exact_mod_cast h1
  unfold numberToString
  simp only [if_neg hpos.ne', if_neg (not_lt.mpr hpos.le)]
  rw [Decimal.val_eq hcount] at hround
  have hval := eq_of_nearest_eq hround h2
  have hdigits : 0 < (Decimal.shortest N).digits := by
    by_contra h0
    rw [Nat.eq_zero_of_not_pos h0, Nat.zero_mul] at hval
    omega
  unfold Decimal.text
  simp only [if_pos (And.intro hcount hpoint)]
  rw [← decimal_mul_pow hdigits, hval]

end WebsocketHub
