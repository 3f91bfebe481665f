import WebsocketHub.JsNumber
import WebsocketHub.RegExpExec

/-!
# WebsocketHub.QuitCountdown — `static/chatroomwidget.js`: `quitDelay`

`/quit` starts an interval that counts its argument down and ends at the number 0 exactly.  The argument is
what stands after the command; the first decrement makes a number of it.

* `Doomed` numbers are never counted down to 0, and no step leaves them; `counts` are the others.
* The text that is shown is changed in place, so that the first digits in it have to be all of the
  argument (`texts_iff`).
-/

namespace WebsocketHub

open RegExp

section Defs

/-- The variable `seconds`. -/
inductive Seconds
  | string (s : JsString)
  | number (x : Number)
deriving DecidableEq

def Seconds.toNumber : Seconds → Number
  | .string s => stringToNumber s
  | .number x => x

def Seconds.toString : Seconds → JsString
  | .string s => s
  | .number x => numberToString x

/-- `s.replace(pattern, replacement)` for a string `pattern`; there is no `$` in the replacement. -/
def replaceString (pattern replacement : JsString) : JsString → JsString
  | [] => if pattern = [] then replacement else []
  | u :: s =>
    if pattern.isPrefixOf (u :: s) then replacement ++ (u :: s).drop pattern.length
    else u :: replaceString pattern replacement s

structure Countdown where
  seconds : Seconds
  msg : JsString
  /-- `el.textContent` -/
  shown : JsString
  /-- `clearInterval` -/
  cleared : Bool
  /-- the calls of `quitImmediately` -/
  quits : ℕ
deriving DecidableEq

def closingIn : JsString := "Closing groupchat in ".toList.map unit

def secondWord : JsString := "second".toList.map unit

def secondsWord : JsString := "seconds".toList.map unit

/-- `/\d+/` -/
def digitsRex : Node := literal r"\d+"

def quitDelay (seconds : Option JsString) : Countdown :=
  let seconds := (seconds.map Seconds.string).getD (.number (.ofRat 3))
  let suff := if seconds.toNumber = .ofRat 1 then [] else [unit 's']
  let msg := closingIn ++ seconds.toString ++ [unit ' '] ++ secondWord ++ suff ++ [unit '.']
  { seconds, msg, shown := msg, cleared := false, quits := 0 }

/-- The function of the interval. -/
def tick (c : Countdown) : Countdown :=
  if c.cleared then c
  else
    let seconds := c.seconds.toNumber.sub (.ofRat 1)
    if seconds = .ofRat 0 then
      { c with seconds := .number seconds, cleared := true, quits := c.quits + 1 }
    else
      let msg := if seconds = .ofRat 1 then replaceString secondsWord secondWord c.msg else c.msg
      let msg := replaceFirst exactCase digitsRex (fun _ => numberToString seconds) msg
      { c with seconds := .number seconds, msg, shown := msg }

/-- After some ticks the interval is cleared for good, and `quitImmediately` has been called once. -/
def Ends (c : Countdown) : Prop :=
  ∃ n, ∀ m ≥ n, (tick^[m] c).cleared = true ∧ (tick^[m] c).quits = 1

/-- The interval is cleared at the tick number `n`. -/
def TakesTicks (c : Countdown) (n : ℕ) : Prop :=
  (∀ k < n, (tick^[k] c).cleared = false) ∧ (tick^[n] c).cleared = true ∧ (tick^[n] c).quits = 1

/-- `Closing groupchat in m seconds.` -/
def countdownText (m : ℕ) : JsString :=
  closingIn ++ decimal m ++ [unit ' '] ++ secondWord ++ (if m = 1 then [] else [unit 's']) ++ [unit '.']

/-- The text before its number is counted down. -/
def secondsText (d : JsString) : JsString :=
  closingIn ++ (d ++ ([unit ' '] ++ secondsWord ++ [unit '.']))

/-- What is shown after the ticks before the last one. -/
def ShowsTexts (c : Countdown) (n : ℕ) : Prop :=
  ∀ k, 1 ≤ k → k < n → (tick^[k] c).shown = countdownText (n - k)

/-- The numbers that are counted down to 0. -/
def Counts (x : Number) : Prop := ∃ n : ℕ, 1 ≤ n ∧ (n ≤ 2 ^ 53 ∨ n = 2 ^ 53 + 2) ∧ x = .ofRat n

/-- The arguments of the command that are. -/
def EndsFrom (arg : Option JsString) : Prop := ∀ s ∈ arg, Counts (stringToNumber s)

/-- The values that are not. -/
def DoomedVal (q : ℚ) : Prop := q ≤ 0 ∨ 2 ^ 53 + 4 ≤ q ∨ q < 2 ^ 53 ∧ ∀ n : ℕ, q ≠ n

def Doomed : Number → Prop
  | .finite x => DoomedVal x.val
  | _ => True

end Defs

variable {x : Number} {q : ℚ} {n : ℕ} {c : Countdown}

/-! ## Decrements -/

theorem sub_one {x : Double} : (Number.finite x).sub (.ofRat 1) = .ofRat (x.val - 1) := by
  have hone : IsDouble 1 := by exact_mod_cast isDouble_natCast (N := 1) (by norm_num)
  rw [Number.ofRat_of_isDouble hone]
  rfl

theorem ofRat_inj {r : ℚ} (hq : IsDouble q) (hr : IsDouble r) (h : Number.ofRat q = .ofRat r) : q = r := by
  rw [Number.ofRat_of_isDouble hq, Number.ofRat_of_isDouble hr] at h
  exact congrArg Double.val (Number.finite.inj h)

/-- One is taken away exactly. -/
theorem sub_one_of_le (h1 : 1 ≤ n) (h2 : n ≤ 2 ^ 53) :
    (Number.ofRat n).sub (.ofRat 1) = .ofRat ((n - 1 : ℕ) : ℚ) := by
  rw [Number.ofRat_of_isDouble (isDouble_natCast h2), sub_one]
  push_cast [h1]
  rfl

theorem isDouble_top : IsDouble ((2 ^ 53 + 2 : ℕ) : ℚ) := by
  refine ⟨?_, 2 ^ 52 + 1, 1, by norm_num, by norm_num, by norm_num⟩
  rw [abs_of_nonneg (by positivity)]
  calc (((2 ^ 53 + 2 : ℕ)) : ℚ) < 2 ^ 54 := by norm_num
    _ ≤ 2 ^ 1024 := pow_le_pow_right₀ (by norm_num) (by norm_num)

/-- The one number that is rounded on its way. -/
theorem sub_one_top : (Number.ofRat ((2 ^ 53 + 2 : ℕ) : ℚ)).sub (.ofRat 1) = .ofRat ((2 ^ 53 : ℕ) : ℚ) := by
  have htie : nearest (2 ^ 53 + 1) = 2 ^ 53 := by decide +kernel
  have heven : IsDouble ((2 ^ 53 : ℕ) : ℚ) := isDouble_natCast le_rfl
  rw [Number.ofRat_of_isDouble isDouble_top, sub_one, Number.ofRat_of_isDouble heven]
  have hval : ((2 ^ 53 + 2 : ℕ) : ℚ) - 1 = 2 ^ 53 + 1 := by norm_num
  unfold Number.ofRat
  simp only [hval, htie]
  rw [dif_pos (by have := heven.1; push_cast at this; exact this)]
  congr 2

/-! ## Numbers that do not come to 0 -/

theorem doomed_ofRat (h : DoomedVal (nearest q)) (h0 : nearest q ≠ 0) :
    Doomed (.ofRat q) ∧ Number.ofRat q ≠ .ofRat 0 := by
  have hzero : IsDouble 0 := by exact_mod_cast isDouble_natCast (N := 0) (by norm_num)
  rw [Number.ofRat_of_isDouble hzero]
  unfold Number.ofRat
  split_ifs
  · exact ⟨h, fun heq => h0 (congrArg Double.val (Number.finite.inj heq))⟩
  · exact ⟨trivial, fun heq => nomatch heq⟩

/-- Above `2 ^ 53` all numbers are even. -/
theorem even_of_fits (h : Fits q) (hq : 2 ^ 53 < q) : ∃ k : ℤ, q = 2 * k := by
  obtain ⟨m, e, hm, -, rfl⟩ := h
  have hmq : (m : ℚ) ≤ 2 ^ 53 := by exact_mod_cast (abs_le.mp hm).2
  rcases le_or_gt e 0 with he | he
  · -- without a power of two it is not that large
    have hle : (2 : ℚ) ^ e ≤ 1 := (two_zpow_le he).trans_eq (zpow_zero 2)
    have hpos := two_zpow_pos e
    nlinarith
  · refine ⟨m * 2 ^ (e - 1).toNat, ?_⟩
    have hsplit : (2 : ℚ) ^ e = 2 * 2 ^ (e - 1).toNat := by
      rw [← zpow_natCast, Int.toNat_of_nonneg (by omega)]
      conv_lhs => rw [show e = 1 + (e - 1) by omega, two_zpow_add, zpow_one]
    rw [hsplit]
    push_cast
    ring

/-- A positive number up to `2 ^ 53` that is not below a half loses one exactly. -/
theorem fits_sub_one (h : Fits q) (hlo : 1 / 2 ≤ q) (hhi : q ≤ 2 ^ 53) : Fits (q - 1) := by
  obtain ⟨m, e, hm, he, rfl⟩ := h
  have hpos := two_zpow_pos e
  have hm0 : 0 < m := by
    by_contra hneg
    have hmq : (m : ℚ) ≤ 0 := by exact_mod_cast not_lt.mp hneg
    nlinarith
  rcases le_or_gt e 0 with hle | hgt
  · -- `1` is a multiple of the last bit
    have hunit : ((2 ^ (-e).toNat : ℤ) : ℚ) * 2 ^ e = 1 := by
      push_cast
      rw [← zpow_natCast, Int.toNat_of_nonneg (by omega), ← two_zpow_add, neg_add_cancel, zpow_zero]
    have hhalf : (2 ^ (-e).toNat : ℤ) ≤ 2 * m := by
      have : ((2 ^ (-e).toNat : ℤ) : ℚ) * 2 ^ e ≤ ((2 * m : ℤ) : ℚ) * 2 ^ e := by
        rw [hunit]
        push_cast
        linarith
      exact_mod_cast le_of_mul_le_mul_right this hpos
    refine ⟨m - 2 ^ (-e).toNat, e, ?_, he, ?_⟩
    · have hunit0 : (0 : ℤ) < 2 ^ (-e).toNat := by positivity
      rw [abs_le] at hm ⊢
      constructor
      · omega
      · omega
    · rw [Int.cast_sub, sub_mul, hunit]
  · -- it is an integer
    have hint : ((m * 2 ^ e.toNat : ℤ) : ℚ) = m * 2 ^ e := by
      push_cast
      rw [← zpow_natCast, Int.toNat_of_nonneg hgt.le]
    rw [← hint] at hhi ⊢
    have hle : m * 2 ^ e.toNat ≤ 2 ^ 53 := by exact_mod_cast hhi
    have hge : 0 < m * 2 ^ e.toNat := by positivity
    have := fits_intCast (n := m * 2 ^ e.toNat - 1) (by rw [abs_le]; constructor <;> omega)
    push_cast at this ⊢
    exact this

/-- **A decrement does not lead out of the doomed numbers**, nor to 0. -/
theorem Doomed.sub_one (h : Doomed x) : Doomed (x.sub (.ofRat 1)) ∧ x.sub (.ofRat 1) ≠ .ofRat 0 := by
  have hone : IsDouble 1 := by exact_mod_cast isDouble_natCast (N := 1) (by norm_num)
  have hzero : IsDouble 0 := by exact_mod_cast isDouble_natCast (N := 0) (by norm_num)
  have hnever : ∀ y : Number, (∀ d, y ≠ .finite d) → Doomed y ∧ y ≠ .ofRat 0 := by
    intro y hy
    rw [Number.ofRat_of_isDouble hzero]
    refine ⟨?_, hy _⟩
    cases y with
    | finite d => exact absurd rfl (hy d)
    | nan => trivial
    | infinity b => trivial
  cases x with
  | nan => exact hnever _ fun d hd => nomatch hd
  | infinity b =>
    rw [Number.ofRat_of_isDouble hone]
    exact hnever _ fun d hd => nomatch hd
  | finite x =>
    obtain ⟨q, hq⟩ := x
    rw [WebsocketHub.sub_one]
    have hneg : ∀ {r : ℚ}, Fits r → r < 0 → q - 1 ≤ r →
        Doomed (.ofRat (q - 1)) ∧ Number.ofRat (q - 1) ≠ .ofRat 0 := by
      intro r hr hr0 hle
      have hlt := lt_of_le_of_lt (nearest_le hr hle) hr0
      exact doomed_ofRat (.inl hlt.le) hlt.ne
    rcases h with h | h | ⟨hlt, hint⟩
    · -- it stays negative
      have hminus : Fits (-1) := by exact_mod_cast fits_intCast (n := -1) (by norm_num)
      have hq0 : q ≤ 0 := h
      exact hneg hminus (by norm_num) (by linarith)
    · -- it is too large to change
      have hq0 : 2 ^ 53 + 4 ≤ q := h
      have hstay : 2 ^ 53 + 4 ≤ nearest (q - 1) := by
        rcases eq_or_lt_of_le hq0 with heq | hgt
        · have htie : nearest (2 ^ 53 + 3) = 2 ^ 53 + 4 := by decide +kernel
          rw [← heq, show (2 : ℚ) ^ 53 + 4 - 1 = 2 ^ 53 + 3 by norm_num, htie]
        · obtain ⟨k, rfl⟩ := even_of_fits hq.2 (by linarith)
          have hk : 2 ^ 53 + 4 < 2 * k := by exact_mod_cast hgt
          have hk' : ((2 ^ 53 + 6 : ℤ) : ℚ) ≤ ((2 * k : ℤ) : ℚ) := by exact_mod_cast (by omega)
          push_cast at hk'
          refine le_nearest ⟨2 ^ 52 + 2, 1, by norm_num, by norm_num, by norm_num⟩ ?_
          linarith
      exact doomed_ofRat (.inr (.inl hstay)) (by linarith)
    · rcases lt_or_ge q (1 / 2) with hhalf | hhalf
      · have hminus : Fits (-1 / 2) := ⟨-1, -1, by norm_num, by norm_num, by norm_num⟩
        exact hneg hminus (by norm_num) (by linarith)
      · -- it stays between two integers
        have hexact := nearest_of_fits (fits_sub_one hq.2 hhalf hlt.le)
        have hne : q - 1 ≠ 0 := fun h0 => hint 1 (by push_cast; linarith)
        refine doomed_ofRat ?_ (by rw [hexact]; exact hne)
        rw [hexact]
        exact .inr (.inr ⟨by linarith, fun n hn => hint (n + 1) (by push_cast; linarith)⟩)

theorem counts_or_doomed (x : Number) : Counts x ∨ Doomed x := by
  cases x with
  | nan => exact .inr trivial
  | infinity b => exact .inr trivial
  | finite x =>
    obtain ⟨q, hq⟩ := x
    have hnat : ∀ {n : ℕ}, q = n → Number.finite ⟨q, hq⟩ = .ofRat n := by
      rintro n rfl
      exact (Number.ofRat_of_isDouble hq).symm
    rcases le_or_gt q 0 with h0 | h0
    · exact .inr (.inl h0)
    rcases le_or_gt (2 ^ 53 + 4) q with htop | htop
    · exact .inr (.inr (.inl htop))
    rcases le_or_gt q (2 ^ 53) with hsmall | hbig
    · by_cases hint : ∃ n : ℕ, q = n
      · obtain ⟨n, hn⟩ := hint
        have hn1 : 0 < n := by
          rw [hn] at h0
          exact_mod_cast h0
        have hn2 : n ≤ 2 ^ 53 := by
          rw [hn] at hsmall
          exact_mod_cast hsmall
        exact .inl ⟨n, hn1, .inl hn2, hnat hn⟩
      · have hall := not_exists.mp hint
        have hne : q ≠ 2 ^ 53 := fun heq => hall (2 ^ 53) (by rw [heq]; push_cast; rfl)
        exact .inr (.inr (.inr ⟨lt_of_le_of_ne hsmall hne, hall⟩))
    · -- the only even number there
      obtain ⟨k, hk⟩ := even_of_fits hq.2 hbig
      rw [hk] at hbig htop
      have hlo : 2 ^ 53 < 2 * k := by exact_mod_cast hbig
      have hhi : 2 * k < 2 ^ 53 + 4 := by exact_mod_cast htop
      obtain rfl : k = 2 ^ 52 + 1 := by omega
      exact .inl ⟨2 ^ 53 + 2, by norm_num, .inr rfl, hnat (by rw [hk]; norm_num)⟩

/-! ## How many ticks -/

theorem tick_of_cleared (h : c.cleared = true) : tick c = c := by
  unfold tick
  rw [if_pos h]

theorem tick_last (hc : c.cleared = false) (h : c.seconds.toNumber.sub (.ofRat 1) = .ofRat 0) :
    (tick c).cleared = true ∧ (tick c).quits = c.quits + 1 := by
  unfold tick
  rw [if_neg (by rw [hc]; exact Bool.false_ne_true)]
  simp only [if_pos h]
  exact ⟨trivial, trivial⟩

theorem tick_other (hc : c.cleared = false) (h : c.seconds.toNumber.sub (.ofRat 1) ≠ .ofRat 0) :
    tick c = { c with
      seconds := .number (c.seconds.toNumber.sub (.ofRat 1))
      msg := (tick c).shown
      shown := (tick c).shown } := by
  unfold tick
  rw [if_neg (by rw [hc]; exact Bool.false_ne_true)]
  simp only [if_neg h]

/-- **A doomed countdown** goes on for ever. -/
theorem not_cleared_of_doomed (hc : c.cleared = false) (h : Doomed c.seconds.toNumber) (k : ℕ) :
    (tick^[k] c).cleared = false ∧ Doomed (tick^[k] c).seconds.toNumber := by
  induction k with
  | zero => exact ⟨hc, h⟩
  | succ k ih =>
    obtain ⟨hclear, hdoomed⟩ := ih
    obtain ⟨hnext, hne⟩ := hdoomed.sub_one
    rw [Function.iterate_succ_apply', tick_other hclear hne]
    exact ⟨hclear, hnext⟩

theorem TakesTicks.ends (h : TakesTicks c n) : Ends c := by
  refine ⟨n, fun m hm => ?_⟩
  obtain ⟨-, hclear, hquits⟩ := h
  have hfix : tick^[m] c = tick^[n] c := by
    rw [← Nat.sub_add_cancel hm, Function.iterate_add_apply]
    exact Function.iterate_fixed (tick_of_cleared hclear) _
  rw [hfix]
  exact ⟨hclear, hquits⟩

theorem TakesTicks.succ (hc : c.cleared = false) (h : TakesTicks (tick c) n) : TakesTicks c (n + 1) := by
  obtain ⟨hbefore, hlast⟩ := h
  refine ⟨fun k hk => ?_, hlast⟩
  cases k with
  | zero => exact hc
  | succ k => exact hbefore k (Nat.lt_of_succ_lt_succ hk)

/-- The step of a countdown that has not come to its end. -/
theorem tick_toNumber (hc : c.cleared = false) {m : ℕ} (hm : 1 ≤ m) (hm' : m ≤ 2 ^ 53)
    (h : c.seconds.toNumber.sub (.ofRat 1) = .ofRat m) :
    (tick c).cleared = false ∧ (tick c).quits = c.quits ∧ (tick c).seconds.toNumber = .ofRat m := by
  have hne : c.seconds.toNumber.sub (.ofRat 1) ≠ .ofRat 0 := by
    rw [h]
    intro heq
    have hzero : IsDouble 0 := by exact_mod_cast isDouble_natCast (N := 0) (by norm_num)
    have := ofRat_inj (isDouble_natCast hm') hzero heq
    have hm0 : m = 0 := by exact_mod_cast this
    omega
  rw [tick_other hc hne]
  exact ⟨hc, rfl, h⟩

theorem takesTicks_of_le (hc : c.cleared = false) (hq : c.quits = 0) (h1 : 1 ≤ n) (h2 : n ≤ 2 ^ 53)
    (h : c.seconds.toNumber = .ofRat n) : TakesTicks c n := by
  induction n, h1 using Nat.le_induction generalizing c with
  | base =>
    have hzero : c.seconds.toNumber.sub (.ofRat 1) = .ofRat 0 := by
      rw [h, sub_one_of_le le_rfl h2]
      rfl
    obtain ⟨hclear, hquits⟩ := tick_last hc hzero
    refine ⟨fun k hk => ?_, hclear, by rw [hq] at hquits; exact hquits⟩
    obtain rfl := Nat.lt_one_iff.mp hk
    exact hc
  | succ n hn ih =>
    have hnext : c.seconds.toNumber.sub (.ofRat 1) = .ofRat n := by
      rw [h, sub_one_of_le (by omega) h2, Nat.add_sub_cancel]
    obtain ⟨hclear, hquits, hnumber⟩ := tick_toNumber hc hn (by omega) hnext
    exact (ih hclear (hquits.trans hq) (by omega) hnumber).succ hc

/-- **Exactly the numbers that count** come to the end. -/
theorem ends_iff (hc : c.cleared = false) (hq : c.quits = 0) : Ends c ↔ Counts c.seconds.toNumber := by
  constructor
  · rintro ⟨n, hn⟩
    refine (counts_or_doomed _).resolve_right fun hdoomed => ?_
    have := (not_cleared_of_doomed hc hdoomed n).1
    rw [(hn n le_rfl).1] at this
    cases this
  · rintro ⟨n, h1, h2 | rfl, h⟩
    · exact (takesTicks_of_le hc hq h1 h2 h).ends
    · have hnext : c.seconds.toNumber.sub (.ofRat 1) = .ofRat ((2 ^ 53 : ℕ) : ℚ) := by
        rw [h, sub_one_top]
      obtain ⟨hclear, hquits, hnumber⟩ := tick_toNumber hc (by norm_num) le_rfl hnext
      exact ((takesTicks_of_le hclear (hquits.trans hq) (by norm_num) le_rfl hnumber).succ hc).ends

/-! ## The text that is shown -/

variable {a d r s t : JsString}

theorem digitsRex_eq : digitsRex =
    .seq (.repeated ⟨1, none, true⟩ 0 0 (.atom (.set false digitSet))) .empty :=
  literal_eq (by decide)

theorem hits_digitSet (u : CodeUnit) : hits exactCase digitSet u = isDigit u := by
  rw [hits_exactCase (by decide)]
  show (isDigit u || false) = isDigit u
  exact Bool.or_false _

theorem matchAt_digitsRex (before after : JsString) :
    matchAt exactCase digitsRex before after =
      if 1 ≤ (after.takeWhile isDigit).length then
        some ⟨before.reverse, after.takeWhile isDigit, after.drop (after.takeWhile isDigit).length,
          fun _ => none⟩
      else none := by
  have hclass : (fun v => hits exactCase digitSet v != false) = isDigit := by
    funext v
    rw [hits_digitSet, Bool.bne_false]
  rw [digitsRex_eq, matchAt_seq_empty, matchAt_greedy]
  simp only [hclass]

/-- The first digits are replaced. -/
theorem replaceFirst_digitsRex {f : JsString → JsString} (ha : ∀ u ∈ a, isDigit u = false)
    (hd : ∀ u ∈ d, isDigit u = true) (hne : d ≠ []) (hr : r.head?.any isDigit = false) :
    replaceFirst exactCase digitsRex f (a ++ (d ++ r)) = a ++ f d ++ r := by
  have htake : (d ++ r).takeWhile isDigit = d := by
    rw [List.takeWhile_append_of_pos hd]
    cases r with
    | nil => simp
    | cons v r => rw [List.takeWhile_cons_of_neg (by simpa using hr), List.append_nil]
  have hnone : ∀ u ∈ a, ∀ before after, matchAt exactCase digitsRex before (u :: after) = none := by
    intro u hu before after
    rw [matchAt_digitsRex, List.takeWhile_cons_of_neg (by rw [ha u hu]; exact Bool.false_ne_true)]
    rfl
  have hexec : exec exactCase digitsRex (a ++ (d ++ r)) = some ⟨a, d, r, fun _ => none⟩ := by
    unfold exec
    rw [execFrom_append hnone, List.append_nil]
    obtain ⟨v, d, rfl⟩ := List.exists_cons_of_ne_nil hne
    rw [List.cons_append, execFrom, matchAt_digitsRex, ← List.cons_append, htake, if_pos (by simp),
      List.drop_left, List.reverse_reverse]
    rfl
  unfold replaceFirst
  rw [hexec]

theorem replaceString_skip {pattern replacement : JsString} {u : CodeUnit}
    (h : pattern.isPrefixOf (u :: s) = false) :
    replaceString pattern replacement (u :: s) = u :: replaceString pattern replacement s := by
  rw [replaceString, if_neg (by rw [h]; exact Bool.false_ne_true)]

theorem replaceString_append {pattern replacement : JsString}
    (h : ∀ u ∈ a, ∀ s, pattern.isPrefixOf (u :: s) = false) :
    replaceString pattern replacement (a ++ s) = a ++ replaceString pattern replacement s := by
  induction a with
  | nil => rfl
  | cons u a ih =>
    rw [List.cons_append, replaceString_skip (h u List.mem_cons_self _),
      ih fun v hv => h v (List.mem_cons_of_mem _ hv), List.cons_append]

theorem replaceString_closingIn : replaceString secondsWord secondWord (closingIn ++ s) =
    closingIn ++ replaceString secondsWord secondWord s := rfl

/-- The singular. -/
theorem replaceString_secondsText (hd : ∀ u ∈ d, isDigit u = true) :
    replaceString secondsWord secondWord (secondsText d) =
      closingIn ++ (d ++ ([unit ' '] ++ secondWord ++ [unit '.'])) := by
  have hskip : ∀ u ∈ d, ∀ s, secondsWord.isPrefixOf (u :: s) = false := by
    intro u hu s
    have hne : unit 's' ≠ u := by
      rintro rfl
      exact absurd (hd _ hu) (by decide)
    show (unit 's' == u && _) = false
    rw [beq_eq_false_iff_ne.mpr hne, Bool.false_and]
  unfold secondsText
  rw [replaceString_closingIn, replaceString_append hskip]
  rfl

theorem closingIn_isDigit : ∀ u ∈ closingIn, isDigit u = false := by
  have hall : closingIn.all (fun u => !isDigit u) = true := by decide
  intro u hu
  simpa using List.all_eq_true.mp hall u hu

theorem decimal_ne_nil (m : ℕ) : decimal m ≠ [] := by
  unfold decimal
  rw [Ne, List.map_eq_nil_iff]
  exact Nat.toDigits_ne_nil

theorem countdownText_of_ne {m : ℕ} (h : m ≠ 1) : countdownText m = secondsText (decimal m) := by
  unfold countdownText secondsText
  rw [if_neg h]
  simp only [List.append_assoc]
  rfl

theorem countdownText_one :
    countdownText 1 = closingIn ++ (decimal 1 ++ ([unit ' '] ++ secondWord ++ [unit '.'])) := rfl

theorem tick_shown (hc : c.cleared = false) {m : ℕ} (hm : 1 ≤ m) (hm' : m ≤ 2 ^ 53)
    (h : c.seconds.toNumber.sub (.ofRat 1) = .ofRat m) :
    (tick c).shown = replaceFirst exactCase digitsRex (fun _ => numberToString (.ofRat m))
      (if m = 1 then replaceString secondsWord secondWord c.msg else c.msg) ∧
    (tick c).msg = (tick c).shown := by
  have hdouble := isDouble_natCast hm'
  have hzero : IsDouble 0 := by exact_mod_cast isDouble_natCast (N := 0) (by norm_num)
  have hone : IsDouble 1 := by exact_mod_cast isDouble_natCast (N := 1) (by norm_num)
  have hne0 : Number.ofRat m ≠ .ofRat 0 := by
    intro heq
    have := ofRat_inj hdouble hzero heq
    have hm0 : m = 0 := by exact_mod_cast this
    omega
  have hone_iff : Number.ofRat m = .ofRat 1 ↔ m = 1 := by
    constructor
    · intro heq
      exact_mod_cast ofRat_inj hdouble hone heq
    · rintro rfl
      push_cast
      rfl
  unfold tick
  rw [if_neg (by rw [hc]; exact Bool.false_ne_true)]
  simp only [h, if_neg hne0, hone_iff]
  exact ⟨trivial, trivial⟩

/-- **One tick** of a text whose number is all digits. -/
theorem tick_secondsText (hc : c.cleared = false) {m : ℕ} (hm : 1 ≤ m) (hm' : m < 2 ^ 53)
    (h : c.seconds.toNumber.sub (.ofRat 1) = .ofRat m) (hmsg : c.msg = secondsText d)
    (hd : ∀ u ∈ d, isDigit u = true) (hne : d ≠ []) :
    (tick c).shown = countdownText m ∧ (tick c).msg = countdownText m := by
  obtain ⟨hshown, hmsg'⟩ := tick_shown hc hm hm'.le h
  have htext : numberToString (.ofRat m) = decimal m := by
    rw [Number.ofRat_of_isDouble (isDouble_natCast hm'.le)]
    exact numberToString_natCast hm hm' _
  rw [hmsg', hshown, htext, hmsg]
  suffices hr : replaceFirst exactCase digitsRex (fun _ => decimal m)
      (if m = 1 then replaceString secondsWord secondWord (secondsText d) else secondsText d) =
      countdownText m from ⟨hr, hr⟩
  split_ifs with hone
  · subst hone
    rw [replaceString_secondsText hd, replaceFirst_digitsRex closingIn_isDigit hd hne (by decide),
      countdownText_one, List.append_assoc]
  · rw [secondsText, replaceFirst_digitsRex closingIn_isDigit hd hne (by decide),
      countdownText_of_ne hone, secondsText, List.append_assoc]

/-- **The texts of a countdown** from a number that is all digits. -/
theorem showsTexts_of_digits (hc : c.cleared = false) (h1 : 1 ≤ n) (h2 : n ≤ 2 ^ 53)
    (h : c.seconds.toNumber = .ofRat n) (hmsg : n ≠ 1 → c.msg = secondsText d)
    (hd : ∀ u ∈ d, isDigit u = true) (hne : d ≠ []) : ShowsTexts c n := by
  induction n, h1 using Nat.le_induction generalizing c d with
  | base => exact fun k hk hk' => absurd hk (Nat.not_le.mpr hk')
  | succ n hn ih =>
    have hnext : c.seconds.toNumber.sub (.ofRat 1) = .ofRat n := by
      rw [h, sub_one_of_le (by omega) h2, Nat.add_sub_cancel]
    obtain ⟨hclear, -, hnumber⟩ := tick_toNumber hc hn (by omega) hnext
    obtain ⟨hshown, htext⟩ := tick_secondsText hc hn (by omega) hnext (hmsg (by omega)) hd hne
    intro k hk hk'
    obtain ⟨k, rfl⟩ : ∃ j, k = j + 1 := ⟨k - 1, by omega⟩
    rw [Function.iterate_succ_apply]
    rcases Nat.eq_zero_or_pos k with rfl | hpos
    · exact hshown
    · have := ih hclear (by omega) hnumber (fun hone => htext.trans (countdownText_of_ne hone))
        (isDigit_decimal n) (decimal_ne_nil n) k hpos (by omega)
      rw [this, Nat.add_sub_add_right]

/-! ## An argument that is not all digits -/

/-- The characters that are not replaced. -/
def nonDigits (s : JsString) : ℕ := s.countP fun u => !isDigit u

theorem nonDigits_append (s t : JsString) : nonDigits (s ++ t) = nonDigits s + nonDigits t :=
  List.countP_append

theorem nonDigits_eq_zero : nonDigits s = 0 ↔ ∀ u ∈ s, isDigit u = true := by
  unfold nonDigits
  rw [List.countP_eq_zero]
  simp

theorem nonDigits_replaceFirst (hr : ∀ u ∈ r, isDigit u = true) :
    nonDigits (replaceFirst exactCase digitsRex (fun _ => r) s) = nonDigits s := by
  unfold replaceFirst
  cases hm : exec exactCase digitsRex s with
  | none => rfl
  | some m =>
    obtain ⟨hsplit, hlang⟩ := execFrom_some hm
    have hdigits : ∀ u ∈ m.text, isDigit u = true := by
      refine forall_of_language digitsRex ?_ m.text hlang
      rw [digitsRex_eq]
      intro a ha t ht u hu
      obtain rfl : a = .set false digitSet := by
        simpa [Node.leaves] using ha
      obtain ⟨v, rfl, hv⟩ := ht
      obtain rfl := List.mem_singleton.mp hu
      rwa [hits_digitSet, Bool.bne_false] at hv
    have hs : s = m.before ++ m.text ++ m.after := hsplit
    conv_rhs => rw [hs]
    simp only [nonDigits_append, nonDigits_eq_zero.mpr hr, nonDigits_eq_zero.mpr hdigits]

theorem nonDigits_replaceString {pattern replacement : JsString} (h : pattern <:+: s) :
    nonDigits (replaceString pattern replacement s) + nonDigits pattern =
      nonDigits s + nonDigits replacement := by
  induction s with
  | nil =>
    obtain rfl := List.infix_nil.mp h
    unfold replaceString
    rw [if_pos rfl]
    exact Nat.add_comm _ _
  | cons u s ih =>
    by_cases hp : pattern.isPrefixOf (u :: s) = true
    · obtain ⟨t, ht⟩ := List.isPrefixOf_iff_prefix.mp hp
      rw [replaceString, if_pos hp, ← ht, List.drop_left, nonDigits_append, nonDigits_append]
      omega
    · rw [replaceString_skip (Bool.not_eq_true _ ▸ hp)]
      rcases List.infix_cons_iff.mp h with hhead | hinfix
      · exact absurd (List.isPrefixOf_iff_prefix.mpr hhead) hp
      · have := ih hinfix
        show nonDigits ([u] ++ _) + _ = nonDigits ([u] ++ s) + _
        rw [nonDigits_append, nonDigits_append]
        omega

/-- After the first tick the text has as many other characters as it should only if the argument has
none. -/
theorem digits_of_showsTexts (hc : c.cleared = false) (h1 : 2 ≤ n) (h2 : n ≤ 2 ^ 53)
    (h : c.seconds.toNumber = .ofRat n) (hmsg : c.msg = secondsText d) (htexts : ShowsTexts c n) :
    ∀ u ∈ d, isDigit u = true := by
  have hnext : c.seconds.toNumber.sub (.ofRat 1) = .ofRat ((n - 1 : ℕ) : ℚ) := by
    rw [h, sub_one_of_le (by omega) h2]
  have hfirst := htexts 1 le_rfl (by omega)
  rw [Function.iterate_one, (tick_shown hc (by omega) (by omega) hnext).1, hmsg] at hfirst
  have htext : ∀ u ∈ numberToString (.ofRat ((n - 1 : ℕ) : ℚ)), isDigit u = true := by
    rw [Number.ofRat_of_isDouble (isDouble_natCast (by omega)),
      numberToString_natCast (by omega) (by omega)]
    exact isDigit_decimal _
  have hcount := congrArg nonDigits hfirst
  rw [nonDigits_replaceFirst htext] at hcount
  have hdecimal := nonDigits_eq_zero.mpr (isDigit_decimal (n - 1))
  rw [← nonDigits_eq_zero]
  split_ifs at hcount with hone
  · have hinfix : secondsWord <:+: secondsText d :=
      ⟨closingIn ++ (d ++ [unit ' ']), [unit '.'], by simp [secondsText]⟩
    have hreplaced : nonDigits (replaceString secondsWord secondWord (secondsText d)) +
        nonDigits secondsWord = nonDigits (secondsText d) + nonDigits secondWord :=
      nonDigits_replaceString hinfix
    rw [hone, countdownText_one] at hcount
    rw [hone] at hdecimal
    simp only [secondsText, nonDigits_append, hdecimal] at hcount hreplaced
    have hword : nonDigits secondsWord = nonDigits secondWord + 1 := by decide
    omega
  · rw [countdownText_of_ne hone] at hcount
    simp only [secondsText, nonDigits_append, hdecimal] at hcount
    omega

/-! ## The command -/

variable {arg : Option JsString}

theorem counts_of_le (h1 : 1 ≤ n) (h2 : n ≤ 2 ^ 53) : Counts (.ofRat n) := ⟨n, h1, .inl h2, rfl⟩

theorem quitDelay_msg (h2 : 2 ≤ n) (hn : n ≤ 2 ^ 53)
    (h : (quitDelay arg).seconds.toNumber = .ofRat n) :
    (quitDelay arg).msg = secondsText (quitDelay arg).seconds.toString := by
  have hone : IsDouble 1 := by exact_mod_cast isDouble_natCast (N := 1) (by norm_num)
  have hne : (quitDelay arg).seconds.toNumber ≠ .ofRat 1 := by
    rw [h]
    intro heq
    have hn1 : n = 1 := by exact_mod_cast ofRat_inj (isDouble_natCast hn) hone heq
    omega
  have hmsg : (quitDelay arg).msg = closingIn ++ (quitDelay arg).seconds.toString ++ [unit ' '] ++
      secondWord ++ (if (quitDelay arg).seconds.toNumber = .ofRat 1 then [] else [unit 's']) ++
        [unit '.'] := rfl
  rw [hmsg, if_neg hne]
  unfold secondsText
  simp only [List.append_assoc]
  rfl

/-- Without an argument it is three seconds. -/
theorem quitDelay_none_toString : (quitDelay none).seconds.toString = decimal 3 := by
  have hthree : IsDouble ((3 : ℕ) : ℚ) := isDouble_natCast (by norm_num)
  show numberToString (.ofRat ((3 : ℕ) : ℚ)) = _
  rw [Number.ofRat_of_isDouble hthree]
  exact numberToString_natCast (by norm_num) (by norm_num) _

/-- Exactly the numerals are shown as they should be, the number 1 apart. -/
theorem showsTexts_iff (h1 : 1 ≤ n) (h2 : n ≤ 2 ^ 53)
    (h : (quitDelay arg).seconds.toNumber = .ofRat n) : ShowsTexts (quitDelay arg) n ↔
      n = 1 ∨ ∀ s ∈ arg, ∀ u ∈ s, isDigit u = true := by
  constructor
  · intro htexts
    rcases Nat.eq_or_lt_of_le h1 with hone | htwo
    · exact .inl hone.symm
    · refine .inr ?_
      rintro s rfl
      exact digits_of_showsTexts rfl htwo h2 h (quitDelay_msg htwo h2 h) htexts
  · rintro (rfl | hdigits)
    · exact fun k hk hk' => absurd hk (Nat.not_le.mpr hk')
    cases arg with
    | none =>
      have hd := quitDelay_none_toString
      exact showsTexts_of_digits rfl h1 h2 h (fun hne => quitDelay_msg (by omega) h2 h)
        (hd ▸ isDigit_decimal 3) (hd ▸ decimal_ne_nil 3)
    | some s =>
      refine showsTexts_of_digits rfl h1 h2 h (fun hne => quitDelay_msg (by omega) h2 h)
        (hdigits s rfl) ?_
      -- the empty argument is 0
      rintro rfl
      have hzero : IsDouble 0 := by exact_mod_cast isDouble_natCast (N := 0) (by norm_num)
      have hnumber : Number.ofRat 0 = .ofRat n := h
      have hn0 : n = 0 := by exact_mod_cast (ofRat_inj hzero (isDouble_natCast h2) hnumber).symm
      omega

/-- **The countdown ends** exactly from the numbers that count, after as many ticks, and shows what it
should exactly for the numerals. -/
theorem quit_countdown (arg : Option JsString) :
    (Ends (quitDelay arg) ↔ EndsFrom arg) ∧
    ∀ n : ℕ, 1 ≤ n → n < 2 ^ 53 → (quitDelay arg).seconds.toNumber = .ofRat n →
      TakesTicks (quitDelay arg) n ∧
      (ShowsTexts (quitDelay arg) n ↔ n = 1 ∨ ∀ s ∈ arg, ∀ u ∈ s, isDigit u = true) := by
  refine ⟨?_, fun n h1 h2 h => ⟨takesTicks_of_le rfl rfl h1 h2.le h, showsTexts_iff h1 h2.le h⟩⟩
  rw [ends_iff rfl rfl]
  cases arg with
  | none =>
    have hthree : Counts (.ofRat ((3 : ℕ) : ℚ)) := counts_of_le (by norm_num) (by norm_num)
    exact iff_of_true hthree fun s hs => nomatch hs
  | some s => exact ⟨fun hs t ht => Option.some.inj ht ▸ hs, fun hs => hs s rfl⟩

/-- `/quit 2`. -/
theorem quit_countdown_of_two :
    (quitDelay (some [unit '2'])).seconds.toNumber = .ofRat ((2 : ℕ) : ℚ) ∧
    TakesTicks (quitDelay (some [unit '2'])) 2 ∧
    (ShowsTexts (quitDelay (some [unit '2'])) 2 ↔
      2 = 1 ∨ ∀ s ∈ some [unit '2'], ∀ u ∈ s, isDigit u = true) :=
  have h : (quitDelay (some [unit '2'])).seconds.toNumber = .ofRat ((2 : ℕ) : ℚ) := by decide +kernel
  ⟨h, (quit_countdown (some [unit '2'])).2 2 (by norm_num) (by norm_num) h⟩

/-- **`/quit 0` counts for ever**, and after one tick `/quit 0x10` shows `15x10`. -/
theorem quit_zero_never_ends :
    ¬Ends (quitDelay (some [unit '0'])) ∧
    (tick (quitDelay (some (['0', 'x', '1', '0'].map unit)))).shown =
      closingIn ++ ['1', '5', 'x', '1', '0', ' '].map unit ++ secondsWord ++ [unit '.'] := by
  constructor
  · rintro ⟨n, hn⟩
    have hzero : (quitDelay (some [unit '0'])).seconds.toNumber = .ofRat ((0 : ℕ) : ℚ) := by
      decide +kernel
    have hdoomed : Doomed (quitDelay (some [unit '0'])).seconds.toNumber := by
      rw [hzero, Number.ofRat_of_isDouble (isDouble_natCast (by norm_num))]
      exact .inl (by norm_num)
    have := (not_cleared_of_doomed rfl hdoomed n).1
    rw [(hn n le_rfl).1] at this
    cases this
  · decide +kernel

end WebsocketHub
