import WebsocketHub.HtmlTokens
import Mathlib.Data.List.Infix

/-!
# WebsocketHub.HtmlText — the text that a reader sees of HTML

`decode` replaces the character references in a row of tokens, where a tag ends a reference, and
`textContent` is the text of a parsed string.  If the characters of the tokens are a serialised text, what
is read is that text exactly if every tag stands between two of its characters (`textContent_iff`,
`aligned_iff`).

* The table of the named references is a parameter, of which `NamedReferences` says what is needed here.
* Numeric references are not read, `none`.  Of the elements only links are: they may stand everywhere
  in a text and leave its order alone.
-/

namespace WebsocketHub.Html

open RegExp

section Defs

/-- The table of the named character references, with the four that a serialised text contains. -/
structure NamedReferences where
  /-- the name with its semicolon, if it has one -/
  value : JsString → Option JsString
  value_name : ∀ {u name}, escapeName u = some name → value name = some [u]
  value_semicolon : ∀ {u name}, escapeName u = some name → value (name ++ [unit ';']) = some [u]
  value_part : ∀ {u a b}, escapeName u = some (a ++ b) → b ≠ [] → value a = none
  /-- a semicolon ends a name -/
  value_behind : ∀ {a b}, b ≠ [] → value (a ++ unit ';' :: b) = none

variable (refs : NamedReferences)

/-- The longest name among the first `k` characters, with its length. -/
def NamedReferences.longest (s : JsString) : ℕ → Option (ℕ × JsString)
  | 0 => none
  | k + 1 =>
    match refs.value (s.take (k + 1)) with
    | some v => some (k + 1, v)
    | none => NamedReferences.longest s k

/-- The characters up to the next tag. -/
def leading : List Token → JsString
  | .char u :: T => u :: leading T
  | _ => []

/-- The number says how many characters the last reference has still to take. -/
def decode : ℕ → List Token → Option JsString
  | _, [] => some []
  | k + 1, _ :: T => decode k T
  | 0, .tag _ :: T => decode 0 T
  | 0, .char u :: T =>
    if u = unit '&' then
      if (leading T).head? = some (unit '#') then none
      else
        match refs.longest (leading T) (leading T).length with
        | some (k, v) => (decode k T).map (v ++ ·)
        | none => (decode 0 T).map (u :: ·)
    else (decode 0 T).map (u :: ·)

def isLinkToken : Token → Bool
  | .char _ => true
  | .tag t => t.name = ['a'].map unit

/-- `textContent`, after `innerHTML` has been set to `s`.  NUL is dropped in the body. -/
def textContent (s : JsString) : Option JsString :=
  (tokenize (normalizeNewlines s)).bind fun T =>
    if T.all isLinkToken then (decode refs 0 T).map (·.filter (· ≠ 0)) else none

/-- The characters of `T` are a serialised text whose references no tag cuts. -/
inductive Aligned : List Token → JsString → Prop
  | nil : Aligned [] []
  | tag (t : Tag) {T : List Token} {text : JsString} (h : Aligned T text) : Aligned (.tag t :: T) text
  | char (u : CodeUnit) {T : List Token} {text : JsString} (h : Aligned T text) :
      Aligned ((escapeChar u).map .char ++ T) (u :: text)

end Defs

variable {refs : NamedReferences} {T : List Token} {s name text : JsString} {u : CodeUnit}

/-! ## Named references -/

theorem longest_eq_none {k : ℕ} (h : ∀ j, 0 < j → j ≤ k → refs.value (s.take j) = none) :
    refs.longest s k = none := by
  induction k with
  | zero => rfl
  | succ k ih =>
    rw [NamedReferences.longest, h (k + 1) (Nat.succ_pos k) (Nat.le_refl _)]
    exact ih fun j hpos hj => h j hpos (Nat.le_succ_of_le hj)

theorem longest_eq_some {k i : ℕ} {v : JsString} (hi : refs.value (s.take (i + 1)) = some v)
    (hle : i + 1 ≤ k) (h : ∀ j, i + 1 < j → j ≤ k → refs.value (s.take j) = none) :
    refs.longest s k = some (i + 1, v) := by
  induction k with
  | zero => exact absurd hle (Nat.not_succ_le_zero i)
  | succ k ih =>
    rw [NamedReferences.longest]
    rcases Nat.eq_or_lt_of_le hle with heq | hlt
    · obtain rfl := Nat.succ.inj heq
      rw [hi]
    · rw [h (k + 1) hlt (Nat.le_refl _)]
      exact ih (Nat.le_of_lt_succ hlt) fun j hj hk => h j hj (Nat.le_succ_of_le hk)

theorem escapeName_ne_nil (h : escapeName u = some name) : name ≠ [] :=
  of_decide_eq_true (of_references (p := fun r => r.2 ≠ []) h (by decide))

theorem not_mem_reference {v : CodeUnit} (h : escapeName u = some name)
    (hv : (isLetter v || v = unit ';') = false) : v ∉ name ++ [unit ';'] := by
  intro hmem
  rw [Bool.or_eq_false_iff, decide_eq_false_iff_not] at hv
  rcases List.mem_append.mp hmem with hmem | hmem
  · rw [isLetter_escapeName h v hmem] at hv
    exact absurd hv.1 (by decide)
  · exact hv.2 (List.mem_singleton.mp hmem)

/-- A part of a name is none. -/
theorem longest_part {a b : JsString} (h : escapeName u = some (a ++ b)) (hb : b ≠ []) :
    refs.longest a a.length = none := by
  refine longest_eq_none fun j _ hj => ?_
  refine refs.value_part (u := u) (b := a.drop j ++ b) ?_ fun hnil => hb (List.append_eq_nil_iff.mp hnil).2
  rw [← List.append_assoc, List.take_append_drop]
  exact h

/-- A name without its semicolon. -/
theorem longest_name (h : escapeName u = some name) :
    refs.longest name name.length = some (name.length, [u]) := by
  obtain ⟨i, hi⟩ : ∃ i, name.length = i + 1 :=
    Nat.exists_eq_succ_of_ne_zero (mt List.length_eq_zero_iff.mp (escapeName_ne_nil h))
  rw [hi]
  refine longest_eq_some ?_ (Nat.le_refl _) fun j hj hk => absurd (Nat.lt_of_lt_of_le hj hk) (lt_irrefl _)
  rw [← hi, List.take_length]
  exact refs.value_name h

/-- A name with its semicolon, whatever follows. -/
theorem longest_semicolon (h : escapeName u = some name) :
    refs.longest (name ++ unit ';' :: s) (name ++ unit ';' :: s).length =
      some (name.length + 1, [u]) := by
  have hlength : (name ++ unit ';' :: s).length = name.length + 1 + s.length := by
    rw [List.length_append, List.length_cons]
    omega
  have htake : (name ++ unit ';' :: s).take (name.length + 1) = name ++ [unit ';'] := by
    rw [List.take_append, List.take_of_length_le (Nat.le_succ _), Nat.add_sub_cancel_left]
    rfl
  refine longest_eq_some ?_ (by omega) fun j hj hk => ?_
  · rw [htake]
    exact refs.value_semicolon h
  · -- a longer name would go on behind the semicolon
    obtain ⟨i, rfl⟩ : ∃ i, j = name.length + (i + 2) := ⟨j - name.length - 2, by omega⟩
    rw [List.take_append, List.take_of_length_le (Nat.le_add_right _ _), Nat.add_sub_cancel_left,
      List.take_succ_cons]
    refine refs.value_behind fun hnil => ?_
    have hzero := congrArg List.length hnil
    rw [List.length_take, List.length_nil] at hzero
    omega

/-! ## Decoding -/

theorem leading_le_charsOf (T : List Token) : leading T <+: charsOf T := by
  induction T with
  | nil => exact List.nil_prefix
  | cons t T ih =>
    cases t with
    | char u => exact List.cons_prefix_cons.mpr ⟨rfl, ih⟩
    | tag t => exact List.nil_prefix

/-- The characters in front are tokens. -/
theorem exists_of_leading (h : s <+: leading T) : ∃ T', T = s.map .char ++ T' := by
  induction s generalizing T with
  | nil => exact ⟨T, rfl⟩
  | cons u s ih =>
    cases T with
    | nil => exact absurd h (by simp [leading])
    | cons t T =>
      cases t with
      | tag t => exact absurd h (by simp [leading])
      | char v =>
        obtain ⟨rfl, hs⟩ := List.cons_prefix_cons.mp h
        obtain ⟨T', rfl⟩ := ih hs
        exact ⟨T', rfl⟩

theorem leading_map (s : JsString) (T : List Token) :
    leading (s.map .char ++ T) = s ++ leading T := by
  induction s with
  | nil => rfl
  | cons u s ih => exact congrArg (u :: ·) ih

/-- A tag comes next, unless the characters in front are all. -/
theorem exists_tag (h : leading T ≠ charsOf T) :
    ∃ t T', T = (leading T).map .char ++ .tag t :: T' := by
  induction T with
  | nil => exact absurd rfl h
  | cons t T ih =>
    cases t with
    | tag t => exact ⟨t, T, rfl⟩
    | char u =>
      obtain ⟨t, T', hT⟩ := ih fun heq => h (congrArg (u :: ·) heq)
      exact ⟨t, T', congrArg (.char u :: ·) hT⟩

theorem decode_skip (refs : NamedReferences) (s : JsString) (T : List Token) :
    decode refs s.length (s.map .char ++ T) = decode refs 0 T := by
  induction s with
  | nil => rfl
  | cons u s ih => exact ih

theorem decode_char (h : u ≠ unit '&') (T : List Token) :
    decode refs 0 (.char u :: T) = (decode refs 0 T).map (u :: ·) := by
  rw [decode, if_neg h]

/-- A character of the text, in one piece. -/
theorem decode_escapeChar (u : CodeUnit) (T : List Token) :
    decode refs 0 ((escapeChar u).map .char ++ T) = (decode refs 0 T).map (u :: ·) := by
  cases hname : escapeName u with
  | none =>
    rw [escapeChar_of_none hname]
    refine decode_char ?_ T
    rintro rfl
    cases hname
  | some name =>
    have hleading : leading ((name ++ [unit ';']).map .char ++ T) = name ++ unit ';' :: leading T := by
      rw [leading_map, List.append_assoc]
      rfl
    have hhash : ¬(name ++ unit ';' :: leading T).head? = some (unit '#') := by
      rw [List.head?_append_of_ne_nil _ (escapeName_ne_nil hname)]
      exact fun hhead => not_mem_reference hname (by decide)
        (List.mem_append_left _ (List.mem_of_mem_head? hhead))
    have hskip := decode_skip refs (name ++ [unit ';']) T
    rw [List.length_append, List.length_singleton] at hskip
    rw [escapeChar_of_some hname, List.map_cons, List.cons_append, decode, if_pos rfl, hleading,
      if_neg hhash, longest_semicolon hname]
    simp only
    rw [hskip]
    rfl

/-- **Links between the characters** leave the text as it is. -/
theorem Aligned.decode (h : Aligned T text) : decode refs 0 T = some text := by
  induction h with
  | nil => rfl
  | tag t h ih => exact ih
  | char u h ih =>
    rw [decode_escapeChar, ih]
    rfl

/-- Characters that begin no reference stand for themselves. -/
theorem decode_plain (refs : NamedReferences) {a b : JsString} (ha : unit '&' ∉ a) (h : charsOf T = a ++ b) :
    ∃ T', charsOf T' = b ∧ T'.length ≤ T.length ∧
      decode refs 0 T = (decode refs 0 T').map (a ++ ·) := by
  induction T generalizing a with
  | nil =>
    obtain ⟨rfl, rfl⟩ := List.append_eq_nil_iff.mp h.symm
    exact ⟨[], rfl, Nat.le_refl _, rfl⟩
  | cons t T ih =>
    cases t with
    | tag t =>
      obtain ⟨T', hT', hle, hdecode⟩ := ih ha h
      exact ⟨T', hT', Nat.le_succ_of_le hle, hdecode⟩
    | char u =>
      cases a with
      | nil =>
        refine ⟨.char u :: T, h, Nat.le_refl _, ?_⟩
        exact Option.map_id'.symm ▸ rfl
      | cons v a =>
        obtain ⟨rfl, hT⟩ := List.cons.inj h
        rw [List.mem_cons, not_or] at ha
        obtain ⟨T', hT', hle, hdecode⟩ := ih ha.2 hT
        refine ⟨T', hT', Nat.le_succ_of_le hle, ?_⟩
        rw [decode_char (Ne.symm ha.1), hdecode, Option.map_map]
        rfl

/-! ## Tags between the characters of a serialised text -/

theorem escapeChar_ne_nil (u : CodeUnit) : escapeChar u ≠ [] := by
  cases hname : escapeName u with
  | none =>
    rw [escapeChar_of_none hname]
    exact List.cons_ne_nil _ _
  | some name =>
    rw [escapeChar_of_some hname]
    exact List.cons_ne_nil _ _

/-- How the tokens begin: with a tag, with a character of the text in one piece, or with a reference that a
tag cuts. -/
theorem chars_cases (h : charsOf T = escape text) :
    (T = [] ∧ text = []) ∨
    (∃ t T', T = .tag t :: T' ∧ charsOf T' = escape text) ∨
    (∃ u text' T', text = u :: text' ∧ T = (escapeChar u).map .char ++ T' ∧
      charsOf T' = escape text') ∨
    ∃ u text' name a c t T', text = u :: text' ∧ escapeName u = some name ∧
      name ++ [unit ';'] = a ++ c ∧ c ≠ [] ∧ T = .char (unit '&') :: (a.map .char ++ .tag t :: T') ∧
      charsOf T' = c ++ escape text' := by
  cases T with
  | nil =>
    cases text with
    | nil => exact .inl ⟨rfl, rfl⟩
    | cons u text =>
      exact absurd (List.append_eq_nil_iff.mp h.symm).1 (escapeChar_ne_nil u)
  | cons t T =>
    cases t with
    | tag t => exact .inr (.inl ⟨t, T, rfl, h⟩)
    | char w =>
      refine .inr (.inr ?_)
      cases text with
      | nil => cases h
      | cons u text =>
        rw [charsOf_char, escape_cons] at h
        cases hname : escapeName u with
        | none =>
          rw [escapeChar_of_none hname] at h
          obtain ⟨rfl, hT⟩ := List.cons.inj h
          exact .inl ⟨w, text, T, rfl, by rw [escapeChar_of_none hname]; rfl, hT⟩
        | some name =>
          rw [escapeChar_of_some hname] at h
          obtain ⟨rfl, hT⟩ := List.cons.inj h
          by_cases hwhole : name ++ [unit ';'] <+: leading T
          · obtain ⟨T', rfl⟩ := exists_of_leading hwhole
            rw [charsOf_append, charsOf_map] at hT
            refine .inl ⟨u, text, T', rfl, ?_, List.append_cancel_left hT⟩
            rw [escapeChar_of_some hname]
            rfl
          · -- the characters up to the tag are a part of the reference
            obtain ⟨c, hc⟩ : leading T <+: name ++ [unit ';'] := by
              have hboth : leading T <+: (name ++ [unit ';']) ++ escape text := by
                have hleading := leading_le_charsOf T
                rwa [hT] at hleading
              exact (List.prefix_or_prefix_of_prefix hboth (List.prefix_append _ _)).resolve_right hwhole
            have hnil : c ≠ [] := by
              rintro rfl
              rw [List.append_nil] at hc
              exact hwhole (hc ▸ List.prefix_refl _)
            obtain ⟨t, T', hsplit⟩ : ∃ t T', T = (leading T).map .char ++ .tag t :: T' := by
              refine exists_tag fun heq => hwhole ?_
              rw [heq, hT]
              exact List.prefix_append _ _
            refine .inr ⟨u, text, name, leading T, c, t, T', rfl, hname, hc.symm, hnil,
              congrArg _ hsplit, ?_⟩
            rw [hsplit, charsOf_append, charsOf_map, charsOf_tag] at hT
            have hT' : leading T ++ charsOf T' = (name ++ [unit ';']) ++ escape text := hT
            rw [← hc, List.append_assoc] at hT'
            exact List.append_cancel_left hT'

/-- What is read is at least as long as the text, and longer if a tag cuts a reference. -/
def Reads (refs : NamedReferences) (T : List Token) (text : JsString) : Prop :=
  ∃ v, decode refs 0 T = some v ∧ text.length ≤ v.length ∧ (v.length = text.length → Aligned T text) ∧
    ∀ w ∈ v, w ∈ text ∨ w ∈ escape text

/-- A reference that a tag cuts. -/
theorem decode_cut (refs : NamedReferences) {a c : JsString} (hname : escapeName u = some name)
    (hsplit : name ++ [unit ';'] = a ++ c) (hc : c ≠ []) (hT : charsOf T = name ++ unit ';' :: s)
    (hleading : leading T = a) :
    ∃ x T', charsOf T' = s ∧ T'.length ≤ T.length ∧ 2 ≤ x.length ∧
      (∀ w ∈ x, w = u ∨ w ∈ escapeChar u) ∧
      decode refs 0 (.char (unit '&') :: T) = (decode refs 0 T').map (x ++ ·) := by
  have hhash : ¬a.head? = some (unit '#') := fun hhead =>
    not_mem_reference hname (by decide)
      (hsplit ▸ List.mem_append_left _ (List.mem_of_mem_head? hhead))
  have hamp : unit '&' ∉ name ++ [unit ';'] := not_mem_reference hname (by decide)
  rw [decode, if_pos rfl, hleading, if_neg hhash]
  rcases List.eq_nil_or_concat c with rfl | ⟨c', v, rfl⟩
  · exact absurd rfl hc
  rw [List.concat_eq_append, ← List.append_assoc] at hsplit
  obtain ⟨hpart, hv⟩ := List.append_inj' hsplit rfl
  by_cases hc' : c' = []
  · -- only the semicolon is behind the tag
    subst hc'
    rw [List.append_nil] at hpart
    subst hpart
    obtain ⟨T₁, rfl⟩ : ∃ T₁, T = name.map Token.char ++ T₁ :=
      exists_of_leading (by rw [hleading])
    rw [charsOf_append, charsOf_map] at hT
    obtain ⟨T', hT', hle, hdecode⟩ := decode_plain refs (a := [unit ';']) (by decide)
      (List.append_cancel_left hT)
    refine ⟨[u, unit ';'], T', hT', ?_, Nat.le_refl _, ?_, ?_⟩
    · rw [List.length_append]
      omega
    · intro w hw
      rcases List.mem_cons.mp hw with rfl | hw
      · exact .inl rfl
      · rw [escapeChar_of_some hname]
        exact .inr (List.mem_cons_of_mem _ (List.mem_append_right _ hw))
    · rw [longest_name hname]
      simp only
      rw [decode_skip refs, hdecode, Option.map_map]
      rfl
  · -- what stands in front of the tag is no name
    rw [longest_part (hpart ▸ hname) hc']
    obtain ⟨T', hT', hle, hdecode⟩ := decode_plain refs (b := s) hamp
      (by rw [hT, List.append_assoc]; rfl)
    refine ⟨unit '&' :: (name ++ [unit ';']), T', hT', hle, ?_, ?_, ?_⟩
    · rw [List.length_cons, List.length_append, List.length_singleton]
      omega
    · rw [← escapeChar_of_some hname]
      exact fun w hw => .inr hw
    · simp only
      rw [hdecode, Option.map_map]
      rfl

theorem reads_of_chars (refs : NamedReferences) (h : charsOf T = escape text) : Reads refs T text := by
  induction hn : T.length using Nat.strong_induction_on generalizing T text with
  | _ n ih =>
    subst hn
    rcases chars_cases h with ⟨rfl, rfl⟩ | ⟨t, T', rfl, hT'⟩ | ⟨u, text, T', rfl, rfl, hT'⟩ |
      ⟨u, text, name, a, c, t, T', rfl, hname, hsplit, hc, rfl, hT'⟩
    · exact ⟨[], rfl, Nat.le_refl _, fun _ => .nil, fun w hw => .inl hw⟩
    · obtain ⟨v, hdecode, hle, haligned, hmem⟩ := ih T'.length (Nat.lt_succ_self _) hT' rfl
      exact ⟨v, hdecode, hle, fun hlength => .tag t (haligned hlength), hmem⟩
    · have hlt : T'.length < ((escapeChar u).map Token.char ++ T').length := by
        rw [List.length_append, List.length_map]
        have := List.length_pos_iff.mpr (escapeChar_ne_nil u)
        omega
      obtain ⟨v, hdecode, hle, haligned, hmem⟩ := ih T'.length hlt hT' rfl
      refine ⟨u :: v, ?_, Nat.succ_le_succ hle, ?_, ?_⟩
      · rw [decode_escapeChar, hdecode]
        rfl
      · exact fun hlength => .char u (haligned (Nat.succ.inj hlength))
      · intro w hw
        rcases List.mem_cons.mp hw with rfl | hw
        · exact .inl List.mem_cons_self
        · exact (hmem w hw).imp (List.mem_cons_of_mem _) (List.mem_append_right _)
    · have hleading : leading (a.map Token.char ++ .tag t :: T') = a := by
        rw [leading_map]
        exact List.append_nil a
      have hchars : charsOf (a.map Token.char ++ .tag t :: T') = name ++ unit ';' :: escape text := by
        rw [charsOf_append, charsOf_map, charsOf_tag, hT', ← List.append_assoc, ← hsplit,
          List.append_assoc]
        rfl
      obtain ⟨x, T₁, hT₁, hlt, htwo, hx, hcut⟩ :=
        decode_cut refs hname hsplit hc hchars hleading
      obtain ⟨v, hdecode, hle, -, hmem⟩ := ih T₁.length (Nat.lt_succ_of_le hlt) hT₁ rfl
      refine ⟨x ++ v, ?_, ?_, ?_, ?_⟩
      · rw [hcut, hdecode]
        rfl
      · rw [List.length_append, List.length_cons]
        omega
      · rw [List.length_append, List.length_cons]
        intro hlength
        omega
      · intro w hw
        rcases List.mem_append.mp hw with hw | hw
        · rcases hx w hw with rfl | hw
          · exact .inl List.mem_cons_self
          · exact .inr (List.mem_append_left _ hw)
        · exact (hmem w hw).imp (List.mem_cons_of_mem _) (List.mem_append_right _)

/-- Every tag stands between two characters of the text. -/
theorem aligned_iff (h : charsOf T = escape text) : Aligned T text ↔
    ∀ T₁ t T₂, T = T₁ ++ .tag t :: T₂ → ∃ pre, pre <+: text ∧ charsOf T₁ = escape pre := by
  constructor
  · intro haligned
    clear h
    induction haligned with
    | nil =>
      intro T₁ t T₂ heq
      exact absurd heq.symm (List.append_ne_nil_of_right_ne_nil _ (List.cons_ne_nil _ _))
    | tag t h ih =>
      intro T₁ t' T₂ heq
      cases T₁ with
      | nil => exact ⟨[], List.nil_prefix, rfl⟩
      | cons t₁ T₁ =>
        obtain ⟨ht, hT⟩ := List.cons.inj heq
        obtain rfl := ht
        exact ih T₁ t' T₂ hT
    | @char u T text h ih =>
      intro T₁ t' T₂ heq
      obtain ⟨T₃, rfl, hT⟩ := behind_chars heq
      obtain ⟨pre, hpre, hchars⟩ := ih T₃ t' T₂ hT
      refine ⟨u :: pre, List.cons_prefix_cons.mpr ⟨rfl, hpre⟩, ?_⟩
      rw [charsOf_append, charsOf_map, hchars, escape_cons]
  · intro hbetween
    induction hn : T.length using Nat.strong_induction_on generalizing T text with
    | _ n ih =>
      subst hn
      rcases chars_cases h with ⟨rfl, rfl⟩ | ⟨t, T', rfl, hT'⟩ | ⟨u, text, T', rfl, rfl, hT'⟩ |
        ⟨u, text, name, a, c, t, T', rfl, hname, hsplit, hc, rfl, hT'⟩
      · exact .nil
      · refine .tag t (ih T'.length (Nat.lt_succ_self _) hT' (fun T₁ t' T₂ heq => ?_) rfl)
        exact hbetween (.tag t :: T₁) t' T₂ (congrArg _ heq)
      · have hlt : T'.length < ((escapeChar u).map Token.char ++ T').length := by
          rw [List.length_append, List.length_map]
          have := List.length_pos_iff.mpr (escapeChar_ne_nil u)
          omega
        refine .char u (ih T'.length hlt hT' (fun T₁ t' T₂ heq => ?_) rfl)
        obtain ⟨pre, hpre, hchars⟩ := hbetween ((escapeChar u).map .char ++ T₁) t' T₂
          (by rw [heq, List.append_assoc])
        rw [charsOf_append, charsOf_map] at hchars
        cases pre with
        | nil => exact absurd (List.append_eq_nil_iff.mp hchars).1 (escapeChar_ne_nil u)
        | cons u' pre =>
          obtain ⟨rfl, hrest⟩ := List.cons_prefix_cons.mp hpre
          exact ⟨pre, hrest, List.append_cancel_left hchars⟩
      · -- the cut is between no two characters
        obtain ⟨pre, hpre, hchars⟩ := hbetween (.char (unit '&') :: a.map .char) t T' rfl
        rw [charsOf_char, charsOf_map] at hchars
        cases pre with
        | nil => cases hchars
        | cons u' pre =>
          obtain ⟨rfl, -⟩ := List.cons_prefix_cons.mp hpre
          rw [escape_cons, escapeChar_of_some hname, hsplit] at hchars
          have hlength := congrArg List.length hchars
          have hpos := List.length_pos_iff.mpr hc
          simp only [List.length_cons, List.length_append] at hlength
          omega

/-- **The text of a parsed string** whose characters are a serialised text. -/
theorem textContent_iff (hT : tokenize (normalizeNewlines s) = some T)
    (hlinks : T.all isLinkToken = true) (hchars : charsOf T = escape (normalizeNewlines text)) :
    textContent refs s = some text ↔ 0 ∉ text ∧ 13 ∉ text ∧ Aligned T text := by
  have htext : textContent refs s = (decode refs 0 T).map (·.filter (· ≠ 0)) := by
    unfold textContent
    rw [hT, Option.bind_some, if_pos hlinks]
  rw [htext]
  constructor
  · intro h
    obtain ⟨v, hv, hfilter⟩ := Option.map_eq_some_iff.mp h
    obtain ⟨v', hv', -, haligned, hmem⟩ := reads_of_chars refs hchars
    obtain rfl := Option.some.inj (hv.symm.trans hv')
    have hsub : ∀ w ∈ text, w ∈ v ∧ w ≠ 0 := by
      intro w hw
      rw [← hfilter] at hw
      obtain ⟨hwv, hne⟩ := List.mem_filter.mp hw
      exact ⟨hwv, of_decide_eq_true hne⟩
    have hzero : 0 ∉ text := fun h0 => (hsub 0 h0).2 rfl
    have hcr : 13 ∉ text := by
      intro h13
      rcases hmem 13 (hsub 13 h13).1 with h | h
      · exact not_mem_normalizeNewlines text h
      · rw [← normalizeNewlines_escape] at h
        exact not_mem_normalizeNewlines _ h
    rw [normalizeNewlines_of_not_mem hcr] at hmem haligned
    have hsame : v.filter (· ≠ 0) = v := by
      refine List.filter_eq_self.mpr fun w hw => decide_eq_true ?_
      rintro rfl
      rcases hmem 0 hw with h | h
      · exact hzero h
      · exact hzero (of_mem_escape h (by decide)).1
    exact ⟨hzero, hcr, haligned (by rw [← hfilter, hsame])⟩
  · rintro ⟨hzero, -, haligned⟩
    rw [haligned.decode, Option.map_some]
    refine congrArg some (List.filter_eq_self.mpr fun w hw => decide_eq_true ?_)
    rintro rfl
    exact hzero hw

/-! ## A table -/

/-- The names that a serialised text contains, and no others. -/
def fourNames : List (JsString × JsString) :=
  [unit '&', 0xA0, unit '<', unit '>'].flatMap fun u =>
    ((escapeName u).map fun name => [(name, [u]), (name ++ [unit ';'], [u])]).getD []

def fourReferences : NamedReferences where
  value s := fourNames.lookup s
  value_name := fun {u name} h => of_decide_eq_true
    (of_references (p := fun r => fourNames.lookup r.2 = some [r.1]) h (by decide))
  value_semicolon := fun {u name} h => of_decide_eq_true
    (of_references (p := fun r => fourNames.lookup (r.2 ++ [unit ';']) = some [r.1]) h (by decide))
  value_part := by
    intro u a b h hb
    have hparts := of_references
      (p := fun r => (List.range r.2.length).all fun i => (fourNames.lookup (r.2.take i)).isNone) h
      (by decide)
    have hlt : a.length < (a ++ b).length := by
      rw [List.length_append]
      exact Nat.lt_add_of_pos_right (List.length_pos_iff.mpr hb)
    have ha := List.all_eq_true.mp hparts a.length (List.mem_range.mpr hlt)
    rw [List.take_left] at ha
    exact Option.isNone_iff_eq_none.mp ha
  value_behind := by
    intro a b hb
    have hall : fourNames.all (fun p => p.1.dropLast.all (· ≠ unit ';')) = true := by decide
    refine List.lookup_eq_none_iff.mpr fun p hp => ?_
    refine bne_iff_ne.mpr fun hkey => ?_
    have hmem : unit ';' ∈ (a ++ unit ';' :: b).dropLast := by
      rw [List.dropLast_append_of_ne_nil (List.cons_ne_nil _ _), List.dropLast_cons_of_ne_nil hb]
      exact List.mem_append_right _ List.mem_cons_self
    have hne := List.all_eq_true.mp (List.all_eq_true.mp hall _ hp) _ (hkey ▸ hmem)
    exact of_decide_eq_true hne rfl

end WebsocketHub.Html
