import WebsocketHub.ChatroomLinks

/-!
# WebsocketHub.ChatroomLinkText — `static/chatroomwidget.js`: what is read of a message with links

The tags of a link stand between two characters of the text, unless the link ends inside of a character
reference.  The path of a link takes all it can and gives back what stands behind its last word, so that it
can only end in front of the semicolon of a reference (`cut_at_semicolon`), and then that semicolon is read
as a character of the text (`visible_text_iff`).
-/

namespace WebsocketHub

open RegExp Html Htmlrex

/-! ## The end of a link -/

/-- `(?:\b|$)` -/
def endsHere (x : MatchState) : Bool :=
  isBoundary x.before.head? x.after.head? || x.after.isEmpty

theorem runs_ending (toUpperCase : CodeUnit → JsString) (x : MatchState) :
    runs toUpperCase (alone ending) x =
      (if assertionHolds .wordBoundary x then [x] else []) ++
        if assertionHolds .inputEnd x then [x] else [] := by
  have hassert : ∀ a : Assertion, runs toUpperCase (alone (.assertion a)) x =
      if assertionHolds a x then [x] else [] := fun a => runs_seq_empty _ _
  rw [← hassert, ← hassert]
  exact runs_seq_empty _ _

theorem mem_ending {toUpperCase : CodeUnit → JsString} {x y : MatchState}
    (h : y ∈ runs toUpperCase (alone ending) x) : y = x ∧ endsHere x = true := by
  rw [runs_ending] at h
  unfold endsHere
  rw [Bool.or_eq_true]
  rcases List.mem_append.mp h with h | h
  · obtain ⟨hholds, rfl⟩ := List.mem_ite_nil_right.mp h |>.imp id List.mem_singleton.mp
    exact ⟨rfl, .inl hholds⟩
  · obtain ⟨hholds, rfl⟩ := List.mem_ite_nil_right.mp h |>.imp id List.mem_singleton.mp
    exact ⟨rfl, .inr hholds⟩

theorem ending_eq (toUpperCase : CodeUnit → JsString) (x : MatchState) :
    (!(runs toUpperCase (alone ending) x).isEmpty) = endsHere x := by
  rw [runs_ending]
  unfold endsHere assertionHolds
  cases isBoundary x.before.head? x.after.head? with
  | true => rfl
  | false =>
    cases x.after.isEmpty with
    | true => rfl
    | false => rfl

/-- One of the characters of a path, escapes apart. -/
def isPathChar (u : CodeUnit) : Bool := pathSet.any fun c => c.lo ≤ u && u ≤ c.hi

theorem isPathChar_of_isWordChar {u : CodeUnit} (h : isWordChar u = true) : isPathChar u = true := by
  have hrange : ∀ c ∈ pathSet, c.lo.toNat ≤ u.toNat → u.toNat ≤ c.hi.toNat → isPathChar u = true := by
    intro c hc hlo hhi
    refine List.any_eq_true.mpr ⟨c, hc, ?_⟩
    rw [Bool.and_eq_true, decide_eq_true_eq, decide_eq_true_eq, UInt16.le_iff_toNat_le,
      UInt16.le_iff_toNat_le]
    exact ⟨hlo, hhi⟩
  unfold isWordChar at h
  rw [Bool.or_eq_true, Bool.or_eq_true, isLetter_iff, isDigit_iff, decide_eq_true_eq] at h
  rcases h with ((h | h) | h) | rfl
  · exact hrange ⟨97, 122⟩ (by decide) h.1 h.2
  · exact hrange ⟨65, 90⟩ (by decide) h.1 h.2
  · exact hrange ⟨48, 57⟩ (by decide) h.1 h.2
  · decide

theorem isWordChar_of_isLetter {u : CodeUnit} (h : isLetter u = true) : isWordChar u = true := by
  unfold isWordChar
  rw [h]
  rfl

/-- A link may end behind a word. -/
theorem ends_word (a : JsString) {v : CodeUnit} (hv : isWordChar v = true) (b before : JsString) :
    endsHere ⟨(a ++ v :: b.takeWhile isWordChar).reverse ++ before, b.dropWhile isWordChar,
      fun _ => none⟩ = true := by
  have hright : (b.dropWhile isWordChar).head?.any isWordChar = false := by
    induction b with
    | nil => rfl
    | cons w b ih =>
      rw [List.dropWhile_cons]
      split_ifs with hw
      · exact ih
      · exact Bool.eq_false_iff.mpr hw
  have hleft : ((a ++ v :: b.takeWhile isWordChar).reverse ++ before).head?.any isWordChar = true := by
    rw [List.reverse_append, List.append_assoc, List.head?_append_of_ne_nil _ (by simp),
      List.head?_reverse]
    have hall : ∀ w ∈ v :: b.takeWhile isWordChar, isWordChar w = true := by
      intro w hw
      rcases List.mem_cons.mp hw with rfl | hw
      · exact hv
      · exact List.all_eq_true.mp List.all_takeWhile w hw
    rw [List.getLast?_eq_some_getLast (List.cons_ne_nil _ _)]
    exact hall _ (List.getLast_mem _)
  unfold endsHere isBoundary
  rw [hleft, hright]
  rfl

section Case

variable {toUpperCase : CodeUnit → JsString} {s t before after : JsString} {x y z : MatchState}
  (hcase : ∀ u < 128, toUpperCase u = asciiUpperCase u)

include hcase

/-- Behind its last dot or colon a server has letters, digits and hyphens. -/
theorem server_tail (h : s ∈ server.language toUpperCase) :
    ∃ b v d, s = b ++ v :: d ∧ (v = unit '.' ∨ v = unit ':') ∧ ∀ u ∈ d, isLabelChar u = true := by
  have hlabel := fun (n : Node) (hn : n.within isLabelChar = true) =>
    mem_within (isLabelChar_case hcase) hn
  obtain ⟨a, -, s₁, h₁, rfl⟩ := Language.mem_mul.mp h
  obtain ⟨n, hn, p, hp, rfl⟩ := Language.mem_mul.mp h₁
  rcases mem_optionally (mem_seq_empty hp) with rfl | hp
  · rw [List.append_nil]
    rcases hn with hn | hn
    · obtain ⟨labels, hlabels, tld, htld, rfl⟩ := Language.mem_mul.mp (mem_seq_empty hn)
      obtain ⟨l, _, hl, rfl⟩ := mem_plus_last hlabels
      obtain ⟨b, -, l₁, hl₁, rfl⟩ := Language.mem_mul.mp hl
      obtain ⟨c, -, l₂, hl₂, rfl⟩ := Language.mem_mul.mp hl₁
      rw [mem_dot hcase (mem_seq_empty hl₂)]
      exact ⟨a ++ l ++ b ++ c, unit '.', tld, by simp, .inl rfl,
        hlabel _ (by decide) tld (mem_seq_empty htld)⟩
    · obtain ⟨n₁, -, s₂, h₂, rfl⟩ := Language.mem_mul.mp (mem_seq_empty hn)
      obtain ⟨d₁, -, s₃, h₃, rfl⟩ := Language.mem_mul.mp h₂
      obtain ⟨n₂, -, s₄, h₄, rfl⟩ := Language.mem_mul.mp h₃
      obtain ⟨d₂, -, s₅, h₅, rfl⟩ := Language.mem_mul.mp h₄
      obtain ⟨n₃, -, s₆, h₆, rfl⟩ := Language.mem_mul.mp h₅
      obtain ⟨d₃, hd₃, s₇, h₇, rfl⟩ := Language.mem_mul.mp h₆
      rw [mem_dot hcase hd₃]
      exact ⟨a ++ n₁ ++ d₁ ++ n₂ ++ d₂ ++ n₃, unit '.', s₇, by simp, .inl rfl,
        hlabel _ (by decide) s₇ (mem_seq_empty h₇)⟩
  · obtain ⟨c, hc, d, hd, rfl⟩ := Language.mem_mul.mp hp
    rw [mem_colon hcase hc]
    exact ⟨a ++ n, unit ':', d, by simp, .inr rfl, hlabel _ (by decide) d (mem_seq_empty hd)⟩

/-- No server ends in the beginning of a reference. -/
theorem server_ne_amp (h : s ++ unit '&' :: t ∈ server.language toUpperCase)
    (ht : ∀ u ∈ t, isLetter u = true) : False := by
  obtain ⟨b, v, d, heq, hv, hd⟩ := server_tail hcase h
  have hreverse : t.reverse ++ unit '&' :: s.reverse = d.reverse ++ v :: b.reverse := by
    simpa using congrArg List.reverse heq
  have hlabel : ∀ u ∈ t.reverse, isLabelChar u = true := fun u hu =>
    isLabelChar_of_isLetter (ht u (List.mem_reverse.mp hu))
  have hvlabel : isLabelChar v = false := by
    rcases hv with rfl | rfl
    · decide
    · decide
  obtain ⟨-, rfl, -⟩ := eq_of_first_outside (u := unit '&') hlabel (by decide)
    (fun u hu => hd u (List.mem_reverse.mp hu)) hvlabel hreverse
  rcases hv with hv | hv
  · exact absurd hv (by decide)
  · exact absurd hv (by decide)

/-! ## The path -/

theorem pathSet_or_percent (hy : y ∈ runs toUpperCase (alone (alone (.atom (.set false pathSet)))) x)
    (hz : z ∈ runs toUpperCase (percent 4) x) : False := by
  obtain ⟨a, ha, hax, -⟩ := language_of_runs _ x y hy
  obtain ⟨b, hb, hbx, -⟩ := language_of_runs _ x z hz
  have hclosed : ∀ u v, (isLinkChar u && u ≠ unit '%') = true →
      canonicalize toUpperCase v = canonicalize toUpperCase u → (isLinkChar v && v ≠ unit '%') = true := by
    refine case_closed hcase (fun u hu => ?_) fun u v _ _ hv => ?_
    · exact lt_128_of_toNat (isLinkChar_bounds (Bool.and_eq_true_iff.mp hu).1).2
    · refine Bool.and_eq_true_iff.mpr ⟨?_, decide_eq_true ?_⟩
      · exact isLinkChar_of_isLetter hv
      · rintro rfl
        exact absurd hv (by decide)
  have hchars := mem_within (P := fun u => isLinkChar u && u ≠ unit '%') hclosed (by decide) a ha
  obtain ⟨c, hc, d, -, rfl⟩ := Language.mem_mul.mp (mem_seq_empty hb)
  rw [mem_char hcase (by decide) hc] at hbx
  cases a with
  | nil =>
    have hnullable := nullable_of_nil _ ha
    cases hnullable
  | cons v a =>
    rw [hax] at hbx
    obtain ⟨rfl, -⟩ := List.cons.inj hbx
    exact absurd (hchars (unit '%') List.mem_cons_self) (by decide)

theorem percent_eq_nil (hy : y ∈ runs toUpperCase (alone (alone (.atom (.set false pathSet)))) x) :
    runs toUpperCase (percent 4) x = [] :=
  List.eq_nil_iff_forall_not_mem.mpr fun _ hz => pathSet_or_percent hcase hy hz

theorem runs_pathChar (x : MatchState) : runs toUpperCase pathChar (x.clear 4 0) = [] ∨
    ∃ z, runs toUpperCase pathChar (x.clear 4 0) = [z] ∧ z.after.length < x.after.length := by
  rw [clear_zero]
  have hle : (runs toUpperCase pathChar x).length ≤ 1 := by
    show (runs toUpperCase (alone (alone (.atom (.set false pathSet)))) x ++
      runs toUpperCase (percent 4) x).length ≤ 1
    cases hset : runs toUpperCase (alone (alone (.atom (.set false pathSet)))) x with
    | nil => exact length_runs_le_one _ (by decide) x
    | cons y l =>
      rw [percent_eq_nil hcase (hset ▸ List.mem_cons_self), List.append_nil, ← hset]
      exact length_runs_le_one _ (by decide) x
  cases hruns : runs toUpperCase pathChar x with
  | nil => exact .inl rfl
  | cons z l =>
    rw [hruns] at hle
    obtain rfl : l = [] := List.length_eq_zero_iff.mp (Nat.le_zero.mp (Nat.le_of_succ_le_succ hle))
    exact .inr ⟨z, rfl, length_lt_of_mem (by decide) (hruns ▸ List.mem_cons_self)⟩

theorem runs_pathChar_of {v : CodeUnit} (hv : isPathChar v = true) (hx : x.after.head? = some v) :
    runs toUpperCase pathChar x = [x.advance 1] := by
  have hhits : hits toUpperCase pathSet v = true := Bool.or_eq_true_iff.mpr (.inl hv)
  have hset : runs toUpperCase (alone (alone (.atom (.set false pathSet)))) x = [x.advance 1] := by
    unfold alone
    rw [runs_seq_empty, runs_seq_empty, runs_set, hx]
    simp [hhits]
  show runs toUpperCase (alone (alone (.atom (.set false pathSet)))) x ++
    runs toUpperCase (percent 4) x = _
  rw [percent_eq_nil hcase (hset ▸ List.mem_cons_self), hset]
  rfl

omit hcase in
/-- Past the captures, a path is a slash and a loop. -/
theorem find?_path {x w : MatchState}
    (h : (runs toUpperCase path (x.clear 3 1)).find? endsHere = some w) :
    ∃ w' : MatchState, w'.before = w.before ∧ w'.after = w.after ∧
      (runs toUpperCase (star 4 0 pathChar) ((x.clear 3 1).advance 1)).find? endsHere = some w' := by
  have hmap : runs toUpperCase path (x.clear 3 1) =
      (runs toUpperCase (.seq (char '/') (alone (star 4 0 pathChar))) (x.clear 3 1)).map fun y =>
        { y with captures := Function.update y.captures 4 (some ((x.clear 3 1).text y)) } := rfl
  rw [hmap, List.find?_map] at h
  obtain ⟨w', hw', rfl⟩ := Option.map_eq_some_iff.mp h
  refine ⟨w', rfl, rfl, ?_⟩
  have hseq : runs toUpperCase (.seq (char '/') (alone (star 4 0 pathChar))) (x.clear 3 1) =
      (runs toUpperCase (char '/') (x.clear 3 1)).flatMap (runs toUpperCase (star 4 0 pathChar)) :=
    List.flatMap_congr fun y _ => runs_seq_empty _ y
  rw [hseq] at hw'
  have hslash : runs toUpperCase (char '/') (x.clear 3 1) = [] ∨
      runs toUpperCase (char '/') (x.clear 3 1) = [(x.clear 3 1).advance 1] := by
    have hruns : runs toUpperCase (char '/') (x.clear 3 1) =
        atomRuns toUpperCase (.char (unit '/')) (x.clear 3 1) := rfl
    rw [hruns]
    unfold atomRuns
    cases (x.clear 3 1).after with
    | nil => exact .inl rfl
    | cons v r =>
      simp only
      split_ifs
      · exact .inr rfl
      · exact .inl rfl
  rcases hslash with hnil | hone
  · rw [hnil] at hw'
    cases hw'
  · rwa [hone, List.flatMap_singleton] at hw'

/-- **Where a link ends**: at a word boundary or at the end, and with the server, or where no longer path
ends. -/
theorem link_ends (h : FirstBetween toUpperCase htmlrex before t after) :
    ∃ w : MatchState, w.before = t.reverse ++ before.reverse ∧ w.after = after ∧ endsHere w = true ∧
      (t ∈ server.language toUpperCase ∨
        ∀ z ∈ runs toUpperCase pathChar w, ∀ w' ∈ runs toUpperCase (star 4 0 pathChar) z,
          endsHere w' = false) := by
  obtain ⟨e, he, hafter⟩ := h
  obtain ⟨t', -, heafter, hebefore⟩ := language_of_runs htmlrex _ e (List.mem_of_mem_head? he)
  have ht' : t ++ after = t' ++ e.after := heafter
  rw [hafter] at ht'
  obtain rfl := List.append_cancel_right ht'
  rw [htmlrex_eq] at he
  -- the server, the path and the end
  obtain ⟨y, hy, hrest⟩ := head?_flatMap he
  obtain ⟨s, hs, hsafter, -⟩ := language_of_runs server _ y (List.mem_of_find?_eq_some hy)
  obtain ⟨w, hw, hend⟩ := head?_flatMap hrest
  obtain ⟨rfl, hends⟩ := mem_ending (List.mem_of_mem_head? hend)
  rw [show (fun a => !(runs toUpperCase (alone ending) a).isEmpty) = endsHere from
    funext fun a => ending_eq toUpperCase a, runs_optionally (by decide), List.find?_append] at hw
  rcases Option.or_eq_some_iff.mp hw with hw | ⟨-, hw⟩
  · obtain ⟨w', hbefore', hafter', hfind⟩ := find?_path hw
    refine ⟨w', hbefore'.trans hebefore, hafter'.trans hafter, List.find?_some hfind, .inr fun z hz => ?_⟩
    refine find?_star (runs_pathChar hcase) hfind z ?_
    rwa [clear_zero]
  · refine ⟨e, hebefore, hafter, hends, .inl ?_⟩
    obtain rfl := List.mem_singleton.mp (List.mem_of_find?_eq_some hw)
    have hserver : t ++ after = s ++ e.after := hsafter
    rw [hafter] at hserver
    obtain rfl := List.append_cancel_right hserver
    exact hs

/-- A path that goes no further is followed by punctuation, and not to the end of the text. -/
theorem path_stuck (hstuck : ∀ z ∈ runs toUpperCase pathChar x,
      ∀ w ∈ runs toUpperCase (star 4 0 pathChar) z, endsHere w = false) {a b : JsString}
    (hx : x.after = a ++ b) (ha : ∀ v ∈ a, isPathChar v = true) (hne : a ≠ []) :
    b ≠ [] ∧ ∀ v ∈ a, isWordChar v = false := by
  -- no way along the path ends
  have hno : ∀ {a b : JsString}, x.after = a ++ b → (∀ v ∈ a, isPathChar v = true) → a ≠ [] →
      endsHere ⟨a.reverse ++ x.before, b, fun _ => none⟩ = false := by
    intro a b hx ha hne
    obtain ⟨v, a, rfl⟩ := List.exists_cons_of_ne_nil hne
    have hone : x.advance 1 ∈ runs toUpperCase pathChar x := by
      rw [runs_pathChar_of hcase (ha v List.mem_cons_self) (by rw [hx]; rfl)]
      exact List.mem_singleton.mpr rfl
    have hrest : (x.advance 1).after = a ++ b := after_advance (a := [v]) hx
    have hend := hstuck _ hone _ (advance_mem_star hrest fun x v' hv' hx =>
      runs_pathChar_of hcase (ha v' (List.mem_cons_of_mem _ hv')) hx)
    rw [advance_advance, Nat.add_comm, ← List.length_cons (a := v)] at hend
    unfold endsHere at hend ⊢
    rwa [before_advance hx, after_advance hx] at hend
  refine ⟨?_, fun v hv => ?_⟩
  · rintro rfl
    have hend := hno hx ha hne
    unfold endsHere at hend
    simp at hend
  · rw [Bool.eq_false_iff]
    intro hword
    obtain ⟨a₁, a₂, rfl⟩ := List.append_of_mem hv
    -- up to the end of the word
    have hend := hno (a := a₁ ++ v :: (a₂ ++ b).takeWhile isWordChar)
      (b := (a₂ ++ b).dropWhile isWordChar) ?_ ?_ (by simp)
    · rw [ends_word a₁ hword (a₂ ++ b) x.before] at hend
      cases hend
    · rw [hx, List.append_assoc, List.append_assoc, List.cons_append, List.cons_append,
        List.takeWhile_append_dropWhile]
    · intro w hw
      rcases List.mem_append.mp hw with hw | hw
      · exact ha w (List.mem_append_left _ hw)
      rcases List.mem_cons.mp hw with rfl | hw
      · exact isPathChar_of_isWordChar hword
      · exact isPathChar_of_isWordChar (List.all_eq_true.mp List.all_takeWhile w hw)

/-- **A link that ends inside of a reference** ends in front of its semicolon. -/
theorem cut_at_semicolon (h : FirstBetween toUpperCase htmlrex before t after) {u : CodeUnit}
    {a b : JsString} (hu : escapeChar u = a ++ b) (ha : a ≠ []) (hb : b ≠ []) (hat : a <:+ t)
    (hbafter : b <+: after) : CutsReference t after := by
  obtain ⟨name, c, d, hname, rfl, rfl, rfl⟩ := escapeChar_cut hu ha hb
  cases d with
  | nil =>
    rw [List.append_nil] at hname
    obtain ⟨r, rfl⟩ := hbafter
    exact ⟨u, c, hname, hat, rfl⟩
  | cons v d =>
    -- a letter follows, so that the link ends behind no letter
    obtain ⟨w, hbefore, hafter, hends, hlast⟩ := link_ends hcase h
    obtain ⟨t₁, rfl⟩ := hat
    obtain ⟨r, rfl⟩ := hbafter
    have hletter : ∀ x ∈ c ++ v :: d, isLetter x = true := isLetter_escapeName hname
    have hword : ∀ x ∈ c ++ v :: d, isWordChar x = true := fun x hx =>
      isWordChar_of_isLetter (hletter x hx)
    have hc : c = [] := by
      rcases List.eq_nil_or_concat c with hc | ⟨c', x, rfl⟩
      · exact hc
      · exfalso
        unfold endsHere at hends
        rw [hbefore, hafter, List.concat_eq_append] at hends
        have hx := hword x (List.mem_append_left _ (by simp))
        have hv := hword v (List.mem_append_right _ List.mem_cons_self)
        simp [isBoundary, hx, hv] at hends
    subst hc
    rcases hlast with hserver | hstuck
    · exact (server_ne_amp hcase hserver fun _ hx => (nomatch hx)).elim
    · -- the path could have gone on to the end of the name
      obtain ⟨hne, hpunctuation⟩ := path_stuck hcase hstuck (a := v :: d) (b := unit ';' :: r)
        (by rw [hafter]; simp) (fun x hx => isPathChar_of_isWordChar (hword x hx)) (List.cons_ne_nil _ _)
      have hv := hpunctuation v List.mem_cons_self
      rw [hword v List.mem_cons_self] at hv
      cases hv

/-- Behind a link that ends in front of the semicolon of a reference its path would have gone on with
punctuation only, and not to the end of the text. -/
theorem cut_tail (h : FirstBetween toUpperCase htmlrex before t after) (hcut : CutsReference t after)
    {a b : JsString} (hafter : after = a ++ b) (ha : ∀ v ∈ a, isPathChar v = true) :
    b ≠ [] ∧ ∀ v ∈ a, isWordChar v = false := by
  obtain ⟨u, name, hname, ⟨t₁, rfl⟩, hsemicolon⟩ := hcut
  by_cases hne : a = []
  · subst hne
    refine ⟨?_, fun v hv => (nomatch hv)⟩
    rintro rfl
    rw [hafter] at hsemicolon
    cases hsemicolon
  obtain ⟨w, -, hwafter, -, hserver | hstuck⟩ := link_ends hcase h
  · exact (server_ne_amp hcase hserver (isLetter_escapeName hname)).elim
  · exact path_stuck hcase hstuck (hwafter.trans hafter) ha hne

/-- **A link that cuts no reference ends between two characters** of the text. -/
theorem link_ends_between {text : JsString} (h : FirstBetween toUpperCase htmlrex before t after)
    (htext : escape text = before ++ (t ++ after)) (hcuts : ¬CutsReference t after) :
    ∃ pre, pre <+: text ∧ before ++ t = escape pre := by
  rw [← List.append_assoc] at htext
  rcases escape_split htext with ⟨pre, post, rfl, hpre, -⟩ |
    ⟨pre, u, post, a, b, rfl, hbefore, hafter, hu, ha, hb⟩
  · exact ⟨pre, List.prefix_append _ _, hpre⟩
  · exfalso
    refine hcuts (cut_at_semicolon hcase h hu ha hb ?_ ⟨_, hafter.symm⟩)
    rcases List.suffix_or_suffix_of_suffix (hbefore ▸ List.suffix_append _ a)
      (List.suffix_append before t) with hat | ⟨a', rfl⟩
    · exact hat
    · -- the link would begin inside of the reference
      rw [← List.append_assoc] at hbefore
      have hbegin := List.append_cancel_right hbefore
      cases a' with
      | nil => exact List.suffix_refl _
      | cons v a' =>
        rw [List.append_assoc] at htext
        obtain ⟨pre', -, hpre'⟩ := link_begins hcase htext (language_of_matched h.matched)
        obtain ⟨name, c, d, hname, hc, rfl, -⟩ := escapeChar_cut hu ha hb
        obtain ⟨rfl, rfl⟩ := List.cons.inj hc
        rw [hbegin] at hpre'
        have hletter := isLetter_escapeName hname (unit ';')
          (List.mem_append_left _ (List.mem_append_left _ (semicolon_of_escape hpre'.symm)))
        exact absurd hletter (by decide)

end Case

/-! ## The text that is read -/

theorem not_cuts {a pre t after : JsString} (h : a ++ t = escape pre) :
    ¬CutsReference t after := by
  rintro ⟨u, name, hname, ⟨b, rfl⟩, -⟩
  rw [← List.append_assoc] at h
  have hletter := isLetter_escapeName hname _ (semicolon_of_escape h.symm)
  exact absurd hletter (by decide)

/-- The tags stand before and behind the links. -/
theorem exists_link {l : List Segment} {T₁ T₂ : List Html.Token} {τ : Tag}
    (h : l.flatMap segmentTokens = T₁ ++ .tag τ :: T₂) : ∃ l₁ t l₂, l = l₁ ++ .found t :: l₂ ∧
      (charsOf T₁ = joined l₁ ∨ charsOf T₁ = joined l₁ ++ t) := by
  induction l generalizing T₁ with
  | nil => exact absurd h.symm (List.append_ne_nil_of_right_ne_nil _ (List.cons_ne_nil _ _))
  | cons g l ih =>
    -- the tag is in a later piece
    have hlater : ∀ {T₃ : List Html.Token}, T₁ = segmentTokens g ++ T₃ →
        l.flatMap segmentTokens = T₃ ++ .tag τ :: T₂ → ∃ l₁ t l₂, g :: l = l₁ ++ .found t :: l₂ ∧
          (charsOf T₁ = joined l₁ ∨ charsOf T₁ = joined l₁ ++ t) := by
      rintro T₃ rfl hT
      obtain ⟨l₁, t, l₂, rfl, hchars⟩ := ih hT
      refine ⟨g :: l₁, t, l₂, rfl, ?_⟩
      have hg : charsOf (segmentTokens g) = g.text := by
        have hsingle := charsOf_tokens [g]
        simpa [joined] using hsingle
      rw [charsOf_append, hg]
      exact hchars.imp (congrArg _) fun heq => by rw [heq, ← List.append_assoc]; rfl
    cases g with
    | kept u =>
      obtain ⟨T₃, hT₁, hT⟩ := behind_chars (s := [u]) h
      exact hlater hT₁ hT
    | found t =>
      cases T₁ with
      | nil => exact ⟨[], t, l, rfl, .inl rfl⟩
      | cons τ₁ T₁ =>
        rw [List.flatMap_cons] at h
        unfold segmentTokens at h
        rw [List.cons_append, List.append_assoc] at h
        obtain ⟨rfl, hrest⟩ := List.cons.inj h
        obtain ⟨T₃, rfl, hT⟩ := behind_chars hrest
        cases T₃ with
        | nil =>
          refine ⟨[], t, l, rfl, .inr ?_⟩
          rw [List.append_nil, charsOf_tag, charsOf_map]
          rfl
        | cons τ₃ T₃ =>
          obtain ⟨rfl, hT₃⟩ := List.cons.inj hT
          have hfront : .tag (openTag (href t)) :: (t.map .char ++ .tag closeTag :: T₃) =
              segmentTokens (.found t) ++ T₃ := by
            simp [segmentTokens]
          exact hlater hfront hT₃

/-- **A message with links is read as it was sent** exactly if it has no NUL and no carriage return, and no
link ends in front of the semicolon of a character reference. -/
theorem visible_text_iff {toUpperCase : CodeUnit → JsString}
    (hcase : ∀ u < 128, toUpperCase u = asciiUpperCase u) (refs : NamedReferences) (text : JsString) :
    textContent refs (contentHtml toUpperCase text) = some text ↔ 0 ∉ text ∧ 13 ∉ text ∧
      ∀ l t r, segments toUpperCase htmlrex (escape text) = l ++ .found t :: r →
        ¬CutsReference t (joined r) := by
  have hjoined : joined (segments toUpperCase htmlrex (escape text)) = escape text :=
    joined_segments htmlrex (escape text)
  rw [textContent_iff (tokenize_contentHtml hcase text) (linkTokens _)
    (by rw [charsOf_tokens, joined_withNewlines hcase text])]
  refine and_congr_right fun _ => and_congr_right fun h13 => ?_
  rw [withNewlines_of_not_mem, aligned_iff (by rw [charsOf_tokens, hjoined])]
  · constructor
    · intro hbetween l t r hsegments
      obtain ⟨pre, -, hchars⟩ := hbetween
        (l.flatMap segmentTokens ++ .tag (openTag (href t)) :: t.map .char) closeTag
        (r.flatMap segmentTokens) (by rw [hsegments]; simp [segmentTokens])
      rw [charsOf_append, charsOf_tokens, charsOf_tag, charsOf_map] at hchars
      exact not_cuts hchars
    · intro hcuts T₁ τ T₂ hT
      obtain ⟨l, t, r, hsegments, hchars⟩ := exists_link hT
      have hsplit : escape text = joined l ++ (t ++ joined r) := by
        rw [← hjoined, hsegments]
        simp
      obtain ⟨hfirst, hmem⟩ := first_of_links text hsegments
      rcases hchars with hchars | hchars
      · rw [hchars]
        exact link_begins hcase hsplit hmem
      · rw [hchars]
        exact link_ends_between hcase hfirst hsplit (hcuts l t r hsegments)
  · rw [hjoined]
    exact fun hmem => h13 (of_mem_escape hmem (by decide)).1

theorem visible_text_iff_of_path :
    (∀ u < 128, asciiUpperCase u = asciiUpperCase u) ∧
    (textContent fourReferences (contentHtml asciiUpperCase (['x', '.', 'd', 'e', '/', '&'].map unit)) =
        some (['x', '.', 'd', 'e', '/', '&'].map unit) ↔
      0 ∉ ['x', '.', 'd', 'e', '/', '&'].map unit ∧ 13 ∉ ['x', '.', 'd', 'e', '/', '&'].map unit ∧
        ∀ l t r, segments asciiUpperCase htmlrex (escape (['x', '.', 'd', 'e', '/', '&'].map unit)) =
          l ++ .found t :: r → ¬CutsReference t (joined r)) :=
  ⟨fun _ _ => rfl, visible_text_iff (fun _ _ => rfl) fourReferences _⟩

set_option maxRecDepth 10000 in
/-- **A semicolon that was not sent**: the link in `x.de/& b` ends inside of the reference. -/
theorem semicolon_not_sent :
    textContent fourReferences
        (contentHtml asciiUpperCase (['x', '.', 'd', 'e', '/', '&', ' ', 'b'].map unit)) =
      some (['x', '.', 'd', 'e', '/', '&', ';', ' ', 'b'].map unit) ∧
    ['x', '.', 'd', 'e', '/', '&', ';', ' ', 'b'].map unit ≠
      ['x', '.', 'd', 'e', '/', '&', ' ', 'b'].map unit := by
  refine ⟨?_, by decide⟩
  unfold contentHtml urlify
  rw [htmlrex_eq]
  decide +kernel

end WebsocketHub
