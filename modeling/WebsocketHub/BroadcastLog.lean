import WebsocketHub.Machine
import Mathlib.Logic.Function.Basic

/-!
# WebsocketHub.BroadcastLog — a log of posts, dropped from its front, and its readers

What a bounded broadcast queue is for, with one step for each operation.  Posts are appended to a log,
and the front of the log is dropped.  A reader starts where the log has been dropped to at that moment
and gets the posts from there on, in order.  It may be cut off once the last post that it got has been
dropped.

The next post may be dropped before it is posted, but only that one: `dropped` is at most one more than
the number of posts.
-/

namespace WebsocketHub.BroadcastLog

inductive Stage
  /-- it has asked for the log -/
  | joined
  | reading
  /-- it has been cut off -/
  | behind
  | left
deriving DecidableEq, Repr

/-- A reader: it starts at post number `start` and has got some posts. -/
structure Cursor (α : Type*) where
  stage : Stage
  start : ℕ
  got : List α

/-- The post that comes next. -/
def Cursor.pos {α : Type*} (x : Cursor α) : ℕ := x.start + x.got.length

@[ext]
structure Log (ι α : Type*) where
  posts : List α
  dropped : ℕ
  cursors : ι → Option (Cursor α)

inductive Action (ι α : Type*)
  | post (m : α)
  | drop
  | join (l : ι)
  | place (l : ι)
  | deliver (l : ι)
  | cut (l : ι)
  | leave (l : ι)

section Defs

variable {ι α : Type*} [DecidableEq ι]

def Log.init : Log ι α where
  posts := []
  dropped := 0
  cursors := fun _ => none

def Log.set (s : Log ι α) (l : ι) (x : Cursor α) : Log ι α :=
  { s with cursors := Function.update s.cursors l (some x) }

def next (s : Log ι α) : Action ι α → Option (Log ι α)
  | .post m => some { s with posts := s.posts ++ [m] }
  | .drop => if s.dropped ≤ s.posts.length then some { s with dropped := s.dropped + 1 } else none
  | .join l =>
    match s.cursors l with
    | some _ => none
    | none => some (s.set l ⟨.joined, 0, []⟩)
  | .place l =>
    (s.cursors l).bind fun x =>
      if x.stage = .joined then some (s.set l ⟨.reading, s.dropped, []⟩) else none
  | .deliver l =>
    (s.cursors l).bind fun x =>
      if x.stage = .reading then
        (s.posts[x.pos]?).map fun m => s.set l { x with got := x.got ++ [m] }
      else none
  | .cut l =>
    (s.cursors l).bind fun x =>
      if x.stage = .reading ∧ 0 < x.got.length ∧ x.pos ≤ s.dropped then
        some (s.set l { x with stage := .behind })
      else none
  | .leave l =>
    (s.cursors l).bind fun x =>
      if x.stage = .reading then some (s.set l { x with stage := .left }) else none

def machine (ι α : Type*) [DecidableEq ι] : Machine (Log ι α) (Action ι α) where
  init := Log.init
  next := next

/-- What a reader has got is a window of the log. -/
structure Window (s : Log ι α) (x : Cursor α) : Prop where
  start_le : x.start ≤ s.dropped
  got : x.got = (s.posts.drop x.start).take x.got.length
  behind : x.stage = .behind → 0 < x.got.length ∧ x.pos ≤ s.dropped

structure Sound (s : Log ι α) : Prop where
  dropped_le : s.dropped ≤ s.posts.length + 1
  window : ∀ l x, s.cursors l = some x → Window s x

end Defs

variable {ι α : Type*} [DecidableEq ι] {s s' : Log ι α} {x : Cursor α} {a : Action ι α}

theorem Log.set_cursors (s : Log ι α) (l l' : ι) (x : Cursor α) :
    (s.set l x).cursors l' = if l' = l then some x else s.cursors l' :=
  Function.update_apply s.cursors l (some x) l'

omit [DecidableEq ι] in
theorem Window.pos_le (h : Window s x) (hx : x.got ≠ []) : x.pos ≤ s.posts.length := by
  have hlen := congrArg List.length h.got
  have hpos := List.length_pos_iff.mpr hx
  rw [List.length_take, List.length_drop] at hlen
  unfold Cursor.pos
  omega

omit [DecidableEq ι] in
/-- More posts and more drops. -/
theorem Window.mono (h : Window s x) (hposts : s.posts <+: s'.posts) (hdropped : s.dropped ≤ s'.dropped) :
    Window s' x where
  start_le := Nat.le_trans h.start_le hdropped
  got := by
    obtain ⟨r, hr⟩ := hposts
    by_cases hx : x.got = []
    · rw [hx]
      rfl
    · have hle := h.pos_le hx
      unfold Cursor.pos at hle
      rw [← hr, List.drop_append_of_le_length (by omega), List.take_append_of_le_length]
      · exact h.got
      · rw [List.length_drop]
        omega
  behind := fun hb => ⟨(h.behind hb).1, Nat.le_trans (h.behind hb).2 hdropped⟩

omit [DecidableEq ι] in
theorem sound_init : Sound (Log.init : Log ι α) where
  dropped_le := Nat.zero_le _
  window := fun l x h => by cases h

/-- One reader moves. -/
theorem Sound.set (h : Sound s) {l : ι} (hx : Window s x) : Sound (s.set l x) where
  dropped_le := h.dropped_le
  window := by
    intro l' x' hx'
    have hs : ∀ {y}, Window s y → Window (s.set l x) y := fun hy =>
      hy.mono (List.prefix_refl _) (Nat.le_refl _)
    rw [Log.set_cursors] at hx'
    split_ifs at hx' with hl
    · obtain rfl := Option.some.inj hx'
      exact hs hx
    · exact hs (h.window l' x' hx')

/-- **Step lemma**. -/
theorem Sound.step (h : Sound s) (hn : next s a = some s') : Sound s' := by
  cases a with
  | post m =>
    obtain rfl := Option.some.inj hn
    refine ⟨?_, fun l x hx => (h.window l x hx).mono (List.prefix_append _ _) (Nat.le_refl _)⟩
    have hle := h.dropped_le
    simp only [List.length_append, List.length_singleton]
    omega
  | drop =>
    simp only [next] at hn
    split_ifs at hn with hle
    obtain rfl := Option.some.inj hn
    exact ⟨Nat.succ_le_succ hle, fun l x hx =>
      (h.window l x hx).mono (List.prefix_refl _) (Nat.le_succ _)⟩
  | join l =>
    simp only [next] at hn
    split at hn
    · cases hn
    · obtain rfl := Option.some.inj hn
      exact h.set ⟨Nat.zero_le _, rfl, by simp⟩
  | place l =>
    obtain ⟨x, -, hn⟩ := Option.bind_eq_some_iff.mp hn
    split_ifs at hn
    obtain rfl := Option.some.inj hn
    exact h.set ⟨Nat.le_refl _, rfl, by simp⟩
  | deliver l =>
    obtain ⟨x, hx, hn⟩ := Option.bind_eq_some_iff.mp hn
    split_ifs at hn with hreading
    obtain ⟨m, hm, rfl⟩ := Option.map_eq_some_iff.mp hn
    have hw := h.window l x hx
    refine h.set ⟨hw.start_le, ?_, fun hb => ?_⟩
    · rw [List.length_append, List.length_singleton, List.take_add_one, ← hw.got, List.getElem?_drop]
      unfold Cursor.pos at hm
      rw [hm]
      rfl
    · rw [hreading] at hb
      cases hb
  | cut l =>
    obtain ⟨x, hx, hn⟩ := Option.bind_eq_some_iff.mp hn
    split_ifs at hn with hcut
    obtain rfl := Option.some.inj hn
    have hw := h.window l x hx
    exact h.set ⟨hw.start_le, hw.got, fun _ => hcut.2⟩
  | leave l =>
    obtain ⟨x, hx, hn⟩ := Option.bind_eq_some_iff.mp hn
    split_ifs at hn
    obtain rfl := Option.some.inj hn
    have hw := h.window l x hx
    exact h.set ⟨hw.start_le, hw.got, by simp⟩

/-- **Run lemma**. -/
theorem sound_of_reachable (h : (machine ι α).Reachable s) : Sound s :=
  h.invariant sound_init fun _ _ _ hI _ hn => hI.step hn

end WebsocketHub.BroadcastLog
