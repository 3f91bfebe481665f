import WebsocketHub.ChatroomStep

/-!
# WebsocketHub.ChatroomPurge — a closed room empties

`chatroom.Close` reads the map once and spawns a deletion for every client it finds.  `insertsInTime`
is the step condition that no client is put into the map after that; under it every client of a closed
room has a deletion that is about to remove it (`Emptying`).
-/

namespace WebsocketHub

open ChatroomState

section Defs

/-- The call of `chatroom.Close` has read the map. -/
def CloserPc.hasRead : CloserPc → Bool
  | .rlock => false
  | _ => true

/-- The ids it has not yet spawned a deletion for. -/
def CloserPc.ids : CloserPc → List UInt32
  | .spawn todo => todo.map Prod.fst
  | _ => []

/-- `l_delClient` has not come to its end. -/
def DelPc.removes : DelPc → Bool
  | .lock => true
  | .lookup => true
  | .rawClose => true
  | .delete => true
  | _ => false

/-- No client is put into the map after the call `k` of `chatroom.Close` has read it. -/
def insertsInTime (k : Kid) (s : ChatroomState) : ChatroomAction → Bool
  | .reader c _ => (s.conns c).all fun x =>
      x.reader ≠ .add .insert || !(s.closers k).any CloserPc.hasRead
  | _ => true

/-- A spawned deletion is about to remove the entry `id`. -/
def Removing (s : ChatroomState) (id : UInt32) : Prop :=
  ∃ d y, s.dels d = some y ∧ y.id = id ∧ y.pc.removes = true

/-- What is still in the map after the call `k` of `chatroom.Close` has read it. -/
def Emptying (k : Kid) (s : ChatroomState) : Prop :=
  ∀ p, s.closers k = some p → p.hasRead = true →
    ∀ id, (s.clients.lookup id).isSome = true → id ∈ p.ids ∨ Removing s id

end Defs

variable {verbose : Bool} {L : Limits} {k : Kid} {s s' m : ChatroomState} {a : ChatroomAction}
  {c : Cid} {T : Thread} {y : Deletion} {p : DelPc}

theorem mem_eraseIdx_of_ne {α : Type*} {l : List α} {i : ℕ} {e e' : α} (hi : l[i]? = some e)
    (he : e' ∈ l) (hne : e' ≠ e) : e' ∈ l.eraseIdx i := by
  obtain ⟨j, hj⟩ := List.mem_iff_getElem?.mp he
  rw [List.mem_eraseIdx_iff_getElem?]
  refine ⟨j, ?_, hj⟩
  rintro rfl
  exact hne (Option.some.inj (hj.symm.trans hi))

/-- Where a deletion comes to its end, its entry is gone. -/
theorem DelStep.removes (h : DelStep verbose s T y m p) (hy : y.pc.removes = true) :
    p.removes = true ∨ m.clients.lookup y.id = none := by
  cases h with
  | lock hpc hfree => exact .inl rfl
  | found hpc hl => exact .inl rfl
  | absent hpc hl => exact .inr hl
  | rawClose hpc => exact .inl rfl
  | delete hpc => exact .inr (AList.lookup_erase y.id s.clients)
  | count hpc =>
    rw [hpc] at hy
    cases hy
  | unlock hpc =>
    rw [hpc] at hy
    cases hy

/-- It takes entries out of the map. -/
theorem DelStep.lookup_isSome (h : DelStep verbose s T y m p) {id : UInt32}
    (hl : (m.clients.lookup id).isSome = true) : (s.clients.lookup id).isSome = true := by
  cases h with
  | delete hpc =>
    rw [AList.lookup_isSome] at hl ⊢
    exact (AList.mem_erase.mp hl).2
  | _ => exact hl

namespace Emptying

/-- A step that spawns nothing and puts nobody into the map. -/
theorem keep (h : Emptying k s)
    (hlookup : ∀ id, (s'.clients.lookup id).isSome = true → (s.clients.lookup id).isSome = true)
    (hclosers : s'.closers k = s.closers k)
    (hdels : ∀ id, Removing s id → Removing s' id ∨ s'.clients.lookup id = none) :
    Emptying k s' := by
  intro p hp hread id hid
  rw [hclosers] at hp
  rcases h p hp hread id (hlookup id hid) with hin | hrem
  · exact .inl hin
  · rcases hdels id hrem with hrem' | hnone
    · exact .inr hrem'
    · rw [hnone] at hid
      cases hid

theorem runDel (h : Emptying k s) (hd : runDel verbose s T = some s') : Emptying k s' := by
  have hclosers := (runDel_frame hd).2.2.2
  obtain ⟨y, m, p, hy, hs, rfl⟩ := runDel_cases hd
  have hclients : ∀ id, (m.moveDel p T).clients.lookup id = m.clients.lookup id := by
    intro id
    rw [moveDel_clients]
  refine h.keep (fun id hid => hs.lookup_isSome (hclients id ▸ hid)) (congrFun hclosers k) ?_
  rintro id ⟨d, z, hz, rfl, hrem⟩
  have hm : m.dels d = some z := hs.frame.2.2.2.1 ▸ hz
  by_cases hT : T = .del d
  · subst hT
    obtain rfl : y = z := Option.some.inj (hy.symm.trans hz)
    rcases hs.removes hrem with hp | hnone
    · refine .inl ⟨d, { y with pc := p }, ?_, rfl, hp⟩
      simp only [moveDel, Function.update_self, hm, Option.map_some]
    · exact .inr ((hclients y.id).trans hnone)
  · refine .inl ⟨d, z, ?_, rfl, hrem⟩
    cases T with
    | reader c => exact hm
    | writer c => exact hm
    | del e =>
      have hne : d ≠ e := fun heq => hT (by rw [heq])
      simp only [moveDel, Function.update_of_ne hne, hm]

/-- **Step lemma**. -/
theorem step (h : Emptying k s) (hnew : NewDel s) (hok : insertsInTime k s a = true)
    (hs : ChatStep verbose L s a s') : Emptying k s' := by
  cases hs with
  | addInsert hc hr =>
    simp only [insertsInTime, hc, Option.all_some, Bool.or_eq_true, Bool.not_eq_true'] at hok
    have hnot := hok.resolve_left (by simp [hr])
    intro p hp hread
    rw [show s.closers k = some p from hp] at hnot
    cases hread.symm.trans hnot
  | readerDel hd => exact h.runDel hd
  | writerDel hd => exact h.runDel hd
  | del hd => exact h.runDel hd
  | @close k₁ hk =>
    intro p hp hread
    rcases eq_or_ne k k₁ with rfl | hne
    · obtain rfl := Option.some.inj ((Function.update_self k _ s.closers).symm.trans hp)
      cases hread
    · exact h p ((Function.update_of_ne hne _ _).symm.trans hp) hread
  | @rlock k₁ i hk hfree =>
    intro p hp hread id hid
    rcases eq_or_ne k k₁ with rfl | hne
    · obtain rfl := Option.some.inj ((Function.update_self k _ s.closers).symm.trans hp)
      obtain ⟨c, hc⟩ := Option.isSome_iff_exists.mp hid
      refine .inl (List.mem_map.mpr ⟨(id, c), List.mem_map.mpr ⟨⟨id, c⟩, ?_, rfl⟩, rfl⟩)
      exact AList.mem_lookup_iff.mp hc
    · exact h p ((Function.update_of_ne hne _ _).symm.trans hp) hread id hid
  | @runlock k₁ i hk =>
    intro p hp hread id hid
    rcases eq_or_ne k k₁ with rfl | hne
    · -- the loop is over
      rcases h _ hk rfl id hid with hin | hrem
      · cases hin
      · exact .inr hrem
    · exact h p ((Function.update_of_ne hne _ _).symm.trans hp) hread id hid
  | @spawn k₁ i todo e hk hi =>
    intro p hp hread id hid
    -- the deletions that run already
    have hkeep : Removing s id → Removing { s with
        dels := Function.update s.dels s.nextDel (some ⟨e.1, e.2, .lock⟩)
        nextDel := s.nextDel + 1
        closers := Function.update s.closers k₁ (some (.spawn (todo.eraseIdx i))) } id := by
      rintro ⟨d, y, hd, hy⟩
      have hne : d ≠ s.nextDel := by
        rintro rfl
        rw [hnew _ (Nat.le_refl _)] at hd
        cases hd
      exact ⟨d, y, (Function.update_of_ne hne _ _).trans hd, hy⟩
    rcases eq_or_ne k k₁ with rfl | hne
    · obtain rfl := Option.some.inj ((Function.update_self k _ s.closers).symm.trans hp)
      rcases h _ hk rfl id hid with hin | hrem
      · obtain ⟨e', he', rfl⟩ := List.mem_map.mp hin
        by_cases heq : e' = e
        · subst heq
          exact .inr ⟨s.nextDel, ⟨e'.1, e'.2, .lock⟩, Function.update_self _ _ _, rfl, rfl⟩
        · refine .inl (List.mem_map.mpr ⟨e', ?_, rfl⟩)
          exact mem_eraseIdx_of_ne hi he' heq
      · exact .inr (hkeep hrem)
    · rcases h p ((Function.update_of_ne hne _ _).symm.trans hp) hread id hid with hin | hrem
      · exact .inl hin
      · exact .inr (hkeep hrem)
  | _ => exact h

end Emptying

theorem emptying_of_reaches
    (h : (chatRun verbose L).Reaches (fun s a => insertsInTime k s a = true) s) : Emptying k s := by
  refine h.invariant_of (I := Emptying k) (J := NewDel) (fun _ => newDel_of_reaches)
    (fun p hp => by cases hp) ?_
  intro s a s' hnew _ hI hok hn
  exact hI.step hnew hok (chatStep_of_next hn).2.2

/-- **A closed room empties**: when the call of `chatroom.Close` has returned and its deletions have, the
map is empty. -/
theorem closed_room_empty
    (h : (chatRun verbose L).Reaches (fun s a => insertsInTime k s a = true) s)
    (hk : s.closers k = some .returned) (hdels : ∀ d y, s.dels d = some y → y.pc = .returned)
    (id : UInt32) : s.clients.lookup id = none := by
  cases hl : s.clients.lookup id with
  | none => rfl
  | some c =>
    rcases emptying_of_reaches h _ hk rfl id (by rw [hl]; rfl) with hin | ⟨d, y, hd, -, hrem⟩
    · cases hin
    · rw [hdels d y hd] at hrem
      cases hrem

end WebsocketHub
