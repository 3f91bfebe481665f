import WebsocketHub.ChatroomRoster

/-!
# WebsocketHub.ChatroomIds — the ids that `cr.numclients` hands out

They count the clients, modulo `2 ^ 32`.  As long as the counter does not overflow (`countsOn`), every
client has an id of its own (`Ids`), no id is used again, and the map is in order.
-/

namespace WebsocketHub

open ChatroomState

section Defs

/-- `cr.numclients.inc()` does not overflow. -/
def countsOn (s : ChatroomState) : ChatroomAction → Bool
  | .reader c _ => (s.conns c).all fun x => x.reader ≠ .add .inc || s.numclients + 1 ≠ 0
  | _ => true

/-- Every client that has its id has one of its own, and the counter has passed it. -/
structure Ids (s : ChatroomState) : Prop where
  le : ∀ c x, s.conns c = some x → x.reader ≠ .add .inc → x.id ≤ s.numclients
  inj : ∀ c c' x x', s.conns c = some x → s.conns c' = some x' → x.reader ≠ .add .inc →
    x'.reader ≠ .add .inc → x.id = x'.id → c = c'

end Defs

variable {verbose : Bool} {L : Limits} {s s' : ChatroomState} {a : ChatroomAction} {c : Cid}
  {x x' : Client} {U : Thread}

theorem ReaderPc.ne_inc {r : ReaderPc} (h : r.inserted = true) : r ≠ .add .inc := by
  rintro rfl
  cases h

theorem Member.eq {id : UInt32} {c' : Cid} (hids : Ids s) (h : Member s id c)
    (h' : Member s id c') : c = c' := by
  obtain ⟨x, hx, hid, hins⟩ := h
  obtain ⟨x', hx', hid', hins'⟩ := h'
  exact hids.inj c c' x x' hx hx' (ReaderPc.ne_inc hins) (ReaderPc.ne_inc hins')
    (hid.trans hid'.symm)

theorem runDel_numclients (h : WebsocketHub.runDel verbose s U = some s') :
    s'.numclients = s.numclients := by
  obtain ⟨y, m, p, -, hm, rfl⟩ := runDel_cases h
  have hmove : (m.moveDel p U).numclients = m.numclients := by cases U <;> rfl
  rw [hmove]
  cases hm <;> rfl

namespace Ids

theorem init : Ids ChatroomState.init where
  le := fun c x h => by cases h
  inj := fun c c' x x' h => by cases h

/-- A step that hands out no id. -/
theorem keep (h : Ids s) (hnum : s'.numclients = s.numclients)
    (hconn : ∀ c x', s'.conns c = some x' → x'.reader ≠ .add .inc →
      ∃ x, s.conns c = some x ∧ x.id = x'.id ∧ x.reader ≠ .add .inc) : Ids s' where
  le := by
    intro c x' hc hr
    obtain ⟨x, hx, hid, hr'⟩ := hconn c x' hc hr
    rw [hnum, ← hid]
    exact h.le c x hx hr'
  inj := by
    intro c₁ c₂ x₁' x₂' h₁ h₂ hr₁ hr₂ heq
    obtain ⟨x₁, hx₁, hid₁, hr₁'⟩ := hconn c₁ x₁' h₁ hr₁
    obtain ⟨x₂, hx₂, hid₂, hr₂'⟩ := hconn c₂ x₂' h₂ hr₂
    exact h.inj c₁ c₂ x₁ x₂ hx₁ hx₂ hr₁' hr₂' (hid₁.trans (heq.trans hid₂.symm))

/-- Such a step of one client. -/
theorem set (h : Ids s) (hnum : s'.numclients = s.numclients) (hc : s.conns c = some x)
    (hconns : s'.conns = Function.update s.conns c (some x')) (hid : x'.id = x.id)
    (hr : x'.reader ≠ .add .inc → x.reader ≠ .add .inc) : Ids s' := by
  refine h.keep hnum fun c₁ x₁ h₁ hr₁ => ?_
  rw [hconns, Function.update_apply] at h₁
  split at h₁
  · next heq =>
    obtain rfl := Option.some.inj h₁
    exact ⟨x, heq ▸ hc, hid.symm, hr hr₁⟩
  · exact ⟨x₁, h₁, rfl, hr₁⟩

theorem del (h : Ids s) (hd : WebsocketHub.runDel verbose s U = some s') : Ids s' := by
  refine h.keep (runDel_numclients hd) fun c x' hc hr => ?_
  obtain ⟨x, hx, hm⟩ := runDel_conn hd hc
  refine ⟨x, hx, hm.id.symm, ?_⟩
  rcases hm.reader with heq | ⟨p, p', hp, -⟩
  · rw [← heq]
    exact hr
  · rw [hp]
    simp

/-- The next id. -/
theorem inc (h : Ids s) (hlt : s.numclients + 1 ≠ 0) :
    Ids ({ s with numclients := s.numclients + 1 }.setConn c
      { x with id := s.numclients + 1, reader := .add .lock }) := by
  have hnext : ∀ i : UInt32, i ≤ s.numclients → i < s.numclients + 1 := by
    intro i hi
    rw [UInt32.le_iff_toNat_le] at hi
    have hne : (s.numclients + 1).toNat ≠ 0 := fun h0 => hlt (UInt32.toNat_inj.mp h0)
    rw [UInt32.lt_iff_toNat_lt]
    rw [UInt32.toNat_add] at hne ⊢
    have hbound := s.numclients.toNat_lt
    have hone : (1 : UInt32).toNat = 1 := rfl
    omega
  have hne : ∀ d y, s.conns d = some y → y.reader ≠ .add .inc → y.id ≠ s.numclients + 1 :=
    fun d y hd hr heq => UInt32.lt_irrefl _ (heq ▸ hnext _ (h.le d y hd hr))
  constructor
  · intro d y hd hr
    rw [conns_setConn] at hd
    split at hd
    · obtain rfl := Option.some.inj hd
      exact UInt32.le_refl _
    · exact UInt32.le_of_lt (hnext _ (h.le d y hd hr))
  · intro d d' y y' hd hd' hr hr' heq
    rw [conns_setConn] at hd hd'
    split at hd <;> split at hd'
    · next h1 h2 => exact h1.trans h2.symm
    · obtain rfl := Option.some.inj hd
      exact absurd heq.symm (hne d' y' hd' hr')
    · obtain rfl := Option.some.inj hd'
      exact absurd heq (hne d y hd hr)
    · exact h.inj d d' y y' hd hd' hr hr' heq

/-- **Step lemma**. -/
theorem step (h : Ids s) (hok : countsOn s a = true) (hs : ChatStep verbose L s a s') : Ids s' := by
  cases hs with
  | @connect c hc =>
    refine h.keep rfl fun d y hd hr => ?_
    rw [conns_setConn] at hd
    split at hd
    · obtain rfl := Option.some.inj hd
      exact absurd rfl hr
    · exact ⟨y, hd, rfl, hr⟩
  | addInc hc hr =>
    simp only [countsOn, hc, Option.all_some, Bool.or_eq_true, decide_eq_true_eq] at hok
    exact h.inc (hok.resolve_left (by simp [hr]))
  | addLock hc hr hfree => exact h.set rfl hc rfl rfl fun _ => by simp [hr]
  | addInsert hc hr => exact h.set rfl hc rfl rfl fun _ => by simp [hr]
  | addUnlock hc hr => exact h.set rfl hc rfl rfl fun _ => by simp [hr]
  | addWatcher hc hr => exact h.set rfl hc rfl rfl fun _ => by simp [hr]
  | addWriter hc hr => exact h.set rfl hc rfl rfl fun _ => by simp [hr]
  | addListen hc hr hq => exact h.set rfl hc rfl rfl fun _ => by simp [hr]
  | addCount hc hr => exact h.set rfl hc rfl rfl fun _ => by simp [hr]
  | readFails hc hr => exact h.set rfl hc rfl rfl fun _ => by simp [hr]
  | readMsg hc hr hq => exact h.set rfl hc rfl rfl fun _ => by simp [hr]
  | appendReturns hc hr hret => exact h.set rfl hc rfl rfl fun _ => by simp [hr]
  | readerCloses hc hr hstep => exact h.set rfl hc rfl rfl fun _ => by simp [hr]
  | watcherWait hc hw hcl => exact h.set rfl hc rfl rfl fun hr => hr
  | watcherQuit hc hw => exact h.set rfl hc rfl rfl fun hr => hr
  | writerEnds hc hw hl => exact h.set rfl hc rfl rfl fun hr => hr
  | writeOk hc hw => exact h.set rfl hc rfl rfl fun hr => hr
  | writeFails hc hw => exact h.set rfl hc rfl rfl fun hr => hr
  | writerCloses hc hw hstep => exact h.set rfl hc rfl rfl fun hr => hr
  | send hc hl hw hq => exact h.set rfl hc rfl rfl fun hr => hr
  | readerDel hd => exact h.del hd
  | writerDel hd => exact h.del hd
  | del hd => exact h.del hd
  | _ => exact ⟨h.le, h.inj⟩

end Ids

/-- The only entry that a deletion can find is its own client's. -/
theorem own_of_ids {y : Deletion} (h : Roster s) (hids : Ids s) (hy : s.delAt U = some y) :
    ∀ c, s.clients.lookup y.id = some c → c = y.client :=
  fun c hl => (h.entry y.id c hl).eq hids (h.del U y hy).member

theorem ownEntry_of_ids (h : Roster s) (hids : Ids s) (U : Thread) : ownEntry s U = true := by
  rw [ownEntry]
  cases hy : s.delAt U with
  | none => rfl
  | some y =>
    rw [Option.all_some, Bool.or_eq_true]
    right
    cases hl : s.clients.lookup y.id with
    | none => rfl
    | some c => exact decide_eq_true (own_of_ids h hids hy c hl)

/-- The id of a client that is not in the map yet is in nobody's entry. -/
theorem lookup_none_of_ids (h : Roster s) (hids : Ids s) (hc : s.conns c = some x)
    (hr : x.reader = .add .insert) : s.clients.lookup x.id = none := by
  cases hl : s.clients.lookup x.id with
  | none => rfl
  | some c' =>
    -- the entry would be this client's own, which has none yet
    obtain ⟨x', hx', hid, hins⟩ := h.entry x.id c' hl
    obtain rfl := hids.inj c c' x x' hc hx' (by simp [hr]) (ReaderPc.ne_inc hins) hid.symm
    obtain rfl := Option.some.inj (hc.symm.trans hx')
    rw [hr] at hins
    cases hins

/-- Ids that are unique are not used again. -/
theorem idsUnused_of_ids (h : Roster s) (hids : Ids s) : idsUnused s a = true := by
  have hown := ownEntry_of_ids h hids
  cases a with
  | reader c i =>
    rw [idsUnused, hown, Bool.true_and]
    cases hc : s.conns c with
    | none => rfl
    | some x =>
      rw [Option.all_some, Bool.or_eq_true, decide_eq_true_eq]
      by_cases hr : x.reader = .add .insert
      · exact .inr (by rw [lookup_none_of_ids h hids hc hr]; rfl)
      · exact .inl hr
  | writer c ok => exact hown _
  | del d => exact hown _
  | connect c => rfl
  | watcher c => rfl
  | listener c quit => rfl
  | close k => rfl
  | closer k i => rfl

/-- While the counter does not overflow, the map is in order. -/
theorem roster_of_counts (h : (chatRun verbose L).Reaches (fun s a => countsOn s a = true) s) :
    Roster s ∧ Ids s := by
  refine h.invariant_of (I := fun s => Roster s ∧ Ids s) (J := Spawned)
    (fun _ => spawned_of_reaches) ⟨.init, .init⟩ ?_
  rintro s a s' hsp - ⟨hr, hids⟩ hcounts hn
  have hs := (chatStep_of_next hn).2.2
  exact ⟨hr.step hsp (idsUnused_of_ids hr hids) hs, hids.step hcounts hs⟩

end WebsocketHub
