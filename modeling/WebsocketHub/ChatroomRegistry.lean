import WebsocketHub.ChatroomRoster

/-!
# WebsocketHub.ChatroomRegistry — who is taken out of the map

A writer that ends after a failed write has called `l_delClient`; one that leaves its loop because
`msgs` is closed has not.  `deregisters` is the step condition under which no client is forgotten: it
leaves the loop only when the client is out of the map already, and an id is not used again while a
client or a deletion still has it.

`Registry` is the invariant: the `Roster`, client by client, and that no client is in the map whose
writer has ended (`Ended`).
-/

namespace WebsocketHub

open ChatroomState

section Defs

/-- A writer leaves its loop when its client is out of the map. -/
def endsUnregistered (s : ChatroomState) : ChatroomAction → Bool
  | .writer c _ => (s.conns c).all fun x => x.writer ≠ .range || s.clients.lookup x.id ≠ some c
  | _ => true

/-- No client is forgotten by the step. -/
def deregisters (s : ChatroomState) (a : ChatroomAction) : Bool :=
  endsUnregistered s a && idsUnused s a

/-- The writer has left its loop, and `l_delClient` where it has called it. -/
def WriterPc.ended : WriterPc → Bool
  | .close _ => true
  | .returned => true
  | _ => false

/-- What the goroutines of client `c` know. -/
structure ClientOk (s : ChatroomState) (c : Cid) (x : Client) : Prop where
  kept : x.reader.inserted = true → s.clients.lookup x.id = some c ∨ RawClosed s c
  ended : x.writer.ended = true → s.clients.lookup x.id ≠ some c
  adding : x.reader.adding = true → s.clientsL.owner = some (.reader c)
  reader : ∀ p, x.reader = .del p → DelOk s (.reader c) ⟨x.id, c, p⟩
  writer : ∀ p, x.writer = .del p → DelOk s (.writer c) ⟨x.id, c, p⟩

structure Registry (s : ChatroomState) : Prop where
  entry : ∀ id c, s.clients.lookup id = some c → Member s id c
  client : ∀ c x, s.conns c = some x → ClientOk s c x
  del : ∀ d y, s.dels d = some y → DelOk s (.del d) y
  todo : ∀ k l, s.closers k = some (.spawn l) → ∀ e ∈ l, Member s e.1 e.2

/-- A client whose writer has ended is out of the map. -/
def Ended (s : ChatroomState) : Prop :=
  ∀ c x, s.conns c = some x → x.writer.ended = true → s.clients.lookup x.id ≠ some c

end Defs

variable {verbose : Bool} {L : Limits} {s s' m : ChatroomState} {a : ChatroomAction} {c : Cid}
  {x x' : Client} {T : Option Thread} {U : Thread}

theorem Roster.registry (h : Roster s) (he : Ended s) : Registry s where
  entry := h.entry
  client := fun c x hc =>
    { kept := fun hi => h.kept x.id c ⟨x, hc, rfl, hi⟩
      ended := he c x hc
      adding := h.adding c x hc
      reader := fun p hp => h.del _ _ (delAt_reader.mpr ⟨x, p, hc, hp, rfl⟩)
      writer := fun p hp => h.del _ _ (delAt_writer.mpr ⟨x, p, hc, hp, rfl⟩) }
  del := fun d y hd => h.del (.del d) y hd
  todo := h.todo

theorem Registry.delAt {y : Deletion} (h : Registry s) (hy : s.delAt U = some y) : DelOk s U y := by
  cases U with
  | reader c =>
    obtain ⟨x, p, hx, hp, rfl⟩ := delAt_reader.mp hy
    exact (h.client c x hx).reader p hp
  | writer c =>
    obtain ⟨x, p, hx, hp, rfl⟩ := delAt_writer.mp hy
    exact (h.client c x hx).writer p hp
  | del d => exact h.del d y hy

namespace Ended

/-- A step after which a client is in the map only if it was before. -/
theorem of_entries (h : Ended s)
    (hentry : ∀ id c, s'.clients.lookup id = some c → s.clients.lookup id = some c)
    (hconn : ∀ c x', s'.conns c = some x' → x'.writer.ended = true →
      (∃ x, s.conns c = some x ∧ x.id = x'.id ∧ x.writer.ended = true) ∨
        s.clients.lookup x'.id ≠ some c) : Ended s' := by
  intro c x' hc he hl
  rcases hconn c x' hc he with ⟨x, hx, hid, hex⟩ | hout
  · exact h c x hx hex (hid ▸ hentry _ _ hl)
  · exact hout (hentry _ _ hl)

/-- Such a step of one client. -/
theorem set (h : Ended s) (hc : s.conns c = some x)
    (hconns : s'.conns = Function.update s.conns c (some x'))
    (hentry : ∀ id c, s'.clients.lookup id = some c → s.clients.lookup id = some c)
    (he : x'.writer.ended = true → (x.id = x'.id ∧ x.writer.ended = true) ∨
      s.clients.lookup x'.id ≠ some c) : Ended s' := by
  refine h.of_entries hentry fun d y hd hy => ?_
  rw [hconns, Function.update_apply] at hd
  split at hd
  · next heq =>
    subst heq
    obtain rfl := Option.some.inj hd
    rcases he hy with ⟨hid, hex⟩ | hout
    · exact .inl ⟨x, hc, hid, hex⟩
    · exact .inr hout
  · exact .inl ⟨y, hd, rfl, hy⟩

/-- A goroutine in `l_delClient` takes a step; where the writer returns from it, the client is out of
the map. -/
theorem runDel (h : Ended s) (hr : Roster s) (hd : runDel verbose s U = some s')
    (hok : ownEntry s U = true) : Ended s' := by
  obtain ⟨y, m, p, hy, hs, rfl⟩ := runDel_cases hd
  obtain ⟨-, -, hret, hshrink⟩ := hs.keeps (hr.del U y hy) (own_of_ownEntry hok hy)
  have hconn : ∀ c x₁, m.conns c = some x₁ →
      ∃ x, s.conns c = some x ∧ x₁.id = x.id ∧ x₁.writer = x.writer := by
    intro c x₁ h₁
    obtain ⟨x, hx, rfl | rfl⟩ := hs.conn h₁
    · exact ⟨x₁, hx, rfl, rfl⟩
    · exact ⟨x, hx, rfl, rfl⟩
  intro c x' hc he hl
  rw [moveDel_clients] at hl
  -- a client whose writer does not move
  have hkeep : ∀ x₁, m.conns c = some x₁ → x₁.writer.ended = true → x₁.id = x'.id → False := by
    intro x₁ h₁ he₁ hid₁
    obtain ⟨x, hx, hid, hw⟩ := hconn c x₁ h₁
    exact h c x hx (hw ▸ he₁) (hid ▸ hid₁ ▸ hshrink _ _ hl)
  cases U with
  | reader d =>
    rw [moveDel, conns_onConn] at hc
    split at hc
    · next heq =>
      obtain ⟨x₁, h₁, rfl⟩ := Option.map_eq_some_iff.mp hc
      exact hkeep x₁ (heq ▸ h₁) he rfl
    · exact hkeep x' hc he rfl
  | writer d =>
    obtain ⟨x₀, p₀, hx₀, -, rfl⟩ := delAt_writer.mp hy
    rw [moveDel, conns_onConn] at hc
    split at hc
    · next heq =>
      subst heq
      obtain ⟨x₁, h₁, rfl⟩ := Option.map_eq_some_iff.mp hc
      obtain ⟨x, hx, hid, -⟩ := hconn c x₁ h₁
      obtain rfl := Option.some.inj (hx₀.symm.trans hx)
      obtain rfl : p = .returned := by
        cases p <;> first | rfl | cases he
      exact hret rfl (hid ▸ hl)
    · exact hkeep x' hc he rfl
  | del d => exact hkeep x' hc he rfl

/-- **Step lemma**. -/
theorem step (h : Ended s) (hr : Roster s) (hsp : Spawned s) (hok : deregisters s a = true)
    (hs : ChatStep verbose L s a s') : Ended s' := by
  obtain ⟨hends, hids⟩ := Bool.and_eq_true_iff.mp hok
  have hkeep : ∀ id c, s.clients.lookup id = some c → s.clients.lookup id = some c := fun _ _ h => h
  -- the writer of a client that is being added has not been spawned
  have hnew : ∀ {c x q}, s.conns c = some x → x.reader = .add q → ReaderPc.spawned (.add q) = false →
      ∀ {id}, x.writer.ended = true → id = x.id ∧ x.writer.ended = true := by
    intro c x q hc hq hf id he
    rw [hsp c x hc (by rw [hq]; exact hf)] at he
    cases he
  cases hs with
  | @connect c hc =>
    refine h.of_entries hkeep fun d y hd hy => ?_
    rw [conns_setConn] at hd
    split at hd
    · obtain rfl := Option.some.inj hd
      cases hy
    · exact .inl ⟨y, hd, rfl, hy⟩
  | addInc hc hrd => exact h.set hc rfl hkeep fun he => .inl ((hnew hc hrd rfl he).imp Eq.symm id)
  | addLock hc hrd hfree => exact h.set hc rfl hkeep fun he => .inl ⟨rfl, he⟩
  | @addInsert c x i hc hrd =>
    have hw := hsp c x hc (by rw [hrd]; rfl)
    simp only [idsUnused, hc, Option.all_some, Bool.and_eq_true, Bool.or_eq_true,
      Option.isNone_iff_eq_none] at hids
    intro d y hd he hl
    rw [conns_setConn] at hd
    split at hd
    · obtain rfl := Option.some.inj hd
      rw [show ({ x with reader := .add .unlock } : Client).writer = x.writer from rfl, hw] at he
      cases he
    · next hne =>
      refine h d y hd he ?_
      have hne' : y.id ≠ x.id := by
        intro heq
        rw [heq] at hl
        exact hne (Option.some.inj ((AList.lookup_insert s.clients).symm.trans hl)).symm
      exact (AList.lookup_insert_ne hne').symm.trans hl
  | addUnlock hc hrd => exact h.set hc rfl hkeep fun he => .inl ⟨rfl, he⟩
  | addWatcher hc hrd => exact h.set hc rfl hkeep fun he => .inl ⟨rfl, he⟩
  | addWriter hc hrd => exact h.set hc rfl hkeep (by simp [WriterPc.ended])
  | addListen hc hrd hq => exact h.set hc rfl hkeep fun he => .inl ⟨rfl, he⟩
  | addCount hc hrd => exact h.set hc rfl hkeep fun he => .inl ⟨rfl, he⟩
  | readFails hc hrd => exact h.set hc rfl hkeep fun he => .inl ⟨rfl, he⟩
  | readMsg hc hrd hq => exact h.set hc rfl hkeep fun he => .inl ⟨rfl, he⟩
  | appendReturns hc hrd hret => exact h.set hc rfl hkeep fun he => .inl ⟨rfl, he⟩
  | readerCloses hc hrd hstep => exact h.set hc rfl hkeep fun he => .inl ⟨rfl, he⟩
  | watcherWait hc hw hcl => exact h.set hc rfl hkeep fun he => .inl ⟨rfl, he⟩
  | watcherQuit hc hw => exact h.set hc rfl hkeep fun he => .inl ⟨rfl, he⟩
  | writerEnds hc hw hl =>
    simp only [endsUnregistered, hc, Option.all_some, Bool.or_eq_true, decide_eq_true_eq] at hends
    exact h.set hc rfl hkeep fun _ => .inr (hends.resolve_left (by simp [hw]))
  | writeOk hc hw => exact h.set hc rfl hkeep (by simp [WriterPc.ended])
  | writeFails hc hw => exact h.set hc rfl hkeep (by simp [WriterPc.ended])
  | writerCloses hc hw hstep =>
    exact h.set hc rfl hkeep fun _ => .inl ⟨rfl, by rw [hw]; rfl⟩
  | send hc hl hw hq => exact h.set hc rfl hkeep (by simp [WriterPc.ended])
  | readerDel hd =>
    simp only [idsUnused, Bool.and_eq_true] at hids
    exact h.runDel hr hd hids.1
  | writerDel hd => exact h.runDel hr hd hids
  | del hd => exact h.runDel hr hd hids
  | _ => exact h

end Ended

theorem registry_of_reaches
    (h : (chatRun verbose L).Reaches (fun s a => deregisters s a = true) s) : Registry s := by
  suffices hI : Roster s ∧ Ended s from hI.1.registry hI.2
  refine h.invariant_of (I := fun s => Roster s ∧ Ended s) (J := Spawned)
    (fun _ => spawned_of_reaches) ⟨.init, fun c x hc => by cases hc⟩ ?_
  rintro s a s' hsp - ⟨hr, he⟩ hok hn
  have hs := (chatStep_of_next hn).2.2
  exact ⟨hr.step hsp (Bool.and_eq_true_iff.mp hok).2 hs, he.step hr hsp hok hs⟩

theorem Registry.not_deaf (h : Registry s) (hsp : Spawned s) (hc : s.conns c = some x)
    (hw : x.writer = .returned) : x.raw = true ∧ ∀ id, s.clients.lookup id ≠ some c := by
  have hx := h.client c x hc
  have hout : s.clients.lookup x.id ≠ some c := hx.ended (by rw [hw]; rfl)
  have hins : x.reader.inserted = true := by
    by_contra hne
    have := hsp c x hc (ReaderPc.not_spawned (by simpa using hne))
    rw [hw] at this
    cases this
  constructor
  · obtain ⟨x', hx', hraw⟩ := (hx.kept hins).resolve_left hout
    obtain rfl := Option.some.inj (hc.symm.trans hx')
    exact hraw
  · intro id hl
    obtain ⟨x', hx', hid, -⟩ := h.entry id c hl
    obtain rfl := Option.some.inj (hc.symm.trans hx')
    exact hout (hid ▸ hl)

end WebsocketHub
