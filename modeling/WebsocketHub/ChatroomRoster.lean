import WebsocketHub.ChatroomStep

/-!
# WebsocketHub.ChatroomRoster — the map `cr.l.clients` and its lock

`Roster` is the invariant: who is in the map, who has been taken out with its connection closed, and
what a deletion knows at each of its statements, whichever goroutine runs it.  `Keeps T` is what a step
of goroutine `T` leaves alone; while another goroutine holds the lock, that is the whole map.
`idsUnused` is the step condition: an id is not used again while a client or a deletion still has it.
-/

namespace WebsocketHub

open ChatroomState

section Defs

/-- A deletion that looks its id up finds no entry or its own client's. -/
def ownEntry (s : ChatroomState) (T : Thread) : Bool :=
  (s.delAt T).all fun y => y.pc ≠ .lookup || (s.clients.lookup y.id).all (· = y.client)

/-- An id is not used again while someone has it. -/
def idsUnused (s : ChatroomState) : ChatroomAction → Bool
  | .reader c _ => ownEntry s (.reader c) &&
      (s.conns c).all fun x => x.reader ≠ .add .insert || (s.clients.lookup x.id).isNone
  | .writer c _ => ownEntry s (.writer c)
  | .del d => ownEntry s (.del d)
  | _ => true

/-- `l_addClient` has put the client into the map. -/
def ReaderPc.inserted : ReaderPc → Bool
  | .add .inc => false
  | .add .lock => false
  | .add .insert => false
  | _ => true

/-- `l_addClient` holds the lock. -/
def ReaderPc.adding : ReaderPc → Bool
  | .add .insert => true
  | .add .unlock => true
  | _ => false

/-- The deletion holds the lock. -/
def DelPc.inside : DelPc → Bool
  | .lock => false
  | .returned => false
  | _ => true

/-- It has found its entry and not yet deleted it. -/
def DelPc.found : DelPc → Bool
  | .rawClose => true
  | .delete => true
  | _ => false

/-- It has deleted its entry or found none. -/
def DelPc.gone : DelPc → Bool
  | .count => true
  | .unlock => true
  | _ => false

/-- Client `c` has been put into the map under `id`. -/
def Member (s : ChatroomState) (id : UInt32) (c : Cid) : Prop :=
  ∃ x, s.conns c = some x ∧ x.id = id ∧ x.reader.inserted = true

/-- The connection of client `c` is closed. -/
def RawClosed (s : ChatroomState) (c : Cid) : Prop := ∃ x, s.conns c = some x ∧ x.raw = true

/-- What the deletion `y` in goroutine `T` knows. -/
structure DelOk (s : ChatroomState) (T : Thread) (y : Deletion) : Prop where
  member : Member s y.id y.client
  holds : y.pc.inside = true → s.clientsL.owner = some T
  found : y.pc.found = true → s.clients.lookup y.id = some y.client
  closed : y.pc = .delete → RawClosed s y.client
  gone : y.pc.gone = true → s.clients.lookup y.id ≠ some y.client

/-- What a step of goroutine `T` leaves to the others; `none` for a goroutine that never locks. -/
structure Keeps (T : Option Thread) (s s' : ChatroomState) : Prop where
  owner : ∀ U, T ≠ some U → s.clientsL.owner = some U →
    s'.clientsL.owner = some U ∧ s'.clients = s.clients
  member : ∀ id c, Member s id c → Member s' id c
  raw : ∀ c, RawClosed s c → RawClosed s' c
  kept : ∀ id c, s.clients.lookup id = some c → s'.clients.lookup id = some c ∨ RawClosed s' c
  entry : ∀ id c, s'.clients.lookup id = some c →
    s.clients.lookup id = some c ∨ T = some (.reader c) ∧ Member s' id c

/-- The map, its lock and the deletions are the same. -/
structure SameRegistry (s s' : ChatroomState) : Prop where
  clients : s'.clients = s.clients
  owner : s'.clientsL.owner = s.clientsL.owner
  dels : s'.dels = s.dels
  closers : s'.closers = s.closers

/-- The map, what the deletions and the joins know about it, and what `chatroom.Close` has read. -/
structure Roster (s : ChatroomState) : Prop where
  entry : ∀ id c, s.clients.lookup id = some c → Member s id c
  kept : ∀ id c, Member s id c → s.clients.lookup id = some c ∨ RawClosed s c
  adding : ∀ c x, s.conns c = some x → x.reader.adding = true →
    s.clientsL.owner = some (.reader c)
  del : ∀ U y, s.delAt U = some y → DelOk s U y
  todo : ∀ k l, s.closers k = some (.spawn l) → ∀ e ∈ l, Member s e.1 e.2

end Defs

variable {verbose : Bool} {L : Limits} {s s' m : ChatroomState} {a : ChatroomAction} {c : Cid}
  {x x' : Client} {T : Option Thread} {U : Thread} {y : Deletion} {p : DelPc}

theorem DelPc.inside_of_found (h : p.found = true) : p.inside = true := by
  cases p <;> first | rfl | cases h

theorem DelPc.inside_of_gone (h : p.gone = true) : p.inside = true := by
  cases p <;> first | rfl | cases h

theorem ReaderPc.not_spawned {r : ReaderPc} (h : r.inserted = false) : r.spawned = false := by
  unfold inserted at h
  split at h <;> first | rfl | cases h

/-- What `ownEntry` says about the deletion it is a condition of. -/
theorem own_of_ownEntry (hok : ownEntry s U = true) (hy : s.delAt U = some y)
    (hpc : y.pc = .lookup) : ∀ c, s.clients.lookup y.id = some c → c = y.client := by
  intro c hc
  rw [ownEntry, hy, Option.all_some, Bool.or_eq_true, hc] at hok
  exact of_decide_eq_true (hok.resolve_left (by simp [hpc]))

/-- A deletion before its lock knows only that its client has been in the map. -/
theorem delOk_lock {id : UInt32} (h : Member s id c) : DelOk s U ⟨id, c, .lock⟩ where
  member := h
  holds := by simp [DelPc.inside]
  found := by simp [DelPc.found]
  closed := by simp
  gone := by simp [DelPc.gone]

namespace Keeps

theorem trans (h₁ : Keeps T s m) (h₂ : Keeps none m s') : Keeps T s s' where
  owner := by
    intro U hU ho
    obtain ⟨h3, h4⟩ := h₁.owner U hU ho
    obtain ⟨h5, h6⟩ := h₂.owner U (by simp) h3
    exact ⟨h5, h6.trans h4⟩
  member := fun id c hm => h₂.member id c (h₁.member id c hm)
  raw := fun c hr => h₂.raw c (h₁.raw c hr)
  kept := by
    intro id c hl
    rcases h₁.kept id c hl with h | h
    · exact h₂.kept id c h
    · exact .inr (h₂.raw c h)
  entry := by
    intro id c hl
    rcases h₂.entry id c hl with h | ⟨h, -⟩
    · rcases h₁.entry id c h with h' | ⟨hT, hm⟩
      · exact .inl h'
      · exact .inr ⟨hT, h₂.member id c hm⟩
    · cases h

/-- A step that leaves the map and its lock alone and takes no client out of it. -/
theorem quiet (hclients : s'.clients = s.clients) (howner : s'.clientsL.owner = s.clientsL.owner)
    (hconn : ∀ c x, s.conns c = some x → ∃ x', s'.conns c = some x' ∧
      (x.reader.inserted = true → x'.id = x.id ∧ x'.reader.inserted = true) ∧
      (x.raw = true → x'.raw = true)) : Keeps T s s' where
  owner := fun U _ ho => ⟨howner.trans ho, hclients⟩
  member := by
    rintro id c ⟨x, hx, hid, hins⟩
    obtain ⟨x', hx', hrole, -⟩ := hconn c x hx
    exact ⟨x', hx', (hrole hins).1.trans hid, (hrole hins).2⟩
  raw := by
    rintro c ⟨x, hx, hraw⟩
    obtain ⟨x', hx', -, hraw'⟩ := hconn c x hx
    exact ⟨x', hx', hraw' hraw⟩
  kept := fun id c hl => .inl (by rw [hclients]; exact hl)
  entry := fun id c hl => .inl (by rw [hclients] at hl; exact hl)

/-- A quiet step of one client. -/
theorem set (hclients : s'.clients = s.clients) (howner : s'.clientsL.owner = s.clientsL.owner)
    (hc : s.conns c = some x) (hconns : s'.conns = Function.update s.conns c (some x'))
    (hrole : x.reader.inserted = true → x'.id = x.id ∧ x'.reader.inserted = true)
    (hraw : x.raw = true → x'.raw = true) : Keeps T s s' := by
  refine quiet hclients howner fun c₁ x₁ h₁ => ?_
  rw [hconns, Function.update_apply]
  split
  · next heq =>
    obtain rfl := Option.some.inj (hc.symm.trans (heq ▸ h₁))
    exact ⟨x', rfl, hrole, hraw⟩
  · exact ⟨x₁, h₁, fun h => ⟨rfl, h⟩, fun h => h⟩

end Keeps

/-- What a deletion knows is safe from the steps of the other goroutines. -/
theorem DelOk.keeps (h : DelOk s U y) (hk : Keeps T s s') (hT : T ≠ some U) : DelOk s' U y where
  member := hk.member _ _ h.member
  holds := fun hin => (hk.owner U hT (h.holds hin)).1
  found := fun hf => by
    rw [(hk.owner U hT (h.holds (DelPc.inside_of_found hf))).2]
    exact h.found hf
  closed := fun hp => hk.raw _ (h.closed hp)
  gone := fun hg => by
    rw [(hk.owner U hT (h.holds (DelPc.inside_of_gone hg))).2]
    exact h.gone hg

/-! ## The deletions -/

/-- A step of `l_delClient` before the goroutine moves on: what it leaves alone, what it knows then,
and that it puts nobody into the map. -/
theorem DelStep.keeps (hy : DelOk s U y) (hs : DelStep verbose s U y m p)
    (hown : y.pc = .lookup → ∀ c, s.clients.lookup y.id = some c → c = y.client) :
    Keeps (some U) s m ∧ DelOk m U { y with pc := p } ∧
      (p = .returned → m.clients.lookup y.id ≠ some y.client) ∧
      ∀ id c, m.clients.lookup id = some c → s.clients.lookup id = some c := by
  have hself : ∀ V, some U ≠ some V → s.clientsL.owner = some U → s.clientsL.owner ≠ some V :=
    fun V hne ho hV => hne (ho.symm.trans hV)
  cases hs with
  | lock hpc hfree =>
    simp only [canLock, Bool.and_eq_true, Option.isNone_iff_eq_none] at hfree
    refine ⟨⟨?_, fun _ _ h => h, fun _ h => h, fun _ _ h => .inl h, fun _ _ h => .inl h⟩,
      ⟨hy.member, fun _ => rfl, by simp [DelPc.found], by simp, by simp [DelPc.gone]⟩, by simp,
      fun _ _ h => h⟩
    intro V hne ho
    rw [hfree.1] at ho
    cases ho
  | found hpc hl =>
    have hin := hy.holds (by rw [hpc]; rfl)
    obtain ⟨c, hc⟩ := Option.isSome_iff_exists.mp hl
    have hc' : s.clients.lookup y.id = some y.client := by rw [hc, hown hpc c hc]
    exact ⟨.quiet rfl rfl fun c x h => ⟨x, h, fun h => ⟨rfl, h⟩, fun h => h⟩,
      ⟨hy.member, fun _ => hin, fun _ => hc', by simp, by simp [DelPc.gone]⟩, by simp,
      fun _ _ h => h⟩
  | absent hpc hl =>
    have hin := hy.holds (by rw [hpc]; rfl)
    exact ⟨.quiet rfl rfl fun c x h => ⟨x, h, fun h => ⟨rfl, h⟩, fun h => h⟩,
      ⟨hy.member, fun _ => hin, by simp [DelPc.found], by simp, fun _ => by simp [hl]⟩, by simp,
      fun _ _ h => h⟩
  | rawClose hpc =>
    have hin := hy.holds (by rw [hpc]; rfl)
    have hf := hy.found (by rw [hpc]; rfl)
    obtain ⟨x, hx, hid, hins⟩ := hy.member
    have hk : Keeps (some U) s (s.onConn y.client fun x => { x with raw := true }) := by
      have hconns : (s.onConn y.client fun x => { x with raw := true }).conns =
          Function.update s.conns y.client (some { x with raw := true }) := by
        simp only [onConn, hx, Option.map_some]
      exact .set rfl rfl hx hconns (fun h => ⟨rfl, h⟩) (fun _ => rfl)
    have hraw : RawClosed (s.onConn y.client fun x => { x with raw := true }) y.client :=
      ⟨{ x with raw := true }, by simp [conns_onConn, hx], rfl⟩
    exact ⟨hk, ⟨hk.member _ _ ⟨x, hx, hid, hins⟩, fun _ => hin, fun _ => hf, fun _ => hraw,
      by simp [DelPc.gone]⟩, by simp, fun _ _ h => h⟩
  | delete hpc =>
    have hin := hy.holds (by rw [hpc]; rfl)
    have hf := hy.found (by rw [hpc]; rfl)
    have hraw := hy.closed hpc
    have hout : (s.clients.erase y.id).lookup y.id ≠ some y.client := by simp
    have herase : ∀ id c, (s.clients.erase y.id).lookup id = some c →
        s.clients.lookup id = some c := by
      intro id c h
      by_cases heq : id = y.id
      · rw [heq, AList.lookup_erase] at h
        cases h
      · rw [AList.lookup_erase_ne heq] at h
        exact h
    refine ⟨⟨fun V hne ho => absurd ho (hself V hne hin), fun _ _ h => h, fun _ h => h, ?_,
      fun id c h => .inl (herase id c h)⟩, ⟨hy.member, fun _ => hin, ?_, ?_, fun _ => hout⟩,
      fun _ => hout, herase⟩
    · intro id c h
      by_cases heq : id = y.id
      · obtain rfl : y.client = c := Option.some.inj (hf.symm.trans (heq ▸ h))
        exact .inr hraw
      · exact .inl (by rw [← h]; exact AList.lookup_erase_ne heq)
    · cases verbose <;> simp [DelPc.found]
    · cases verbose <;> simp
  | count hpc =>
    have hin := hy.holds (by rw [hpc]; rfl)
    have hout := hy.gone (by rw [hpc]; rfl)
    have hk : Keeps (some U) s
        { s with connectedclients := SafeUint32.dec s.connectedclients } :=
      .quiet rfl rfl fun c x h => ⟨x, h, fun h => ⟨rfl, h⟩, fun h => h⟩
    exact ⟨hk, ⟨hk.member _ _ hy.member, fun _ => hin, by simp [DelPc.found], by simp, fun _ => hout⟩,
      by simp, fun _ _ h => h⟩
  | unlock hpc =>
    have hin := hy.holds (by rw [hpc]; rfl)
    have hout := hy.gone (by rw [hpc]; rfl)
    exact ⟨⟨fun V hne ho => absurd ho (hself V hne hin), fun _ _ h => h, fun _ h => h,
      fun _ _ h => .inl h, fun _ _ h => .inl h⟩,
      ⟨hy.member, by simp [DelPc.inside], by simp [DelPc.found], by simp, by simp [DelPc.gone]⟩,
      fun _ => hout, fun _ _ h => h⟩

/-- The goroutine moves on. -/
theorem keeps_moveDel (m : ChatroomState) (p : DelPc) (U : Thread) :
    Keeps T m (m.moveDel p U) := by
  refine .quiet (moveDel_clients p U) (by rw [moveDel_clientsL]) fun c x h => ?_
  cases U with
  | reader d =>
    rw [moveDel, conns_onConn]
    split
    · next heq =>
      refine ⟨{ x with reader := .ofDel p }, by rw [← heq, h]; rfl, fun _ => ⟨rfl, ?_⟩, fun h => h⟩
      cases p <;> rfl
    · exact ⟨x, h, fun h => ⟨rfl, h⟩, fun h => h⟩
  | writer d =>
    rw [moveDel, conns_onConn]
    split
    · next heq =>
      exact ⟨{ x with writer := .ofDel p }, by rw [← heq, h]; rfl, fun h => ⟨rfl, h⟩, fun h => h⟩
    · exact ⟨x, h, fun h => ⟨rfl, h⟩, fun h => h⟩
  | del d => exact ⟨x, h, fun h => ⟨rfl, h⟩, fun h => h⟩

/-! ## Who is in `l_delClient` -/

/-- A step that changes one client. -/
theorem delAt_of_set (hconns : s'.conns = Function.update s.conns c (some x'))
    (hdels : s'.dels = s.dels) (h : s'.delAt U = some y) :
    (s.delAt U = some y ∧ U ≠ .reader c ∧ U ≠ .writer c) ∨
      (U = .reader c ∧ ∃ p, x'.reader = .del p ∧ y = ⟨x'.id, c, p⟩) ∨
      (U = .writer c ∧ ∃ p, x'.writer = .del p ∧ y = ⟨x'.id, c, p⟩) := by
  cases U with
  | reader d =>
    obtain ⟨x₁, p, hx₁, hp, rfl⟩ := delAt_reader.mp h
    rw [hconns, Function.update_apply] at hx₁
    split at hx₁
    · next heq =>
      subst heq
      obtain rfl := Option.some.inj hx₁
      exact .inr (.inl ⟨rfl, p, hp, rfl⟩)
    · next hne =>
      exact .inl ⟨delAt_reader.mpr ⟨x₁, p, hx₁, hp, rfl⟩, by simp [hne], by simp⟩
  | writer d =>
    obtain ⟨x₁, p, hx₁, hp, rfl⟩ := delAt_writer.mp h
    rw [hconns, Function.update_apply] at hx₁
    split at hx₁
    · next heq =>
      subst heq
      obtain rfl := Option.some.inj hx₁
      exact .inr (.inr ⟨rfl, p, hp, rfl⟩)
    · next hne =>
      exact .inl ⟨delAt_writer.mpr ⟨x₁, p, hx₁, hp, rfl⟩, by simp, by simp [hne]⟩
  | del d =>
    have h : s'.dels d = some y := h
    rw [hdels] at h
    exact .inl ⟨h, by simp, by simp⟩

theorem delAt_reader_of (hc : s.conns c = some x) :
    s.delAt (.reader c) = some y ↔ ∃ p, x.reader = .del p ∧ y = ⟨x.id, c, p⟩ := by
  rw [delAt_reader]
  constructor
  · rintro ⟨x₁, p, hx₁, hp⟩
    obtain rfl := Option.some.inj (hc.symm.trans hx₁)
    exact ⟨p, hp⟩
  · rintro ⟨p, hp⟩
    exact ⟨x, p, hc, hp⟩

theorem delAt_writer_of (hc : s.conns c = some x) :
    s.delAt (.writer c) = some y ↔ ∃ p, x.writer = .del p ∧ y = ⟨x.id, c, p⟩ := by
  rw [delAt_writer]
  constructor
  · rintro ⟨x₁, p, hx₁, hp⟩
    obtain rfl := Option.some.inj (hc.symm.trans hx₁)
    exact ⟨p, hp⟩
  · rintro ⟨p, hp⟩
    exact ⟨x, p, hc, hp⟩

theorem delAt_of_set_same (hc : s.conns c = some x)
    (hconns : s'.conns = Function.update s.conns c (some x')) (hdels : s'.dels = s.dels)
    (hid : x'.id = x.id) (hr : x'.reader.delPc = x.reader.delPc) (hw : x'.writer = x.writer)
    (V : Thread) : s'.delAt V = s.delAt V := by
  cases V with
  | reader d =>
    by_cases heq : d = c
    · subst heq
      simp only [delAt, hconns, Function.update_self, hc, Option.bind_some, hid, hr]
    · simp only [delAt, hconns, Function.update_of_ne heq]
  | writer d =>
    by_cases heq : d = c
    · subst heq
      simp only [delAt, hconns, Function.update_self, hc, Option.bind_some, hid, hw]
    · simp only [delAt, hconns, Function.update_of_ne heq]
  | del d => exact congrFun hdels d

theorem delAt_of_same (hconns : s'.conns = s.conns) (hdels : s'.dels = s.dels) (U : Thread) :
    s'.delAt U = s.delAt U := by
  cases U <;> simp only [delAt, hconns, hdels]

/-- `l_delClient` itself leaves every goroutine where it stands. -/
theorem DelStep.delAt_eq (h : DelStep verbose s U y m p) (V : Thread) : m.delAt V = s.delAt V := by
  cases h with
  | rawClose hpc =>
    cases V with
    | reader d =>
      simp only [delAt, conns_onConn]
      split
      · next heq =>
        rw [heq]
        cases s.conns y.client <;> rfl
      · rfl
    | writer d =>
      simp only [delAt, conns_onConn]
      split
      · next heq =>
        rw [heq]
        cases s.conns y.client <;> rfl
      · rfl
    | del d => rfl
  | lock hpc hfree => exact delAt_of_same rfl rfl V
  | unlock hpc => exact delAt_of_same rfl rfl V
  | _ => cases V <;> simp only [delAt]

/-- Then its own goroutine moves on. -/
theorem delAt_moveDel {V : Thread} {z : Deletion} (hy : m.delAt U = some y)
    (hz : (m.moveDel p U).delAt V = some z) :
    (V = U ∧ z = { y with pc := p }) ∨ (V ≠ U ∧ m.delAt V = some z) := by
  cases U with
  | reader c =>
    obtain ⟨x, p₀, hx, hp₀, rfl⟩ := delAt_reader.mp hy
    have hconns : (m.moveDel p (.reader c)).conns =
        Function.update m.conns c (some { x with reader := .ofDel p }) := by
      simp only [moveDel, onConn, hx, Option.map_some]
    rcases delAt_of_set hconns rfl hz with ⟨h, h1, -⟩ | ⟨rfl, q, hq, rfl⟩ | ⟨rfl, q, hq, rfl⟩
    · exact .inr ⟨h1, h⟩
    · obtain rfl : p = q := by cases p <;> cases hq <;> rfl
      exact .inl ⟨rfl, rfl⟩
    · exact .inr ⟨by simp, delAt_writer.mpr ⟨x, q, hx, hq, rfl⟩⟩
  | writer c =>
    obtain ⟨x, p₀, hx, hp₀, rfl⟩ := delAt_writer.mp hy
    have hconns : (m.moveDel p (.writer c)).conns =
        Function.update m.conns c (some { x with writer := .ofDel p }) := by
      simp only [moveDel, onConn, hx, Option.map_some]
    rcases delAt_of_set hconns rfl hz with ⟨h, -, h1⟩ | ⟨rfl, q, hq, rfl⟩ | ⟨rfl, q, hq, rfl⟩
    · exact .inr ⟨h1, h⟩
    · exact .inr ⟨by simp, delAt_reader.mpr ⟨x, q, hx, hq, rfl⟩⟩
    · obtain rfl : p = q := by cases p <;> cases hq <;> rfl
      exact .inl ⟨rfl, rfl⟩
  | del d =>
    have hd : m.dels d = some y := hy
    cases V with
    | reader e => exact .inr ⟨by simp, hz⟩
    | writer e => exact .inr ⟨by simp, hz⟩
    | del e =>
      simp only [delAt, moveDel, Function.update_apply] at hz
      split at hz
      · next heq =>
        rw [hd] at hz
        exact .inl ⟨by rw [heq], (Option.some.inj hz).symm⟩
      · next hne => exact .inr ⟨by simp [hne], hz⟩

/-- The client of a deletion that moves is still in it. -/
theorem delAt_moveDel_self (hy : m.delAt U = some y) (hp : p ≠ .returned) :
    (m.moveDel p U).delAt U = some { y with pc := p } := by
  cases U with
  | reader c =>
    obtain ⟨x, p₀, hx, -, rfl⟩ := delAt_reader.mp hy
    refine delAt_reader.mpr ⟨{ x with reader := .ofDel p }, p, ?_, ?_, rfl⟩
    · rw [moveDel, conns_onConn, if_pos rfl, hx]
      rfl
    · cases p <;> first | rfl | exact absurd rfl hp
  | writer c =>
    obtain ⟨x, p₀, hx, -, rfl⟩ := delAt_writer.mp hy
    refine delAt_writer.mpr ⟨{ x with writer := .ofDel p }, p, ?_, ?_, rfl⟩
    · rw [moveDel, conns_onConn, if_pos rfl, hx]
      rfl
    · cases p <;> first | rfl | exact absurd rfl hp
  | del d =>
    have hd : m.dels d = some y := hy
    simp only [delAt, moveDel, Function.update_self, hd, Option.map_some]

namespace Roster

theorem init : Roster ChatroomState.init where
  entry := fun id c h => by cases h
  kept := fun id c h => by obtain ⟨x, hx, -⟩ := h; cases hx
  adding := fun c x h => by cases h
  del := fun U y h => by cases U <;> cases h
  todo := fun k l h => by cases h

/-- A step of goroutine `T`: the others keep what they know. -/
theorem of_keeps (h : Roster s) (hk : Keeps T s s')
    (hmember : ∀ id c, Member s' id c → Member s id c ∨ s'.clients.lookup id = some c)
    (hadd : ∀ c x', s'.conns c = some x' → x'.reader.adding = true →
      (∃ x, s.conns c = some x ∧ x.reader.adding = true ∧ T ≠ some (.reader c)) ∨
      s'.clientsL.owner = some (.reader c))
    (hdel : ∀ U y, s'.delAt U = some y → (s.delAt U = some y ∧ T ≠ some U) ∨ DelOk s' U y)
    (htodo : ∀ k l, s'.closers k = some (.spawn l) → ∀ e ∈ l, Member s e.1 e.2) : Roster s' where
  entry := by
    intro id c hl
    rcases hk.entry id c hl with hl' | ⟨-, hm⟩
    · exact hk.member id c (h.entry id c hl')
    · exact hm
  kept := by
    intro id c hm
    rcases hmember id c hm with hm' | hl
    · rcases h.kept id c hm' with hl | hraw
      · exact hk.kept id c hl
      · exact .inr (hk.raw c hraw)
    · exact .inl hl
  adding := by
    intro c x' hx' ha
    rcases hadd c x' hx' ha with ⟨x, hx, hax, hT⟩ | ho
    · exact (hk.owner _ hT (h.adding c x hx hax)).1
    · exact ho
  del := by
    intro U y hy
    rcases hdel U y hy with ⟨hy', hT⟩ | hok
    · exact (h.del U y hy').keeps hk hT
    · exact hok
  todo := fun k l hl e he => hk.member _ _ (htodo k l hl e he)

/-- A step of a goroutine of client `c`.  Where one of them enters `l_delClient`, it stands at the
lock. -/
theorem set (h : Roster s) (hk : Keeps T s s') (hT : T = none ∨ T = some (.reader c))
    (hc : s.conns c = some x) (hconns : s'.conns = Function.update s.conns c (some x'))
    (hdels : s'.dels = s.dels) (hclosers : s'.closers = s.closers)
    (hins : x'.reader.inserted = true →
      (x.reader.inserted = true ∧ x'.id = x.id) ∨ s'.clients.lookup x'.id = some c)
    (hadd : x'.reader.adding = true →
      (x.reader.adding = true ∧ T = none) ∨ s'.clientsL.owner = some (.reader c))
    (hreader : ∀ p, x'.reader = .del p → (x.reader = .del p ∧ x'.id = x.id ∧ T = none) ∨ p = .lock)
    (hwriter : ∀ p, x'.writer = .del p → (x.writer = .del p ∧ x'.id = x.id) ∨
      (p = .lock ∧ x'.reader.inserted = true)) : Roster s' := by
  have hc' : s'.conns c = some x' := by rw [hconns, Function.update_self]
  refine h.of_keeps hk ?_ ?_ ?_ fun k l hl => h.todo k l (hclosers ▸ hl)
  · rintro id d ⟨x₁, hx₁, rfl, hi⟩
    rw [hconns, Function.update_apply] at hx₁
    split at hx₁
    · next heq =>
      subst heq
      obtain rfl := Option.some.inj hx₁
      rcases hins hi with ⟨hi', hid⟩ | hl
      · exact .inl ⟨x, hc, hid.symm, hi'⟩
      · exact .inr hl
    · exact .inl ⟨x₁, hx₁, rfl, hi⟩
  · intro d x₁ hx₁ ha
    rw [hconns, Function.update_apply] at hx₁
    split at hx₁
    · next heq =>
      subst heq
      obtain rfl := Option.some.inj hx₁
      rcases hadd ha with ⟨ha', hnone⟩ | ho
      · exact .inl ⟨x, hc, ha', by simp [hnone]⟩
      · exact .inr ho
    · next hne =>
      refine .inl ⟨x₁, hx₁, ha, ?_⟩
      rcases hT with rfl | rfl <;> simp [Ne.symm hne]
  · intro U y hy
    rcases delAt_of_set hconns hdels hy with ⟨hy', h1, h2⟩ | ⟨rfl, p, hp, rfl⟩ | ⟨rfl, p, hp, rfl⟩
    · refine .inl ⟨hy', ?_⟩
      rcases hT with rfl | rfl <;> simp [Ne.symm h1]
    · rcases hreader p hp with ⟨hp', hid, hnone⟩ | rfl
      · exact .inl ⟨delAt_reader.mpr ⟨x, p, hc, hp', by rw [hid]⟩, by simp [hnone]⟩
      · exact .inr (delOk_lock ⟨x', hc', rfl, by rw [hp]; rfl⟩)
    · rcases hwriter p hp with ⟨hp', hid⟩ | ⟨rfl, hi⟩
      · refine .inl ⟨delAt_writer.mpr ⟨x, p, hc, hp', by rw [hid]⟩, ?_⟩
        rcases hT with rfl | rfl <;> simp
      · exact .inr (delOk_lock ⟨x', hc', rfl, hi⟩)

/-- A step that has nothing to do with the map. -/
theorem quiet (h : Roster s) (hc : s.conns c = some x)
    (hconns : s'.conns = Function.update s.conns c (some x')) (hs : SameRegistry s s')
    (hid : x'.id = x.id) (hraw : x'.raw = x.raw)
    (hins : x'.reader.inserted = x.reader.inserted)
    (hadd : x'.reader.adding = true → x.reader.adding = true)
    (hreader : ∀ p, x'.reader = .del p → x.reader = .del p ∨ p = .lock)
    (hwriter : ∀ p, x'.writer = .del p → x.writer = .del p ∨
      (p = .lock ∧ x.reader.inserted = true)) : Roster s' := by
  have hk : Keeps none s s' := .set hs.clients hs.owner hc hconns
    (fun h => ⟨hid, hins.trans h⟩) (fun h => hraw.trans h)
  refine h.set hk (.inl rfl) hc hconns hs.dels hs.closers (fun hi => .inl ⟨hins ▸ hi, hid⟩)
    (fun ha => .inl ⟨hadd ha, rfl⟩) ?_ ?_
  · intro p hp
    rcases hreader p hp with hp' | rfl
    · exact .inl ⟨hp', hid, rfl⟩
    · exact .inr rfl
  · intro p hp
    rcases hwriter p hp with hp' | ⟨rfl, hi⟩
    · exact .inl ⟨hp', hid⟩
    · exact .inr ⟨rfl, hins.trans hi⟩

/-- A step that changes no client, deletion or entry. -/
theorem same (h : Roster s) (hconns : s'.conns = s.conns) (hs : SameRegistry s s') : Roster s' := by
  have hmember : ∀ id c, Member s' id c → Member s id c := by
    rintro id c ⟨x, hx, hm⟩
    exact ⟨x, hconns ▸ hx, hm⟩
  have hk : Keeps none s s' := .quiet hs.clients hs.owner fun c x hx =>
    ⟨x, hconns ▸ hx, fun h => ⟨rfl, h⟩, fun h => h⟩
  refine h.of_keeps hk (fun id c hm => .inl (hmember id c hm)) ?_ ?_
    fun k l hl => h.todo k l (hs.closers ▸ hl)
  · intro c x hx ha
    exact .inl ⟨x, hconns ▸ hx, ha, by simp⟩
  · intro U y hy
    exact .inl ⟨delAt_of_same hconns hs.dels U ▸ hy, by simp⟩

/-- A step of `chatroom.Close`, which may spawn a deletion. -/
theorem closer (h : Roster s) {k : Kid} {q : CloserPc} (hclients : s'.clients = s.clients)
    (howner : s'.clientsL.owner = s.clientsL.owner) (hconns : s'.conns = s.conns)
    (hdels : ∀ d y, s'.dels d = some y → s.dels d = some y ∨
      y.pc = .lock ∧ Member s y.id y.client)
    (hclosers : s'.closers = Function.update s.closers k (some q))
    (htodo : ∀ l, q = .spawn l → ∀ e ∈ l, Member s e.1 e.2) : Roster s' := by
  have hk : Keeps none s s' := .quiet hclients howner fun c x hx =>
    ⟨x, hconns ▸ hx, fun h => ⟨rfl, h⟩, fun h => h⟩
  refine h.of_keeps hk ?_ ?_ ?_ ?_
  · rintro id c ⟨x, hx, hm⟩
    exact .inl ⟨x, hconns ▸ hx, hm⟩
  · intro c x hx ha
    exact .inl ⟨x, hconns ▸ hx, ha, by simp⟩
  · intro U y hy
    cases U with
    | reader d =>
      simp only [ChatroomState.delAt, hconns] at hy
      exact .inl ⟨hy, by simp⟩
    | writer d =>
      simp only [ChatroomState.delAt, hconns] at hy
      exact .inl ⟨hy, by simp⟩
    | del d =>
      rcases hdels d y hy with hd' | ⟨hpc, hm⟩
      · exact .inl ⟨hd', by simp⟩
      · obtain ⟨id, c, p⟩ := y
        obtain rfl : p = .lock := hpc
        exact .inr (delOk_lock (hk.member _ _ hm))
  · intro k' l hl
    rw [hclosers, Function.update_apply] at hl
    split at hl
    · exact htodo l (Option.some.inj hl)
    · exact h.todo k' l hl

/-- A goroutine in `l_delClient` takes a step. -/
theorem runDel (h : Roster s) (hd : runDel verbose s U = some s') (hok : ownEntry s U = true) :
    Roster s' := by
  obtain ⟨y, m, p, hy, hs, rfl⟩ := runDel_cases hd
  obtain ⟨hkm, hym, -, -⟩ := hs.keeps (h.del U y hy) (own_of_ownEntry hok hy)
  have hmove : Keeps none m (m.moveDel p U) := keeps_moveDel m p U
  -- what happens to a client
  have hconn : ∀ c x', (m.moveDel p U).conns c = some x' → ∃ x, s.conns c = some x ∧
      DelMoves x x' := fun c x' hc => runDel_conn hd hc
  refine h.of_keeps (hkm.trans hmove) ?_ ?_ ?_ fun k l hl =>
    h.todo k l (((moveDel_closers p U).trans hs.frame.2.2.2.2) ▸ hl)
  · rintro id c ⟨x', hx', rfl, hi⟩
    obtain ⟨x, hx, hm⟩ := hconn c x' hx'
    refine .inl ⟨x, hx, hm.id.symm, ?_⟩
    rcases hm.reader with heq | ⟨q, q', hq, -⟩
    · rw [← heq]
      exact hi
    · rw [hq]
      rfl
  · intro c x' hx' ha
    obtain ⟨x, hx, hm⟩ := hconn c x' hx'
    rcases hm.reader with heq | ⟨q, q', -, hq'⟩
    · refine .inl ⟨x, hx, heq ▸ ha, ?_⟩
      -- the goroutine is in `l_delClient`, not in `l_addClient`
      rintro ⟨⟩
      obtain ⟨x₀, p₀, hx₀, hp₀, -⟩ := delAt_reader.mp hy
      obtain rfl := Option.some.inj (hx.symm.trans hx₀)
      rw [heq, hp₀] at ha
      cases ha
    · rw [hq'] at ha
      cases q' <;> cases ha
  · intro V z hz
    rcases delAt_moveDel ((hs.delAt_eq U).trans hy) hz with ⟨rfl, rfl⟩ | ⟨hne, hz'⟩
    · exact .inr (hym.keeps hmove (by simp))
    · exact .inl ⟨(hs.delAt_eq V) ▸ hz', by simpa using Ne.symm hne⟩

/-- `cr.l.clientsL.Lock()` in `l_addClient`. -/
theorem addLock (h : Roster s) (hsp : Spawned s) (hc : s.conns c = some x)
    (hr : x.reader = .add .lock) (hfree : s.canLock = true) :
    Roster ((s.lock (.reader c)).setConn c { x with reader := .add .insert }) := by
  have hw := hsp c x hc (by rw [hr]; rfl)
  have hins : x.reader.inserted ≠ true := by rw [hr]; decide
  simp only [canLock, Bool.and_eq_true, Option.isNone_iff_eq_none] at hfree
  have hk : Keeps none s (s.setConn c { x with reader := .add .insert }) :=
    .set rfl rfl hc rfl (fun hi => absurd hi hins) (fun h => h)
  have hk' : Keeps (some (.reader c)) s
      ((s.lock (.reader c)).setConn c { x with reader := .add .insert }) := by
    refine ⟨?_, hk.member, hk.raw, hk.kept, fun id d hl => .inl hl⟩
    intro V _ ho
    rw [hfree.1] at ho
    cases ho
  exact h.set hk' (.inr rfl) hc rfl rfl rfl (by simp [ReaderPc.inserted]) (fun _ => .inr rfl)
    (by simp) (by simp [hw])

/-- `cr.l.clients[id] = c`, where no client is registered under `id`. -/
theorem addInsert (h : Roster s) (hsp : Spawned s) (hc : s.conns c = some x)
    (hr : x.reader = .add .insert) (hfresh : s.clients.lookup x.id = none) :
    Roster ({ s with clients := s.clients.insert x.id c }.setConn c
      { x with reader := .add .unlock }) := by
  have hw := hsp c x hc (by rw [hr]; rfl)
  have hins : x.reader.inserted ≠ true := by rw [hr]; decide
  have ho := h.adding c x hc (by rw [hr]; rfl)
  have hk : Keeps none s (s.setConn c { x with reader := .add .unlock }) :=
    .set rfl rfl hc rfl (fun hi => absurd hi hins) (fun h => h)
  have hk' : Keeps (some (.reader c)) s ({ s with clients := s.clients.insert x.id c }.setConn c
      { x with reader := .add .unlock }) := by
    refine ⟨fun V hne hV => absurd (ho.symm.trans hV) hne, hk.member, hk.raw, ?_, ?_⟩
    · intro id d hl
      have hne : id ≠ x.id := by
        rintro rfl
        rw [hfresh] at hl
        cases hl
      exact .inl ((AList.lookup_insert_ne hne).trans hl)
    · intro id d hl
      by_cases heq : id = x.id
      · subst heq
        obtain rfl : c = d := Option.some.inj ((AList.lookup_insert s.clients).symm.trans hl)
        exact .inr ⟨rfl, { x with reader := .add .unlock }, by simp [conns_setConn], rfl, rfl⟩
      · exact .inl ((AList.lookup_insert_ne heq).symm.trans hl)
  exact h.set hk' (.inr rfl) hc rfl rfl rfl (fun _ => .inr (AList.lookup_insert s.clients))
    (fun _ => .inr ho) (by simp) (by simp [hw])

/-- `cr.l.clientsL.Unlock()` in `l_addClient`. -/
theorem addUnlock (h : Roster s) (hsp : Spawned s) (hc : s.conns c = some x)
    (hr : x.reader = .add .unlock) :
    Roster (s.unlock.setConn c { x with reader := .add .watcher }) := by
  have hw := hsp c x hc (by rw [hr]; rfl)
  have ho := h.adding c x hc (by rw [hr]; rfl)
  have hk : Keeps none s (s.setConn c { x with reader := .add .watcher }) :=
    .set rfl rfl hc rfl (fun _ => ⟨rfl, rfl⟩) (fun h => h)
  have hk' : Keeps (some (.reader c)) s (s.unlock.setConn c { x with reader := .add .watcher }) :=
    ⟨fun V hne hV => absurd (ho.symm.trans hV) hne, hk.member, hk.raw, hk.kept,
      fun id d hl => .inl hl⟩
  exact h.set hk' (.inr rfl) hc rfl rfl rfl (fun _ => .inl ⟨by rw [hr]; rfl, rfl⟩)
    (by simp [ReaderPc.adding]) (by simp) (by simp [hw])

/-- A client comes to the room. -/
theorem connect (h : Roster s) (hc : s.conns c = none) : Roster (s.setConn c makeClient) := by
  have hne : ∀ {d y}, s.conns d = some y → d ≠ c := by
    rintro d y hd rfl
    rw [hc] at hd
    cases hd
  have hk : Keeps none s (s.setConn c makeClient) := by
    refine .quiet rfl rfl fun d x hx => ⟨x, ?_, fun hi => ⟨rfl, hi⟩, fun hraw => hraw⟩
    rw [conns_setConn, if_neg (hne hx), hx]
  refine h.of_keeps hk ?_ ?_ ?_ h.todo
  · rintro id d ⟨x, hx, hid, hi⟩
    rw [conns_setConn] at hx
    split at hx
    · obtain rfl := Option.some.inj hx
      cases hi
    · exact .inl ⟨x, hx, hid, hi⟩
  · intro d x hx ha
    rw [conns_setConn] at hx
    split at hx
    · obtain rfl := Option.some.inj hx
      cases ha
    · exact .inl ⟨x, hx, ha, by simp⟩
  · intro U y hy
    have hconns : (s.setConn c makeClient).conns = Function.update s.conns c (some makeClient) := rfl
    rcases delAt_of_set hconns rfl hy with ⟨hy', -, -⟩ | ⟨-, p, hp, -⟩ | ⟨-, p, hp, -⟩
    · exact .inl ⟨hy', by simp⟩
    · cases hp
    · cases hp

/-- `cr.numclients.inc()`: the client gets its id. -/
theorem addInc (h : Roster s) (hsp : Spawned s) (hc : s.conns c = some x)
    (hr : x.reader = .add .inc) :
    Roster ({ s with numclients := s.numclients + 1 }.setConn c
      { x with id := s.numclients + 1, reader := .add .lock }) := by
  have hw := hsp c x hc (by rw [hr]; rfl)
  have hins : x.reader.inserted ≠ true := by rw [hr]; decide
  have hk : Keeps none s ({ s with numclients := s.numclients + 1 }.setConn c
      { x with id := s.numclients + 1, reader := .add .lock }) :=
    .set rfl rfl hc rfl (fun hi => absurd hi hins) (fun hraw => hraw)
  exact h.set hk (.inl rfl) hc rfl rfl rfl (by simp [ReaderPc.inserted]) (by simp [ReaderPc.adding])
    (by simp) (by simp [hw])

/-- **Step lemma**. -/
theorem step (h : Roster s) (hsp : Spawned s) (hok : idsUnused s a = true)
    (hs : ChatStep verbose L s a s') : Roster s' := by
  -- a client whose writer runs is in the map or has been
  have hmember : ∀ {c x}, s.conns c = some x → x.writer ≠ .notSpawned →
      x.reader.inserted = true := by
    intro c x hc hw
    by_contra hne
    exact hw (hsp c x hc (ReaderPc.not_spawned (by simpa using hne)))
  cases hs with
  | connect hc => exact h.connect hc
  | addInc hc hr => exact h.addInc hsp hc hr
  | addLock hc hr hfree => exact h.addLock hsp hc hr hfree
  | addInsert hc hr =>
    simp only [idsUnused, hc, Option.all_some, Bool.and_eq_true, Bool.or_eq_true,
      Option.isNone_iff_eq_none] at hok
    exact h.addInsert hsp hc hr (hok.2.resolve_left (by simp [hr]))
  | addUnlock hc hr => exact h.addUnlock hsp hc hr
  | addWatcher hc hr =>
    exact h.quiet hc rfl ⟨rfl, rfl, rfl, rfl⟩ rfl rfl (by rw [hr]; rfl) (by simp [ReaderPc.adding])
      (by simp) fun _ hp => .inl hp
  | addWriter hc hr =>
    exact h.quiet hc rfl ⟨rfl, rfl, rfl, rfl⟩ rfl rfl (by rw [hr]; rfl) (by simp [ReaderPc.adding])
      (by simp) (by simp)
  | addListen hc hr hq =>
    cases verbose <;> exact h.quiet hc rfl ⟨rfl, rfl, rfl, rfl⟩ rfl rfl (by rw [hr]; rfl)
      (by simp [ReaderPc.adding]) (by simp) fun _ hp => .inl hp
  | addCount hc hr =>
    exact h.quiet hc rfl ⟨rfl, rfl, rfl, rfl⟩ rfl rfl (by rw [hr]; rfl) (by simp [ReaderPc.adding])
      (by simp) fun _ hp => .inl hp
  | readFails hc hr =>
    exact h.quiet hc rfl ⟨rfl, rfl, rfl, rfl⟩ rfl rfl (by rw [hr]; rfl) (by simp [ReaderPc.adding])
      (by simp) fun _ hp => .inl hp
  | readMsg hc hr hq =>
    exact h.quiet hc rfl ⟨rfl, rfl, rfl, rfl⟩ rfl rfl (by rw [hr]; rfl) (by simp [ReaderPc.adding])
      (by simp) fun _ hp => .inl hp
  | appendReturns hc hr hret =>
    exact h.quiet hc rfl ⟨rfl, rfl, rfl, rfl⟩ rfl rfl (by rw [hr]; rfl) (by simp [ReaderPc.adding])
      (by simp) fun _ hp => .inl hp
  | @readerCloses c x _ p p' _ hc hr hstep =>
    cases p' <;> exact h.quiet hc rfl ⟨rfl, rfl, rfl, rfl⟩ rfl rfl (by rw [hr]; rfl)
      (by simp [ReaderPc.adding, ReaderPc.ofClose]) (by simp [ReaderPc.ofClose]) fun _ hp => .inl hp
  | watcherWait hc hw hcl =>
    exact h.quiet hc rfl ⟨rfl, rfl, rfl, rfl⟩ rfl rfl rfl (fun ha => ha) (fun _ hp => .inl hp)
      fun _ hp => .inl hp
  | watcherQuit hc hw =>
    exact h.quiet hc rfl ⟨rfl, rfl, rfl, rfl⟩ rfl rfl rfl (fun ha => ha) (fun _ hp => .inl hp)
      fun _ hp => .inl hp
  | writerEnds hc hw hl =>
    exact h.quiet hc rfl ⟨rfl, rfl, rfl, rfl⟩ rfl rfl rfl (fun ha => ha) (fun _ hp => .inl hp)
      (by simp)
  | writeOk hc hw =>
    exact h.quiet hc rfl ⟨rfl, rfl, rfl, rfl⟩ rfl rfl rfl (fun ha => ha) (fun _ hp => .inl hp)
      (by simp)
  | writeFails hc hw =>
    have hins := hmember hc (by simp [hw])
    exact h.quiet hc rfl ⟨rfl, rfl, rfl, rfl⟩ rfl rfl rfl (fun ha => ha) (fun _ hp => .inl hp)
      fun p hp => .inr ⟨(WriterPc.del.inj hp).symm, hins⟩
  | @writerCloses c x _ p p' _ hc hw hstep =>
    cases p' <;> exact h.quiet hc rfl ⟨rfl, rfl, rfl, rfl⟩ rfl rfl rfl (fun ha => ha)
      (fun _ hp => .inl hp) (by simp [WriterPc.ofClose])
  | send hc hl hw hq =>
    exact h.quiet hc rfl ⟨rfl, rfl, rfl, rfl⟩ rfl rfl rfl (fun ha => ha) (fun _ hp => .inl hp)
      (by simp)
  | readerDel hd =>
    simp only [idsUnused, Bool.and_eq_true] at hok
    exact h.runDel hd hok.1
  | writerDel hd => exact h.runDel hd hok
  | del hd => exact h.runDel hd hok
  | appendStep hc hr hq => exact h.same rfl ⟨rfl, rfl, rfl, rfl⟩
  | readerClosePanics hc hr he => exact h.same rfl ⟨rfl, rfl, rfl, rfl⟩
  | writerClosePanics hc hw he => exact h.same rfl ⟨rfl, rfl, rfl, rfl⟩
  | listens hl hq => exact h.same rfl ⟨rfl, rfl, rfl, rfl⟩
  | close hk => exact h.closer rfl rfl rfl (fun d y hd => .inl hd) rfl (by simp)
  | rlock hk hfree =>
    refine h.closer rfl rfl rfl (fun d y hd => .inl hd) rfl fun l hl e he => ?_
    cases hl
    obtain ⟨e', he', rfl⟩ := List.mem_map.mp he
    exact h.entry _ _ (AList.mem_lookup_iff.mpr he')
  | runlock hk => exact h.closer rfl rfl rfl (fun d y hd => .inl hd) rfl (by simp)
  | @spawn k i todo e hk hi =>
    refine h.closer rfl rfl rfl (fun d y hd => ?_) rfl fun l hl e' he' => ?_
    · simp only [Function.update_apply] at hd
      split at hd
      · obtain rfl := Option.some.inj hd
        exact .inr ⟨rfl, h.todo k todo hk e (List.mem_of_getElem? hi)⟩
      · exact .inl hd
    · cases hl
      exact h.todo k todo hk e' (List.mem_of_mem_eraseIdx he')

end Roster

end WebsocketHub
