import WebsocketHub.ChatroomRoster

/-!
# WebsocketHub.ChatroomLock — `clientsL` is always released

`LockOk` is the invariant: whoever holds the lock for writing is behind one of its `Lock` calls
(`Inside`), and nobody holds it for reading in a room that is not being closed.  What such a goroutine
still has to do never blocks, so that it comes to its `Unlock` (`lock_released`).
-/

namespace WebsocketHub

open ChatroomState

section Defs

/-- The reader is behind a `Lock`, of `l_addClient` or `l_delClient`. -/
def ReaderPc.holds (r : ReaderPc) : Bool := r.adding || r.delPc.any DelPc.inside

def WriterPc.holds (w : WriterPc) : Bool := w.delPc.any DelPc.inside

/-- Goroutine `T` is behind a `Lock`. -/
def Inside (s : ChatroomState) : Thread → Prop
  | .reader c => ∃ x, s.conns c = some x ∧ x.reader.holds = true
  | .writer c => ∃ x, s.conns c = some x ∧ x.writer.holds = true
  | .del d => ∃ y, s.dels d = some y ∧ y.pc.inside = true

structure LockOk (s : ChatroomState) : Prop where
  owner : ∀ T, s.clientsL.owner = some T → Inside s T
  readers : (∀ k, s.closers k = none) → s.clientsL.readers = 0

/-- Everyone in the map has been put into it. -/
def EntriesInserted (s : ChatroomState) : Prop :=
  ∀ id c, s.clients.lookup id = some c → ∃ x, s.conns c = some x ∧ x.reader.inserted = true

/-- How many steps a deletion is away from its `Unlock`. -/
def DelPc.rank : DelPc → ℕ
  | .lookup => 5
  | .rawClose => 4
  | .delete => 3
  | .count => 2
  | _ => 1

end Defs

variable {verbose : Bool} {L : Limits} {s s' m : ChatroomState} {a : ChatroomAction} {c : Cid}
  {x x' : Client} {T U V : Thread} {y : Deletion} {p : DelPc}

/-! ## Who is inside -/

theorem inside_of_delAt (hy : s.delAt T = some y) (hp : y.pc.inside = true) : Inside s T := by
  cases T with
  | reader c =>
    obtain ⟨x, q, hx, hq, rfl⟩ := delAt_reader.mp hy
    refine ⟨x, hx, ?_⟩
    rw [ReaderPc.holds, hq]
    exact hp
  | writer c =>
    obtain ⟨x, q, hx, hq, rfl⟩ := delAt_writer.mp hy
    refine ⟨x, hx, ?_⟩
    rw [WriterPc.holds, hq]
    exact hp
  | del d => exact ⟨y, hy, hp⟩

theorem Inside.congr (h : Inside s V) (hconns : s'.conns = s.conns) (hdels : s'.dels = s.dels) :
    Inside s' V := by
  cases V with
  | reader c =>
    rw [Inside, hconns]
    exact h
  | writer c =>
    rw [Inside, hconns]
    exact h
  | del d =>
    rw [Inside, hdels]
    exact h

/-- `l_delClient` itself leaves the goroutines where they are. -/
theorem DelStep.inside (h : DelStep verbose s U y m p) (hV : Inside s V) : Inside m V := by
  cases h with
  | rawClose hpc =>
    have hconn : ∀ c x, s.conns c = some x → ∃ x', (s.onConn y.client fun x =>
        { x with raw := true }).conns c = some x' ∧ x'.reader = x.reader ∧ x'.writer = x.writer := by
      intro c x hx
      rw [conns_onConn]
      split
      · next heq => exact ⟨{ x with raw := true }, by rw [← heq, hx]; rfl, rfl, rfl⟩
      · exact ⟨x, hx, rfl, rfl⟩
    cases V with
    | reader c =>
      obtain ⟨x, hx, hh⟩ := hV
      obtain ⟨x', hx', hr, -⟩ := hconn c x hx
      exact ⟨x', hx', hr ▸ hh⟩
    | writer c =>
      obtain ⟨x, hx, hh⟩ := hV
      obtain ⟨x', hx', -, hw⟩ := hconn c x hx
      exact ⟨x', hx', hw ▸ hh⟩
    | del d => exact hV
  | lock hpc hfree => exact hV.congr rfl rfl
  | found hpc hl => exact hV
  | absent hpc hl => exact hV
  | delete hpc => exact hV.congr rfl rfl
  | count hpc => exact hV.congr rfl rfl
  | unlock hpc => exact hV.congr rfl rfl

/-- Another goroutine moves on. -/
theorem inside_moveDel (hne : V ≠ U) (hV : Inside m V) : Inside (m.moveDel p U) V := by
  cases U with
  | reader d =>
    cases V with
    | reader c =>
      obtain ⟨x, hx, hh⟩ := hV
      have hcd : c ≠ d := fun heq => hne (by rw [heq])
      exact ⟨x, by rw [moveDel, conns_onConn, if_neg hcd, hx], hh⟩
    | writer c =>
      obtain ⟨x, hx, hh⟩ := hV
      rw [Inside, moveDel, conns_onConn]
      split
      · next heq => exact ⟨{ x with reader := .ofDel p }, by rw [← heq, hx]; rfl, hh⟩
      · exact ⟨x, hx, hh⟩
    | del e => exact hV
  | writer d =>
    cases V with
    | reader c =>
      obtain ⟨x, hx, hh⟩ := hV
      rw [Inside, moveDel, conns_onConn]
      split
      · next heq => exact ⟨{ x with writer := .ofDel p }, by rw [← heq, hx]; rfl, hh⟩
      · exact ⟨x, hx, hh⟩
    | writer c =>
      obtain ⟨x, hx, hh⟩ := hV
      have hcd : c ≠ d := fun heq => hne (by rw [heq])
      exact ⟨x, by rw [moveDel, conns_onConn, if_neg hcd, hx], hh⟩
    | del e => exact hV
  | del d =>
    cases V with
    | reader c => exact hV
    | writer c => exact hV
    | del e =>
      obtain ⟨y, hy, hp⟩ := hV
      have hed : e ≠ d := fun heq => hne (by rw [heq])
      exact ⟨y, (Function.update_of_ne hed _ _).trans hy, hp⟩

namespace LockOk

theorem init : LockOk ChatroomState.init where
  owner := fun T h => by cases h
  readers := fun _ => rfl

/-- A step of a client that leaves the lock alone. -/
theorem set (h : LockOk s) (hlock : s'.clientsL = s.clientsL) (hdels : s'.dels = s.dels)
    (hclosers : s'.closers = s.closers) (hc : s.conns c = some x)
    (hconns : s'.conns = Function.update s.conns c (some x'))
    (hr : x.reader.holds = true → x'.reader.holds = true)
    (hw : x.writer.holds = true → x'.writer.holds = true) : LockOk s' where
  owner := by
    intro T hT
    rw [hlock] at hT
    have hin := h.owner T hT
    cases T with
    | reader d =>
      obtain ⟨y, hy, hh⟩ := hin
      rw [Inside, hconns, Function.update_apply]
      split
      · next heq =>
        obtain rfl := Option.some.inj (hc.symm.trans (heq ▸ hy))
        exact ⟨x', rfl, hr hh⟩
      · exact ⟨y, hy, hh⟩
    | writer d =>
      obtain ⟨y, hy, hh⟩ := hin
      rw [Inside, hconns, Function.update_apply]
      split
      · next heq =>
        obtain rfl := Option.some.inj (hc.symm.trans (heq ▸ hy))
        exact ⟨x', rfl, hw hh⟩
      · exact ⟨y, hy, hh⟩
    | del d =>
      rw [Inside, hdels]
      exact hin
  readers := by
    rw [hclosers, hlock]
    exact h.readers

/-- A step that concerns neither the lock nor the goroutines behind it. -/
theorem same (h : LockOk s) (howner : s'.clientsL.owner = s.clientsL.owner)
    (hconns : s'.conns = s.conns)
    (hdels : ∀ d y, s.dels d = some y → y.pc.inside = true → s'.dels d = some y)
    (hreaders : (∀ k, s'.closers k = none) → s'.clientsL.readers = 0) : LockOk s' where
  owner := by
    intro T hT
    rw [howner] at hT
    have hin := h.owner T hT
    cases T with
    | reader d =>
      rw [Inside, hconns]
      exact hin
    | writer d =>
      rw [Inside, hconns]
      exact hin
    | del d =>
      obtain ⟨y, hy, hp⟩ := hin
      exact ⟨y, hdels d y hy hp, hp⟩
  readers := hreaders

/-- A goroutine in `l_delClient` takes a step. -/
theorem runDel (h : LockOk s) (hd : runDel verbose s U = some s') : LockOk s' := by
  have hclosers := (runDel_frame hd).2.2.2
  obtain ⟨y, m, p, hy, hs, rfl⟩ := runDel_cases hd
  have hm : m.delAt U = some y := (hs.delAt_eq U).trans hy
  have hself : p.inside = true → Inside (m.moveDel p U) U := by
    intro hp
    refine inside_of_delAt (delAt_moveDel_self hm ?_) hp
    rintro rfl
    cases hp
  -- the step keeps the owner
  have hkeep : m.clientsL = s.clientsL → p.inside = true → LockOk (m.moveDel p U) := by
    intro hlock hp
    constructor
    · intro T hT
      rw [moveDel_clientsL, hlock] at hT
      by_cases heq : T = U
      · rw [heq]
        exact hself hp
      · exact inside_moveDel heq (hs.inside (h.owner T hT))
    · rw [hclosers, moveDel_clientsL, hlock]
      exact h.readers
  cases hs with
  | lock hpc hfree =>
    constructor
    · intro T hT
      rw [moveDel_clientsL] at hT
      obtain rfl : U = T := Option.some.inj hT
      exact hself rfl
    · rw [hclosers, moveDel_clientsL]
      exact h.readers
  | found hpc hl => exact hkeep rfl rfl
  | absent hpc hl => exact hkeep rfl rfl
  | rawClose hpc => exact hkeep rfl rfl
  | delete hpc => exact hkeep rfl (by cases verbose <;> rfl)
  | count hpc => exact hkeep rfl rfl
  | unlock hpc =>
    constructor
    · intro T hT
      rw [moveDel_clientsL] at hT
      cases hT
    · rw [hclosers, moveDel_clientsL]
      exact h.readers

/-- A step that takes the lock, or gives it back. -/
theorem ofOwner (h : LockOk s) (howner : ∀ T, s'.clientsL.owner = some T → Inside s' T)
    (hreaders : s'.clientsL.readers = s.clientsL.readers) (hclosers : s'.closers = s.closers) :
    LockOk s' where
  owner := howner
  readers := by
    rw [hclosers, hreaders]
    exact h.readers

/-- **Step lemma**. -/
theorem step (h : LockOk s) (hsp : Spawned s) (hnew : NewDel s) (hs : ChatStep verbose L s a s') :
    LockOk s' := by
  have hnot : ∀ {x : Client} {r : ReaderPc} {P : Prop}, x.reader = r → r.holds = false →
      x.reader.holds = true → P := by
    intro x r P hr hf hh
    rw [hr, hf] at hh
    cases hh
  have hnotw : ∀ {x : Client} {w : WriterPc} {P : Prop}, x.writer = w → w.holds = false →
      x.writer.holds = true → P := by
    intro x w P hw hf hh
    rw [hw, hf] at hh
    cases hh
  cases hs with
  | @connect c hc =>
    refine h.ofOwner ?_ rfl rfl
    intro T hT
    have hin := h.owner T hT
    have hne : ∀ {d x}, s.conns d = some x → d ≠ c := by
      rintro d x hx rfl
      rw [hc] at hx
      cases hx
    cases T with
    | reader d =>
      obtain ⟨x, hx, hh⟩ := hin
      exact ⟨x, (Function.update_of_ne (hne hx) _ _).trans hx, hh⟩
    | writer d =>
      obtain ⟨x, hx, hh⟩ := hin
      exact ⟨x, (Function.update_of_ne (hne hx) _ _).trans hx, hh⟩
    | del d => exact hin
  | addInc hc hr => exact h.set rfl rfl rfl hc rfl (hnot hr rfl) id
  | @addLock c x i hc hr hfree =>
    refine h.ofOwner ?_ rfl rfl
    intro T hT
    obtain rfl : Thread.reader c = T := Option.some.inj hT
    exact ⟨{ x with reader := .add .insert }, Function.update_self _ _ _, rfl⟩
  | addInsert hc hr => exact h.set rfl rfl rfl hc rfl (fun _ => rfl) id
  | addUnlock hc hr =>
    refine h.ofOwner ?_ rfl rfl
    intro T hT
    cases hT
  | addWatcher hc hr => exact h.set rfl rfl rfl hc rfl (hnot hr rfl) id
  | addWriter hc hr =>
    have hw := hsp _ _ hc (by rw [hr]; rfl)
    exact h.set rfl rfl rfl hc rfl (hnot hr rfl) (hnotw hw rfl)
  | addListen hc hr hq => exact h.set rfl rfl rfl hc rfl (hnot hr rfl) id
  | addCount hc hr => exact h.set rfl rfl rfl hc rfl (hnot hr rfl) id
  | readFails hc hr => exact h.set rfl rfl rfl hc rfl (hnot hr rfl) id
  | readMsg hc hr hq => exact h.set rfl rfl rfl hc rfl (hnot hr rfl) id
  | appendReturns hc hr hret => exact h.set rfl rfl rfl hc rfl (hnot hr rfl) id
  | readerCloses hc hr hstep => exact h.set rfl rfl rfl hc rfl (hnot hr rfl) id
  | watcherWait hc hw hcl => exact h.set rfl rfl rfl hc rfl id id
  | watcherQuit hc hw => exact h.set rfl rfl rfl hc rfl id id
  | writerEnds hc hw hl => exact h.set rfl rfl rfl hc rfl id (hnotw hw rfl)
  | writeOk hc hw => exact h.set rfl rfl rfl hc rfl id (hnotw hw rfl)
  | writeFails hc hw => exact h.set rfl rfl rfl hc rfl id (hnotw hw rfl)
  | writerCloses hc hw hstep => exact h.set rfl rfl rfl hc rfl id (hnotw hw rfl)
  | send hc hl hw hq => exact h.set rfl rfl rfl hc rfl id (hnotw hw rfl)
  | readerDel hd => exact h.runDel hd
  | writerDel hd => exact h.runDel hd
  | del hd => exact h.runDel hd
  | appendStep hc hr hq => exact h.same rfl rfl (fun _ _ hy _ => hy) h.readers
  | readerClosePanics hc hr he => exact h.same rfl rfl (fun _ _ hy _ => hy) h.readers
  | writerClosePanics hc hw he => exact h.same rfl rfl (fun _ _ hy _ => hy) h.readers
  | listens hl hq => exact h.same rfl rfl (fun _ _ hy _ => hy) h.readers
  | @close k hk =>
    refine h.same rfl rfl (fun _ _ hy _ => hy) fun hno => ?_
    cases (Function.update_self k _ s.closers).symm.trans (hno k)
  | @rlock k i hk hfree =>
    refine h.same rfl rfl (fun _ _ hy _ => hy) fun hno => ?_
    cases (Function.update_self k _ s.closers).symm.trans (hno k)
  | @runlock k i hk =>
    refine h.same rfl rfl (fun _ _ hy _ => hy) fun hno => ?_
    cases (Function.update_self k _ s.closers).symm.trans (hno k)
  | @spawn k i todo e hk hi =>
    refine h.same rfl rfl ?_ fun hno => ?_
    · intro d y hy _
      refine (Function.update_of_ne ?_ _ _).trans hy
      rintro rfl
      rw [hnew _ (Nat.le_refl _)] at hy
      cases hy
    · cases (Function.update_self k _ s.closers).symm.trans (hno k)

end LockOk

theorem lockOk_of_reaches {ok : ChatroomState → ChatroomAction → Prop}
    (h : (chatRun verbose L).Reaches ok s) : LockOk s := by
  refine h.invariant_of (I := LockOk) (J := fun s => Spawned s ∧ NewDel s)
    (fun _ hs => ⟨spawned_of_reaches hs, newDel_of_reaches hs⟩) .init ?_
  rintro s a s' ⟨hsp, hnew⟩ - hI _ hn
  exact hI.step hsp hnew (chatStep_of_next hn).2.2

/-! ## Who is in the map -/

namespace EntriesInserted

/-- A step that puts nobody into the map. -/
theorem keep (h : EntriesInserted s)
    (hentry : ∀ id c, s'.clients.lookup id = some c → s.clients.lookup id = some c)
    (hconn : ∀ c x, s.conns c = some x → x.reader.inserted = true →
      ∃ x', s'.conns c = some x' ∧ x'.reader.inserted = true) : EntriesInserted s' := by
  intro id c hl
  obtain ⟨x, hx, hi⟩ := h id c (hentry id c hl)
  exact hconn c x hx hi

theorem set (h : EntriesInserted s) (hclients : s'.clients = s.clients) (hc : s.conns c = some x)
    (hconns : s'.conns = Function.update s.conns c (some x'))
    (hr : x.reader.inserted = true → x'.reader.inserted = true) : EntriesInserted s' := by
  refine h.keep (fun id d hl => hclients ▸ hl) fun d y hy hi => ?_
  rw [hconns, Function.update_apply]
  split
  · next heq =>
    obtain rfl := Option.some.inj (hc.symm.trans (heq ▸ hy))
    exact ⟨x', rfl, hr hi⟩
  · exact ⟨y, hy, hi⟩

theorem del (h : EntriesInserted s) (hd : WebsocketHub.runDel verbose s U = some s') :
    EntriesInserted s' := by
  refine h.keep ?_ ?_
  · intro id c hl
    obtain ⟨y, m, p, hy, hs, rfl⟩ := runDel_cases hd
    rw [moveDel_clients] at hl
    cases hs with
    | delete hpc =>
      by_cases heq : id = y.id
      · rw [heq, AList.lookup_erase] at hl
        cases hl
      · rw [AList.lookup_erase_ne heq] at hl
        exact hl
    | _ => exact hl
  · intro c x hx hi
    obtain ⟨x', hx', hm⟩ := runDel_conn_of hd hx
    refine ⟨x', hx', ?_⟩
    rcases hm.reader with heq | ⟨q, q', -, hq'⟩
    · rw [heq]
      exact hi
    · rw [hq']
      cases q' <;> rfl

/-- **Step lemma**. -/
theorem step (h : EntriesInserted s) (hs : ChatStep verbose L s a s') : EntriesInserted s' := by
  cases hs with
  | @connect c hc =>
    refine h.keep (fun _ _ hl => hl) fun d y hy hi => ⟨y, ?_, hi⟩
    refine (Function.update_of_ne ?_ _ _).trans hy
    rintro rfl
    rw [hc] at hy
    cases hy
  | @addInsert c x i hc hr =>
    intro id d hl
    by_cases heq : d = c
    · exact ⟨{ x with reader := .add .unlock }, by rw [heq]; exact Function.update_self _ _ _, rfl⟩
    · have hne : id ≠ x.id := by
        rintro rfl
        exact heq (Option.some.inj ((AList.lookup_insert s.clients).symm.trans hl)).symm
      obtain ⟨y, hy, hi⟩ := h id d ((AList.lookup_insert_ne hne).symm.trans hl)
      exact ⟨y, (Function.update_of_ne heq _ _).trans hy, hi⟩
  | addInc hc hr => exact h.set rfl hc rfl fun hi => by rw [hr] at hi; cases hi
  | addLock hc hr hfree => exact h.set rfl hc rfl fun hi => by rw [hr] at hi; cases hi
  | addUnlock hc hr => exact h.set rfl hc rfl fun _ => rfl
  | addWatcher hc hr => exact h.set rfl hc rfl fun _ => rfl
  | addWriter hc hr => exact h.set rfl hc rfl fun _ => rfl
  | addListen hc hr hq => exact h.set rfl hc rfl fun _ => by cases verbose <;> rfl
  | addCount hc hr => exact h.set rfl hc rfl fun _ => rfl
  | readFails hc hr => exact h.set rfl hc rfl fun _ => rfl
  | readMsg hc hr hq => exact h.set rfl hc rfl fun _ => rfl
  | appendReturns hc hr hret => exact h.set rfl hc rfl fun _ => rfl
  | @readerCloses c x _ p p' _ hc hr hstep =>
    exact h.set rfl hc rfl fun _ => by cases p' <;> rfl
  | watcherWait hc hw hcl => exact h.set rfl hc rfl id
  | watcherQuit hc hw => exact h.set rfl hc rfl id
  | writerEnds hc hw hl => exact h.set rfl hc rfl id
  | writeOk hc hw => exact h.set rfl hc rfl id
  | writeFails hc hw => exact h.set rfl hc rfl id
  | writerCloses hc hw hstep => exact h.set rfl hc rfl id
  | send hc hl hw hq => exact h.set rfl hc rfl id
  | readerDel hd => exact h.del hd
  | writerDel hd => exact h.del hd
  | del hd => exact h.del hd
  | _ => exact h

end EntriesInserted

theorem entriesInserted_of_reaches {ok : ChatroomState → ChatroomAction → Prop}
    (h : (chatRun verbose L).Reaches ok s) : EntriesInserted s :=
  h.invariant (I := EntriesInserted) (fun id c hl => by cases hl) fun _ _ _ hI _ hn =>
    hI.step (chatStep_of_next hn).2.2

/-! ## Progress -/

/-- What a run of the room's goroutines leaves to client `c`, which waits for the lock. -/
structure LockWait (c : Cid) (s s' : ChatroomState) : Prop where
  panic : s'.panic = s.panic
  backlog : s'.backlog = s.backlog
  closers : s'.closers = s.closers
  readers : s'.clientsL.readers = s.clientsL.readers
  reader : ∀ x, s.conns c = some x → x.reader = .add .lock →
    ∃ x', s'.conns c = some x' ∧ x'.reader = .add .lock

namespace LockWait

theorem trans (h₁ : LockWait c s m) (h₂ : LockWait c m s') : LockWait c s s' where
  panic := h₂.panic.trans h₁.panic
  backlog := h₂.backlog.trans h₁.backlog
  closers := h₂.closers.trans h₁.closers
  readers := h₂.readers.trans h₁.readers
  reader := by
    intro x hx hr
    obtain ⟨x', hx', hr'⟩ := h₁.reader x hx hr
    exact h₂.reader x' hx' hr'

theorem of_runDel (hd : runDel verbose s U = some s') : LockWait c s s' := by
  obtain ⟨hbacklog, hpanic, -, hclosers⟩ := runDel_frame hd
  refine ⟨hpanic, hbacklog, hclosers, ?_, ?_⟩
  · obtain ⟨y, m, p, -, hs, rfl⟩ := runDel_cases hd
    rw [moveDel_clientsL]
    cases hs <;> rfl
  · intro x hx hr
    obtain ⟨x', hx', hm⟩ := runDel_conn_of hd hx
    refine ⟨x', hx', ?_⟩
    rcases hm.reader with heq | ⟨q, q', hq, -⟩
    · exact heq.trans hr
    · rw [hr] at hq
      cases hq

/-- A step of the reader of another client. -/
theorem set {d : Cid} (hc : s.conns d = some x) (hr : x.reader ≠ .add .lock)
    (hconns : s'.conns = Function.update s.conns d (some x')) (hpanic : s'.panic = s.panic)
    (hbacklog : s'.backlog = s.backlog) (hclosers : s'.closers = s.closers)
    (hreaders : s'.clientsL.readers = s.clientsL.readers) : LockWait c s s' := by
  refine ⟨hpanic, hbacklog, hclosers, hreaders, fun y hy hry => ⟨y, ?_, hry⟩⟩
  rw [hconns, Function.update_of_ne, hy]
  rintro rfl
  obtain rfl := Option.some.inj (hc.symm.trans hy)
  exact hr hry

end LockWait

theorem chatNext_of_alive (hp : s.panic = none) (hq : s.backlog.panic = none) :
    chatNext verbose L s a = chatAct verbose L s a := by
  rw [chatNext, hp, hq]

/-- A goroutine in `l_delClient` may always take its step. -/
theorem next_of_runDel (hp : s.panic = none) (hq : s.backlog.panic = none)
    (hd : runDel verbose s U = some s') :
    ∃ b, b.ofServer = false ∧ chatNext verbose L s b = some s' := by
  obtain ⟨y, m, p, hy, -, -⟩ := runDel_cases hd
  cases U with
  | reader d =>
    obtain ⟨x, q, hx, hr, -⟩ := delAt_reader.mp hy
    refine ⟨.reader d none, rfl, ?_⟩
    rw [chatNext_of_alive hp hq, chatAct, hx, Option.bind_some, readerStep, hr]
    exact hd
  | writer d =>
    obtain ⟨x, q, hx, hw, -⟩ := delAt_writer.mp hy
    refine ⟨.writer d true, rfl, ?_⟩
    rw [chatNext_of_alive hp hq, chatAct, hx, Option.bind_some, writerStep, hw]
    exact hd
  | del d =>
    refine ⟨.del d, rfl, ?_⟩
    rw [chatNext_of_alive hp hq, chatAct]
    exact hd

/-- Behind the lock a deletion never blocks. -/
theorem delStep_of_inside (verbose : Bool) (s : ChatroomState) (U : Thread)
    (hin : y.pc.inside = true) :
    ∃ m p, delStep verbose s U y = some (m, p) ∧
    (p = .returned ∧ m.clientsL.owner = none ∨
      p ≠ .returned ∧ p.inside = true ∧ p.rank < y.pc.rank) := by
  cases hpc : y.pc with
  | lock =>
    rw [hpc] at hin
    cases hin
  | lookup =>
    refine ⟨_, _, by rw [delStep, hpc], .inr ?_⟩
    split <;> exact ⟨by simp, rfl, by decide⟩
  | rawClose => exact ⟨_, _, by rw [delStep, hpc], .inr ⟨by simp, rfl, by decide⟩⟩
  | delete =>
    refine ⟨_, _, by rw [delStep, hpc], .inr ?_⟩
    cases verbose <;> exact ⟨by simp, rfl, by decide⟩
  | count =>
    exact ⟨{ s with connectedclients := SafeUint32.dec s.connectedclients }, .unlock,
      by simp only [delStep, hpc], .inr ⟨by simp, rfl, by decide⟩⟩
  | unlock => exact ⟨_, _, by rw [delStep, hpc], .inl ⟨rfl, rfl⟩⟩
  | returned =>
    rw [hpc] at hin
    cases hin

/-- The goroutines of the room run on. -/
abbrev OwnRun (verbose : Bool) (L : Limits) : ChatroomState → ChatroomState → Prop :=
  (chatRun verbose L).Path fun _ b => b.ofServer = false

/-- A deletion behind the lock comes to its `Unlock`. -/
theorem del_released (n : ℕ) : ∀ {s : ChatroomState} {y : Deletion}, y.pc.rank ≤ n →
    s.panic = none → s.backlog.panic = none → s.delAt U = some y → y.pc.inside = true →
    ∃ s', OwnRun verbose L s s' ∧ s'.clientsL.owner = none ∧ LockWait c s s' := by
  induction n with
  | zero =>
    intro s y hn
    cases hpc : y.pc <;> rw [hpc] at hn <;> cases hn
  | succ n ih =>
    intro s y hn hp hq hy hin
    obtain ⟨m, p, hstep, hcase⟩ := delStep_of_inside verbose s U hin
    have hd : runDel verbose s U = some (m.moveDel p U) := by
      rw [runDel, hy, Option.bind_some, hstep]
      rfl
    obtain ⟨b, hb, hnext⟩ := next_of_runDel (L := L) hp hq hd
    have hrun : OwnRun verbose L s (m.moveDel p U) := .step .refl hnext hb
    have hwait : LockWait c s (m.moveDel p U) := .of_runDel hd
    rcases hcase with ⟨rfl, hfree⟩ | ⟨hne, hpin, hlt⟩
    · exact ⟨_, hrun, by rw [moveDel_clientsL]; exact hfree, hwait⟩
    · have hy' : (m.moveDel p U).delAt U = some { y with pc := p } :=
        delAt_moveDel_self (((delStep_cases hstep).delAt_eq U).trans hy) hne
      obtain ⟨s', hrun', hfree, hwait'⟩ := ih (y := { y with pc := p })
        (Nat.le_of_lt_succ (Nat.lt_of_lt_of_le hlt hn)) (hwait.panic.trans hp)
        (by rw [hwait.backlog]; exact hq) hy' hpin
      exact ⟨s', hrun.trans hrun', hfree, hwait.trans hwait'⟩

/-- **Progress**: whoever holds the lock for writing can run on until it is free. -/
theorem lock_released (h : LockOk s) (hp : s.panic = none) (hq : s.backlog.panic = none) (c : Cid) :
    ∃ s', OwnRun verbose L s s' ∧ s'.clientsL.owner = none ∧ LockWait c s s' := by
  have hact : ∀ {t : ChatroomState} {d x p}, t.panic = none → t.backlog.panic = none →
      t.conns d = some x → x.reader = .add p →
      chatNext verbose L t (.reader d none) = addStep verbose L t d x p := by
    intro t d x p hp hq hx hr
    rw [chatNext_of_alive hp hq, chatAct, hx, Option.bind_some, readerStep, hr]
  -- `cr.l.clientsL.Unlock()` in `l_addClient`
  have hunlock : ∀ {t : ChatroomState} {d x}, t.panic = none → t.backlog.panic = none →
      t.conns d = some x → x.reader = .add .unlock →
      ∃ t', OwnRun verbose L t t' ∧ t'.clientsL.owner = none ∧ LockWait c t t' := by
    intro t d x hp hq hx hr
    have hnext := (hact hp hq hx hr).trans (by rw [addStep])
    exact ⟨t.unlock.setConn d { x with reader := .add .watcher }, .step .refl hnext rfl, rfl,
      .set hx (by simp [hr]) rfl rfl rfl rfl rfl⟩
  cases ho : s.clientsL.owner with
  | none => exact ⟨s, .refl, ho, ⟨rfl, rfl, rfl, rfl, fun x hx hr => ⟨x, hx, hr⟩⟩⟩
  | some T =>
    have hin := h.owner T ho
    have hdel : ∀ {y}, s.delAt T = some y → y.pc.inside = true →
        ∃ s', OwnRun verbose L s s' ∧ s'.clientsL.owner = none ∧ LockWait c s s' :=
      fun hy hin => del_released _ (Nat.le_refl _) hp hq hy hin
    cases T with
    | reader d =>
      obtain ⟨x, hx, hh⟩ := hin
      cases hr : x.reader with
      | add p =>
        cases p with
        | insert =>
          have hnext := (hact hp hq hx hr).trans (by rw [addStep])
          have hwait₁ : LockWait c s ({ s with clients := s.clients.insert x.id d }.setConn d
              { x with reader := .add .unlock }) := .set hx (by simp [hr]) rfl rfl rfl rfl rfl
          obtain ⟨s', hrun, hfree, hwait⟩ := hunlock (d := d) (hwait₁.panic.trans hp)
            (by rw [hwait₁.backlog]; exact hq) (Function.update_self _ _ _) rfl
          exact ⟨s', Machine.Path.trans (.step .refl hnext rfl) hrun, hfree, hwait₁.trans hwait⟩
        | unlock => exact hunlock hp hq hx hr
        | _ =>
          rw [hr] at hh
          cases hh
      | del p =>
        rw [ReaderPc.holds, hr] at hh
        exact hdel (delAt_reader.mpr ⟨x, p, hx, hr, rfl⟩) hh
      | _ =>
        rw [hr] at hh
        cases hh
    | writer d =>
      obtain ⟨x, hx, hh⟩ := hin
      cases hw : x.writer with
      | del p =>
        rw [WriterPc.holds, hw] at hh
        exact hdel (delAt_writer.mpr ⟨x, p, hx, hw, rfl⟩) hh
      | _ =>
        rw [hw] at hh
        cases hh
    | del d =>
      obtain ⟨y, hy, hpin⟩ := hin
      exact hdel hy hpin

/-- A client that comes to a room which nobody reads gets as far as its entry in the map, where nobody
has registered it before. -/
theorem reaches_insert (h : (chatRun verbose L).Reachable s) (hp : s.panic = none)
    (hq : s.backlog.panic = none) (hreaders : s.clientsL.readers = 0) (hc : s.conns c = none) :
    ∃ (s' : ChatroomState) (x : Client), OwnRun verbose L (s.setConn c makeClient) s' ∧
      chatNext verbose L s' (.reader c none) =
        some ({ s' with clients := s'.clients.insert x.id c }.setConn c
          { x with reader := .add .unlock }) ∧
      ∀ id, s'.clients.lookup id ≠ some c := by
  have hact : ∀ {t : ChatroomState} {x p}, t.panic = none → t.backlog.panic = none →
      t.conns c = some x → x.reader = .add p →
      chatNext verbose L t (.reader c none) = addStep verbose L t c x p := by
    intro t x p hp hq hx hr
    rw [chatNext_of_alive hp hq, chatAct, hx, Option.bind_some, readerStep, hr]
  -- the client comes and gets its id
  have hconnect : chatNext verbose L s (.connect c) = some (s.setConn c makeClient) := by
    rw [chatNext_of_alive hp hq, chatAct, hc]
  let s₁ := s.setConn c makeClient
  let x₂ : Client := { makeClient with id := SafeUint32.inc s.numclients, reader := .add .lock }
  let s₂ := { s₁ with numclients := SafeUint32.inc s.numclients }.setConn c x₂
  have hx₁ : s₁.conns c = some makeClient := Function.update_self _ _ _
  have h₂ : chatNext verbose L s₁ (.reader c none) = some s₂ := hact (t := s₁) hp hq hx₁ rfl
  have hx₂ : s₂.conns c = some x₂ := Function.update_self _ _ _
  have hrun₂ : OwnRun verbose L s₁ s₂ := .step .refl h₂ rfl
  have hreach₂ : (chatRun verbose L).Reachable s₂ :=
    (h.step hconnect trivial).step h₂ trivial
  -- the lock becomes free
  obtain ⟨s₃, hrun₃, hfree, hwait⟩ : ∃ s₃, OwnRun verbose L s₂ s₃ ∧ s₃.clientsL.owner = none ∧
      LockWait c s₂ s₃ := lock_released (lockOk_of_reaches hreach₂) hp hq c
  obtain ⟨x₃, hx₃, hr₃⟩ := hwait.reader x₂ hx₂ rfl
  have hp₃ : s₃.panic = none := hwait.panic.trans hp
  have hq₃ : s₃.backlog.panic = none := by
    rw [hwait.backlog]
    exact hq
  have hcan : s₃.canLock = true := by
    rw [canLock, hfree, hwait.readers]
    exact decide_eq_true hreaders
  let s₄ := (s₃.lock (.reader c)).setConn c { x₃ with reader := .add .insert }
  have h₄ : chatNext verbose L s₃ (.reader c none) = some s₄ := by
    rw [hact hp₃ hq₃ hx₃ hr₃, addStep, if_pos hcan]
  have hx₄ : s₄.conns c = some { x₃ with reader := .add .insert } := Function.update_self _ _ _
  have hreach₄ : (chatRun verbose L).Reachable s₄ :=
    (hreach₂.path (hrun₃.mono fun _ _ _ => trivial)).step h₄ trivial
  refine ⟨s₄, { x₃ with reader := .add .insert },
    hrun₂.trans (hrun₃.trans (.step .refl h₄ rfl)), ?_, ?_⟩
  · rw [hact (t := s₄) hp₃ hq₃ hx₄ rfl]
    rfl
  · intro id hl
    obtain ⟨y, hy, hi⟩ := entriesInserted_of_reaches hreach₄ id c hl
    obtain rfl := Option.some.inj (hx₄.symm.trans hy)
    cases hi

end WebsocketHub
