import WebsocketHub.ChatroomDelivery
import WebsocketHub.QueueLinearization

/-!
# WebsocketHub.ChatroomAuthors — who has said what in a room

`said` is the log of a room's run: for each call of `Append`, by its number, the client whose reader made it
and the message that was read.  A client's calls enter the queue in the order in which its reader made them
(`InOrder`), because the reader waits for each of them to return.
-/

namespace WebsocketHub

open ChatroomState QueueState

section Defs

/-- The message that a reader reads in this step. -/
def readsMessage (s : ChatroomState) : ChatroomAction → Option (Cid × Bytes)
  | .reader c (some m) => if (s.conns c).map Client.reader = some .read then some (c, m) else none
  | _ => none

def recordSaid (s : ChatroomState) (a : ChatroomAction) (said : List (Cid × Bytes)) : List (Cid × Bytes) :=
  said ++ (readsMessage s a).toList

def saidRun (verbose : Bool) (L : Limits) : Machine (ChatroomState × List (Cid × Bytes)) ChatroomAction :=
  (chatRun verbose L).logged recordSaid []

variable (said : List (Cid × Bytes)) (s : ChatroomState)

/-- Call `t` is one of client `c`. -/
def IsBy (c : Cid) (t : Tid) : Prop := (said[t]?).map Prod.fst = some c

instance (c : Cid) (t : Tid) : Decidable (IsBy said c t) := inferInstanceAs (Decidable (_ = _))

/-- The calls of client `c`, in the order in which it has made them. -/
def callsOf (c : Cid) : List Tid := (List.range said.length).filter fun t => IsBy said c t

/-- What has entered the queue, in this order. -/
def transcript : List (Cid × Bytes) := s.backlog.appenders.filterMap fun t => said[t]?

/-- The calls of `c` have entered the queue in their order, but for the one it is in. -/
def InOrder (c : Cid) : Prop := ∃ pending,
  (s.backlog.appenders.filter fun t => IsBy said c t) ++ pending = callsOf said c ∧
    ∀ t ∈ pending, pending = [t] ∧ Appending c t s ∧ t ∉ s.backlog.appenders

/-- The log and the room agree. -/
structure Authors : Prop where
  length : said.length = s.nextCall
  calls : ∀ t d, s.backlog.calls t = some d → ∃ c, said[t]? = some (c, d.msg)
  reading : ∀ c x t, s.conns c = some x → x.reader = .append t → IsBy said c t
  order : ∀ c, InOrder said s c

end Defs

variable {verbose : Bool} {L : Limits} {s s' : ChatroomState} {a : ChatroomAction} {c : Cid}
  {x : Client} {said : List (Cid × Bytes)} {t : Tid} {m : Bytes} {i : Option Bytes}

/-! ## The calls in the queue -/

namespace QueueState

variable {q q' : QueueState} {b : QueueAction}

theorem appenders_of_act (hs : q.Shape) (h : queueAct L q b = some q') : q'.appenders = q.appenders ∨
    ∃ t, b = .call t ∧ t ∉ q.appenders ∧ q'.appenders = q.appenders ++ [t] := by
  cases queueStep_of_act h with
  | @casNewest t c old hc hpc hnew =>
    exact .inr ⟨t, rfl, (hs.not_started hc (by rw [hpc]; rfl)).1, rfl⟩
  | _ => exact .inl rfl

/-- A call that is there after a step has just begun, or was there with its message. -/
theorem call_of_act {d : Call} (hs : q.Shape) (h : queueAct L q b = some q') (hd : q'.calls t = some d) :
    b = .append t d.msg ∨ ∃ d₀, q.calls t = some d₀ ∧ d.msg = d₀.msg := by
  cases hbefore : q.calls t with
  | some d₀ =>
    obtain ⟨d', hd', hmsg, -⟩ := (hs.grows (queueStep_of_act h)).calls t d₀ hbefore
    obtain rfl := Option.some.inj (hd.symm.trans hd')
    exact .inr ⟨d₀, rfl, hmsg⟩
  | none =>
    left
    by_contra hnot
    have hnone : q'.calls t = none := by
      apply none_of_act h hbefore
      rintro m rfl
      -- a call that has just begun has its message
      cases queueStep_of_act h with
      | append ht =>
        rw [QueueState.begin, setCall_calls, if_pos rfl] at hd
        obtain rfl := Option.some.inj hd
        exact hnot rfl
    rw [hnone] at hd
    cases hd

end QueueState

/-! ## The log -/

theorem isBy_iff : IsBy said c t ↔ ∃ m, said[t]? = some (c, m) := by
  unfold IsBy
  rw [Option.map_eq_some_iff]
  constructor
  · rintro ⟨⟨d, m⟩, h, rfl⟩
    exact ⟨m, h⟩
  · rintro ⟨m, h⟩
    exact ⟨_, h, rfl⟩

theorem IsBy.lt (h : IsBy said c t) : t < said.length := by
  obtain ⟨m, hm⟩ := isBy_iff.mp h
  exact (List.getElem?_eq_some_iff.mp hm).1

theorem IsBy.inj {d : Cid} (h : IsBy said c t) (h' : IsBy said d t) : c = d :=
  Option.some.inj (h.symm.trans h')

theorem isBy_append (ht : t < said.length) (e : Cid × Bytes) : IsBy (said ++ [e]) c t ↔ IsBy said c t := by
  unfold IsBy
  rw [List.getElem?_append_left ht]

theorem mem_callsOf : t ∈ callsOf said c ↔ IsBy said c t := by
  unfold callsOf
  rw [List.mem_filter, List.mem_range, decide_eq_true_eq]
  exact ⟨And.right, fun h => ⟨h.lt, h⟩⟩

theorem callsOf_append (e : Cid × Bytes) :
    callsOf (said ++ [e]) c = callsOf said c ++ if e.1 = c then [said.length] else [] := by
  have hold : (List.range said.length).filter (fun t => IsBy (said ++ [e]) c t) = callsOf said c := by
    apply List.filter_congr
    intro t ht
    rw [decide_eq_decide]
    exact isBy_append (List.mem_range.mp ht) e
  have hnew : IsBy (said ++ [e]) c said.length ↔ e.1 = c := by
    unfold IsBy
    rw [List.getElem?_concat_length, Option.map_some, Option.some.injEq]
  unfold callsOf at hold ⊢
  rw [List.length_append, List.length_singleton, List.range_succ, List.filter_append, hold]
  by_cases he : e.1 = c
  · rw [if_pos he, List.filter_cons_of_pos (by rw [decide_eq_true_eq, hnew]; exact he), List.filter_nil]
  · rw [if_neg he, List.filter_cons_of_neg (by rw [decide_eq_true_eq, hnew]; exact he), List.filter_nil]

/-- The calls of a client, with their messages. -/
theorem filterMap_callsOf (said : List (Cid × Bytes)) (c : Cid) :
    (callsOf said c).filterMap (fun t => said[t]?) = said.filter fun e => e.1 = c := by
  induction said using List.reverseRecOn with
  | nil => rfl
  | append_singleton said e ih =>
    have hold : (callsOf said c).filterMap (fun t => (said ++ [e])[t]?) =
        (callsOf said c).filterMap fun t => said[t]? := by
      apply List.filterMap_congr
      intro t ht
      exact List.getElem?_append_left (mem_callsOf.mp ht).lt
    rw [callsOf_append, List.filterMap_append, hold, ih, List.filter_append]
    by_cases he : e.1 = c
    · rw [if_pos he, List.filter_cons_of_pos (by rw [decide_eq_true_eq]; exact he), List.filter_nil,
        List.filterMap_cons, List.getElem?_concat_length, List.filterMap_nil]
    · rw [if_neg he, List.filter_cons_of_neg (by rw [decide_eq_true_eq]; exact he), List.filter_nil,
        List.filterMap_nil]

/-! ## The steps -/

theorem recordSaid_of_none (h : readsMessage s a = none) : recordSaid s a said = said := by
  rw [recordSaid, h, Option.toList_none, List.append_nil]

theorem readsMessage_of_read (hr : (s.conns c).map Client.reader = some .read) :
    readsMessage s (.reader c (some m)) = some (c, m) := if_pos hr

theorem readsMessage_of_ne (hc : s.conns c = some x) (hr : x.reader ≠ .read) :
    readsMessage s (.reader c i) = none := by
  unfold readsMessage
  split
  · next heq =>
    obtain ⟨rfl, rfl⟩ := ChatroomAction.reader.inj heq
    rw [hc, Option.map_some, if_neg fun h => hr (Option.some.inj h)]
  · rfl

/-- What a step does to the queue and the number of calls. -/
inductive SaidStep (L : Limits) (s : ChatroomState) : ChatroomAction → ChatroomState → Prop
  | read {c : Cid} {x : Client} {m : Bytes} {q : QueueState} (hc : s.conns c = some x)
    (hr : x.reader = .read) (hq : queueAct L s.backlog (.append s.nextCall m) = some q) :
    SaidStep L s (.reader c (some m)) ({ s with backlog := q, nextCall := s.nextCall + 1 }.setConn c
      { x with reader := .append s.nextCall })
  | append {c : Cid} {x : Client} {t : Tid} {q : QueueState} {i : Option Bytes} (hc : s.conns c = some x)
    (hr : x.reader = .append t) (hq : queueAct L s.backlog (.call t) = some q) :
    SaidStep L s (.reader c i) { s with backlog := q }
  | queue {a : ChatroomAction} {s' : ChatroomState} {b : QueueAction} (hnone : readsMessage s a = none)
    (hnext : s'.nextCall = s.nextCall) (hcall : ∀ t, b ≠ .call t) (happ : ∀ t m, b ≠ .append t m)
    (hq : queueAct L s.backlog b = some s'.backlog) : SaidStep L s a s'
  | other {a : ChatroomAction} {s' : ChatroomState} (hnone : readsMessage s a = none)
    (hnext : s'.nextCall = s.nextCall) (hq : s'.backlog = s.backlog) : SaidStep L s a s'

/-- **Inversion**. -/
theorem saidStep_of_step (hs : ChatStep verbose L s a s') : SaidStep L s a s' := by
  cases hs with
  | readMsg hc hr hq => exact .read hc hr hq
  | appendStep hc hr hq => exact .append hc hr hq
  | addListen hc hr hq =>
    exact .queue (readsMessage_of_ne hc (by rw [hr]; nofun)) rfl (by simp) (by simp) hq
  | addInc hc hr => exact .other (readsMessage_of_ne hc (by rw [hr]; nofun)) rfl rfl
  | addLock hc hr hfree => exact .other (readsMessage_of_ne hc (by rw [hr]; nofun)) rfl rfl
  | addInsert hc hr => exact .other (readsMessage_of_ne hc (by rw [hr]; nofun)) rfl rfl
  | addUnlock hc hr => exact .other (readsMessage_of_ne hc (by rw [hr]; nofun)) rfl rfl
  | addWatcher hc hr => exact .other (readsMessage_of_ne hc (by rw [hr]; nofun)) rfl rfl
  | addWriter hc hr => exact .other (readsMessage_of_ne hc (by rw [hr]; nofun)) rfl rfl
  | addCount hc hr => exact .other (readsMessage_of_ne hc (by rw [hr]; nofun)) rfl rfl
  | appendReturns hc hr hret => exact .other (readsMessage_of_ne hc (by rw [hr]; nofun)) rfl rfl
  | readerCloses hc hr hstep => exact .other (readsMessage_of_ne hc (by rw [hr]; nofun)) rfl rfl
  | readerClosePanics hc hr hstep => exact .other (readsMessage_of_ne hc (by rw [hr]; nofun)) rfl rfl
  | readerDel hd =>
    obtain ⟨y, m, p, hy, -⟩ := runDel_cases hd
    obtain ⟨x, p, hc, hr, -⟩ := delAt_reader.mp hy
    exact .other (readsMessage_of_ne hc (by rw [hr]; nofun)) (runDel_frame hd).2.2.1 (runDel_frame hd).1
  | send hc hl hw hq => exact .queue rfl rfl (by simp) (by simp) hq
  | listens hl hq => exact .queue rfl rfl (by simp) (by simp) hq
  | writerDel hd => exact .other rfl (runDel_frame hd).2.2.1 (runDel_frame hd).1
  | del hd => exact .other rfl (runDel_frame hd).2.2.1 (runDel_frame hd).1
  | _ => exact .other rfl rfl rfl

/-- A step of one client. -/
theorem reading_of_set {d : Cid} {x₀ x₁ x' : Client} (hd : s.conns d = some x₀)
    (hconns : s'.conns = Function.update s.conns d (some x₁))
    (hkeep : x₁.reader = .append t → x₀.reader = .append t) (hc : s'.conns c = some x')
    (hr : x'.reader = .append t) : ∃ x, s.conns c = some x ∧ x.reader = .append t := by
  rw [hconns, Function.update_apply] at hc
  split at hc
  · next heq =>
    subst heq
    obtain rfl := Option.some.inj hc
    exact ⟨x₀, hd, hkeep hr⟩
  · exact ⟨x', hc, hr⟩

theorem reading_of_del {T : Thread} {x' : Client} (hd : runDel verbose s T = some s')
    (hc : s'.conns c = some x') (hr : x'.reader = .append t) :
    ∃ x, s.conns c = some x ∧ x.reader = .append t := by
  obtain ⟨x, hx, hm⟩ := runDel_conn hd hc
  rcases hm.reader with heq | ⟨p, p', -, hp'⟩
  · exact ⟨x, hx, heq.symm.trans hr⟩
  · rw [hp'] at hr
    cases p' <;> cases hr

/-- A reader that is in a call of `Append` has just made it, or was in it. -/
theorem reading_of_step (hs : ChatStep verbose L s a s') {x' : Client} (hc : s'.conns c = some x')
    (hr : x'.reader = .append t) : (∃ x, s.conns c = some x ∧ x.reader = .append t) ∨
      t = s.nextCall ∧ ∃ m, a = .reader c (some m) ∧ (s.conns c).map Client.reader = some .read := by
  cases hs with
  | @connect d hd =>
    rw [conns_setConn] at hc
    split at hc
    · obtain rfl := Option.some.inj hc
      cases hr
    · exact .inl ⟨x', hc, hr⟩
  | addInc hd hr' => exact .inl (reading_of_set hd rfl (by nofun) hc hr)
  | addLock hd hr' hfree => exact .inl (reading_of_set hd rfl (by nofun) hc hr)
  | addInsert hd hr' => exact .inl (reading_of_set hd rfl (by nofun) hc hr)
  | addUnlock hd hr' => exact .inl (reading_of_set hd rfl (by nofun) hc hr)
  | addWatcher hd hr' => exact .inl (reading_of_set hd rfl (by nofun) hc hr)
  | addWriter hd hr' => exact .inl (reading_of_set hd rfl (by nofun) hc hr)
  | addListen hd hr' hq =>
    refine .inl (reading_of_set hd rfl (fun h => ?_) hc hr)
    cases verbose <;> cases h
  | addCount hd hr' => exact .inl (reading_of_set hd rfl (by nofun) hc hr)
  | readFails hd hr' => exact .inl (reading_of_set hd rfl (by nofun) hc hr)
  | @readMsg d x m q hd hr' hq =>
    rw [conns_setConn] at hc
    split at hc
    · next heq =>
      subst heq
      obtain rfl := Option.some.inj hc
      exact .inr ⟨(ReaderPc.append.inj hr).symm, m, rfl, by rw [hd, Option.map_some, hr']⟩
    · exact .inl ⟨x', hc, hr⟩
  | appendReturns hd hr' hret => exact .inl (reading_of_set hd rfl (by nofun) hc hr)
  | @readerCloses d x i p p' closed hd hr' hstep =>
    refine .inl (reading_of_set hd rfl (fun h => ?_) hc hr)
    cases p' <;> cases h
  | watcherWait hd hw hcl => exact .inl (reading_of_set hd rfl (by exact id) hc hr)
  | watcherQuit hd hw => exact .inl (reading_of_set hd rfl (by exact id) hc hr)
  | writerEnds hd hw hl => exact .inl (reading_of_set hd rfl (by exact id) hc hr)
  | writeOk hd hw => exact .inl (reading_of_set hd rfl (by exact id) hc hr)
  | writeFails hd hw => exact .inl (reading_of_set hd rfl (by exact id) hc hr)
  | writerCloses hd hw hstep => exact .inl (reading_of_set hd rfl (by exact id) hc hr)
  | send hd hl hw hq => exact .inl (reading_of_set hd rfl (by exact id) hc hr)
  | readerDel hd => exact .inl (reading_of_del hd hc hr)
  | writerDel hd => exact .inl (reading_of_del hd hc hr)
  | del hd => exact .inl (reading_of_del hd hc hr)
  | _ => exact .inl ⟨x', hc, hr⟩

theorem said_grows (s : ChatroomState) (a : ChatroomAction) (said : List (Cid × Bytes)) :
    said <+: recordSaid s a said := List.prefix_append _ _

/-- A client's calls in order, when the queue and the log are the same. -/
theorem InOrder.keep (h : InOrder said s c) (happ : s'.backlog.appenders = s.backlog.appenders)
    (hs : ChatStep verbose L s a s') : InOrder said s' c := by
  obtain ⟨pending, hcalls, hpending⟩ := h
  refine ⟨pending, by rw [happ, hcalls], fun t ht => ?_⟩
  obtain ⟨heq, hin, hnot⟩ := hpending t ht
  exact ⟨heq, hin.step hs, by rw [happ]; exact hnot⟩

/-- A call of some client enters the queue. -/
theorem InOrder.enter {d : Cid} (h : InOrder said s c) (hby : IsBy said d t)
    (hnot : t ∉ s.backlog.appenders) (happ : s'.backlog.appenders = s.backlog.appenders ++ [t])
    (hs : ChatStep verbose L s a s') : InOrder said s' c := by
  obtain ⟨pending, hcalls, hpending⟩ := h
  by_cases hd : d = c
  · subst hd
    -- it is the one that is missing
    have hmem : t ∈ (s.backlog.appenders.filter fun t => IsBy said d t) ++ pending := by
      rw [hcalls]
      exact mem_callsOf.mpr hby
    have hin : t ∈ pending := by
      rcases List.mem_append.mp hmem with hmem | hmem
      · exact absurd (List.mem_filter.mp hmem).1 hnot
      · exact hmem
    obtain ⟨heq, -, -⟩ := hpending t hin
    refine ⟨[], ?_, fun _ hu => absurd hu List.not_mem_nil⟩
    rw [happ, List.filter_append, List.filter_cons_of_pos (by rw [decide_eq_true_eq]; exact hby),
      List.filter_nil, List.append_nil, ← hcalls, heq]
  · have hother : ¬IsBy said c t := fun hc => hd (hby.inj hc)
    refine ⟨pending, ?_, fun u hu => ?_⟩
    · rw [happ, List.filter_append, List.filter_cons_of_neg (by rw [decide_eq_true_eq]; exact hother),
        List.filter_nil, List.append_nil, hcalls]
    · obtain ⟨heq, hin, hnotin⟩ := hpending u hu
      refine ⟨heq, hin.step hs, ?_⟩
      rw [happ, List.mem_append, List.mem_singleton]
      rintro (hu' | rfl)
      · exact hnotin hu'
      · exact hother (mem_callsOf.mp (hcalls ▸ List.mem_append_right _ hu))

/-- A reader makes a call. -/
theorem Authors.read (h : Authors said s) (hq : s.backlog.Shape)
    (hs : ChatStep verbose L s (.reader c (some m)) s') (hc : s.conns c = some x) (hr : x.reader = .read)
    (happ : s'.backlog.appenders = s.backlog.appenders)
    (hin : ∃ x, s'.conns c = some x ∧ x.reader = .append s.nextCall) (d : Cid) :
    InOrder (said ++ [(c, m)]) s' d := by
  obtain ⟨pending, hcalls, hpending⟩ := h.order d
  have hlt : ∀ t ∈ s.backlog.appenders, t < said.length := by
    intro t ht
    obtain ⟨call, hcall, -⟩ := (hq.started t).mp ht
    obtain ⟨e, he⟩ := h.calls t call hcall
    exact (List.getElem?_eq_some_iff.mp he).1
  have hold : s'.backlog.appenders.filter (fun t => IsBy (said ++ [(c, m)]) d t) =
      s.backlog.appenders.filter fun t => IsBy said d t := by
    rw [happ]
    apply List.filter_congr
    intro t ht
    rw [decide_eq_decide]
    exact isBy_append (hlt t ht) _
  by_cases hd : c = d
  · subst hd
    -- its calls before have returned
    have hnil : pending = [] := by
      rw [List.eq_nil_iff_forall_not_mem]
      intro t ht
      obtain ⟨-, hin, hnot⟩ := hpending t ht
      rcases hin with ⟨call, hcall, hret⟩ | ⟨y, hy, hyr⟩
      · exact hnot ((hq.started t).mpr ⟨call, hcall, by rw [hret]; decide⟩)
      · obtain rfl := Option.some.inj (hc.symm.trans hy)
        rw [hr] at hyr
        cases hyr
    rw [hnil, List.append_nil] at hcalls
    refine ⟨[said.length], ?_, fun t ht => ?_⟩
    · rw [hold, callsOf_append, if_pos rfl, hcalls]
    · obtain rfl := List.mem_singleton.mp ht
      refine ⟨rfl, .inr (by rw [h.length]; exact hin), ?_⟩
      rw [happ]
      exact fun hmem => Nat.lt_irrefl _ (hlt _ hmem)
  · refine ⟨pending, by rw [hold, callsOf_append, if_neg hd, List.append_nil, hcalls], fun t ht => ?_⟩
    obtain ⟨heq, hin', hnot⟩ := hpending t ht
    exact ⟨heq, hin'.step hs, by rw [happ]; exact hnot⟩

/-- **Step lemma**. -/
theorem Authors.step (h : Authors said s) (hq : s.backlog.Shape) (hs : ChatStep verbose L s a s') :
    Authors (recordSaid s a said) s' := by
  have hreading : ∀ c x t, s'.conns c = some x → x.reader = .append t →
      IsBy (recordSaid s a said) c t := by
    intro c x t hc hr
    rcases reading_of_step hs hc hr with ⟨x, hc, hr⟩ | ⟨rfl, m, rfl, hread⟩
    · obtain ⟨m, hm⟩ := isBy_iff.mp (h.reading c x t hc hr)
      exact isBy_iff.mpr ⟨m, getElem?_mono (said_grows s a said) hm⟩
    · rw [recordSaid, readsMessage_of_read hread, isBy_iff, ← h.length]
      exact ⟨m, List.getElem?_concat_length⟩
  have hcalls : ∀ {b : QueueAction}, queueAct L s.backlog b = some s'.backlog →
      (∀ t m, b ≠ .append t m) → ∀ t d, s'.backlog.calls t = some d → ∃ c, said[t]? = some (c, d.msg) := by
    intro b hact hne t d hd
    rcases call_of_act hq hact hd with rfl | ⟨d₀, hd₀, hmsg⟩
    · exact absurd rfl (hne t d.msg)
    · rw [hmsg]
      exact h.calls t d₀ hd₀
  cases saidStep_of_step hs with
  | @read c x m q hc hr hact =>
    have hread : (s.conns c).map Client.reader = some .read := by rw [hc, Option.map_some, hr]
    rw [recordSaid, readsMessage_of_read hread] at hreading ⊢
    have hcalled : ∀ t d, q.calls t = some d → ∃ c', (said ++ [(c, m)])[t]? = some (c', d.msg) := by
      intro t d hd
      rcases call_of_act hq hact hd with heq | ⟨d₀, hd₀, hmsg⟩
      · obtain ⟨rfl, rfl⟩ := QueueAction.append.inj heq
        rw [← h.length]
        exact ⟨c, List.getElem?_concat_length⟩
      · obtain ⟨e, he⟩ := h.calls t d₀ hd₀
        rw [hmsg]
        exact ⟨e, getElem?_mono (List.prefix_append _ _) he⟩
    have happ : q.appenders = s.backlog.appenders := by
      rcases appenders_of_act hq hact with happ | ⟨t, heq, -⟩
      · exact happ
      · cases heq
    refine ⟨?_, hcalled, hreading, fun d => ?_⟩
    · show (said ++ [(c, m)]).length = s.nextCall + 1
      rw [List.length_append, h.length, List.length_singleton]
    · exact h.read hq hs hc hr happ ⟨_, (conns_setConn c).trans (if_pos rfl), rfl⟩ d
  | @append c x t q i hc hr hact =>
    rw [recordSaid_of_none (readsMessage_of_ne hc (by rw [hr]; nofun))] at hreading ⊢
    refine ⟨h.length, hcalls hact (by simp), hreading, fun d => ?_⟩
    rcases appenders_of_act hq hact with happ | ⟨u, heq, hnot, happ⟩
    · exact (h.order d).keep happ hs
    · obtain rfl := QueueAction.call.inj heq
      exact (h.order d).enter (h.reading c x t hc hr) hnot happ hs
  | queue hnone hnext hcall happend hact =>
    rw [recordSaid_of_none hnone] at hreading ⊢
    refine ⟨h.length.trans hnext.symm, hcalls hact happend, hreading, fun d => ?_⟩
    rcases appenders_of_act hq hact with happ | ⟨u, heq, -⟩
    · exact (h.order d).keep happ hs
    · exact absurd heq (hcall u)
  | other hnone hnext hback =>
    rw [recordSaid_of_none hnone] at hreading ⊢
    refine ⟨h.length.trans hnext.symm, ?_, hreading, fun d => (h.order d).keep (by rw [hback]) hs⟩
    rw [hback]
    exact h.calls

theorem authors_init : Authors [] ChatroomState.init where
  length := rfl
  calls := by
    rintro t d ⟨⟩
  reading := by
    rintro c x t ⟨⟩
  order := fun _ => ⟨[], rfl, fun _ ht => absurd ht List.not_mem_nil⟩

/-- The shape of a room's queue. -/
theorem backlog_shape {ok : ChatroomState → ChatroomAction → Prop} (h : (chatRun verbose L).Reaches ok s) :
    s.backlog.Shape :=
  shape_of_reaches (backlog_path h.reachable)

theorem authors_of_reaches {ok : ChatroomState × List (Cid × Bytes) → ChatroomAction → Prop}
    (h : (saidRun verbose L).Reaches ok (s, said)) : Authors said s := by
  refine h.invariant_of (I := fun r => Authors r.2 r.1) (J := fun r => r.1.backlog.Shape)
    (fun _ hr => backlog_shape (Machine.reachable_of_logged hr)) authors_init ?_
  rintro ⟨s, said⟩ a ⟨s', said'⟩ hq - hI - hn
  obtain ⟨hnext, hsaid⟩ := Machine.logged_cases hn
  obtain rfl : said' = recordSaid s a said := hsaid
  exact hI.step hq (chatStep_of_next hnext).2.2

/-! ## The transcript -/

theorem filter_filterMap_said (said : List (Cid × Bytes)) (c : Cid) (l : List Tid) :
    ((l.filterMap fun t => said[t]?).filter fun e => e.1 = c) =
      (l.filter fun t => IsBy said c t).filterMap fun t => said[t]? := by
  induction l with
  | nil => rfl
  | cons t l ih =>
    cases ht : said[t]? with
    | none =>
      have hby : ¬IsBy said c t := by
        rw [isBy_iff, ht]
        rintro ⟨m, ⟨⟩⟩
      rw [List.filterMap_cons, ht, List.filter_cons_of_neg (by rw [decide_eq_true_eq]; exact hby), ih]
    | some e =>
      have hby : IsBy said c t ↔ e.1 = c := by rw [IsBy, ht, Option.map_some, Option.some.injEq]
      rw [List.filterMap_cons, ht]
      by_cases he : e.1 = c
      · rw [List.filter_cons_of_pos (by rw [decide_eq_true_eq]; exact he),
          List.filter_cons_of_pos (by rw [decide_eq_true_eq]; exact hby.mpr he), List.filterMap_cons, ht, ih]
      · rw [List.filter_cons_of_neg (by rw [decide_eq_true_eq]; exact he),
          List.filter_cons_of_neg (by rw [decide_eq_true_eq]; exact mt hby.mp he), ih]

/-- What a client has said, as far as it has entered the queue, is the beginning of what its reader has
read. -/
theorem Authors.filter_transcript (h : Authors said s) (c : Cid) :
    ((transcript said s).filter fun e => e.1 = c) <+: said.filter fun e => e.1 = c := by
  obtain ⟨pending, hcalls, -⟩ := h.order c
  unfold transcript
  rw [filter_filterMap_said, ← filterMap_callsOf said c, ← hcalls, List.filterMap_append]
  exact List.prefix_append _ _

/-- Of a client whose calls have all entered it, the transcript has all that its reader has read. -/
theorem Authors.filter_transcript_eq (h : Authors said s)
    (hin : ∀ t, Appending c t s → t ∈ s.backlog.appenders) :
    (transcript said s).filter (fun e => e.1 = c) = said.filter fun e => e.1 = c := by
  obtain ⟨pending, hcalls, hpending⟩ := h.order c
  have hnil : pending = [] := by
    rw [List.eq_nil_iff_forall_not_mem]
    intro t ht
    obtain ⟨-, happending, hnot⟩ := hpending t ht
    exact hnot (hin t happending)
  rw [hnil, List.append_nil] at hcalls
  unfold transcript
  rw [filter_filterMap_said, ← filterMap_callsOf said c, ← hcalls]

/-- The messages of the transcript are the posts of the queue. -/
theorem Authors.map_transcript (h : Authors said s) (hq : s.backlog.Shape) :
    (transcript said s).map Prod.snd = s.backlog.log.posts := by
  have hmsg : ∀ t ∈ s.backlog.appenders, (said[t]?).map Prod.snd = some (s.backlog.message t) := by
    intro t ht
    obtain ⟨d, hd, -⟩ := (hq.started t).mp ht
    obtain ⟨c, hc⟩ := h.calls t d hd
    rw [hc, Option.map_some, message_eq hd]
  show ((s.backlog.appenders.filterMap fun t => said[t]?).map Prod.snd) =
    s.backlog.appenders.map s.backlog.message
  rw [List.map_filterMap, List.filterMap_congr hmsg]
  exact congrFun List.filterMap_eq_map _

/-- The transcript only grows. -/
theorem Authors.transcript_mono (h : Authors said s) (hq : s.backlog.Shape) {said' : List (Cid × Bytes)}
    (hsaid : said <+: said') (happ : s.backlog.appenders <+: s'.backlog.appenders) :
    transcript said s <+: transcript said' s' := by
  obtain ⟨more, happ⟩ := happ
  have hold : s.backlog.appenders.filterMap (fun t => said'[t]?) = transcript said s := by
    apply List.filterMap_congr
    intro t ht
    obtain ⟨d, hd, -⟩ := (hq.started t).mp ht
    obtain ⟨c, hc⟩ := h.calls t d hd
    rw [hc]
    exact getElem?_mono hsaid hc
  unfold transcript at hold ⊢
  rw [← happ, List.filterMap_append, hold]
  exact List.prefix_append _ _

theorem said_prefix_of_path {ok : ChatroomState × List (Cid × Bytes) → ChatroomAction → Prop}
    {r r' : ChatroomState × List (Cid × Bytes)} (hp : (saidRun verbose L).Path ok r r') : r.2 <+: r'.2 := by
  refine hp.invariant (I := fun r' => r.2 <+: r'.2) (fun q a q' hI _ hn => ?_) (List.prefix_refl _)
  rw [(Machine.logged_cases hn).2]
  exact hI.trans (said_grows q.1 a q.2)

end WebsocketHub
