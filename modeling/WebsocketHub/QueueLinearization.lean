import WebsocketHub.QueueOwnership
import WebsocketHub.BroadcastLog

/-!
# WebsocketHub.QueueLinearization — the queue is a broadcast log

`QueueState.log` reads a log of posts off a state of the queue.  Every step of the queue does nothing to
it or is one operation of `WebsocketHub.BroadcastLog` (`linearize`): an `Append` posts its message with its
CAS on `q.newest`, a trim drops a post with its CAS on `q.oldest`, a listener gets a post when it sends, and
it is cut off when it finds `staleEntry`.
-/

namespace WebsocketHub

open BroadcastLog (Log Cursor Stage)

/-- How a listener stands to the log. -/
def ListenerPc.logStage : ListenerPc → Stage
  | .start => .joined
  | .closed => .behind
  | .quit => .left
  | _ => .reading

def Listener.cursor (x : Listener) : Cursor Bytes := ⟨x.pc.logStage, x.start, x.sent.map Prod.snd⟩

namespace QueueState

section Defs

variable (s : QueueState)

/-- What call `t` appends. -/
def message (t : Tid) : Bytes := ((s.calls t).map Call.msg).getD []

def log : Log Lid Bytes where
  posts := s.appenders.map s.message
  dropped := s.removers.length
  cursors := fun l => (s.listeners l).map Listener.cursor

/-- The operation of the log that an action performs, if any. -/
def linearize : QueueAction → Option (BroadcastLog.Action Lid Bytes)
  | .append _ _ => none
  | .listen l => some (.join l)
  | .call t =>
    (s.calls t).bind fun c =>
      match c.pc with
      | .casNewest old => if s.q.newest = old then some (.post c.msg) else none
      | .trimCas e _ => if s.q.oldest = some e then some .drop else none
      | _ => none
  | .listener l quit =>
    (s.listeners l).bind fun x =>
      match x.pc with
      | .start => some (.place l)
      | .loop p => if p = some staleEntry then some (.cut l) else none
      | .select _ _ => some (if quit then .leave l else .deliver l)
      | _ => none

/-- A listener that finds `staleEntry` has sent the message of an entry that has been removed. -/
def Lagging : Prop := ∀ l x, s.listeners l = some x → x.pc = .loop (some staleEntry) →
  0 < x.sent.length ∧ x.start + x.sent.length ≤ s.removers.length

end Defs

variable {s s' : QueueState} {L : Limits} {t : Tid} {c : Call} {l : Lid} {x : Listener}

/-! ## The links that are stale -/

theorem ListenerFacts.lagging (h : s.ListenerFacts x) (hs : s.Shape) {quit : Bool}
    (hx : listenerStep s.q quit x.pc = some (.ok (.loop (some staleEntry)))) :
    0 < (x.moveTo s.removers.length (.loop (some staleEntry))).sent.length ∧
      (x.moveTo s.removers.length (.loop (some staleEntry))).start +
        (x.moveTo s.removers.length (.loop (some staleEntry))).sent.length ≤ s.removers.length := by
  have hpc := h.pc
  cases hp : x.pc with
  | start =>
    -- the head of the queue is an entry
    simp only [hp, listenerStep, Option.some.injEq, Except.ok.injEq, ListenerPc.loop.injEq] at hx
    have halive := (hs.alive _ (List.mem_of_getElem? (hs.oldest _ hx))).1
    exact absurd rfl halive
  | advance e =>
    simp only [hp, listenerStep, Option.some.injEq, Except.ok.injEq, ListenerPc.loop.injEq] at hx
    rw [hp] at hpc
    obtain ⟨k, hk, he, -, hsent⟩ := hpc
    rcases hs.next k e _ he hx with ha | ⟨-, hlt⟩
    · have halive := (hs.alive _ (List.mem_of_getElem? ha)).1
      exact absurd rfl halive
    · rw [moveTo_eq (by rw [hp]; rintro ⟨⟩) (by rw [hp]; rintro _ _ _ ⟨⟩)]
      have hpos := List.length_pos_iff.mpr hsent
      simp only
      omega
  | loop p =>
    simp only [hp, listenerStep] at hx
    split_ifs at hx <;> cases hx
  | wait p =>
    cases p with
    | none => simp [hp, listenerStep] at hx
    | some e =>
      simp only [hp, listenerStep] at hx
      split_ifs at hx
      cases hx
  | readMsg e =>
    simp only [hp, listenerStep] at hx
    split at hx <;> cases hx
  | select e m =>
    simp only [hp, listenerStep] at hx
    split_ifs at hx <;> cases hx
  | closed => simp [hp, listenerStep] at hx
  | quit => simp [hp, listenerStep] at hx

theorem Lagging.step (h : s.Lagging) (hs : s.Shape) (hd : s.Delivery) {a : QueueAction}
    (hstep : QueueStep L s a s') : s'.Lagging := by
  have hgrows := (hs.grows hstep).removers.length_le
  intro l x hl hpc
  rcases listeners_of_step hstep hl with hl | rfl | ⟨y, quit, pc, hy, hx, rfl⟩
  · obtain ⟨h1, h2⟩ := h l x hl hpc
    exact ⟨h1, Nat.le_trans h2 hgrows⟩
  · cases hpc
  · rw [moveTo_pc] at hpc
    subst hpc
    obtain ⟨h1, h2⟩ := (hd l y hy).lagging hs hx
    exact ⟨h1, Nat.le_trans h2 hgrows⟩

theorem lagging_of_reaches {ok : QueueState → QueueAction → Prop} (h : (queueRun L).Reaches ok s) :
    s.Lagging := by
  refine h.invariant_of (J := fun s => s.Shape ∧ s.Delivery)
    (fun _ hr => ⟨shape_of_reaches hr, delivery_of_reaches hr⟩) (fun l x hl => by cases hl) ?_
  rintro s a s' ⟨hs, hd⟩ - hI - hn
  exact hI.step hs hd (queueStep_of_next hn).2

/-! ## The posts -/

theorem message_eq (hc : s.calls t = some c) : s.message t = c.msg := by
  unfold message
  rw [hc]
  rfl

/-- What has been posted stays as it is. -/
theorem Shape.map_message (h : s.Shape) (hg : Grows s s') :
    s.appenders.map s'.message = s.log.posts := by
  apply List.map_congr_left
  intro t ht
  obtain ⟨c, hc, -⟩ := (h.started t).mp ht
  obtain ⟨c', hc', hmsg, -⟩ := hg.calls t c hc
  rw [message_eq hc', message_eq hc, hmsg]

/-- The post at the place of an entry that is ready. -/
theorem Shape.posts_eq (h : s.Shape) {i : ℕ} {e : Addr} {m : Bytes} (he : s.IsEntry i e)
    (hv : (s.q.heap e).valid = 0) (hm : (s.q.heap e).msg = some m) : s.log.posts[i]? = some m := by
  obtain ⟨t, c, ho, hc, hst⟩ := h.ready he hv
  have hmsg := h.msg i t c e ho hc he
  rw [hm, if_pos (by omega)] at hmsg
  show (s.appenders.map s.message)[i]? = some m
  rw [List.getElem?_map, ho, Option.map_some, message_eq hc, Option.some.inj hmsg]

/-- A step that neither posts nor drops nor moves a listener. -/
theorem Shape.log_eq (h : s.Shape) (hg : Grows s s') (happ : s'.appenders = s.appenders)
    (hrem : s'.removers = s.removers) (hlis : s'.listeners = s.listeners) : s'.log = s.log := by
  ext1
  · show s'.appenders.map s'.message = _
    rw [happ, h.map_message hg]
  · exact congrArg List.length hrem
  · show (fun l => (s'.listeners l).map Listener.cursor) = _
    rw [hlis]
    rfl

theorem log_setListener (l : Lid) (x : Listener) : (s.setListener l x).log = s.log.set l x.cursor := by
  ext1
  · rfl
  · rfl
  · funext l'
    rw [BroadcastLog.Log.set_cursors]
    show ((s.setListener l x).listeners l').map Listener.cursor = _
    rw [setListener_listeners]
    split_ifs <;> rfl

/-- A listener that moves without a trace in the log. -/
theorem log_setListener_of_eq (hl : s.listeners l = some x) {y : Listener} (hy : y.cursor = x.cursor) :
    (s.setListener l y).log = s.log := by
  rw [log_setListener, hy]
  ext1
  · rfl
  · rfl
  · have hx : s.log.cursors l = some x.cursor := congrArg (Option.map Listener.cursor) hl
    funext l'
    rw [BroadcastLog.Log.set_cursors]
    split_ifs with heq
    · rw [heq, hx]
    · rfl

/-! ## The steps -/

/-- What a step does to the log. -/
def LogStep (s : QueueState) (a : QueueAction) (s' : QueueState) : Prop :=
  match s.linearize a with
  | none => s'.log = s.log
  | some b => BroadcastLog.next s.log b = some s'.log

theorem logStep_of_none {a : QueueAction} (ha : s.linearize a = none) (h : s'.log = s.log) :
    LogStep s a s' := by
  unfold LogStep
  rw [ha]
  exact h

theorem logStep_of_some {a : QueueAction} {b : BroadcastLog.Action Lid Bytes}
    (ha : s.linearize a = some b) (h : BroadcastLog.next s.log b = some s'.log) : LogStep s a s' := by
  unfold LogStep
  rw [ha]
  exact h

theorem linearize_call (hc : s.calls t = some c) (h1 : ∀ old, c.pc ≠ .casNewest old)
    (h2 : ∀ e new, c.pc ≠ .trimCas e new) : s.linearize (.call t) = none := by
  simp only [linearize, hc, Option.bind_some]

theorem linearize_moves (hc : s.calls t = some c) {pc : Pc} (hl : LocalStep L s.q c.pc pc) :
    s.linearize (.call t) = none := by
  simp only [linearize, hc, Option.bind_some]
  generalize c.pc = p at hl
  cases hl with
  | casNewestFails h => exact if_neg h
  | trimCasFails h => exact if_neg h
  | _ => rfl

/-- A listener that takes a step, and the log. -/
theorem logStep_listener (hs : s.Shape) (hd : s.Delivery) (hlag : s.Lagging) {quit : Bool}
    {pc : ListenerPc} (hl : s.listeners l = some x)
    (hx : listenerStep s.q quit x.pc = some (.ok pc)) :
    LogStep s (.listener l quit) (s.setListener l (x.moveTo s.removers.length pc)) := by
  have hfacts := (hd l x hl).pc
  have hcursor : s.log.cursors l = some x.cursor := congrArg (Option.map Listener.cursor) hl
  -- what a listener does that neither reads `q.oldest` nor sends
  have hmove : (∀ e m, x.pc ≠ .select e m) → x.pc ≠ .start →
      x.moveTo s.removers.length pc = { x with pc := pc } := fun h1 h2 =>
    moveTo_eq h2 fun e m _ he => absurd he (h1 e m)
  cases hp : x.pc with
  | start =>
    simp only [hp, listenerStep, Option.some.injEq, Except.ok.injEq] at hx
    subst hx
    refine logStep_of_some (b := .place l) (by simp [linearize, hl, hp]) ?_
    have hsent : x.sent = [] := by
      rw [hp] at hfacts
      exact hfacts
    rw [log_setListener]
    simp [BroadcastLog.next, hcursor, Listener.cursor, Listener.moveTo, hp, ListenerPc.logStage, hsent]
    rfl
  | loop p =>
    simp only [hp, listenerStep] at hx
    split_ifs at hx with hstale
    · obtain rfl : ListenerPc.closed = pc := by simpa using hx
      refine logStep_of_some (b := .cut l) (by simp [linearize, hl, hp, hstale]) ?_
      obtain ⟨h1, h2⟩ := hlag l x hl (hp.trans (congrArg _ hstale))
      rw [hmove (by simp [hp]) (by simp [hp]), log_setListener]
      simp only [BroadcastLog.next, hcursor, Option.bind_some]
      rw [if_pos]
      · rfl
      · refine ⟨by simp [Listener.cursor, hp, ListenerPc.logStage], ?_, ?_⟩
        · simpa [Listener.cursor] using h1
        · simpa [Listener.cursor, Cursor.pos, log] using h2
    · obtain rfl : ListenerPc.wait p = pc := by simpa using hx
      refine logStep_of_none (by simp [linearize, hl, hp, hstale]) (log_setListener_of_eq hl ?_)
      rw [hmove (by simp [hp]) (by simp [hp])]
      simp [Listener.cursor, hp, ListenerPc.logStage]
  | wait p =>
    refine logStep_of_none (by simp [linearize, hl, hp]) (log_setListener_of_eq hl ?_)
    rw [hmove (by simp [hp]) (by simp [hp])]
    cases p with
    | none => simp [hp, listenerStep] at hx
    | some e =>
      simp only [hp, listenerStep] at hx
      split_ifs at hx
      obtain rfl : ListenerPc.readMsg e = pc := by simpa using hx
      simp [Listener.cursor, hp, ListenerPc.logStage]
  | readMsg e =>
    refine logStep_of_none (by simp [linearize, hl, hp]) (log_setListener_of_eq hl ?_)
    rw [hmove (by simp [hp]) (by simp [hp])]
    simp only [hp, listenerStep] at hx
    split at hx
    · cases hx
    · next m hm =>
      obtain rfl : ListenerPc.select e m = pc := by simpa using hx
      simp [Listener.cursor, hp, ListenerPc.logStage]
  | select e m =>
    simp only [hp, listenerStep] at hx
    rw [hp] at hfacts
    obtain ⟨he, hv, hm, -⟩ := hfacts
    cases quit with
    | true =>
      obtain rfl : ListenerPc.quit = pc := by simpa using hx
      refine logStep_of_some (b := .leave l) (by simp [linearize, hl, hp]) ?_
      rw [log_setListener]
      simp [BroadcastLog.next, hcursor, Listener.cursor, Listener.moveTo, hp, ListenerPc.logStage]
    | false =>
      obtain rfl : ListenerPc.advance e = pc := by simpa using hx
      refine logStep_of_some (b := .deliver l) (by simp [linearize, hl, hp]) ?_
      have hpost : s.log.posts[x.cursor.pos]? = some m := by
        have hpos : x.cursor.pos = x.start + x.sent.length := by simp [Listener.cursor, Cursor.pos]
        rw [hpos]
        exact hs.posts_eq he hv hm
      rw [log_setListener]
      simp only [BroadcastLog.next, hcursor, Option.bind_some, hpost, Option.map_some]
      simp [Listener.cursor, Listener.moveTo, hp, ListenerPc.logStage]
  | advance e =>
    simp only [hp, listenerStep, Option.some.injEq, Except.ok.injEq] at hx
    subst hx
    refine logStep_of_none (by simp [linearize, hl, hp]) (log_setListener_of_eq hl ?_)
    rw [hmove (by simp [hp]) (by simp [hp])]
    simp [Listener.cursor, hp, ListenerPc.logStage]
  | closed => simp [hp, listenerStep] at hx
  | quit => simp [hp, listenerStep] at hx

/-- **Step lemma**: every step of the queue is its operation of the log. -/
theorem Shape.logStep (hs : s.Shape) (hd : s.Delivery) (hlag : s.Lagging) {a : QueueAction}
    (hstep : QueueStep L s a s') : LogStep s a s' := by
  have hg := hs.grows hstep
  cases hstep with
  | append ht => exact logStep_of_none rfl (hs.log_eq hg rfl rfl rfl)
  | moves hc hl => exact logStep_of_none (linearize_moves hc hl) (hs.log_eq hg rfl rfl rfl)
  | @casNewest t c old hc hpc h =>
    refine logStep_of_some (b := .post c.msg) (by simp [linearize, hc, hpc, h]) ?_
    refine congrArg some ?_
    ext1
    · show s.log.posts ++ [c.msg] = (s.appenders ++ [t]).map (s.install t c old).message
      have hmsg : (s.install t c old).message t = c.msg := by
        rw [message_eq (c := c.goto (.storeNext old)) (Function.update_self _ _ _)]
        rfl
      rw [List.map_append, hs.map_message hg, List.map_singleton, hmsg]
    · rfl
    · rfl
  | storeNext hc hpc =>
    exact logStep_of_none (linearize_call hc (by simp [hpc]) (by simp [hpc])) (hs.log_eq hg rfl rfl rfl)
  | storeMsg hc hpc =>
    exact logStep_of_none (linearize_call hc (by simp [hpc]) (by simp [hpc])) (hs.log_eq hg rfl rfl rfl)
  | addSize hc hpc =>
    exact logStep_of_none (linearize_call hc (by simp [hpc]) (by simp [hpc])) (hs.log_eq hg rfl rfl rfl)
  | validDone hc hpc h =>
    exact logStep_of_none (linearize_call hc (by simp [hpc]) (by simp [hpc])) (hs.log_eq hg rfl rfl rfl)
  | @trimCas t c e new hc hpc h =>
    refine logStep_of_some (b := .drop) (by simp [linearize, hc, hpc, h]) ?_
    have hle : s.log.dropped ≤ s.log.posts.length := by
      have hlt := (List.getElem?_eq_some_iff.mp (hs.oldest e h)).1
      have hlen := hs.length
      show s.removers.length ≤ (s.appenders.map s.message).length
      rw [List.length_map]
      omega
    simp only [BroadcastLog.next, if_pos hle, Option.some.injEq]
    ext1
    · exact (hs.map_message hg).symm
    · show s.removers.length + 1 = (s.removers ++ [t]).length
      rw [List.length_append, List.length_singleton]
    · rfl
  | trimSub hc hpc =>
    exact logStep_of_none (linearize_call hc (by simp [hpc]) (by simp [hpc])) (hs.log_eq hg rfl rfl rfl)
  | trimStale hc hpc =>
    exact logStep_of_none (linearize_call hc (by simp [hpc]) (by simp [hpc])) (hs.log_eq hg rfl rfl rfl)
  | @listen l hl =>
    refine logStep_of_some (b := .join l) rfl ?_
    have hcursor : s.log.cursors l = none := congrArg (Option.map Listener.cursor) hl
    rw [log_setListener]
    simp only [BroadcastLog.next, hcursor]
    rfl
  | listener hl hx => exact logStep_listener hs hd hlag hl hx
  | callPanics hc hx =>
    have hpc := (hs.call_panics hc hx).2
    exact logStep_of_none (linearize_call hc (by simp [hpc]) (by simp [hpc])) rfl
  | listenerPanics hl hx =>
    have hpc := (hd.listener_panics hs hl hx).2
    exact logStep_of_none (by simp [linearize, hl, hpc]) rfl

/-- **The simulation**: the queue, seen through its log. -/
theorem log_simulation (L : Limits) : Machine.Simulation (queueRun L) (BroadcastLog.machine Lid Bytes)
    (fun s => s.Shape ∧ s.Delivery ∧ s.Lagging) (fun _ _ => True) (fun _ _ => True) QueueState.log where
  step := by
    rintro s a s' ⟨hs, hd, hlag⟩ - hn
    have hstep := (queueStep_of_next hn).2
    refine ⟨⟨hs.step hstep, hd.step hs hstep, hlag.step hs hd hstep⟩, ?_⟩
    have hlog := hs.logStep hd hlag hstep
    unfold LogStep at hlog
    split at hlog
    · exact .inl hlog
    · next b _ => exact .inr ⟨b, trivial, hlog⟩

/-- The runs of the queue are runs of the log. -/
theorem log_reachable {ok : QueueState → QueueAction → Prop} (h : (queueRun L).Reaches ok s) :
    (BroadcastLog.machine Lid Bytes).Reachable s.log := by
  have hdelivery : init.Delivery := by
    rintro l x ⟨⟩
  have hlagging : init.Lagging := by
    rintro l x ⟨⟩
  exact ((log_simulation L).path h.reachable ⟨shape_init, hdelivery, hlagging⟩).2

/-- An `Append` that has returned has posted its message, once. -/
theorem Shape.posted_once (h : s.Shape) (hc : s.calls t = some c) (hret : c.pc = .returned) :
    ∃! i, s.Owns t i ∧ s.log.posts[i]? = some c.msg := by
  obtain ⟨i, hi⟩ := List.mem_iff_getElem?.mp ((h.started t).mpr ⟨c, hc, by simp [hret, Pc.stage]⟩)
  refine ⟨i, ⟨hi, ?_⟩, fun j hj => h.owns_inj hj.1 hi⟩
  show (s.appenders.map s.message)[i]? = some c.msg
  rw [List.getElem?_map, hi, Option.map_some, message_eq hc]

/-- The queue is a broadcast log: its steps are operations of the log, and a call of `Append` is one post,
at a moment between its beginning and its return. -/
structure IsBroadcastLog (L : Limits) : Prop where
  reachable : ∀ s, (queueRun L).Reachable s → (BroadcastLog.machine Lid Bytes).Reachable s.log
  step : ∀ s a s', (queueRun L).Reachable s → queueNext L s a = some s' → LogStep s a s'
  sound : ∀ s, (queueRun L).Reachable s → BroadcastLog.Sound s.log
  posts : ∀ s a s' m, (queueRun L).Reachable s → queueNext L s a = some s' →
    s.linearize a = some (.post m) → ∃ t c, a = .call t ∧ s.calls t = some c ∧ c.msg = m ∧
      t ∉ s.appenders ∧ s'.appenders = s.appenders ++ [t]
  once : ∀ s t c, (queueRun L).Reachable s → s.calls t = some c → c.pc = .returned →
    ∃! i, s.Owns t i ∧ s.log.posts[i]? = some c.msg

/-- The step that posts is a successful CAS on `q.newest`. -/
theorem linearize_post {a : QueueAction} {m : Bytes} (ha : s.linearize a = some (.post m)) :
    ∃ t c old, a = .call t ∧ s.calls t = some c ∧ c.pc = .casNewest old ∧ s.q.newest = old ∧
      c.msg = m := by
  cases a with
  | append t m' => cases ha
  | listen l => cases ha
  | call t =>
    obtain ⟨c, hc, ha⟩ := Option.bind_eq_some_iff.mp ha
    split at ha
    · next old hpc =>
      split_ifs at ha with hold
      obtain rfl : c.msg = m := by simpa using ha
      exact ⟨t, c, old, rfl, hc, hpc, hold, rfl⟩
    · split_ifs at ha
      cases ha
    · cases ha
  | listener l quit =>
    obtain ⟨x, -, ha⟩ := Option.bind_eq_some_iff.mp ha
    split at ha
    · cases ha
    · split_ifs at ha
      cases ha
    · split_ifs at ha <;> cases ha
    · cases ha

/-- **Linearizability**: under every interleaving the queue is a broadcast log. -/
theorem queue_linearizable (L : Limits) : IsBroadcastLog L where
  reachable := fun s h => log_reachable h
  step := fun s a s' h hn => (shape_of_reaches h).logStep (delivery_of_reaches h) (lagging_of_reaches h)
    (queueStep_of_next hn).2
  sound := fun s h => BroadcastLog.sound_of_reachable (log_reachable h)
  posts := by
    intro s a s' m h hn ha
    obtain ⟨t, c, old, rfl, hc, hpc, hold, hm⟩ := linearize_post ha
    have hfresh := ((shape_of_reaches h).not_started hc (by rw [hpc]; rfl)).1
    rw [queueNext_casNewest hc hpc hold hn]
    exact ⟨t, c, rfl, hc, hm, hfresh, rfl⟩
  once := fun s t c h hc hret => (shape_of_reaches h).posted_once hc hret

end QueueState

end WebsocketHub
