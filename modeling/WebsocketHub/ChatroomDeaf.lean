import WebsocketHub.ChatroomRegistry
import WebsocketHub.ChatroomIds

/-!
# WebsocketHub.ChatroomDeaf — no client is deaf, and when one is

A client is deaf when its writer has finished and it is still in the room or connected.  The
condition of the main result has two parts.  The second one, about ids, holds as long as their counter
does not overflow.
-/

namespace WebsocketHub

open ChatroomState

variable {verbose : Bool} {L : Limits} {s s' m : ChatroomState} {a : ChatroomAction} {c : Cid}
  {x x' : Client} {U : Thread} {p : DelPc}

/-- **No deaf client**: a client whose writer has finished has its connection closed and is out of the
room. -/
theorem no_deaf_client
    (h : (chatRun verbose L).Reaches (fun s a => deregisters s a = true) s)
    (hc : s.conns c = some x) (hw : x.writer = .returned) :
    x.raw = true ∧ ∀ id, s.clients.lookup id ≠ some c :=
  (registry_of_reaches h).not_deaf (spawned_of_reaches h) hc hw

/-- A writer that ends after a failed write. -/
theorem no_deaf_client_of_write_error : ∃ (s : ChatroomState) (x : Client), s.conns 0 = some x ∧
    x.writer = .returned ∧ x.raw = true ∧ ∀ id, s.clients.lookup id ≠ some 0 := by
  obtain ⟨s, hs, hp⟩ := Machine.exists_of_runIf (chatRun false (backlogOf 100)) deregisters
    ChatroomState.init (writeErrorSteps ++ [.writer 0 false, .writer 0 false])
    (fun s => (s.conns 0).any fun x => x.writer = .returned) (by decide)
  obtain ⟨x, hx, hw⟩ := (Option.any_eq_true _ _).mp hp
  exact ⟨s, x, hx, of_decide_eq_true hw, no_deaf_client hs hx (of_decide_eq_true hw)⟩

/-- **A deaf client**: with a backlog that keeps nothing, client 0 says something and its own listener
is at the message when it is trimmed.  The message is delivered, the listener finds `staleEntry`, the
writer ends; the client stays in the room, its connection open. -/
theorem deaf_client : ∃ s, (chatRun false (backlogOf 0)).Reachable s ∧
    ∃ x, s.conns 0 = some x ∧ x.writer = .returned ∧ x.raw = false ∧
      s.clients.lookup x.id = some 0 := by
  obtain ⟨s, hs, hp⟩ := Machine.exists_of_run (chatRun false (backlogOf 0)) ChatroomState.init
    (joinSteps 0 ++ [.listener 0 false, .listener 0 false] ++
      .reader 0 (some [7]) :: List.replicate 15 (.reader 0 none) ++
      List.replicate 3 (.listener 0 false) ++ [.writer 0 true] ++
      List.replicate 2 (.listener 0 false) ++ List.replicate 3 (.writer 0 false))
    (fun s => (s.conns 0).any fun x => x.writer = .returned && x.raw = false &&
      s.clients.lookup x.id = some 0) (by decide)
  obtain ⟨x, hx, hpc⟩ := (Option.any_eq_true _ _).mp hp
  simp only [Bool.and_eq_true, decide_eq_true_eq] at hpc
  exact ⟨s, hs, x, hx, hpc.1.1, hpc.1.2, hpc.2⟩

/-! ## As long as the counter does not overflow -/

/-- While the counter does not overflow, it is enough that a writer leaves its loop when its client is
out of the map. -/
theorem registry_of_counts
    (h : (chatRun verbose L).Reaches (fun s a => endsUnregistered s a = true ∧ countsOn s a = true) s) :
    Registry s := by
  refine registry_of_reaches (h.strengthen (fun s hs => roster_of_counts (hs.mono fun _ _ h => h.2)) ?_)
  rintro s a ⟨hr, hids⟩ ⟨hends, -⟩
  rw [deregisters, hends, idsUnused_of_ids hr hids]
  rfl

/-- No client is deaf in a room that fewer than `2 ^ 32` clients join, when a writer leaves its loop
only with its client out of the map. -/
theorem not_deaf_of_counts
    (h : (chatRun verbose L).Reaches (fun s a => endsUnregistered s a = true ∧ countsOn s a = true) s)
    (hc : s.conns c = some x) (hw : x.writer = .returned) :
    x.raw = true ∧ ∀ id, s.clients.lookup id ≠ some c :=
  (registry_of_counts h).not_deaf (spawned_of_reaches h) hc hw

end WebsocketHub
