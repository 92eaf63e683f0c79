import Ccf.Raft.Proof.Election

/-!
# A stale leader keeps its log

`Raft::rollback(idx)` rolls the store back to `idx` and drops the committable
indices and configurations beyond it, but leaves `last_idx` and the ledger as they
were. `become_follower` calls it with the commit index, so a leader that steps down
keeps every entry it replicated and did not commit (`becomeFollower_logKept`).

`recv_append_entries` then skips, without comparing them, the entries of the new
leader at indices up to `last_idx`, and records the new leader's term for them in
`term_history`. The follower ends up holding its own entry under the new leader's
term, acknowledges the index, and the new leader commits its entry on that
acknowledgement. The cluster of three nodes below does exactly this:

* node 0 leads term 1 and replicates entry `[1]` at index 1, which nobody receives;
* node 2 leads term 2 and replicates entry `[2]` at index 1;
* node 0 steps down on node 2's `AppendEntries`, keeps `[1]` and takes term 2 for
  index 1 (`log_matching_violated`);
* node 2 commits index 1 on node 0's acknowledgement, and node 0 then wins term 3
  with `[1]` at index 1 (`committed_entry_lost`).
-/

namespace Ccf.Raft

open EStateM

set_option linter.dupNamespace false

variable {σ E : Type}

/-- What a node has written to its log: `last_idx` and the ledger. -/
def Raft.log (r : Raft σ E) : Index × List E := (r.lastIdx, r.ledger)

/-- The run leaves the log as it was. -/
def LogKept (s s' : Raft σ E) : Prop := s'.log = s.log

theorem LogKept.refl (s : Raft σ E) : LogKept s s := rfl

theorem LogKept.trans (s₁ s₂ s₃ : Raft σ E) (h₁ : LogKept s₁ s₂) (h₂ : LogKept s₂ s₃) :
    LogKept s₁ s₃ :=
  Eq.trans h₂ h₁

section LogKept

theorem liftStore_logKept {α : Type} (x : EStateM String σ α) :
    Rel LogKept (liftStore (E := E) x) := by
  intro s
  unfold wp liftStore
  cases x s.store <;> rfl

theorem send_logKept (dst : NodeId) (m : RaftMsg E) : Rel LogKept (send (σ := σ) dst m) :=
  Rel.modify fun _ => rfl

theorem sendAppendEntriesRange_logKept (dst : NodeId) (startIdx endIdx : Index) :
    Rel LogKept (sendAppendEntriesRange (σ := σ) (E := E) dst startIdx endIdx) := by
  apply Rel.get_bind
  intro t
  split
  · exact Rel.throw LogKept.refl _
  · exact Rel.bind LogKept.trans (Rel.modify fun _ => rfl) fun _ => send_logKept _ _

theorem sendAppendEntries_logKept (dst : NodeId) (startIdx : Index) :
    Rel LogKept (sendAppendEntries (σ := σ) (E := E) dst startIdx) := by
  -- the batches are sent by a loop over fuel
  have hloop : ∀ lastIdx batch fuel (startIdx i : Index),
      Rel LogKept (sendAppendEntriesLoop (σ := σ) (E := E) dst lastIdx batch fuel startIdx i) := by
    intro lastIdx batch fuel
    induction fuel with
    | zero => exact fun _ _ => Rel.pure LogKept.refl _
    | succ n ih =>
        intro startIdx i
        unfold sendAppendEntriesLoop
        exact Rel.ite (Rel.bind LogKept.trans (sendAppendEntriesRange_logKept _ _ _)
          fun _ => ih _ _) (Rel.pure LogKept.refl _)
  apply Rel.get_bind
  intro t
  exact Rel.bind LogKept.trans (hloop _ _ _ _ _)
    fun _ => Rel.ite (sendAppendEntriesRange_logKept _ _ _) (Rel.pure LogKept.refl _)

theorem createAndRemoveNodeState_logKept :
    Rel LogKept (createAndRemoveNodeState (σ := σ) (E := E)) := by
  have hadd : ∀ ids, Rel LogKept (addMissingNodes (σ := σ) (E := E) ids) := by
    intro ids
    induction ids with
    | nil => exact Rel.pure LogKept.refl _
    | cons id ids ih =>
        apply Rel.get_bind
        intro t
        split
        · -- a new member: recorded, and sent the log if this node leads
          dsimp only
          refine Rel.bind LogKept.trans (Rel.modify fun _ => rfl) fun _ => ?_
          exact Rel.ite (Rel.bind LogKept.trans (sendAppendEntries_logKept _ _) fun _ => ih) ih
        · exact ih
  apply Rel.get_bind
  intro t
  exact Rel.bind LogKept.trans (Rel.modify fun _ => rfl) fun _ => hadd _

variable [RaftStore σ E]

/-- **`Raft::rollback` does not truncate the log.** -/
theorem rollback_logKept (idx : Index) : Rel LogKept (rollback (σ := σ) (E := E) idx) := by
  unfold rollback
  refine Rel.bind LogKept.trans (liftStore_logKept _) fun _ => Rel.get_bind fun t => ?_
  exact Rel.bind LogKept.trans (Rel.modify fun _ => rfl)
    fun _ => Rel.ite createAndRemoveNodeState_logKept (Rel.pure LogKept.refl _)

/-- **A node that steps down keeps its whole log**, the entries beyond its commit
index included. -/
theorem becomeFollower_logKept (draw : Int) (term : Term) :
    Rel LogKept (becomeFollower (σ := σ) (E := E) draw term) := by
  unfold becomeFollower
  refine Rel.bind LogKept.trans (Rel.modify fun _ => rfl) fun _ => ?_
  refine Rel.bind LogKept.trans (Rel.modify fun _ => rfl) fun _ => ?_
  refine Rel.bind LogKept.trans (Rel.modify fun _ => rfl) fun _ => Rel.get_bind fun t => ?_
  exact Rel.bind LogKept.trans (rollback_logKept _) fun _ => Rel.modify fun _ => rfl

end LogKept

/-! ## The run -/

/-- After `firstElection`: node 0 replicates `[1]`, which it never sends; node 2 times
out twice, wins term 2 with node 1's vote and replicates `[2]`; its heartbeat
reaches node 0. -/
def staleLeader : List (Call (List UInt8)) :=
  [.replicate 0 [(1, [1], true)],
   .periodic 2 0 100,
   .periodic 2 0 100,
   .recv 2 1 0 (.requestVote ⟨2, 2, 0, 0⟩),
   .recv 1 2 0 (.requestVoteResponse ⟨1, 2, true⟩),
   .replicate 2 [(1, [2], true)],
   .periodic 2 0 10,
   .recv 2 0 0 (.appendEntries ⟨2, 1, 2, 0, 0, 0, 2⟩ [[2]])]

/-- Node 0 and node 2 both have index 1 in term 2, with different entries. -/
theorem log_matching_violated :
    IsClusterRun threeNodes (fun n => ⟨n⟩) (fun _ => 10) (fun _ => 100)
        (startWorld.play (firstElection ++ staleLeader)) ∧
      ∃ w ∈ startWorld.play (firstElection ++ staleLeader),
        1 ≤ (w.nodes 0).lastIdx ∧ 1 ≤ (w.nodes 2).lastIdx ∧
        (w.nodes 0).getTermInternal 1 = (w.nodes 2).getTermInternal 1 ∧
        (w.nodes 0).ledger.take 1 ≠ (w.nodes 2).ledger.take 1 := by
  refine ⟨IsClusterRun.play (by decide), _, World.after_mem_play _ _, ?_⟩
  decide

/-- **`term_history` misreports the term of an entry.** Node 0 writes `[1]` at index 1
while it leads term 1; later in the same run it still holds `[1]` there, but
`get_term_internal(1)` answers 2: `recv_append_entries` recorded node 2's term for
every index above the commit index, its own entry included. -/
theorem term_index_wrong :
    IsClusterRun threeNodes (fun n => ⟨n⟩) (fun _ => 10) (fun _ => 100)
        (startWorld.play (firstElection ++ staleLeader)) ∧
      ∃ w₀ ∈ startWorld.play (firstElection ++ staleLeader),
      ∃ w ∈ startWorld.play (firstElection ++ staleLeader),
      ∃ w' ∈ startWorld.play (firstElection ++ staleLeader),
        w = (Call.replicate 0 [(1, [1], true)]).run w₀ ∧
        (w₀.nodes 0).state = .Leader ∧ (w₀.nodes 0).currentTerm = 1 ∧
        (w₀.nodes 0).lastIdx = 0 ∧ (w.nodes 0).lastIdx = 1 ∧ (w.nodes 0).ledger = [[1]] ∧
        (w'.nodes 0).lastIdx = 1 ∧ (w'.nodes 0).ledger = [[1]] ∧
        (w'.nodes 0).getTermInternal 1 = 2 := by
  -- `w₀` and `w` are the worlds before and after the first call of `staleLeader`
  have hw₀ := World.after_mem_play_append startWorld firstElection staleLeader
  have hw := World.after_mem_play_append startWorld (firstElection ++ staleLeader.take 1)
    (staleLeader.drop 1)
  rw [List.append_assoc, List.take_append_drop] at hw
  refine ⟨IsClusterRun.play (by decide), _, hw₀, _, hw, _,
    World.after_mem_play _ _, rfl, ?_⟩
  decide

/-- Node 0 acknowledges index 1, node 2 commits `[2]` there; node 0 times out, wins
term 3 with node 1's vote, and leads with `[1]` at index 1. -/
def lostCommit : List (Call (List UInt8)) :=
  [.recv 0 2 0 (.appendEntriesResponse ⟨0, 2, 1, true⟩),
   .periodic 0 0 100,
   .recv 0 1 0 (.requestVote ⟨0, 3, 1, 2⟩),
   .recv 1 0 0 (.requestVoteResponse ⟨1, 3, true⟩)]

/-- Node 2 has committed index 1; node 0 leads a later term without that entry. -/
theorem committed_entry_lost :
    IsClusterRun threeNodes (fun n => ⟨n⟩) (fun _ => 10) (fun _ => 100)
        (startWorld.play (firstElection ++ staleLeader ++ lostCommit)) ∧
      ∃ w ∈ startWorld.play (firstElection ++ staleLeader ++ lostCommit),
        1 ≤ (w.nodes 2).commitIdx ∧ (w.nodes 0).state = .Leader ∧
        (w.nodes 2).currentTerm < (w.nodes 0).currentTerm ∧
        (w.nodes 0).ledger.take 1 ≠ (w.nodes 2).ledger.take 1 := by
  refine ⟨IsClusterRun.play (by decide +kernel), _, World.after_mem_play _ _, ?_⟩
  decide +kernel

end Ccf.Raft
