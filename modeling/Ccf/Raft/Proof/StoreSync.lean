import Ccf.Kv.Adaptor
import Ccf.Raft.Proof.Election

/-!
# Raft's log and the store's version come apart

Raft keeps its own log (`last_idx` and the ledger) and drives the store's version
through `deserialise` and `rollback`. `become_follower` rolls the store back to the
commit index, but `Raft::rollback` does not shorten the log (`becomeFollower_logKept`),
so a follower that had applied an uncommitted entry is left with `last_idx` ahead of
`current_version()`. The next entry it receives is then one past `last_idx`, and
`Store::deserialise` refuses it: the store is not at the version just before it. The
follower throws.

The cluster below runs Raft over the store of `kv/kv.h` (`raft::Adaptor<kv::Store>`),
with empty transactions as entries:

* node 0 leads term 1 and sends entry 1 to both followers, which apply it;
* node 2 times out, and node 1 steps down on its `RequestVote`, rolling its store back
  to version 0 while `last_idx` stays 1;
* node 2, whose store is at version 1, wins term 2 and sends entry 2, on which node 1
  fails (`follower_store_behind`).
-/

namespace Ccf.Raft

open Kv

/-- An entry with no maps, serialised at version `v`. -/
def emptyTx (v : Version) : RawTx Nat Nat Unit := ⟨[.version v], none⟩

/-- The cluster of `threeNodes` over empty key-value stores, before any call. -/
def kvStart : World (Store Nat Nat Unit) (RawTx Nat Nat Unit) :=
  World.init threeNodes (fun _ => Store.empty none none) (fun _ => 10) (fun _ => 100)

/-- Node 0 wins term 1 and sends entry 1; nodes 1 and 2 apply it; node 2 times out and
node 1 steps down on its `RequestVote`, granting its vote. -/
def unsyncedFollower : List (Call (RawTx Nat Nat Unit)) :=
  [.periodic 0 0 100,
   .recv 0 1 0 (.requestVote ⟨0, 1, 0, 0⟩),
   .recv 1 0 0 (.requestVoteResponse ⟨1, 1, true⟩),
   .replicate 0 [(1, emptyTx 1, true)],
   .periodic 0 0 10,
   .recv 0 1 0 (.appendEntries ⟨0, 1, 1, 0, 0, 0, 1⟩ [emptyTx 1]),
   .recv 0 2 0 (.appendEntries ⟨0, 1, 1, 0, 0, 0, 1⟩ [emptyTx 1]),
   .periodic 2 0 100,
   .recv 2 1 0 (.requestVote ⟨2, 2, 1, 1⟩)]

/-- Node 2 counts node 1's vote, replicates entry 2 and sends it. -/
def nextEntry : List (Call (RawTx Nat Nat Unit)) :=
  [.recv 1 2 0 (.requestVoteResponse ⟨1, 2, true⟩),
   .replicate 2 [(2, emptyTx 2, true)],
   .periodic 2 0 10]

/-- Node 1 is a follower whose log ends at 1 over a store at version 0; node 2 leads
term 2 with its store at version 1 and replicates entry 2; node 1 throws on it. -/
theorem follower_store_behind :
    IsClusterRun threeNodes (fun _ => Store.empty none none) (fun _ => 10) (fun _ => 100)
        (kvStart.play (unsyncedFollower ++ nextEntry ++
          [.recv 2 1 0 (.appendEntries ⟨2, 2, 2, 1, 1, 0, 2⟩ [emptyTx 2])])) ∧
      ((kvStart.after unsyncedFollower).nodes 1).state = .Follower ∧
      ((kvStart.after unsyncedFollower).nodes 1).lastIdx = 1 ∧
      ((kvStart.after unsyncedFollower).nodes 1).ledger.length = 1 ∧
      ((kvStart.after unsyncedFollower).nodes 1).store.currentVersion = 0 ∧
      ((kvStart.after (unsyncedFollower ++ nextEntry.take 1)).nodes 2).state = .Leader ∧
      ((kvStart.after (unsyncedFollower ++ nextEntry.take 1)).nodes 2).lastIdx = 1 ∧
      ((kvStart.after (unsyncedFollower ++ nextEntry.take 1)).nodes 2).store.currentVersion = 1 ∧
      (recvMessage 0 (.appendEntries ⟨2, 2, 2, 1, 1, 0, 2⟩ [emptyTx 2])
          ((kvStart.after (unsyncedFollower ++ nextEntry)).pre 1)).error? =
        some "Follower failed to apply log entry 2" := by
  refine ⟨IsClusterRun.play (by decide +kernel), ?_⟩
  decide +kernel

end Ccf.Raft
