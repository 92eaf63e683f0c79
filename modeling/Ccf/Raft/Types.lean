import Ccf.Kv.Types
import Ccf.Lib.Exec

/-!
# Raft's wire types and the interfaces it is built on (`consensus/raft/rafttypes.h`)

`Raft` is a class template over a ledger proxy and a channel proxy, and it owns a
`raft::Store<kv::DeserialiseSuccess>`: an abstract interface to the KV store with
three virtual methods. The store is modelled the same way, as a class
`RaftStore σ E` over the store's state `σ` and the type `E` of ledger entries, so
that the protocol is verified once for every store and then instantiated with the
KV store of `kv/kv.h` or with the stub the Raft tests use.

Indices are `int64_t` in the source but never negative: every index the protocol
forms is a count of entries or one past such a count. They are `Nat` here. Node
identifiers and terms are `uint64_t`; the sentinel `NoNode` is `Option.none`.
-/

namespace Ccf.Raft

open Ccf.Kv

/-- `raft::Index`. -/
abbrev Index := Nat

/-- `raft::Term`. -/
abbrev Term := Nat

/-- `raft::NodeId`. -/
abbrev NodeId := Nat

/-- `raft::AppendEntries`. The entries themselves are not part of the header: the
host appends them when it forwards the message (`host/nodeconnections.h`). -/
structure AppendEntries where
  fromNode : NodeId
  idx : Index
  term : Term
  prevIdx : Index
  prevTerm : Term
  leaderCommitIdx : Index
  termOfIdx : Term
  deriving DecidableEq, Repr

/-- `raft::AppendEntriesResponse`. -/
structure AppendEntriesResponse where
  fromNode : NodeId
  term : Term
  lastLogIdx : Index
  success : Bool
  deriving DecidableEq, Repr

/-- `raft::RequestVote`. -/
structure RequestVote where
  fromNode : NodeId
  term : Term
  lastLogIdx : Index
  lastLogTerm : Term
  deriving DecidableEq, Repr

/-- `raft::RequestVoteResponse`. -/
structure RequestVoteResponse where
  fromNode : NodeId
  term : Term
  voteGranted : Bool
  deriving DecidableEq, Repr

/-- A Raft message as it travels between nodes: the `RaftMsgType` tag selects the
header, and an `AppendEntries` carries the ledger entries the host attached. -/
inductive RaftMsg (E : Type) where
  | appendEntries (ae : AppendEntries) (entries : List E)
  | appendEntriesResponse (r : AppendEntriesResponse)
  | requestVote (r : RequestVote)
  | requestVoteResponse (r : RequestVoteResponse)
  deriving DecidableEq, Repr

/-- The sender a message names in its header. -/
def RaftMsg.fromNode {E : Type} : RaftMsg E → NodeId
  | .appendEntries ae _ => ae.fromNode
  | .appendEntriesResponse r => r.fromNode
  | .requestVote r => r.fromNode
  | .requestVoteResponse r => r.fromNode

/--
`raft::Store<kv::DeserialiseSuccess>`: what Raft needs from the KV store.

`deserialise` applies one replicated entry and reports the term of a signature
it verified through its out-parameter; `compact` and `rollback` move the store's
committed and current versions. All three may throw. `dataSize` is
`std::vector<uint8_t>::size` of an entry, which `replicate` sums for batching.
-/
class RaftStore (σ : Type) (E : outParam Type) where
  deserialise : E → Bool → EStateM String σ (DeserialiseSuccess × Term)
  compact : Index → EStateM String σ Unit
  rollback : Index → EStateM String σ Unit
  dataSize : E → Nat

/-- `raft::LoggingStubStore` (`consensus/raft/test/logging_stub.h`): the store the
Raft tests and `RaftDriver` run against. It accepts every entry. -/
structure LoggingStubStore where
  id : NodeId
  deriving DecidableEq, Repr

/-- Entries of the stub store are byte vectors. -/
instance : RaftStore LoggingStubStore (List UInt8) where
  deserialise _ _ := pure (DeserialiseSuccess.PASS, 0)
  compact _ := pure ()
  rollback _ := pure ()
  dataSize d := d.length

end Ccf.Raft
