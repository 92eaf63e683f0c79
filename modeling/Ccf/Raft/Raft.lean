import Ccf.Raft.TermHistory
import Mathlib.Data.List.Sort

/-!
# One Raft node (`consensus/raft/raft.h`)

`Raft<LedgerProxy, ChannelProxy>` is a single class whose methods mutate its
fields, call into the KV store, append to the ledger and hand messages to the
channel layer. Each method is an `EStateM String (Raft σ E)` computation over a
record with one field per member of the class:

* the store is the `store` field, driven through `RaftStore`;
* the ledger proxy is `LedgerEnclave`: what it writes is the host ledger, the
  list `ledger`, and reading an entry past the end of a message throws, as
  `serialized::read` does;
* the channel proxy records what it was asked to send in `sent`, the way
  `ChannelStubProxy` does; the host later attaches to an `AppendEntries` the
  ledger entries it names (`hostEntries`).

`restart_election_timeout` draws from a random engine; the value drawn is a
parameter `draw` of the methods that may reach it.

Exceptions keep the writes made before them, as in C++. The one branch that is
not modelled is `recv_append_entries`' "malformed data" recovery: both ledger
proxies of the repository return `true` from `record_entry` whenever they return,
so it is dead code ("NB: This will currently never be triggered").
-/

namespace Ccf.Raft

open Ccf.Kv

-- the class `raft::Raft` lives in namespace `raft`
set_option linter.dupNamespace false

/-- `Raft::State`. -/
inductive State where
  | Leader
  | Follower
  | Candidate
  deriving DecidableEq, Repr

/-- `Raft::NodeState`: what the leader knows of one follower. -/
structure NodeState where
  /-- The highest matching index with the node that was confirmed. -/
  matchIdx : Index
  /-- The highest index sent to the node. -/
  sentIdx : Index
  deriving DecidableEq, Repr

/-- `Raft::Configuration`: the index at which it takes effect and its members, an
`unordered_set` and hence without repetitions. -/
structure Configuration where
  idx : Index
  nodes : List NodeId
  nodup : nodes.Nodup

/-- The members of `Raft<…>`, in the order the class declares them. -/
structure Raft (σ E : Type) where
  store : σ
  currentTerm : Term
  localId : NodeId
  votedFor : Option NodeId
  lastIdx : Index
  commitIdx : Index
  termHistory : TermHistory
  leaderId : Option NodeId
  votesForMe : List NodeId
  state : State
  timeoutElapsed : Int
  requestTimeout : Int
  electionTimeout : Int
  configurations : List Configuration
  nodes : List (NodeId × NodeState)
  entrySizeNotLimited : Nat
  entryCount : Nat
  entriesBatchSize : Index
  batchWindowSum : Int
  committableIndices : List Index
  publicOnly : Bool
  recoveryMaxIndex : Option Index
  /-- What the ledger proxy has written to the host ledger. -/
  ledger : List E
  /-- What the channel proxy was asked to send, oldest first. -/
  sent : List (NodeId × RaftMsg E)

/-- `Raft::append_entries_size_limit`. -/
def appendEntriesSizeLimit : Nat := 20000

/-- `Raft::batch_window_size`. -/
def batchWindowSize : Int := 100

/-- `std::numeric_limits<Index>::max()`. -/
def indexMax : Index := 2 ^ 63 - 1

/-- Reading the length frame of an entry past the end of a message. -/
def insufficientSpace : String := "Insufficient space (read<T>: 0 < 4)"

/-- The value an `int` takes after `int += size_t`: the sum is formed modulo `2^64`
and converted back to a 32-bit signed integer. -/
def wrapInt32 (x : Int) : Int :=
  let m := x % 2 ^ 32
  if m ≥ 2 ^ 31 then m - 2 ^ 32 else m

/-- The entries `[from, to]` of a ledger, as `Ledger::read_framed_entries` returns them:
nothing when the range is empty or reaches past the end. -/
def hostEntries {E : Type} (ledger : List E) (fromIdx toIdx : Index) : List E :=
  if fromIdx = 0 ∨ toIdx < fromIdx ∨ toIdx > ledger.length then []
  else (ledger.drop (fromIdx - 1)).take (toIdx + 1 - fromIdx)

/-- The members of a configuration list, each once. -/
def activeNodes (confs : List Configuration) : List NodeId :=
  (confs.flatMap (·.nodes)).eraseDups

/-- `while (!configurations.empty() && configurations.back().idx > idx) pop_back()`. -/
def dropConfigurationsAfter (idx : Index) (confs : List Configuration) : List Configuration :=
  (confs.reverse.dropWhile (fun c => decide (c.idx > idx))).reverse

/-- The loop in `commit`: pop the front configuration while the next one is
already committed. -/
def dropCommittedConfigurations (idx : Index) : List Configuration → List Configuration
  | c₁ :: c₂ :: rest =>
      if idx < c₂.idx then c₁ :: c₂ :: rest
      else dropCommittedConfigurations idx (c₂ :: rest)
  | l => l

/-- Set one field of one node's entry in `nodes`. -/
def updateNode (nodes : List (NodeId × NodeState)) (id : NodeId) (f : NodeState → NodeState) :
    List (NodeId × NodeState) :=
  nodes.map fun p => if p.1 = id then (p.1, f p.2) else p

-- Made here once: the equation lemmas that the proofs below unfold.
section
attribute [local simp] appendEntriesSizeLimit batchWindowSize wrapInt32 activeNodes dropConfigurationsAfter dropCommittedConfigurations updateNode
end

variable {σ E : Type}

namespace Raft

/-- The constructor: a follower in term 0 with an empty log and no configuration. -/
def init (store : σ) (id : NodeId) (requestTimeout electionTimeout : Int) (publicOnly : Bool) :
    Raft σ E where
  store := store
  currentTerm := 0
  localId := id
  votedFor := none
  lastIdx := 0
  commitIdx := 0
  termHistory := ⟨[]⟩
  leaderId := none
  votesForMe := []
  state := .Follower
  timeoutElapsed := 0
  requestTimeout := requestTimeout
  electionTimeout := electionTimeout
  configurations := []
  nodes := []
  entrySizeNotLimited := 0
  entryCount := 0
  entriesBatchSize := 1
  batchWindowSum := 0
  committableIndices := []
  publicOnly := publicOnly
  recoveryMaxIndex := none
  ledger := []
  sent := []

/-- `get_term_internal`. -/
def getTermInternal (r : Raft σ E) (idx : Index) : Term :=
  if idx > r.lastIdx then 0 else r.termHistory.termAt idx

/-- Whether replication is suspended for index `i` (`recovery_max_index`). -/
def suspendedAt (r : Raft σ E) (i : Index) : Bool :=
  match r.recoveryMaxIndex with
  | some m => decide (i > m)
  | none => false

-- Made here once: the equation lemmas that the proofs below unfold.
section
attribute [local simp] init
end

end Raft

/-- A method of the class. -/
abbrev RaftM (σ E : Type) := EStateM String (Raft σ E)

section Methods

variable [RaftStore σ E]

/-- A call through `store->`: the store's own computation, run on the `store` field. -/
def liftStore {α : Type} (x : EStateM String σ α) : RaftM σ E α := fun r =>
  match x r.store with
  | .ok a s => .ok a { r with store := s }
  | .error e s => .error e { r with store := s }

/-- `channels->send_authenticated(consensus_msg, to, msg)`. -/
def send (dst : NodeId) (m : RaftMsg E) : RaftM σ E Unit :=
  modify fun r => { r with sent := r.sent ++ [(dst, m)] }

/-- `restart_election_timeout`: `timeout_elapsed = distrib(rand)`. -/
def restartElectionTimeout (draw : Int) : RaftM σ E Unit :=
  modify fun r => { r with timeoutElapsed := draw }

/-- `update_batch_size`, with the source's mix of `size_t` and `int` arithmetic. -/
def updateBatchSize : RaftM σ E Unit :=
  modify fun r =>
    let avgEntrySize :=
      if r.entryCount = 0 then appendEntriesSizeLimit else r.entrySizeNotLimited / r.entryCount
    let batchSize :=
      if avgEntrySize = 0 then appendEntriesSizeLimit / 2 else appendEntriesSizeLimit / avgEntrySize
    let batchAvg := r.batchWindowSum.tdiv batchWindowSize
    let sum := wrapInt32 (r.batchWindowSum + batchSize - batchAvg)
    { r with batchWindowSum := sum,
             entriesBatchSize := (max (sum.tdiv batchWindowSize) 1).toNat }

/-- `send_append_entries_range`. `nodes.at(to)` throws for an unknown node. -/
def sendAppendEntriesRange (dst : NodeId) (startIdx endIdx : Index) : RaftM σ E Unit := do
  let r ← get
  let prevIdx := startIdx - 1
  let ae : AppendEntries :=
    { fromNode := r.localId, idx := endIdx, term := r.currentTerm, prevIdx := prevIdx,
      prevTerm := r.getTermInternal prevIdx, leaderCommitIdx := r.commitIdx,
      termOfIdx := r.getTermInternal endIdx }
  match r.nodes.lookup dst with
  | none => throw "_Map_base::at"
  | some _ =>
      modify fun s => { s with nodes := updateNode s.nodes dst fun n => { n with sentIdx := endIdx } }
      send dst (.appendEntries ae (hostEntries r.ledger (prevIdx + 1) endIdx))

/-- The loop of `send_append_entries`: ranges ending at `i`, `i + batch`, … below
`last_idx`. Returns the `start_idx` the final range begins at. Each round raises
`i` by at least one, so `last_idx` rounds of fuel suffice. -/
def sendAppendEntriesLoop (dst : NodeId) (lastIdx batch : Index) :
    Nat → Index → Index → RaftM σ E Index
  | 0, startIdx, _ => pure startIdx
  | fuel + 1, startIdx, i =>
      if i < lastIdx then do
        sendAppendEntriesRange dst startIdx i
        sendAppendEntriesLoop dst lastIdx batch fuel (min (i + 1) lastIdx) (i + batch)
      else pure startIdx

/-- `send_append_entries`: split `[start_idx, last_idx]` into batches. -/
def sendAppendEntries (dst : NodeId) (startIdx : Index) : RaftM σ E Unit := do
  let r ← get
  let endIdx := if r.lastIdx = 0 then 0 else min (startIdx + r.entriesBatchSize) r.lastIdx
  let startIdx' ←
    sendAppendEntriesLoop dst r.lastIdx r.entriesBatchSize r.lastIdx startIdx endIdx
  if r.lastIdx = 0 ∨ endIdx ≤ r.lastIdx then sendAppendEntriesRange dst startIdx' r.lastIdx

/-- The loop of `create_and_remove_node_state` adding the members it does not know yet. -/
def addMissingNodes : List NodeId → RaftM σ E Unit
  | [] => pure ()
  | id :: ids => do
      let r ← get
      if id ≠ r.localId ∧ (r.nodes.lookup id).isNone then
        let index := r.lastIdx + 1
        modify fun s =>
          { s with nodes := s.nodes ++ [(id, ({ matchIdx := 0, sentIdx := index } : NodeState))] }
        if r.state = .Leader then sendAppendEntries id index
      addMissingNodes ids

/-- `create_and_remove_node_state`: keep exactly the members of the active
configurations (other than this node) in `nodes`. -/
def createAndRemoveNodeState : RaftM σ E Unit := do
  let r ← get
  let active := activeNodes r.configurations
  modify fun s => { s with nodes := s.nodes.filter fun p => decide (p.1 ∈ active) }
  addMissingNodes active

/-- `Raft::rollback`: roll the store back and forget what lay beyond `idx` in the
committable indices and configurations. Note what it does not touch: `last_idx`
and the ledger. -/
def rollback (idx : Index) : RaftM σ E Unit := do
  liftStore (RaftStore.rollback idx)
  let r ← get
  let confs := dropConfigurationsAfter idx r.configurations
  modify fun s => { s with
    committableIndices :=
      (s.committableIndices.reverse.dropWhile (fun i => decide (i > idx))).reverse,
    configurations := confs }
  if confs.length ≠ r.configurations.length then createAndRemoveNodeState

/-- `Raft::commit`. -/
def commit (idx : Index) : RaftM σ E Unit := do
  let r ← get
  if idx > r.lastIdx then
    throw ("Tried to commit " ++ toString idx ++ "but last_idx as " ++ toString r.lastIdx)
  else if idx ≤ r.commitIdx then pure ()
  else do
    modify fun s => { s with commitIdx := idx }
    liftStore (RaftStore.compact idx)
    let r ← get
    let confs := dropCommittedConfigurations idx r.configurations
    modify fun s => { s with configurations := confs }
    if confs.length ≠ r.configurations.length then createAndRemoveNodeState

/-- `commit_if_possible`: commit the highest committable index not above `idx`. -/
def commitIfPossible (idx : Index) : RaftM σ E Unit := do
  let r ← get
  if idx > r.commitIdx ∧ r.getTermInternal idx ≤ r.currentTerm then
    let popped := r.committableIndices.takeWhile fun i => decide (i ≤ idx)
    modify fun s =>
      { s with committableIndices := s.committableIndices.dropWhile fun i => decide (i ≤ idx) }
    match popped.getLast? with
    | some highest => commit highest
    | none => pure ()

/-- The index a configuration has confirmed: the element at position
`(size - 1) / 2` of the sorted match indices, the leader counting with `last_idx`. -/
def confirmedIdx (c : Configuration) : RaftM σ E Index := do
  let r ← get
  let matchIdxs ← c.nodes.mapM fun node =>
    if node = r.localId then pure r.lastIdx
    else match r.nodes.lookup node with
      | some ns => pure ns.matchIdx
      | none => throw "_Map_base::at"
  let sorted := matchIdxs.insertionSort (· ≤ ·)
  match sorted[(sorted.length - 1) / 2]? with
  | some v => pure v
  | none => throw "vector::_M_range_check"

/-- `update_commit`: the minimum over active configurations of what each confirmed. -/
def updateCommit : RaftM σ E Unit := do
  let r ← get
  let newCommitIdx ← r.configurations.foldlM
    (fun acc c => do
      let confirmed ← confirmedIdx c
      pure (if confirmed < acc then confirmed else acc))
    indexMax
  let r ← get
  if newCommitIdx > r.lastIdx then
    throw "Followers appear to have later match indices than leader"
  else commitIfPossible newCommitIdx

/-- `become_follower`. -/
def becomeFollower (draw : Int) (term : Term) : RaftM σ E Unit := do
  modify fun r => { r with state := .Follower, leaderId := none }
  restartElectionTimeout draw
  modify fun r => { r with currentTerm := term, votedFor := none, votesForMe := [] }
  let r ← get
  rollback r.commitIdx
  modify fun r => { r with committableIndices := [] }

/-- The loop of `become_leader` over the known nodes. -/
def resetNodes (next : Index) : List NodeId → RaftM σ E Unit
  | [] => pure ()
  | id :: ids => do
      modify fun r => { r with nodes := updateNode r.nodes id fun _ => ⟨0, next - 1⟩ }
      sendAppendEntries id next
      resetNodes next ids

/-- `become_leader`. -/
def becomeLeader : RaftM σ E Unit := do
  let r ← get
  if r.commitIdx ≠ 0 then rollback r.commitIdx
  modify fun r => { r with committableIndices := [], state := .Leader,
                           leaderId := some r.localId, timeoutElapsed := 0 }
  let r ← get
  if r.nodes.length = 0 then commit r.lastIdx
  else resetNodes (r.lastIdx + 1) (r.nodes.map (·.1))

/-- `add_vote_for_me`: a strict majority of the other nodes plus this one. -/
def addVoteForMe (fromNode : NodeId) : RaftM σ E Unit := do
  modify fun r => { r with votesForMe := r.votesForMe.insert fromNode }
  let r ← get
  if r.votesForMe.length ≥ (r.nodes.length + 1) / 2 + 1 then becomeLeader

/-- `send_request_vote`. -/
def sendRequestVote (dst : NodeId) : RaftM σ E Unit := do
  let r ← get
  send dst (.requestVote
    { fromNode := r.localId, term := r.currentTerm, lastLogIdx := r.lastIdx,
      lastLogTerm := r.getTermInternal r.lastIdx })

/-- `become_candidate`. -/
def becomeCandidate (draw : Int) : RaftM σ E Unit := do
  modify fun r => { r with state := .Candidate, leaderId := none, votedFor := some r.localId,
                           votesForMe := [], currentTerm := r.currentTerm + 1 }
  restartElectionTimeout draw
  let r ← get
  addVoteForMe r.localId
  let r ← get
  r.nodes.forM fun p => sendRequestVote p.1

/-- `send_append_entries_response`. -/
def sendAppendEntriesResponse (dst : NodeId) (answer : Bool) : RaftM σ E Unit := do
  let r ← get
  send dst (.appendEntriesResponse
    { fromNode := r.localId, term := r.currentTerm, lastLogIdx := r.lastIdx, success := answer })

/-- The loop of `recv_append_entries` over `i = prev_idx + 1 … idx`, with the part
of the message not read yet. Entries this node already has are skipped, not
compared. Returns `false` when the method returned from inside the loop. -/
def appendEntriesLoop (fromNode : NodeId) : Nat → Index → Bool → List E → RaftM σ E Bool
  | 0, _, _, _ => pure true
  | n + 1, i, isFirstEntry, data => do
      let r ← get
      if i ≤ r.lastIdx then
        -- `ledger->skip_entry`
        match data with
        | [] => throw insufficientSpace
        | _ :: rest => appendEntriesLoop fromNode n (i + 1) isFirstEntry rest
      else if r.suspendedAt i then
        -- replication suspended during recovery: abort, or keep what was applied
        sendAppendEntriesResponse fromNode (!isFirstEntry)
        pure false
      else do
        modify fun s => { s with lastIdx := i }
        -- `ledger->record_entry`
        match data with
        | [] => throw insufficientSpace
        | e :: rest => do
            modify fun r => { r with ledger := r.ledger ++ [e] }
            let (res, sigTerm) ← liftStore (RaftStore.deserialise e r.publicOnly)
            match res with
            | .FAILED => throw ("Follower failed to apply log entry " ++ toString i)
            | .PASS_SIGNATURE => do
                modify fun r => { r with
                  committableIndices := r.committableIndices ++ [i],
                  termHistory :=
                    if sigTerm ≠ 0 then r.termHistory.update (r.commitIdx + 1) sigTerm
                    else r.termHistory }
                appendEntriesLoop fromNode n (i + 1) false rest
            | .PASS => appendEntriesLoop fromNode n (i + 1) false rest

/-- `recv_append_entries` from the log-consistency check on: the previous entry must
carry the term the leader says. -/
def acceptAppendEntries (r : AppendEntries) (prevTerm : Term) (data : List E) :
    RaftM σ E Unit := do
  if prevTerm ≠ r.prevTerm then sendAppendEntriesResponse r.fromNode false
  else do
    let fellThrough ← appendEntriesLoop r.fromNode (r.idx - r.prevIdx) (r.prevIdx + 1) true data
    if fellThrough then
      modify fun s => { s with leaderId := some r.fromNode }
      sendAppendEntriesResponse r.fromNode true
      commitIfPossible r.leaderCommitIdx
      modify fun s => { s with termHistory := s.termHistory.update (s.commitIdx + 1) r.termOfIdx }

/-- `recv_append_entries`. -/
def recvAppendEntries (draw : Int) (r : AppendEntries) (data : List E) : RaftM σ E Unit := do
  let s ← get
  let prevTerm := s.getTermInternal r.prevIdx
  if r.prevIdx < s.commitIdx then pure ()
  else do
    restartElectionTimeout draw
    if s.currentTerm = r.term ∧ s.state = .Candidate then
      becomeFollower draw r.term
      acceptAppendEntries r prevTerm data
    else if s.currentTerm < r.term then
      becomeFollower draw r.term
      acceptAppendEntries r prevTerm data
    else if s.currentTerm > r.term then
      sendAppendEntriesResponse r.fromNode false
    else acceptAppendEntries r prevTerm data

/-- `recv_append_entries_response`. -/
def recvAppendEntriesResponse (draw : Int) (r : AppendEntriesResponse) : RaftM σ E Unit := do
  let s ← get
  if s.state ≠ .Leader then pure ()
  else match s.nodes.lookup r.fromNode with
    | none => pure ()
    | some node =>
        let update : RaftM σ E Unit := do
          let s ← get
          let matchIdx := min r.lastLogIdx s.lastIdx
          modify fun s =>
            { s with nodes := updateNode s.nodes r.fromNode fun n => { n with matchIdx := matchIdx } }
          if !r.success then sendAppendEntries r.fromNode (matchIdx + 1)
          else updateCommit
        if s.currentTerm < r.term then becomeFollower draw r.term
        else if s.currentTerm ≠ r.term then (if r.success then pure () else update)
        else if r.lastLogIdx < node.matchIdx then (if r.success then pure () else update)
        else update

/-- `send_request_vote_response`. -/
def sendRequestVoteResponse (dst : NodeId) (answer : Bool) : RaftM σ E Unit := do
  let r ← get
  send dst (.requestVoteResponse
    { fromNode := r.localId, term := r.currentTerm, voteGranted := answer })

/-- `recv_request_vote`. -/
def recvRequestVote (draw : Int) (r : RequestVote) : RaftM σ E Unit := do
  let s ← get
  if (s.nodes.lookup r.fromNode).isNone then pure ()
  else if s.currentTerm > r.term then sendRequestVoteResponse r.fromNode false
  else do
    if s.currentTerm < r.term then becomeFollower draw r.term
    let s ← get
    if s.votedFor ≠ none ∧ s.votedFor ≠ some r.fromNode then
      sendRequestVoteResponse r.fromNode false
    else do
      -- vote yes if the candidate's log is at least as up to date as ours
      let lastTerm := s.getTermInternal s.lastIdx
      let answer := decide (r.lastLogTerm > lastTerm ∨
        (r.lastLogTerm = lastTerm ∧ r.lastLogIdx ≥ s.lastIdx))
      if answer then
        restartElectionTimeout draw
        modify fun s => { s with leaderId := none, votedFor := some r.fromNode }
      sendRequestVoteResponse r.fromNode answer

/-- `recv_request_vote_response`. -/
def recvRequestVoteResponse (draw : Int) (r : RequestVoteResponse) : RaftM σ E Unit := do
  let s ← get
  if s.state ≠ .Candidate then pure ()
  else if (s.nodes.lookup r.fromNode).isNone then pure ()
  else if s.currentTerm < r.term then becomeFollower draw r.term
  else if s.currentTerm ≠ r.term then pure ()
  else if !r.voteGranted then pure ()
  else addVoteForMe r.fromNode

/-- The loop of `replicate` over the entries handed over by the store. -/
def replicateLoop : List (Index × E × Bool) → RaftM σ E Bool
  | [] => pure true
  | (index, data, globallyCommittable) :: rest => do
      let r ← get
      if index ≠ r.lastIdx + 1 then pure false
      else do
        modify fun s => { s with
          committableIndices :=
            if globallyCommittable then s.committableIndices ++ [index] else s.committableIndices,
          lastIdx := index,
          ledger := s.ledger ++ [data],
          termHistory := s.termHistory.update index s.currentTerm,
          entrySizeNotLimited := s.entrySizeNotLimited + @RaftStore.dataSize σ E _ data,
          entryCount := s.entryCount + 1 }
        let r ← get
        if r.entrySizeNotLimited ≥ appendEntriesSizeLimit then
          updateBatchSize
          modify fun r => { r with entryCount := 0, entrySizeNotLimited := 0 }
          let r ← get
          r.nodes.forM fun p => sendAppendEntries p.1 (p.2.sentIdx + 1)
        replicateLoop rest

/-- `replicate`. -/
def replicate (entries : List (Index × E × Bool)) : RaftM σ E Bool := do
  let r ← get
  if r.state ≠ .Leader then
    rollback r.lastIdx
    pure false
  else do
    let ok ← replicateLoop entries
    if !ok then pure false
    else do
      let r ← get
      -- the only node commits at once
      if r.nodes.length = 0 then updateCommit
      pure true

/-- `periodic`. -/
def periodic (draw : Int) (elapsed : Int) : RaftM σ E Unit := do
  modify fun r => { r with timeoutElapsed := r.timeoutElapsed + elapsed }
  let r ← get
  if r.state = .Leader then
    if r.timeoutElapsed ≥ r.requestTimeout then
      modify fun r => { r with timeoutElapsed := 0 }
      updateBatchSize
      let r ← get
      r.nodes.forM fun p => sendAppendEntries p.1 (p.2.sentIdx + 1)
  else if r.timeoutElapsed ≥ r.electionTimeout then becomeCandidate draw

/-- `recv_message`: dispatch on the message type. -/
def recvMessage (draw : Int) : RaftMsg E → RaftM σ E Unit
  | .appendEntries ae data => recvAppendEntries draw ae data
  | .appendEntriesResponse r => recvAppendEntriesResponse draw r
  | .requestVote r => recvRequestVote draw r
  | .requestVoteResponse r => recvRequestVoteResponse draw r

/-- `add_configuration`. -/
def addConfiguration (c : Configuration) : RaftM σ E Unit := do
  modify fun r => { r with configurations := r.configurations ++ [c] }
  createAndRemoveNodeState

-- Made here once: the equation lemmas that the proofs below unfold.
section
attribute [local simp] liftStore send restartElectionTimeout sendAppendEntriesRange sendAppendEntriesLoop sendAppendEntries addMissingNodes createAndRemoveNodeState rollback commit commitIfPossible confirmedIdx updateCommit becomeFollower addVoteForMe becomeCandidate appendEntriesLoop recvAppendEntries sendRequestVoteResponse recvRequestVoteResponse replicateLoop periodic addConfiguration
end

end Methods

end Ccf.Raft
