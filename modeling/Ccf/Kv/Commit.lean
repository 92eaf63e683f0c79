import Ccf.Kv.Store

/-!
# `Store::commit` (`kv/kv.h`)

`Tx::commit` reserves its version under the map locks, but hands the transaction to the
store's consensus after releasing them, with `Store::commit(version, pending_tx,
globally_committable)`: transactions reach it in any order. The store parks each in
`pending_txs` under its version. A call then takes, from `last_replicated + 1` on, every
version the map holds in a row: it runs each one's pending closure, hands its result to the
history (`add_result`), puts its data in one batch for `replicate`, and erases it.

The closure of an ordinary transaction returns the data `Tx::commit` serialised; the closure
of a signature (`emit_signature`) signs the history's root as it is when the closure runs. A
closure is given the history's leaves here, of which the root is taken to be a function.

Of `HashedTxHistory` (`node/history.h`) this keeps the leaves of its Merkle tree after the
initial one, and the results it records: with PBFT, `add_result` keeps the version and the
root for the request and passes them to `on_result`. The store's `last_replicated` and
`rollback_count` are fields of `Store`; the rest of what `Store::commit` uses is `Replication`.
The consensus is kept as the entries it has accepted, and its answer to `replicate` is a
parameter. Calls are taken one at a time, so the check that `last_replicated` and
`rollback_count` did not move while the lock was released always passes.
-/

namespace Ccf.Kv

variable {K V C R D : Type}

/-- `PendingTx`: run when its transaction's turn comes, it gives the commit's outcome, the
request it answers and the serialised transaction. It may read the history's leaves. -/
def PendingTx (R D : Type) := List D → CommitSuccess × R × D

/-- The closure `Tx::commit` passes: its request and the data it serialised. -/
def PendingTx.ofData (reqid : R) (data : D) : PendingTx R D := fun _ => (.OK, reqid, data)

/-- `HashedTxHistory`, as `Store::commit` uses it. -/
structure History (R D : Type) where
  leaves : List D
  /-- What each `add_result` recorded: request, version and the root after the append. -/
  results : List (R × Version × List D)

namespace History

/-- `add_result(id, version, data)`: append the data to the tree, then record the version
and the root for the request. -/
def addResult (h : History R D) (id : R) (version : Version) (data : D) : History R D :=
  { leaves := h.leaves ++ [data], results := h.results ++ [(id, version, h.leaves ++ [data])] }

/-- Run a pending closure over the history, if there is one, and hand its result to
`add_result` at `version`: the data, and the history after. -/
def runPending (h : Option (History R D)) (version : Version) (p : PendingTx R D) :
    D × Option (History R D) :=
  let (_, reqid, data) := p ((h.map (·.leaves)).getD [])
  (data, h.map (·.addResult reqid version data))

-- Made here once: the equation lemmas that the proofs below unfold.
section
attribute [local simp] addResult runPending
end

end History

/-- What `Store::commit` uses of the store besides `last_replicated` and `rollback_count`. -/
structure Replication (R D : Type) where
  lastCommittable : Version
  pendingTxs : AList fun _ : Version => PendingTx R D × Bool
  history : Option (History R D)
  /-- The entries the consensus accepted from `replicate`, in order; `none` when the store
  has no consensus. -/
  replicated : Option (List (Version × D × Bool))

/-- The loop of `Store::commit` under the version lock, at `last_replicated + offset`: while
`pending_txs` holds that version, run its closure, record the result at the caller's
`version`, batch the data, erase the entry and go on at the next offset. Each round erases an
entry, so there are at most as many rounds as entries: that is the fuel. -/
def batchPending (version lastReplicated : Version) :
    Nat → Version → Replication R D → List (Version × D × Bool) × Replication R D
  | 0, _, r => ([], r)
  | fuel + 1, offset, r =>
      match r.pendingTxs.lookup (lastReplicated + offset) with
      | none => ([], r)
      | some (pendingTx, committable) =>
          let (data, history) := History.runPending r.history version pendingTx
          let r := { r with
            history := history
            pendingTxs := r.pendingTxs.erase (lastReplicated + offset) }
          let rest := batchPending version lastReplicated fuel (offset + 1) r
          ((lastReplicated + offset, data, committable) :: rest.1, rest.2)

/-- The start of `Store::commit` under the version lock: a globally committable transaction
raises `last_committable`, and the transaction is parked under its version (`insert` leaves
an entry already there). -/
def Replication.park (r : Replication R D) (version : Version) (pendingTx : PendingTx R D)
    (globallyCommittable : Bool) : Replication R D :=
  let r := if globallyCommittable && version > r.lastCommittable
    then { r with lastCommittable := version } else r
  { r with
    pendingTxs := if (r.pendingTxs.lookup version).isSome then r.pendingTxs
      else r.pendingTxs.insert version (pendingTx, globallyCommittable) }

-- Made here once: the equation lemmas that the proofs below unfold.
section
attribute [local simp] batchPending Replication.park
end

namespace Replication

variable (r : Replication R D) (version : Version) (pendingTx : PendingTx R D) (c : Bool)

@[simp] theorem park_history : (r.park version pendingTx c).history = r.history := by
  unfold park; split <;> rfl

@[simp] theorem park_replicated : (r.park version pendingTx c).replicated = r.replicated := by
  unfold park; split <;> rfl

@[simp] theorem park_pendingTxs : (r.park version pendingTx c).pendingTxs =
    if (r.pendingTxs.lookup version).isSome then r.pendingTxs
    else r.pendingTxs.insert version (pendingTx, c) := by
  unfold park; split <;> rfl

end Replication

/-- `Store::commit`. Without a consensus it is `OK` at once. Otherwise the transaction is
parked, every version in a row from `last_replicated + 1` is batched, and a batch the
consensus accepts moves `last_replicated` past it. -/
def Store.commit (s : Store K V C) (r : Replication R D)
    (replicate : List (Version × D × Bool) → Bool) (version : Version)
    (pendingTx : PendingTx R D) (globallyCommittable : Bool) :
    CommitSuccess × Store K V C × Replication R D :=
  match r.replicated with
  | none => (.OK, s, r)
  | some log =>
      let r := r.park version pendingTx globallyCommittable
      let (batch, r) := batchPending version s.lastReplicated r.pendingTxs.entries.length 1 r
      if batch.isEmpty then (.OK, s, r)
      else if replicate batch then
        (.OK, { s with lastReplicated := s.lastReplicated + batch.length },
          { r with replicated := some (log ++ batch) })
      else (.NO_REPLICATE, s, r)

-- Made here once: the equation lemmas that the proofs below unfold.
section
attribute [local simp] Store.commit
end

/-- With a consensus, what `Store::commit` answers and leaves follows from the batch the loop
builds over the parked transactions. -/
theorem Store.commit_of_batch {s : Store K V C} {r : Replication R D}
    {replicate : List (Version × D × Bool) → Bool} {version : Version} {p : PendingTx R D}
    {c : Bool} {log batch : List (Version × D × Bool)} {r' : Replication R D}
    (hr : r.replicated = some log)
    (hb : batchPending version s.lastReplicated (r.park version p c).pendingTxs.entries.length 1
      (r.park version p c) = (batch, r')) :
    s.commit r replicate version p c =
      if batch.isEmpty then (.OK, s, r')
      else if replicate batch then
        (.OK, { s with lastReplicated := s.lastReplicated + batch.length },
          { r' with replicated := some (log ++ batch) })
      else (.NO_REPLICATE, s, r') := by
  simp only [Store.commit, hr, hb]

/-- Calls of `Store::commit` one after another, each with its version, closure and
`globally_committable`, against a consensus that answers `replicate` by `replicate`. -/
def Store.commitAll (replicate : List (Version × D × Bool) → Bool) :
    List (Version × PendingTx R D × Bool) → Store K V C → Replication R D →
      Store K V C × Replication R D
  | [], s, r => (s, r)
  | (version, p, committable) :: calls, s, r =>
      let (_, s, r) := s.commit r replicate version p committable
      Store.commitAll replicate calls s r

-- Made here once: the equation lemmas that the proofs below unfold.
section
attribute [local simp] Store.commitAll
end

end Ccf.Kv
