import Ccf.Raft.Cluster

/-!
# The batch size stays in range

`update_batch_size` keeps a moving sum `batch_window_sum` of the batch sizes it
computes, over a window of `batch_window_size = 100` updates: each update takes away a
hundredth of the sum and adds the new `batch_size`, which is at most
`append_entries_size_limit`. The sum is an `int` updated through `size_t`, so it is the
exact value only while that value fits in 31 bits (`wrapInt32`).

`BatchOk` bounds the sum by `100 * (append_entries_size_limit + 1)` and
`entries_batch_size` by `append_entries_size_limit`. From within those bounds one update
forms an exact sum and stays within them (`BatchOk.updateBatchSize_exact`); every other
method leaves both fields alone. Each method gets one `Rel (Keep BatchOk)` lemma, as in
`Frame`, and so does every schedule of calls into a cluster (`batch_size_in_range`).
-/

namespace Ccf.Raft

open EStateM

variable {σ E : Type}

/-- The bounds of the batching state. -/
def BatchOk (r : Raft σ E) : Prop :=
  0 ≤ r.batchWindowSum ∧ r.batchWindowSum ≤ batchWindowSize * (appendEntriesSizeLimit + 1 : Nat) ∧
    1 ≤ r.entriesBatchSize ∧ r.entriesBatchSize ≤ appendEntriesSizeLimit

-- Made here once: the equation lemmas that the proofs below unfold.
section
attribute [local simp] BatchOk
end

/-- A change that leaves both batching fields alone keeps their bounds. -/
theorem keepsBatch_of_eq {s s' : Raft σ E} (hsum : s'.batchWindowSum = s.batchWindowSum)
    (hsize : s'.entriesBatchSize = s.entriesBatchSize) : Keep BatchOk s s' := by
  intro h
  unfold BatchOk
  rw [hsum, hsize]
  exact h

/-- `batch_size` in `update_batch_size`: `append_entries_size_limit` over the average
size of the entries since the last update. -/
def batchSizeOf (r : Raft σ E) : Nat :=
  let avgEntrySize :=
    if r.entryCount = 0 then appendEntriesSizeLimit else r.entrySizeNotLimited / r.entryCount
  if avgEntrySize = 0 then appendEntriesSizeLimit / 2 else appendEntriesSizeLimit / avgEntrySize

/-- The sum `update_batch_size` forms before it narrows it to an `int`. -/
def nextBatchWindowSum (r : Raft σ E) : Int :=
  r.batchWindowSum + batchSizeOf r - r.batchWindowSum.tdiv batchWindowSize

-- Made here once: the equation lemmas that the proofs below unfold.
section
attribute [local simp] nextBatchWindowSum
end

theorem updateBatchSize_apply (r : Raft σ E) :
    updateBatchSize r = .ok () { r with
      batchWindowSum := wrapInt32 (nextBatchWindowSum r),
      entriesBatchSize := (max ((wrapInt32 (nextBatchWindowSum r)).tdiv batchWindowSize) 1).toNat } :=
  rfl

theorem batchSizeOf_le (r : Raft σ E) : batchSizeOf r ≤ appendEntriesSizeLimit := by
  -- whatever the average entry size, the quotient is at most the limit
  have key : ∀ avg : Nat, (if avg = 0 then appendEntriesSizeLimit / 2
      else appendEntriesSizeLimit / avg) ≤ appendEntriesSizeLimit := by
    intro avg
    split
    · decide
    · exact Nat.div_le_self _ _
  exact key _

theorem wrapInt32_of_lt {x : Int} (h0 : 0 ≤ x) (h : x < 2 ^ 31) : wrapInt32 x = x := by
  unfold wrapInt32
  dsimp only
  rw [Int.emod_eq_of_lt h0 (by omega), if_neg (by omega)]

/-- From within the bounds the sum stays below `2^31`: the window loses a hundredth of
itself and gains at most `append_entries_size_limit`. -/
theorem BatchOk.nextBatchWindowSum_mem {r : Raft σ E} (h : BatchOk r) :
    0 ≤ nextBatchWindowSum r ∧ nextBatchWindowSum r < batchWindowSize * appendEntriesSizeLimit + batchWindowSize := by
  obtain ⟨h0, h1, -, -⟩ := h
  have hb := batchSizeOf_le r
  unfold Ccf.Raft.nextBatchWindowSum
  rw [Int.tdiv_eq_ediv_of_nonneg h0]
  simp only [batchWindowSize, appendEntriesSizeLimit] at *
  omega

/-- `update_batch_size` from within the bounds stores the exact sum and stays within
them. -/
theorem BatchOk.updateBatchSize_exact {r : Raft σ E} (h : BatchOk r) :
    wrapInt32 (nextBatchWindowSum r) = nextBatchWindowSum r ∧
      BatchOk (updateBatchSize r).state := by
  obtain ⟨h0, h1⟩ := h.nextBatchWindowSum_mem
  simp only [batchWindowSize, appendEntriesSizeLimit] at h1
  have hwrap : wrapInt32 (nextBatchWindowSum r) = nextBatchWindowSum r :=
    wrapInt32_of_lt h0 (by omega)
  refine ⟨hwrap, ?_⟩
  rw [updateBatchSize_apply, Result.state_ok]
  unfold BatchOk
  dsimp only
  rw [hwrap, Int.tdiv_eq_ediv_of_nonneg h0]
  by_cases hm : nextBatchWindowSum r / batchWindowSize ≤ 1
  · rw [max_eq_right hm]
    simp only [batchWindowSize, appendEntriesSizeLimit]
    exact ⟨by omega, by omega, by decide, by decide⟩
  · rw [max_eq_left (not_le.mp hm).le]
    simp only [batchWindowSize, appendEntriesSizeLimit] at hm ⊢
    -- the batch size is an `Index`, which `omega` reads as a `Nat` once it is shown one
    refine ⟨by omega, by omega, ?_, ?_⟩
    all_goals
      show (_ : Nat) ≤ _
      omega

/-! ## Every method keeps the bounds -/

section Keeps

theorem liftStore_keepsBatch {α : Type} (x : EStateM String σ α) :
    Rel (Keep BatchOk) (liftStore (E := E) x) := by
  intro s
  unfold wp liftStore
  cases x s.store <;> exact keepsBatch_of_eq rfl rfl

theorem send_keepsBatch (dst : NodeId) (m : RaftMsg E) :
    Rel (Keep BatchOk) (send (σ := σ) dst m) :=
  Rel.modify fun _ => keepsBatch_of_eq rfl rfl

theorem restartElectionTimeout_keepsBatch (draw : Int) :
    Rel (Keep BatchOk) (restartElectionTimeout (σ := σ) (E := E) draw) :=
  Rel.modify fun _ => keepsBatch_of_eq rfl rfl

theorem updateBatchSize_keepsBatch : Rel (Keep BatchOk) (updateBatchSize (σ := σ) (E := E)) :=
  fun _ h => h.updateBatchSize_exact.2

theorem sendAppendEntriesRange_keepsBatch (dst : NodeId) (startIdx endIdx : Index) :
    Rel (Keep BatchOk) (sendAppendEntriesRange (σ := σ) (E := E) dst startIdx endIdx) := by
  apply Rel.get_bind
  intro t
  split
  · exact Rel.throw Keep.refl _
  · exact Rel.bind Keep.trans (Rel.modify fun _ => keepsBatch_of_eq rfl rfl)
      fun _ => send_keepsBatch _ _

theorem sendAppendEntriesLoop_keepsBatch (dst : NodeId) (lastIdx batch : Index) (fuel : Nat)
    (startIdx i : Index) :
    Rel (Keep BatchOk)
      (sendAppendEntriesLoop (σ := σ) (E := E) dst lastIdx batch fuel startIdx i) := by
  induction fuel generalizing startIdx i with
  | zero => exact Rel.pure Keep.refl _
  | succ n ih =>
      unfold sendAppendEntriesLoop
      exact Rel.ite (Rel.bind Keep.trans (sendAppendEntriesRange_keepsBatch _ _ _) fun _ => ih _ _)
        (Rel.pure Keep.refl _)

theorem sendAppendEntries_keepsBatch (dst : NodeId) (startIdx : Index) :
    Rel (Keep BatchOk) (sendAppendEntries (σ := σ) (E := E) dst startIdx) := by
  apply Rel.get_bind
  intro t
  exact Rel.bind Keep.trans (sendAppendEntriesLoop_keepsBatch _ _ _ _ _ _)
    (fun _ => Rel.ite (sendAppendEntriesRange_keepsBatch _ _ _) (Rel.pure Keep.refl _))

theorem addMissingNodes_keepsBatch (ids : List NodeId) :
    Rel (Keep BatchOk) (addMissingNodes (σ := σ) (E := E) ids) := by
  induction ids with
  | nil => exact Rel.pure Keep.refl _
  | cons id ids ih =>
      apply Rel.get_bind
      intro t
      refine Rel.ite (Rel.bind Keep.trans (Rel.modify fun _ => keepsBatch_of_eq rfl rfl)
        fun _ => Rel.ite (Rel.bind Keep.trans (sendAppendEntries_keepsBatch _ _) fun _ => ih)
          ih) ih

theorem createAndRemoveNodeState_keepsBatch :
    Rel (Keep BatchOk) (createAndRemoveNodeState (σ := σ) (E := E)) :=
  Rel.get_bind fun _ => Rel.bind Keep.trans (Rel.modify fun _ => keepsBatch_of_eq rfl rfl)
    fun _ => addMissingNodes_keepsBatch _

theorem addConfiguration_keepsBatch (c : Configuration) :
    Rel (Keep BatchOk) (addConfiguration (σ := σ) (E := E) c) :=
  Rel.bind Keep.trans (Rel.modify fun _ => keepsBatch_of_eq rfl rfl) fun _ =>
    createAndRemoveNodeState_keepsBatch

theorem confirmedIdx_keepsBatch (c : Configuration) :
    Rel (Keep BatchOk) (confirmedIdx (σ := σ) (E := E) c) := by
  apply Rel.get_bind
  intro t
  refine Rel.bind Keep.trans (Rel.mapM Keep.refl Keep.trans fun node => ?_) fun _ => ?_
  · split
    · exact Rel.pure Keep.refl _
    · split
      · exact Rel.pure Keep.refl _
      · exact Rel.throw Keep.refl _
  · dsimp only
    split
    · exact Rel.pure Keep.refl _
    · exact Rel.throw Keep.refl _

theorem sendAppendEntriesResponse_keepsBatch (dst : NodeId) (answer : Bool) :
    Rel (Keep BatchOk) (sendAppendEntriesResponse (σ := σ) (E := E) dst answer) :=
  Rel.get_bind fun _ => send_keepsBatch _ _

theorem sendRequestVote_keepsBatch (dst : NodeId) :
    Rel (Keep BatchOk) (sendRequestVote (σ := σ) (E := E) dst) :=
  Rel.get_bind fun _ => send_keepsBatch _ _

theorem sendRequestVoteResponse_keepsBatch (dst : NodeId) (answer : Bool) :
    Rel (Keep BatchOk) (sendRequestVoteResponse (σ := σ) (E := E) dst answer) :=
  Rel.get_bind fun _ => send_keepsBatch _ _

theorem resetNodes_keepsBatch (next : Index) (ids : List NodeId) :
    Rel (Keep BatchOk) (resetNodes (σ := σ) (E := E) next ids) := by
  induction ids with
  | nil => exact Rel.pure Keep.refl _
  | cons id ids ih =>
      exact Rel.bind Keep.trans (Rel.modify fun _ => keepsBatch_of_eq rfl rfl)
        fun _ => Rel.bind Keep.trans (sendAppendEntries_keepsBatch _ _) fun _ => ih

variable [RaftStore σ E]

theorem rollback_keepsBatch (idx : Index) : Rel (Keep BatchOk) (rollback (σ := σ) (E := E) idx) :=
  Rel.bind Keep.trans (liftStore_keepsBatch _) fun _ => Rel.get_bind fun _ =>
    Rel.bind Keep.trans (Rel.modify fun _ => keepsBatch_of_eq rfl rfl) fun _ =>
      Rel.ite createAndRemoveNodeState_keepsBatch (Rel.pure Keep.refl _)

theorem commit_keepsBatch (idx : Index) : Rel (Keep BatchOk) (commit (σ := σ) (E := E) idx) :=
  Rel.get_bind fun _ => Rel.ite (Rel.throw Keep.refl _) <| Rel.ite (Rel.pure Keep.refl _) <|
    Rel.bind Keep.trans (Rel.modify fun _ => keepsBatch_of_eq rfl rfl) fun _ =>
      Rel.bind Keep.trans (liftStore_keepsBatch _) fun _ => Rel.get_bind fun _ =>
        Rel.bind Keep.trans (Rel.modify fun _ => keepsBatch_of_eq rfl rfl) fun _ =>
          Rel.ite createAndRemoveNodeState_keepsBatch (Rel.pure Keep.refl _)

theorem commitIfPossible_keepsBatch (idx : Index) :
    Rel (Keep BatchOk) (commitIfPossible (σ := σ) (E := E) idx) := by
  apply Rel.get_bind
  intro t
  refine Rel.ite (Rel.bind Keep.trans (Rel.modify fun _ => keepsBatch_of_eq rfl rfl)
    fun _ => ?_) (Rel.pure Keep.refl _)
  split
  · exact commit_keepsBatch _
  · exact Rel.pure Keep.refl _

theorem updateCommit_keepsBatch : Rel (Keep BatchOk) (updateCommit (σ := σ) (E := E)) := by
  apply Rel.get_bind
  intro t
  refine Rel.bind Keep.trans
    (Rel.foldlM Keep.refl Keep.trans
      (fun _ c => Rel.bind Keep.trans (confirmedIdx_keepsBatch c) fun _ => Rel.pure Keep.refl _) _)
    fun _ => Rel.get_bind fun _ => ?_
  exact Rel.ite (Rel.throw Keep.refl _) (commitIfPossible_keepsBatch _)

theorem becomeFollower_keepsBatch (draw : Int) (term : Term) :
    Rel (Keep BatchOk) (becomeFollower (σ := σ) (E := E) draw term) :=
  Rel.bind Keep.trans (Rel.modify fun _ => keepsBatch_of_eq rfl rfl) fun _ =>
    Rel.bind Keep.trans (restartElectionTimeout_keepsBatch _) fun _ =>
      Rel.bind Keep.trans (Rel.modify fun _ => keepsBatch_of_eq rfl rfl) fun _ =>
        Rel.get_bind fun _ => Rel.bind Keep.trans (rollback_keepsBatch _) fun _ =>
          Rel.modify fun _ => keepsBatch_of_eq rfl rfl

theorem becomeLeader_keepsBatch : Rel (Keep BatchOk) (becomeLeader (σ := σ) (E := E)) := by
  apply Rel.get_bind
  intro t
  -- whether or not it rolls back first, it goes on the same way
  extract_lets rest
  have hrest : ∀ u, Rel (Keep BatchOk) (rest u) := fun _ =>
    Rel.bind Keep.trans (Rel.modify fun _ => keepsBatch_of_eq rfl rfl) fun _ =>
      Rel.get_bind fun _ => Rel.ite (commit_keepsBatch _) (resetNodes_keepsBatch _ _)
  exact Rel.ite (Rel.bind Keep.trans (rollback_keepsBatch _) hrest) (hrest ())

theorem addVoteForMe_keepsBatch (fromNode : NodeId) :
    Rel (Keep BatchOk) (addVoteForMe (σ := σ) (E := E) fromNode) :=
  Rel.bind Keep.trans (Rel.modify fun _ => keepsBatch_of_eq rfl rfl) fun _ =>
    Rel.get_bind fun _ => Rel.ite becomeLeader_keepsBatch (Rel.pure Keep.refl _)

theorem becomeCandidate_keepsBatch (draw : Int) :
    Rel (Keep BatchOk) (becomeCandidate (σ := σ) (E := E) draw) :=
  Rel.bind Keep.trans (Rel.modify fun _ => keepsBatch_of_eq rfl rfl) fun _ =>
    Rel.bind Keep.trans (restartElectionTimeout_keepsBatch _) fun _ =>
      Rel.get_bind fun _ => Rel.bind Keep.trans (addVoteForMe_keepsBatch _) fun _ =>
        Rel.get_bind fun _ =>
          Rel.forM Keep.refl Keep.trans fun p _ => sendRequestVote_keepsBatch p.1

theorem appendEntriesLoop_keepsBatch (fromNode : NodeId) (n : Nat) (i : Index)
    (isFirstEntry : Bool) (data : List E) :
    Rel (Keep BatchOk) (appendEntriesLoop (σ := σ) fromNode n i isFirstEntry data) := by
  induction n generalizing i isFirstEntry data with
  | zero => exact Rel.pure Keep.refl _
  | succ n ih =>
      apply Rel.get_bind
      intro t
      refine Rel.ite ?skip (Rel.ite ?suspended ?record)
      case skip =>
        cases data with
        | nil => exact Rel.throw Keep.refl _
        | cons _ rest => exact ih _ _ _
      case suspended =>
        exact Rel.bind Keep.trans (sendAppendEntriesResponse_keepsBatch _ _) fun _ =>
          Rel.pure Keep.refl _
      case record =>
        refine Rel.bind Keep.trans (Rel.modify fun _ => keepsBatch_of_eq rfl rfl) fun _ => ?_
        cases data with
        | nil => exact Rel.throw Keep.refl _
        | cons e rest =>
            refine Rel.bind Keep.trans (Rel.modify fun _ => keepsBatch_of_eq rfl rfl)
              fun _ => Rel.bind Keep.trans (liftStore_keepsBatch _) fun p => ?_
            obtain ⟨res, sigTerm⟩ := p
            cases res with
            | FAILED => exact Rel.throw Keep.refl _
            | PASS => exact ih _ _ _
            | PASS_SIGNATURE =>
                exact Rel.bind Keep.trans (Rel.modify fun _ => keepsBatch_of_eq rfl rfl)
                  fun _ => ih _ _ _

theorem acceptAppendEntries_keepsBatch (r : AppendEntries) (prevTerm : Term) (data : List E) :
    Rel (Keep BatchOk) (acceptAppendEntries (σ := σ) r prevTerm data) :=
  Rel.ite (sendAppendEntriesResponse_keepsBatch _ _) <|
    Rel.bind Keep.trans (appendEntriesLoop_keepsBatch _ _ _ _ _) fun _ =>
      Rel.ite (Rel.bind Keep.trans (Rel.modify fun _ => keepsBatch_of_eq rfl rfl) fun _ =>
        Rel.bind Keep.trans (sendAppendEntriesResponse_keepsBatch _ _) fun _ =>
          Rel.bind Keep.trans (commitIfPossible_keepsBatch _) fun _ =>
            Rel.modify fun _ => keepsBatch_of_eq rfl rfl) (Rel.pure Keep.refl _)

theorem recvAppendEntries_keepsBatch (draw : Int) (r : AppendEntries) (data : List E) :
    Rel (Keep BatchOk) (recvAppendEntries (σ := σ) draw r data) := by
  apply Rel.get_bind
  intro t
  -- stepping down first or not, the rest is a response or an acceptance
  have hstep : Rel (Keep BatchOk) (becomeFollower (σ := σ) (E := E) draw r.term >>= fun _ =>
      acceptAppendEntries r (t.getTermInternal r.prevIdx) data) :=
    Rel.bind Keep.trans (becomeFollower_keepsBatch _ _) fun _ => acceptAppendEntries_keepsBatch _ _ _
  exact Rel.ite (Rel.pure Keep.refl _) <|
    Rel.bind Keep.trans (restartElectionTimeout_keepsBatch _) fun _ =>
      Rel.ite hstep <| Rel.ite hstep <|
        Rel.ite (sendAppendEntriesResponse_keepsBatch _ _) (acceptAppendEntries_keepsBatch _ _ _)

theorem recvAppendEntriesResponse_keepsBatch (draw : Int) (r : AppendEntriesResponse) :
    Rel (Keep BatchOk) (recvAppendEntriesResponse (σ := σ) (E := E) draw r) := by
  apply Rel.get_bind
  intro t
  refine Rel.ite (Rel.pure Keep.refl _) ?_
  split
  · exact Rel.pure Keep.refl _
  · -- the fall-through: record the match index, then resend or try to commit
    extract_lets update
    have hu : Rel (Keep BatchOk) update :=
      Rel.get_bind fun _ => Rel.bind Keep.trans (Rel.modify fun _ => keepsBatch_of_eq rfl rfl)
        fun _ => Rel.ite (sendAppendEntries_keepsBatch _ _) updateCommit_keepsBatch
    exact Rel.ite (becomeFollower_keepsBatch _ _) <|
      Rel.ite (Rel.ite (Rel.pure Keep.refl _) hu) <|
        Rel.ite (Rel.ite (Rel.pure Keep.refl _) hu) hu

theorem recvRequestVote_keepsBatch (draw : Int) (r : RequestVote) :
    Rel (Keep BatchOk) (recvRequestVote (σ := σ) (E := E) draw r) := by
  apply Rel.get_bind
  intro t
  refine Rel.ite (Rel.pure Keep.refl _) (Rel.ite (sendRequestVoteResponse_keepsBatch _ _) ?_)
  extract_lets rest
  have hrest : ∀ u, Rel (Keep BatchOk) (rest u) := by
    intro u
    apply Rel.get_bind
    intro s
    refine Rel.ite (sendRequestVoteResponse_keepsBatch _ _) ?_
    dsimp only
    -- the answer is sent whether or not the vote is granted
    exact Rel.ite (Rel.bind Keep.trans (restartElectionTimeout_keepsBatch _) fun _ =>
        Rel.bind Keep.trans (Rel.modify fun _ => keepsBatch_of_eq rfl rfl) fun _ =>
          sendRequestVoteResponse_keepsBatch _ _)
      (sendRequestVoteResponse_keepsBatch _ _)
  exact Rel.ite (Rel.bind Keep.trans (becomeFollower_keepsBatch _ _) hrest) (hrest ())

theorem recvRequestVoteResponse_keepsBatch (draw : Int) (r : RequestVoteResponse) :
    Rel (Keep BatchOk) (recvRequestVoteResponse (σ := σ) (E := E) draw r) :=
  Rel.get_bind fun _ => Rel.ite (Rel.pure Keep.refl _) <| Rel.ite (Rel.pure Keep.refl _) <|
    Rel.ite (becomeFollower_keepsBatch _ _) <| Rel.ite (Rel.pure Keep.refl _) <|
      Rel.ite (Rel.pure Keep.refl _) (addVoteForMe_keepsBatch _)

/-- The batching fields change only in `update_batch_size`, and from within the bounds
it stays within them. -/
theorem replicateLoop_keepsBatch (entries : List (Index × E × Bool)) :
    Rel (Keep BatchOk) (replicateLoop (σ := σ) entries) := by
  induction entries with
  | nil => exact Rel.pure Keep.refl _
  | cons entry rest ih =>
      obtain ⟨index, data, globallyCommittable⟩ := entry
      apply Rel.get_bind
      intro t
      refine Rel.ite (Rel.pure Keep.refl _)
        (Rel.bind Keep.trans (Rel.modify fun _ => keepsBatch_of_eq rfl rfl)
          fun _ => Rel.get_bind fun _ => ?_)
      dsimp only
      refine Rel.ite ?_ ih
      exact Rel.bind Keep.trans updateBatchSize_keepsBatch fun _ =>
        Rel.bind Keep.trans (Rel.modify fun _ => keepsBatch_of_eq rfl rfl) fun _ =>
          Rel.get_bind fun _ =>
            Rel.bind Keep.trans
              (Rel.forM Keep.refl Keep.trans fun p _ => sendAppendEntries_keepsBatch p.1 _)
              fun _ => ih

theorem replicate_keepsBatch (entries : List (Index × E × Bool)) :
    Rel (Keep BatchOk) (replicate (σ := σ) entries) := by
  apply Rel.get_bind
  intro t
  refine Rel.ite (Rel.bind Keep.trans (rollback_keepsBatch _) fun _ => Rel.pure Keep.refl _)
    (Rel.bind Keep.trans (replicateLoop_keepsBatch _) fun _ => ?_)
  refine Rel.ite (Rel.pure Keep.refl _) (Rel.get_bind fun _ => ?_)
  dsimp only
  exact Rel.ite (Rel.bind Keep.trans updateCommit_keepsBatch fun _ => Rel.pure Keep.refl _)
    (Rel.pure Keep.refl _)

theorem periodic_keepsBatch (draw elapsed : Int) :
    Rel (Keep BatchOk) (periodic (σ := σ) (E := E) draw elapsed) :=
  Rel.bind Keep.trans (Rel.modify fun _ => keepsBatch_of_eq rfl rfl) fun _ =>
    Rel.get_bind fun _ => Rel.ite
      (Rel.ite (Rel.bind Keep.trans (Rel.modify fun _ => keepsBatch_of_eq rfl rfl) fun _ =>
        Rel.bind Keep.trans updateBatchSize_keepsBatch fun _ => Rel.get_bind fun _ =>
          Rel.forM Keep.refl Keep.trans fun p _ => sendAppendEntries_keepsBatch p.1 _)
        (Rel.pure Keep.refl _))
      (Rel.ite (becomeCandidate_keepsBatch _) (Rel.pure Keep.refl _))

theorem recvMessage_keepsBatch (draw : Int) (m : RaftMsg E) :
    Rel (Keep BatchOk) (recvMessage (σ := σ) draw m) := by
  cases m with
  | appendEntries ae data => exact recvAppendEntries_keepsBatch draw ae data
  | appendEntriesResponse r => exact recvAppendEntriesResponse_keepsBatch draw r
  | requestVote r => exact recvRequestVote_keepsBatch draw r
  | requestVoteResponse r => exact recvRequestVoteResponse_keepsBatch draw r


end Keeps

/-! ## Every run -/

theorem BatchOk.init (store : σ) (id : NodeId) (requestTimeout electionTimeout : Int)
    (publicOnly : Bool) :
    BatchOk (Raft.init (E := E) store id requestTimeout electionTimeout publicOnly) := by
  have hsum : (0 : Int) ≤ batchWindowSize * (appendEntriesSizeLimit + 1 : Nat) := by decide
  have hsize : 1 ≤ appendEntriesSizeLimit := by decide
  exact ⟨le_refl 0, hsum, le_refl 1, hsize⟩

/-- A call into one node keeps the bounds of every node. -/
theorem World.act_batchOk {α : Type} {w : World σ E} (hw : ∀ m, BatchOk (w.nodes m))
    {n : NodeId} {op : RaftM σ E α} (hop : Rel (Keep BatchOk) op) (m : NodeId) :
    BatchOk ((w.act n op).nodes m) := by
  by_cases hm : m = n
  · subst hm
    rw [World.act_nodes_self]
    exact hop.state _ (hw m)
  · rw [World.act_nodes_ne _ _ _ hm]
    exact hw m

theorem World.init_batchOk (conf : Configuration) (store : NodeId → σ)
    (requestTimeout electionTimeout : NodeId → Int) (n : NodeId) :
    BatchOk ((World.init conf store requestTimeout electionTimeout : World σ E).nodes n) :=
  (addConfiguration_keepsBatch conf).state _ (BatchOk.init _ _ _ _ _)

variable [RaftStore σ E]

theorem World.after_batchOk {w : World σ E} (hw : ∀ m, BatchOk (w.nodes m)) (cs : List (Call E))
    (n : NodeId) : BatchOk ((w.after cs).nodes n) := by
  induction cs generalizing w with
  | nil => exact hw n
  | cons c cs ih =>
      -- one call, then the rest of the schedule from where it left the world
      apply ih
      cases c with
      | recv src dst draw m => exact World.act_batchOk hw (recvMessage_keepsBatch draw m)
      | periodic n draw elapsed => exact World.act_batchOk hw (periodic_keepsBatch draw elapsed)
      | replicate n entries => exact World.act_batchOk hw (replicate_keepsBatch entries)

theorem batch_size_in_range (conf : Configuration) (store : NodeId → σ)
    (requestTimeout electionTimeout : NodeId → Int) (cs : List (Call E)) (n : NodeId) :
    let r := ((World.init conf store requestTimeout electionTimeout).after cs).nodes n
    BatchOk r ∧ wrapInt32 (nextBatchWindowSum r) = nextBatchWindowSum r := by
  intro r
  have h : BatchOk r := World.after_batchOk (World.init_batchOk conf store _ _) cs n
  exact ⟨h, h.updateBatchSize_exact.1⟩

end Ccf.Raft
