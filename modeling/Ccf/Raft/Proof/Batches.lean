import Ccf.Raft.Raft
import Ccf.Lib.Ranges

/-!
# Sending the log in batches (`Raft::send_append_entries`)

`send_append_entries(to, start_idx)` sends the entries `[start_idx, last_idx]` as a series
of `AppendEntries` messages: a first range up to `min(start_idx + batch, last_idx)`, then
ranges of `batch` entries while they end before `last_idx`, and a last range up to
`last_idx`. One range (`sendAppendEntriesRange_ok`) records its end as the node's `sent_idx`
and sends one message. The loop (`sendAppendEntriesLoop_ok`, by induction on its rounds)
sends ranges that, with the last one, form a `Ranges.Cover` of `[start_idx, last_idx]` by
pieces of at most `batch + 1` entries, and its fuel of `last_idx` rounds is enough for it
to finish. `sendAppendEntries_batches` reads off the cover that the ranges are
consecutive, do not overlap and cover exactly `[start_idx, last_idx]` — or are the one
empty range `[last_idx + 1, last_idx]` when there is nothing to send — and that the
node's `sent_idx` ends at `last_idx`.
-/

namespace Ccf.Raft

open EStateM

set_option linter.dupNamespace false

variable {σ E : Type}

/-- The message `send_append_entries_range(to, start_idx, end_idx)` sends from `r`. -/
def Raft.appendEntriesMsg (r : Raft σ E) (startIdx endIdx : Index) : RaftMsg E :=
  .appendEntries
    { fromNode := r.localId, idx := endIdx, term := r.currentTerm, prevIdx := startIdx - 1,
      prevTerm := r.getTermInternal (startIdx - 1), leaderCommitIdx := r.commitIdx,
      termOfIdx := r.getTermInternal endIdx }
    (hostEntries r.ledger (startIdx - 1 + 1) endIdx)

/-- `nodes[to].sent_idx = x`. -/
def setSentIdx (nodes : List (NodeId × NodeState)) (dst : NodeId) (x : Index) :
    List (NodeId × NodeState) :=
  updateNode nodes dst fun n => { n with sentIdx := x }

-- Made here once: the equation lemmas that the proofs below unfold.
section
attribute [local simp] setSentIdx
end

/-- Only the last `sent_idx` recorded for a node remains. -/
@[simp] theorem setSentIdx_setSentIdx (nodes : List (NodeId × NodeState)) (dst : NodeId)
    (x y : Index) : setSentIdx (setSentIdx nodes dst x) dst y = setSentIdx nodes dst y := by
  unfold setSentIdx updateNode
  rw [List.map_map]
  congr 1
  funext p
  by_cases h : p.1 = dst <;> simp [h]

/-- Recording a `sent_idx` keeps every node known. -/
@[simp] theorem lookup_setSentIdx_isSome (nodes : List (NodeId × NodeState)) (dst id : NodeId)
    (x : Index) : ((setSentIdx nodes dst x).lookup id).isSome = (nodes.lookup id).isSome := by
  induction nodes with
  | nil => rfl
  | cons p nodes ih =>
      obtain ⟨a, n⟩ := p
      -- the entry of `a` keeps its key, so both lookups take the same branch there
      have hcons : setSentIdx ((a, n) :: nodes) dst x =
          (a, if a = dst then { n with sentIdx := x } else n) :: setSentIdx nodes dst x := by
        by_cases h : a = dst <;> simp [setSentIdx, updateNode, h]
      rw [hcons, List.lookup_cons, List.lookup_cons]
      cases id == a
      · exact ih
      · rfl

section Spec

variable {dst : NodeId}

/-- **One range**: record its end as `sent_idx` and send one message. -/
theorem sendAppendEntriesRange_ok {r : Raft σ E} (h : (r.nodes.lookup dst).isSome)
    (startIdx endIdx : Index) :
    sendAppendEntriesRange dst startIdx endIdx r =
      .ok () { r with
        nodes := setSentIdx r.nodes dst endIdx
        sent := r.sent ++ [(dst, r.appendEntriesMsg startIdx endIdx)] } := by
  obtain ⟨n, hn⟩ := Option.isSome_iff_exists.mp h
  unfold sendAppendEntriesRange
  rw [get_bind_apply, hn]
  rfl

/-- The loop has nothing to do once `i` has reached `last_idx`. -/
theorem sendAppendEntriesLoop_stop {last batch startIdx i : ℕ} (hi : ¬ i < last)
    (fuel : Nat) (s : Raft σ E) :
    sendAppendEntriesLoop dst last batch fuel startIdx i s = .ok startIdx s := by
  cases fuel with
  | zero => rfl
  | succ n =>
      simp only [sendAppendEntriesLoop, if_neg hi]
      rfl

/-- **The loop** sends ranges that, followed by `[start', last_idx]` for the `start'` it
returns, cover `[start_idx, last_idx]` by pieces of at most `batch + 1` entries; each
round raises `i` by `batch ≥ 1`, so `last_idx - i` rounds of fuel are enough. -/
theorem sendAppendEntriesLoop_ok {r : Raft σ E} {last batch : ℕ} (hb : 1 ≤ batch) :
    ∀ (fuel : ℕ) (startIdx i : ℕ) (nodes : List (NodeId × NodeState))
      (out : List (NodeId × RaftMsg E)),
      (nodes.lookup dst).isSome → startIdx ≤ i → i ≤ startIdx + batch → startIdx ≤ last →
      last - i ≤ fuel →
      ∃ rs start' nodes',
        sendAppendEntriesLoop dst last batch fuel startIdx i { r with nodes := nodes, sent := out } =
          .ok start' { r with
            nodes := nodes'
            sent := out ++ rs.map fun p => (dst, r.appendEntriesMsg p.1 p.2) } ∧
        (nodes'.lookup dst).isSome ∧ (∀ x, setSentIdx nodes' dst x = setSentIdx nodes dst x) ∧
        Ranges.Cover (batch + 1) startIdx last (rs ++ [(start', last)]) := by
  intro fuel
  induction fuel with
  | zero =>
      intro startIdx i nodes out hdst hsi hib hsl hfuel
      refine ⟨[], startIdx, nodes, ?_, hdst, fun _ => rfl, .single hsl (by omega)⟩
      rw [sendAppendEntriesLoop_stop (by omega)]
      simp
  | succ n ih =>
      intro startIdx i nodes out hdst hsi hib hsl hfuel
      by_cases hil : i < last
      · -- a round: send `[start_idx, i]`, go on from `i + 1` with `i + batch`
        obtain ⟨rs, start', nodes', heq, hdst', hsame, hcover⟩ :=
          ih (i + 1) (i + batch) (setSentIdx nodes dst i)
            (out ++ [(dst, r.appendEntriesMsg startIdx i)])
            (by simpa using hdst) (by omega) (by omega) (by omega) (by omega)
        refine ⟨(startIdx, i) :: rs, start', nodes', ?_, hdst', fun x => by simp [hsame x],
          .cons hsi (by omega) hcover⟩
        rw [sendAppendEntriesLoop, if_pos hil, bind_of_ok (sendAppendEntriesRange_ok hdst _ _),
          Nat.min_eq_left (by omega : i + 1 ≤ last)]
        refine heq.trans ?_
        simp
      · refine ⟨[], startIdx, nodes, ?_, hdst, fun _ => rfl, .single hsl (by omega)⟩
        rw [sendAppendEntriesLoop_stop hil]
        simp

/-- **`send_append_entries` sends `[start_idx, last_idx]` in consecutive batches.** For
every `last_idx`, every `entries_batch_size ≥ 1` and every `start_idx` in
`[1, last_idx + 1]`, it returns, having sent the messages of ranges that are
consecutive, do not overlap, have at most `entries_batch_size + 1` entries each and
cover exactly `[start_idx, last_idx]` (one empty range `[last_idx + 1, last_idx]` when
`start_idx = last_idx + 1`), and having set the node's `sent_idx` to `last_idx`; nothing
else changes. -/
theorem sendAppendEntries_batches (r : Raft σ E) (startIdx : ℕ)
    (hdst : (r.nodes.lookup dst).isSome) (hbatch : 1 ≤ r.entriesBatchSize)
    (hstart : 1 ≤ startIdx) (hend : startIdx ≤ r.lastIdx + 1) :
    ∃ ranges : List (Index × Index),
      sendAppendEntries dst startIdx r =
        .ok () { r with
          nodes := setSentIdx r.nodes dst r.lastIdx
          sent := r.sent ++ ranges.map fun p => (dst, r.appendEntriesMsg p.1 p.2) } ∧
      (∀ p ∈ ranges, p.2 + 1 - p.1 ≤ r.entriesBatchSize + 1) ∧
      ranges.IsChain (fun p q => q.1 = p.2 + 1) ∧
      ranges.Pairwise (fun p q => p.2 < q.1) ∧
      (startIdx ≤ r.lastIdx → (∀ p ∈ ranges, p.1 ≤ p.2) ∧
        ∀ x, (∃ p ∈ ranges, p.1 ≤ x ∧ x ≤ p.2) ↔ startIdx ≤ x ∧ x ≤ r.lastIdx) ∧
      (startIdx = r.lastIdx + 1 → ranges = [(r.lastIdx + 1, r.lastIdx)]) := by
  have hb : 1 ≤ (r.entriesBatchSize : ℕ) := hbatch
  unfold sendAppendEntries
  rw [get_bind_apply]
  by_cases hsl : startIdx ≤ r.lastIdx
  · -- entries to send: the loop starts from the end of the first batch
    have hlast : (0 : ℕ) < r.lastIdx := by omega
    obtain ⟨rs, start', nodes', heq, hdst', hsame, hcover⟩ :=
      sendAppendEntriesLoop_ok (r := r) hb r.lastIdx startIdx
        (min (startIdx + r.entriesBatchSize) r.lastIdx) r.nodes r.sent hdst (by omega) (by omega)
        hsl (by omega)
    have hloop : sendAppendEntriesLoop dst r.lastIdx r.entriesBatchSize r.lastIdx startIdx
        (min (startIdx + r.entriesBatchSize) r.lastIdx) r = _ := heq
    refine ⟨rs ++ [(start', r.lastIdx)], ?_, fun p hp => (hcover.bounds p hp).2.2.2,
      hcover.isChain, hcover.pairwise,
      fun _ => ⟨fun p hp => (hcover.bounds p hp).2.1, hcover.mem_iff⟩, fun h => by omega⟩
    rw [if_neg (Nat.pos_iff_ne_zero.mp hlast), bind_of_ok hloop,
      if_pos (Or.inr (Nat.min_le_right _ _)),
      sendAppendEntriesRange_ok (r := { r with nodes := nodes', sent := _ }) hdst', hsame]
    simp only [List.map_append, List.map_cons, List.map_nil, List.append_assoc]
    rfl
  · -- nothing to send: one empty range
    have hs : startIdx = r.lastIdx + 1 := by omega
    have hendIdx : (if r.lastIdx = 0 then 0 else min (startIdx + r.entriesBatchSize) r.lastIdx) =
        r.lastIdx := by
      split
      · next h => exact h.symm
      · exact Nat.min_eq_right (by omega)
    have hsize : ∀ p ∈ [(r.lastIdx + 1, r.lastIdx)], p.2 + 1 - p.1 ≤ r.entriesBatchSize + 1 := by
      intro p hp
      rw [List.mem_singleton.mp hp, Nat.sub_self]
      exact Nat.zero_le _
    refine ⟨[(r.lastIdx + 1, r.lastIdx)], ?_, hsize, .singleton _,
      List.pairwise_singleton _ _, fun h => absurd h hsl, fun _ => rfl⟩
    rw [hendIdx, bind_of_ok (sendAppendEntriesLoop_stop (lt_irrefl _) _ _),
      if_pos (Or.inr le_rfl), sendAppendEntriesRange_ok hdst, hs]
    rfl

end Spec

/-- A leader at `last_idx` 5 that sends batches of 2 and knows node 1. -/
def leaderAtFive : Raft LoggingStubStore (List UInt8) :=
  { Raft.init ⟨0⟩ 0 10 100 false with
    state := .Leader
    lastIdx := 5
    entriesBatchSize := 2
    nodes := [(1, ⟨0, 0⟩)] }

theorem sendAppendEntries_batches_leaderAtFive :
    ∃ ranges : List (Index × Index),
      sendAppendEntries 1 1 leaderAtFive =
        .ok () { leaderAtFive with
          nodes := setSentIdx leaderAtFive.nodes 1 leaderAtFive.lastIdx
          sent := leaderAtFive.sent ++
            ranges.map fun p => (1, leaderAtFive.appendEntriesMsg p.1 p.2) } ∧
      (∀ p ∈ ranges, p.2 + 1 - p.1 ≤ leaderAtFive.entriesBatchSize + 1) ∧
      ranges.IsChain (fun p q => q.1 = p.2 + 1) ∧
      ranges.Pairwise (fun p q => p.2 < q.1) ∧
      (1 ≤ leaderAtFive.lastIdx → (∀ p ∈ ranges, p.1 ≤ p.2) ∧
        ∀ x, (∃ p ∈ ranges, p.1 ≤ x ∧ x ≤ p.2) ↔ 1 ≤ x ∧ x ≤ leaderAtFive.lastIdx) ∧
      (1 = leaderAtFive.lastIdx + 1 → ranges = [(leaderAtFive.lastIdx + 1, leaderAtFive.lastIdx)]) :=
  sendAppendEntries_batches leaderAtFive 1 rfl (by decide) le_rfl (by decide)

end Ccf.Raft
