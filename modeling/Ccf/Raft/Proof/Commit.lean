import Ccf.Raft.Raft
import Ccf.Lib.Quorum

/-!
# Commit index selection (`Raft::update_commit`)

The leader may commit what every active configuration has stored on a strict
majority of its members. For one configuration `update_commit` lists the members'
match indices — its own `last_idx` for the leader itself — sorts them and reads
position `(n - 1) / 2`; by `Quorum.isGreatest_majority` that is the largest index
`n / 2 + 1` of the `n` members have reached, for odd and even `n` alike
(`isGreatest_confirmed`). Over the configurations it keeps the least of these
(`Quorum.isLeast_foldl`). No member is ahead of the leader, so that least index is
not beyond `last_idx`, the "later match indices" error is not thrown, and
`update_commit` is `commit_if_possible` at that index (`updateCommit_majority`).

With no active configuration the loop never runs: the index stays at the largest
`Index` and `update_commit` throws. A node that is never given a configuration
leads on its own and throws on the first batch it replicates
(`replicate_unconfigured_throws`).
-/

namespace Ccf.Raft

open EStateM

set_option linter.dupNamespace false

variable {σ E : Type}

namespace Raft

/-- What the leader knows node `n` has stored: its own `last_idx`, or the node's
`match_idx`. -/
def matchOf (r : Raft σ E) (n : NodeId) : Index :=
  if n = r.localId then r.lastIdx else ((r.nodes.lookup n).map (·.matchIdx)).getD 0

/-- The indices that a strict majority of the members of `c` have stored. -/
def majority (r : Raft σ E) (c : Configuration) : Set Index :=
  Quorum.reached (c.nodes.map r.matchOf) (c.nodes.length / 2 + 1)

/-- Every member of `c` other than the leader has a match index, none beyond
`last_idx`. -/
def MatchKnown (r : Raft σ E) (c : Configuration) : Prop :=
  ∀ n ∈ c.nodes, n ≠ r.localId → ∃ ns, r.nodes.lookup n = some ns ∧ ns.matchIdx ≤ r.lastIdx

/-- The entry `update_commit` reads for `c`: position `(size - 1) / 2` of the
sorted match indices. -/
def confirmed (r : Raft σ E) (c : Configuration) : Index :=
  let sorted := (c.nodes.map r.matchOf).insertionSort (· ≤ ·)
  sorted.getD ((sorted.length - 1) / 2) 0

-- Made here once: the equation lemmas that the proofs below unfold.
section
attribute [local simp] matchOf majority confirmed
end

theorem matchOf_le {r : Raft σ E} {c : Configuration} (hk : r.MatchKnown c) {n : NodeId}
    (hn : n ∈ c.nodes) : r.matchOf n ≤ r.lastIdx := by
  unfold matchOf
  split
  · exact le_rfl
  · next hne =>
      obtain ⟨ns, hns, hle⟩ := hk n hn hne
      simpa [hns] using hle

theorem confirmed_getElem? {r : Raft σ E} {c : Configuration} (hne : c.nodes ≠ []) :
    ((c.nodes.map r.matchOf).insertionSort (· ≤ ·))[
      (((c.nodes.map r.matchOf).insertionSort (· ≤ ·)).length - 1) / 2]? = some (r.confirmed c) := by
  have hlen : 0 < ((c.nodes.map r.matchOf).insertionSort (· ≤ ·)).length := by
    simpa [List.length_insertionSort] using List.length_pos_of_ne_nil hne
  rw [confirmed, List.getD_eq_getElem?_getD, List.getElem?_eq_getElem (by omega)]
  rfl

/-- **What `update_commit` reads for a configuration is the largest index a strict
majority of its members has stored.** -/
theorem isGreatest_confirmed {r : Raft σ E} {c : Configuration} (hne : c.nodes ≠ []) :
    IsGreatest (r.majority c) (r.confirmed c) := by
  have h := confirmed_getElem? (r := r) hne
  rw [List.length_insertionSort] at h
  simpa [majority] using Quorum.isGreatest_majority h

theorem confirmed_le {r : Raft σ E} {c : Configuration} (hne : c.nodes ≠ [])
    (hk : r.MatchKnown c) : r.confirmed c ≤ r.lastIdx := by
  obtain ⟨y, hy, hle⟩ :=
    Quorum.exists_ge_of_mem_reached (isGreatest_confirmed (r := r) hne).1 (Nat.succ_pos _)
  obtain ⟨n, hn, rfl⟩ := List.mem_map.mp hy
  exact le_trans hle (matchOf_le hk hn)

end Raft

section Spec

variable {r : Raft σ E}

/-- `confirmedIdx` only reads: it returns `confirmed` and throws nothing when every
member is known. -/
theorem confirmedIdx_ok {c : Configuration} (hne : c.nodes ≠ []) (hk : r.MatchKnown c) :
    confirmedIdx c r = .ok (r.confirmed c) r := by
  unfold confirmedIdx
  rw [get_bind_apply, bind_of_ok (mapM_ok (g := r.matchOf) ?_)]
  · rw [Raft.confirmed_getElem? hne]
    rfl
  · -- each member's entry: `last_idx` for the leader, the stored match index otherwise
    intro n hn
    by_cases hl : n = r.localId
    · simp [Raft.matchOf, hl]
      rfl
    · obtain ⟨ns, hns, -⟩ := hk n hn hl
      simp only [hl, if_false, Raft.matchOf, hns]
      rfl

variable [RaftStore σ E]

/-- `update_commit` folds `confirmed` over the configurations, then checks the
result against `last_idx`. -/
theorem updateCommit_eq (hc : ∀ c ∈ r.configurations, c.nodes ≠ [] ∧ r.MatchKnown c) :
    updateCommit r =
      (let v := r.configurations.foldl
          (fun acc c => if r.confirmed c < acc then r.confirmed c else acc) indexMax
        if v > r.lastIdx then throw "Followers appear to have later match indices than leader"
        else commitIfPossible v) r := by
  unfold updateCommit
  rw [get_bind_apply, bind_of_ok (foldlM_ok (g := fun acc c =>
    if r.confirmed c < acc then r.confirmed c else acc) _ ?_)]
  · rfl
  · intro acc c hcm
    rw [bind_of_ok (confirmedIdx_ok (hc c hcm).1 (hc c hcm).2)]
    rfl

/-- **`update_commit` commits up to the least, over the active configurations, of the
largest index a strict majority of each has stored**, and does not throw its
"later match indices" error, whatever match indices the followers report (none
beyond `last_idx`, which as an `int64_t` is at most `indexMax`), provided there is
at least one configuration and each has a member. -/
theorem updateCommit_majority (r : Raft σ E) (hconf : r.configurations ≠ [])
    (hne : ∀ c ∈ r.configurations, c.nodes ≠ [])
    (hknown : ∀ c ∈ r.configurations, r.MatchKnown c) (hlast : r.lastIdx ≤ indexMax) :
    ∃ v, IsLeast {m | ∃ c ∈ r.configurations, IsGreatest (r.majority c) m} v ∧
      updateCommit r = commitIfPossible v r := by
  have hle : ∀ c ∈ r.configurations, r.confirmed c ≤ indexMax :=
    fun c hc => le_trans (Raft.confirmed_le (hne c hc) (hknown c hc)) hlast
  obtain ⟨⟨c, hc, hcv⟩, hlow⟩ := Quorum.isLeast_foldl r.confirmed hconf hle
  refine ⟨r.confirmed c, ⟨⟨c, hc, Raft.isGreatest_confirmed (hne c hc)⟩, ?_⟩, ?_⟩
  · -- each configuration's value is its `confirmed`, which the fold does not exceed
    rintro m ⟨c', hc', hm⟩
    rw [← (Raft.isGreatest_confirmed (hne c' hc')).unique hm, hcv]
    exact hlow ⟨c', hc', rfl⟩
  · have hv : ¬ r.confirmed c > r.lastIdx :=
      not_lt.mpr (Raft.confirmed_le (hne c hc) (hknown c hc))
    rw [updateCommit_eq fun c hc => ⟨hne c hc, hknown c hc⟩]
    simp only [← hcv, hv, if_false]

end Spec

/-- A leader of the four nodes `0, 1, 2, 3` at `last_idx` 2; node 1 has stored up to
index 2, node 2 up to 1, node 3 nothing. -/
def leaderOfFour : Raft LoggingStubStore (List UInt8) :=
  { Raft.init ⟨0⟩ 0 10 100 false with
    state := .Leader
    lastIdx := 2
    configurations := [⟨0, [0, 1, 2, 3], by decide⟩]
    nodes := [(1, ⟨2, 2⟩), (2, ⟨1, 2⟩), (3, ⟨0, 2⟩)] }

-- Made here once: the equation lemmas that the proofs below unfold.
section
attribute [local simp] leaderOfFour
end

theorem updateCommit_majority_leaderOfFour :
    ∃ v, IsLeast {m | ∃ c ∈ leaderOfFour.configurations, IsGreatest (leaderOfFour.majority c) m} v ∧
      updateCommit leaderOfFour = commitIfPossible v leaderOfFour := by
  refine updateCommit_majority leaderOfFour (List.cons_ne_nil _ _) ?_ ?_ (by decide)
  · simp [leaderOfFour]
  · intro c hc n hn hl
    simp only [leaderOfFour, List.mem_singleton] at hc
    subst hc
    simp only [List.mem_cons, List.not_mem_nil, or_false] at hn
    rcases hn with rfl | rfl | rfl | rfl
    · exact absurd rfl hl
    · exact ⟨_, rfl, by decide⟩
    · exact ⟨_, rfl, by decide⟩
    · exact ⟨_, rfl, by decide⟩

/-- **With no configuration `update_commit` throws.** A node that is never given a
configuration becomes a candidate when its election timeout passes, holds a
majority of itself and leads; the first batch it replicates goes on to
`update_commit`, which finds no configuration and keeps the largest `Index`. -/
theorem replicate_unconfigured_throws :
    ∃ r', (do periodic 0 100; replicate [(1, [1], true)] : RaftM LoggingStubStore (List UInt8) Bool)
        (Raft.init ⟨0⟩ 0 10 100 false) =
      .error "Followers appear to have later match indices than leader" r' :=
  ⟨_, rfl⟩

end Ccf.Raft
