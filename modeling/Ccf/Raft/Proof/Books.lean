import Ccf.Raft.Proof.Frame
import Mathlib.Data.List.TakeWhile

/-!
# The bookkeeping of a Raft node

Besides its log, a node keeps three pieces of bookkeeping that `update_commit` and
`commit_if_possible` rely on: the `committable_indices`, increasing and between `commit_idx` and
`last_idx`; the `configurations`, in the order of their indices; and `nodes`, which must hold
exactly the other members of the active configurations, for `update_commit` looks each member up
with `nodes.at`. `Books` states the three, with `commit_idx ≤ last_idx`, which they need.

Most methods leave all of it alone (`Tidy`). The others change it in a few ways, each with its
lemma: a new last index, committable or not (`Books.raise`, `Books.push`); a new commit index
below every committable index left (`Books.commitTo`); the committable indices forgotten
(`Books.clear`); configurations dropped from the back by `rollback` or the front by `commit`, and
the node list rebuilt by `create_and_remove_node_state` (`reconfigure_books`). `commit(idx)` keeps
the bookkeeping only when no committable index is left at or below `idx`, which its two callers
see to.

`add_configuration` appends whatever configuration it is given, so the configurations stay in
order only if each is added at an index no lower than the last: `configurations_out_of_order` is
a node given them the other way round. With that, every sequence of calls from the constructor
keeps the bookkeeping (`raft_bookkeeping`).
-/

namespace Ccf.Raft

open EStateM

-- `Raft.marks` reads fields of `raft::Raft`
set_option linter.dupNamespace false

variable {σ E : Type}

/-- The fields the bookkeeping reads besides the nodes: the commit index, the last index, the
committable indices, the configurations and the node's own id. -/
def Raft.marks (r : Raft σ E) : Index × Index × List Index × List Configuration × NodeId :=
  (r.commitIdx, r.lastIdx, r.committableIndices, r.configurations, r.localId)

-- Made here once: the equation lemmas that the proofs below unfold.
section
attribute [local simp] Raft.marks
end

/-- The order of the indices and the configurations of a node. -/
structure Marks (r : Raft σ E) : Prop where
  /-- `commit` never passes `last_idx`, and `last_idx` never goes back. -/
  commit_le : r.commitIdx ≤ r.lastIdx
  /-- The committable indices increase. -/
  committable_sorted : r.committableIndices.Pairwise (· < ·)
  /-- Each committable index is above the commit index and at most the last index. -/
  committable_mem : ∀ i ∈ r.committableIndices, r.commitIdx < i ∧ i ≤ r.lastIdx
  /-- The configurations come in the order of their indices. -/
  configurations_sorted : (r.configurations.map (·.idx)).Pairwise (· ≤ ·)

/-- The bookkeeping of a node: its indices and configurations in order, and a node list with
exactly the other members of its active configurations. -/
structure Books (r : Raft σ E) : Prop extends Marks r where
  /-- The nodes it knows are the members of the active configurations but itself. -/
  nodes_keys : ∀ id, id ∈ r.nodes.map Prod.fst ↔ id ∈ activeNodes r.configurations ∧ id ≠ r.localId

/-- A run that leaves the bookkeeping alone. -/
def Tidy (s s' : Raft σ E) : Prop :=
  s'.marks = s.marks ∧ s'.nodes.map Prod.fst = s.nodes.map Prod.fst

theorem Tidy.refl (s : Raft σ E) : Tidy s s := ⟨rfl, rfl⟩

theorem Tidy.trans (a b c : Raft σ E) (h₁ : Tidy a b) (h₂ : Tidy b c) : Tidy a c :=
  ⟨h₂.1.trans h₁.1, h₂.2.trans h₁.2⟩

theorem Marks.congr {s s' : Raft σ E} (h : Marks s) (hm : s'.marks = s.marks) : Marks s' := by
  simp only [Raft.marks, Prod.mk.injEq] at hm
  obtain ⟨hc, hl, hci, hcf, -⟩ := hm
  refine ⟨?_, ?_, ?_, ?_⟩
  · rw [hc, hl]
    exact h.commit_le
  · rw [hci]
    exact h.committable_sorted
  · rw [hci, hc, hl]
    exact h.committable_mem
  · rw [hcf]
    exact h.configurations_sorted

theorem Books.congr {s s' : Raft σ E} (h : Books s) (ht : Tidy s s') : Books s' := by
  have hm := ht.1
  simp only [Raft.marks, Prod.mk.injEq] at hm
  obtain ⟨-, -, -, hcf, hid⟩ := hm
  refine ⟨h.toMarks.congr ht.1, fun id => ?_⟩
  rw [ht.2, hcf, hid]
  exact h.nodes_keys id

theorem Tidy.keep {s s' : Raft σ E} (h : Tidy s s') : Keep Books s s' := fun hb => hb.congr h

/-- The node is not one of the nodes it knows. -/
theorem Books.localId_not_mem {r : Raft σ E} (h : Books r) : r.localId ∉ r.nodes.map Prod.fst :=
  fun hm => ((h.nodes_keys _).mp hm).2 rfl

/-! ## The updates -/

section Updates

/-- What `rollback` keeps of a list: a prefix, cut where the elements past `idx` begin. -/
theorem trim_prefix {α : Type} (p : α → Bool) (l : List α) :
    (l.reverse.dropWhile p).reverse.IsPrefix l := by
  have h := List.reverse_prefix.mpr (List.dropWhile_suffix (l := l.reverse) p)
  rwa [List.reverse_reverse] at h

/-- What `commit` keeps of the configurations: a suffix. -/
theorem dropCommittedConfigurations_suffix (idx : Index) :
    ∀ l : List Configuration, (dropCommittedConfigurations idx l).IsSuffix l
  | c₁ :: c₂ :: rest => by
      unfold dropCommittedConfigurations
      split
      · exact List.suffix_refl _
      · exact (dropCommittedConfigurations_suffix idx (c₂ :: rest)).trans (List.suffix_cons _ _)
  | [] => List.suffix_refl _
  | [_] => List.suffix_refl _

/-- In an increasing list, what is left after the elements up to `idx` is above `idx`. -/
theorem lt_of_mem_dropWhile {l : List Index} (h : l.Pairwise (· < ·)) (idx : Index) :
    ∀ j ∈ l.dropWhile (fun i => decide (i ≤ idx)), idx < j := by
  induction l with
  | nil => simp
  | cons a l ih =>
      intro j hj
      by_cases ha : a ≤ idx
      · rw [List.dropWhile_cons_of_pos (by simpa using ha)] at hj
        exact ih h.of_cons j hj
      · rw [List.dropWhile_cons_of_neg (by simpa using ha)] at hj
        -- the first element left is above `idx`, and the rest above it
        rcases List.mem_cons.mp hj with rfl | hj
        · exact Nat.lt_of_not_le ha
        · exact Nat.lt_trans (Nat.lt_of_not_le ha) (List.rel_of_pairwise_cons h hj)

/-- Indices and configurations kept as sublists, with the same commit and last index, stay in
order. -/
theorem Marks.of_sublist {t t' : Raft σ E} (h : Marks t) (hc : t'.commitIdx = t.commitIdx)
    (hl : t'.lastIdx = t.lastIdx) (hci : t'.committableIndices.Sublist t.committableIndices)
    (hcf : t'.configurations.Sublist t.configurations) : Marks t' := by
  refine ⟨?_, h.committable_sorted.sublist hci, fun i hi => ?_, ?_⟩
  · rw [hc, hl]
    exact h.commit_le
  · rw [hc, hl]
    exact h.committable_mem i (hci.subset hi)
  · exact h.configurations_sorted.sublist (hcf.map _)

/-- New indices, with the configurations, the node's id and the keys of `nodes` kept: the
bookkeeping holds as soon as the indices are in order. -/
theorem Books.of_indices {t t' : Raft σ E} (h : Books t) {c l : Index} {ci : List Index}
    (hm : t'.marks = (c, l, ci, t.configurations, t.localId))
    (hk : t'.nodes.map Prod.fst = t.nodes.map Prod.fst) (hcl : c ≤ l)
    (hs : ci.Pairwise (· < ·)) (hmem : ∀ j ∈ ci, c < j ∧ j ≤ l) : Books t' := by
  simp only [Raft.marks, Prod.mk.injEq] at hm
  obtain ⟨hc, hl, hci, hcf, hid⟩ := hm
  refine ⟨⟨?_, ?_, ?_, ?_⟩, fun id => ?_⟩
  · rw [hc, hl]
    exact hcl
  · rw [hci]
    exact hs
  · rw [hci, hc, hl]
    exact hmem
  · rw [hcf]
    exact h.configurations_sorted
  · rw [hk, hcf, hid]
    exact h.nodes_keys id

/-- A last index raised to `i`, with nothing else of the bookkeeping changed. -/
theorem Books.raise {t t' : Raft σ E} (h : Books t) {i : Index} (hi : t.lastIdx ≤ i)
    (hm : t'.marks = (t.commitIdx, i, t.committableIndices, t.configurations, t.localId))
    (hk : t'.nodes.map Prod.fst = t.nodes.map Prod.fst) : Books t' := by
  refine h.of_indices hm hk (Nat.le_trans h.commit_le hi) h.committable_sorted fun j hj => ?_
  exact ⟨(h.committable_mem j hj).1, Nat.le_trans (h.committable_mem j hj).2 hi⟩

/-- A new last index `i` that is also committable. -/
theorem Books.push {t t' : Raft σ E} (h : Books t) {i : Index} (hi : t.lastIdx < i)
    (hm : t'.marks = (t.commitIdx, i, t.committableIndices ++ [i], t.configurations, t.localId))
    (hk : t'.nodes.map Prod.fst = t.nodes.map Prod.fst) : Books t' := by
  -- every index already committable is at most the old last index, so below `i`
  have hbelow : ∀ j ∈ t.committableIndices, j < i := fun j hj =>
    Nat.lt_of_le_of_lt (h.committable_mem j hj).2 hi
  refine h.of_indices hm hk (Nat.le_trans h.commit_le hi.le) ?_ fun j hj => ?_
  · rw [List.pairwise_append]
    refine ⟨h.committable_sorted, List.pairwise_singleton _ _, fun a ha b hb => ?_⟩
    rw [List.mem_singleton.mp hb]
    exact hbelow a ha
  · rcases List.mem_append.mp hj with hj | hj
    · exact ⟨(h.committable_mem j hj).1, (hbelow j hj).le⟩
    · rw [List.mem_singleton.mp hj]
      exact ⟨Nat.lt_of_le_of_lt h.commit_le hi, le_rfl⟩

/-- Forgetting the committable indices. -/
theorem Books.clear {t t' : Raft σ E} (h : Books t)
    (hm : t'.marks = (t.commitIdx, t.lastIdx, [], t.configurations, t.localId))
    (hk : t'.nodes.map Prod.fst = t.nodes.map Prod.fst) : Books t' := by
  refine h.of_indices hm hk h.commit_le List.Pairwise.nil fun j hj => ?_
  exact absurd hj List.not_mem_nil

end Updates

/-! ## The methods that leave the bookkeeping alone -/

section Tidy

theorem liftStore_tidy {α : Type} (x : EStateM String σ α) : Rel Tidy (liftStore (E := E) x) := by
  intro s
  unfold wp liftStore
  cases x s.store <;> exact Tidy.refl _

theorem send_tidy (dst : NodeId) (m : RaftMsg E) : Rel Tidy (send (σ := σ) dst m) :=
  Rel.modify fun _ => Tidy.refl _

theorem restartElectionTimeout_tidy (draw : Int) :
    Rel Tidy (restartElectionTimeout (σ := σ) (E := E) draw) :=
  Rel.modify fun _ => Tidy.refl _

theorem updateBatchSize_tidy : Rel Tidy (updateBatchSize (σ := σ) (E := E)) :=
  Rel.modify fun _ => Tidy.refl _

/-- Recording the index sent to a node moves no key. -/
theorem updateNode_tidy (s : Raft σ E) (id : NodeId) (f : NodeState → NodeState) :
    Tidy s { s with nodes := updateNode s.nodes id f } :=
  ⟨rfl, updateNode_keys _ _ _⟩

theorem sendAppendEntriesRange_tidy (dst : NodeId) (startIdx endIdx : Index) :
    Rel Tidy (sendAppendEntriesRange (σ := σ) (E := E) dst startIdx endIdx) := by
  apply Rel.get_bind
  intro t
  split
  · exact Rel.throw Tidy.refl _
  · exact Rel.bind Tidy.trans (Rel.modify fun _ => updateNode_tidy _ _ _) fun _ => send_tidy _ _

theorem sendAppendEntriesLoop_tidy (dst : NodeId) (lastIdx batch : Index) (fuel : Nat)
    (startIdx i : Index) :
    Rel Tidy (sendAppendEntriesLoop (σ := σ) (E := E) dst lastIdx batch fuel startIdx i) := by
  induction fuel generalizing startIdx i with
  | zero => exact Rel.pure Tidy.refl _
  | succ n ih =>
      unfold sendAppendEntriesLoop
      exact Rel.ite (Rel.bind Tidy.trans (sendAppendEntriesRange_tidy _ _ _) fun _ => ih _ _)
        (Rel.pure Tidy.refl _)

theorem sendAppendEntries_tidy (dst : NodeId) (startIdx : Index) :
    Rel Tidy (sendAppendEntries (σ := σ) (E := E) dst startIdx) :=
  Rel.get_bind fun _ => Rel.bind Tidy.trans (sendAppendEntriesLoop_tidy _ _ _ _ _ _)
    fun _ => Rel.ite (sendAppendEntriesRange_tidy _ _ _) (Rel.pure Tidy.refl _)

theorem confirmedIdx_tidy (c : Configuration) : Rel Tidy (confirmedIdx (σ := σ) (E := E) c) := by
  apply Rel.get_bind
  intro t
  refine Rel.bind Tidy.trans (Rel.mapM Tidy.refl Tidy.trans fun node => ?_) fun _ => ?_
  · split
    · exact Rel.pure Tidy.refl _
    · split
      · exact Rel.pure Tidy.refl _
      · exact Rel.throw Tidy.refl _
  · dsimp only
    split
    · exact Rel.pure Tidy.refl _
    · exact Rel.throw Tidy.refl _

theorem sendAppendEntriesResponse_tidy (dst : NodeId) (answer : Bool) :
    Rel Tidy (sendAppendEntriesResponse (σ := σ) (E := E) dst answer) :=
  Rel.get_bind fun _ => send_tidy _ _

theorem sendRequestVote_tidy (dst : NodeId) : Rel Tidy (sendRequestVote (σ := σ) (E := E) dst) :=
  Rel.get_bind fun _ => send_tidy _ _

theorem sendRequestVoteResponse_tidy (dst : NodeId) (answer : Bool) :
    Rel Tidy (sendRequestVoteResponse (σ := σ) (E := E) dst answer) :=
  Rel.get_bind fun _ => send_tidy _ _

theorem resetNodes_tidy (next : Index) (ids : List NodeId) :
    Rel Tidy (resetNodes (σ := σ) (E := E) next ids) := by
  induction ids with
  | nil => exact Rel.pure Tidy.refl _
  | cons id ids ih =>
      exact Rel.bind Tidy.trans (Rel.modify fun _ => updateNode_tidy _ _ _)
        fun _ => Rel.bind Tidy.trans (sendAppendEntries_tidy _ _) fun _ => ih

end Tidy

/-! ## Rebuilding the node list -/

section Nodes

theorem Raft.marks_eq {s s' : Raft σ E} : s'.marks = s.marks ↔
    s'.commitIdx = s.commitIdx ∧ s'.lastIdx = s.lastIdx ∧
      s'.committableIndices = s.committableIndices ∧ s'.configurations = s.configurations ∧
      s'.localId = s.localId := by
  simp [Raft.marks]

/-- A call that returns from `s` and leaves the bookkeeping alone, followed by another that does
so from wherever the first stopped. -/
theorem returns_bind {α β : Type} {x : RaftM σ E α} {f : α → RaftM σ E β} {s : Raft σ E}
    (hx : wp x (fun _ s' => Tidy s s') (fun _ => False) s)
    (hf : ∀ a s₁, Tidy s s₁ → wp (f a) (fun _ s' => Tidy s₁ s') (fun _ => False) s₁) :
    wp (x >>= f) (fun _ s' => Tidy s s') (fun _ => False) s := by
  rw [wp_bind]
  refine wp_mono hx (fun a s₁ h₁ => ?_) (fun _ h => h)
  exact wp_mono (hf a s₁ h₁) (fun _ _ h₂ => Tidy.trans _ _ _ h₁ h₂) (fun _ h => h)

/-- `send_append_entries_range` to a node it knows finds it, and returns. -/
theorem sendAppendEntriesRange_returns {s : Raft σ E} {dst : NodeId}
    (hd : dst ∈ s.nodes.map Prod.fst) (startIdx endIdx : Index) :
    wp (sendAppendEntriesRange dst startIdx endIdx) (fun _ s' => Tidy s s') (fun _ => False) s := by
  obtain ⟨ns, hns⟩ := Option.isSome_iff_exists.mp ((lookup_isSome_iff_mem_keys _ _).mpr hd)
  simp only [sendAppendEntriesRange, send, wp_bind, wp_get, hns, wp_modify]
  exact ⟨rfl, by simp only [updateNode_keys]⟩

theorem sendAppendEntriesLoop_returns (dst : NodeId) (lastIdx batch : Index) (fuel : Nat) :
    ∀ (startIdx i : Index) (s : Raft σ E), dst ∈ s.nodes.map Prod.fst →
      wp (sendAppendEntriesLoop dst lastIdx batch fuel startIdx i) (fun _ s' => Tidy s s')
        (fun _ => False) s := by
  induction fuel with
  | zero => exact fun _ _ s _ => Tidy.refl s
  | succ n ih =>
      intro startIdx i s hd
      unfold sendAppendEntriesLoop
      split
      · refine returns_bind (sendAppendEntriesRange_returns hd _ _) fun _ s₁ h₁ => ?_
        -- the ranges sent move no key, so the node is still known
        exact ih _ _ s₁ (by rw [h₁.2]; exact hd)
      · exact Tidy.refl s

/-- `send_append_entries` to a node it knows returns. -/
theorem sendAppendEntries_returns {s : Raft σ E} {dst : NodeId}
    (hd : dst ∈ s.nodes.map Prod.fst) (startIdx : Index) :
    wp (sendAppendEntries dst startIdx) (fun _ s' => Tidy s s') (fun _ => False) s := by
  simp only [sendAppendEntries, wp_bind, wp_get]
  refine wp_mono (sendAppendEntriesLoop_returns _ _ _ _ _ _ s hd) (fun _ s₁ h₁ => ?_) (fun _ h => h)
  -- the last range, if any, goes to the same node
  refine wp_ite_of (fun _ => ?_) (fun _ => h₁)
  exact wp_mono (sendAppendEntriesRange_returns (by rw [h₁.2]; exact hd) _ _)
    (fun _ _ h₂ => Tidy.trans _ _ _ h₁ h₂) (fun _ h => h)

/-- The loop of `create_and_remove_node_state` adds each member it does not know but itself, and
returns. -/
theorem addMissingNodes_returns (ids : List NodeId) (s : Raft σ E) :
    wp (addMissingNodes ids) (fun _ s' => s'.marks = s.marks ∧
      ∀ id, id ∈ s'.nodes.map Prod.fst ↔ id ∈ s.nodes.map Prod.fst ∨ (id ∈ ids ∧ id ≠ s.localId))
      (fun _ => False) s := by
  induction ids generalizing s with
  | nil => exact ⟨rfl, fun id => by simp⟩
  | cons id ids ih =>
      simp only [addMissingNodes, wp_bind, wp_get]
      split
      · next hnew =>
        -- a member it does not know: recorded, and sent the log if this node leads
        let s₁ : Raft σ E :=
          { s with nodes := s.nodes ++ [(id, ({ matchIdx := 0, sentIdx := s.lastIdx + 1 } : NodeState))] }
        have hrest : ∀ s₂, Tidy s₁ s₂ → wp (addMissingNodes ids) (fun _ s' => s'.marks = s.marks ∧
            ∀ id', id' ∈ s'.nodes.map Prod.fst ↔
              id' ∈ s.nodes.map Prod.fst ∨ (id' ∈ id :: ids ∧ id' ≠ s.localId)) (fun _ => False) s₂ := by
          intro s₂ h₂
          have hl : s₂.localId = s.localId := (Raft.marks_eq.mp h₂.1).2.2.2.2
          refine wp_mono (ih s₂) ?_ (fun _ h => h)
          rintro _ s' ⟨hm, hk⟩
          refine ⟨hm.trans h₂.1, fun id' => ?_⟩
          rw [hk id', h₂.2, hl]
          simp only [s₁, List.map_append, List.mem_append, List.map_cons, List.map_nil,
            List.mem_cons, List.not_mem_nil, or_false]
          have hid : id ≠ s.localId := hnew.1
          constructor
          · rintro ((h | rfl) | h)
            · exact Or.inl h
            · exact Or.inr ⟨Or.inl rfl, hid⟩
            · exact Or.inr ⟨Or.inr h.1, h.2⟩
          · rintro (h | ⟨rfl | h, hne⟩)
            · exact Or.inl (Or.inl h)
            · exact Or.inl (Or.inr rfl)
            · exact Or.inr ⟨h, hne⟩
        simp only [wp_bind, wp_modify]
        split
        · rw [wp_bind]
          exact wp_mono (sendAppendEntries_returns (s := s₁) (by simp [s₁]) _)
            (fun _ s₂ h₂ => hrest s₂ h₂) (fun _ h => h)
        · exact hrest s₁ (Tidy.refl s₁)
      · next hold =>
        -- itself, or a node it already knows: skipped
        refine wp_mono (ih s) ?_ (fun _ h => h)
        rintro _ s' ⟨hm, hk⟩
        refine ⟨hm, fun id' => ?_⟩
        rw [hk id']
        constructor
        · rintro (h | ⟨h, hne⟩)
          · exact Or.inl h
          · exact Or.inr ⟨List.mem_cons_of_mem _ h, hne⟩
        · rintro (h | ⟨h, hne⟩)
          · exact Or.inl h
          · rcases List.mem_cons.mp h with rfl | h
            · -- the node skipped is one it knows already
              have hknown : (s.nodes.lookup id').isSome := by
                by_contra hnone
                exact hold ⟨hne, Option.isNone_iff_eq_none.mpr (Option.not_isSome_iff_eq_none.mp hnone)⟩
              exact Or.inl ((lookup_isSome_iff_mem_keys _ _).mp hknown)
            · exact Or.inr ⟨h, hne⟩

theorem mem_keys_filter (nodes : List (NodeId × NodeState)) (l : List NodeId) (id : NodeId) :
    id ∈ (nodes.filter fun p => decide (p.1 ∈ l)).map Prod.fst ↔
      id ∈ nodes.map Prod.fst ∧ id ∈ l := by
  simp only [List.mem_map, List.mem_filter, decide_eq_true_eq]
  constructor
  · rintro ⟨p, ⟨hp, hl⟩, rfl⟩
    exact ⟨⟨p, hp, rfl⟩, hl⟩
  · rintro ⟨⟨p, hp, rfl⟩, hl⟩
    exact ⟨p, ⟨hp, hl⟩, rfl⟩

/-- `create_and_remove_node_state` keeps the nodes it knows that are members, adds the members
it does not know but itself, and returns. -/
theorem createAndRemoveNodeState_returns (s : Raft σ E) :
    wp createAndRemoveNodeState (fun _ s' => s'.marks = s.marks ∧
      ∀ id, id ∈ s'.nodes.map Prod.fst ↔
        id ∈ activeNodes s.configurations ∧ (id ∈ s.nodes.map Prod.fst ∨ id ≠ s.localId))
      (fun _ => False) s := by
  simp only [createAndRemoveNodeState, wp_bind, wp_get, wp_modify]
  refine wp_mono (addMissingNodes_returns _ _) ?_ (fun _ h => h)
  rintro _ s' ⟨hm, hk⟩
  refine ⟨hm, fun id => ?_⟩
  rw [hk id]
  dsimp only
  rw [mem_keys_filter]
  constructor
  · rintro (⟨hk, ha⟩ | ⟨ha, hne⟩)
    · exact ⟨ha, Or.inl hk⟩
    · exact ⟨ha, Or.inr hne⟩
  · rintro ⟨ha, hk | hne⟩
    · exact Or.inl ⟨hk, ha⟩
    · exact Or.inr ⟨ha, hne⟩

/-- From indices and configurations in order, and a node list without itself,
`create_and_remove_node_state` returns with the whole bookkeeping in order. -/
theorem createAndRemoveNodeState_books {s : Raft σ E} (hm : Marks s)
    (hl : s.localId ∉ s.nodes.map Prod.fst) :
    wp createAndRemoveNodeState (fun _ s' => Books s') (fun _ => False) s := by
  refine wp_mono (createAndRemoveNodeState_returns s) ?_ (fun _ h => h)
  rintro _ s' ⟨hm', hk⟩
  obtain ⟨-, -, -, hc, hid⟩ := Raft.marks_eq.mp hm'
  refine ⟨hm.congr hm', fun id => ?_⟩
  rw [hk id, hc, hid]
  constructor
  · rintro ⟨ha, hk | hne⟩
    · exact ⟨ha, fun h => hl (h ▸ hk)⟩
    · exact ⟨ha, hne⟩
  · rintro ⟨ha, hne⟩
    exact ⟨ha, Or.inr hne⟩

end Nodes

/-! ## The methods that change the bookkeeping -/

section Keeps

theorem keep_of_tidy {α : Type} {x : RaftM σ E α} (h : Rel Tidy x) : Rel (Keep Books) x :=
  Rel.mono (fun _ _ ht => ht.keep) h

theorem modify_keepsBooks {f : Raft σ E → Raft σ E} (h : ∀ s, Tidy s (f s)) :
    Rel (Keep Books) (modify f : RaftM σ E PUnit) :=
  Rel.modify fun s => (h s).keep

/-- Going on with a method that keeps the bookkeeping, from a state where it holds. -/
theorem wp_books {α : Type} {x : RaftM σ E α} (hx : Rel (Keep Books) x) {s : Raft σ E}
    (hs : Books s) : wp x (fun _ s' => Books s') (fun s' => Books s') s :=
  wp_of_rel hx (fun _ _ h => h hs) (fun _ h => h hs)

/-- What `rollback` and `commit` do once they have dropped configurations: rebuild the node list
if any was dropped. When none was, the node list is still right. -/
theorem reconfigure_books {t t₁ : Raft σ E} {c : Prop} [Decidable c] (hbt : Books t)
    (hm : Marks t₁) (hl : t₁.localId = t.localId)
    (hk : t₁.nodes.map Prod.fst = t.nodes.map Prod.fst)
    (hkept : ¬c → t₁.configurations = t.configurations) :
    wp (if c then createAndRemoveNodeState else pure ()) (fun _ s' => Books s')
      (fun s' => Books s') t₁ := by
  refine wp_ite_of (fun _ => ?_) (fun hc => ⟨hm, fun id => ?_⟩)
  · have hnot : t₁.localId ∉ t₁.nodes.map Prod.fst := by
      rw [hk, hl]
      exact hbt.localId_not_mem
    exact wp_mono (createAndRemoveNodeState_books hm hnot) (fun _ _ h => h) (fun _ h => h.elim)
  · rw [hk, hkept hc, hl]
    exact hbt.nodes_keys id

/-- A new commit index `idx`, at most the last index and below every committable index. -/
theorem Books.commitTo {t t' : Raft σ E} (h : Books t) {idx : Index} (hle : idx ≤ t.lastIdx)
    (hcl : ∀ j ∈ t.committableIndices, idx < j)
    (hm : t'.marks = (idx, t.lastIdx, t.committableIndices, t.configurations, t.localId))
    (hk : t'.nodes.map Prod.fst = t.nodes.map Prod.fst) : Books t' := by
  refine h.of_indices hm hk hle h.committable_sorted fun j hj => ?_
  exact ⟨hcl j hj, (h.committable_mem j hj).2⟩

/-- `add_configuration` of a configuration at an index no lower than those the node holds. -/
theorem addConfiguration_books (c : Configuration) :
    Rel (fun s s' => Books s ∧ (∀ c' ∈ s.configurations, c'.idx ≤ c.idx) → Books s')
      (addConfiguration (σ := σ) (E := E) c) := by
  refine Rel.of_pre fun s ⟨hb, hc⟩ => ?_
  simp only [addConfiguration, wp_bind, wp_modify]
  -- appended last, the configuration keeps them in order; the node list is then rebuilt
  have hsorted : ((s.configurations ++ [c]).map (·.idx)).Pairwise (· ≤ ·) := by
    rw [List.map_append, List.pairwise_append]
    refine ⟨hb.configurations_sorted, List.pairwise_singleton _ _, fun a ha b hb' => ?_⟩
    obtain ⟨c', hc', rfl⟩ := List.mem_map.mp ha
    rw [List.map_singleton, List.mem_singleton] at hb'
    rw [hb']
    exact hc c' hc'
  have hm : Marks { s with configurations := s.configurations ++ [c] } :=
    ⟨hb.commit_le, hb.committable_sorted, hb.committable_mem, hsorted⟩
  exact wp_mono (createAndRemoveNodeState_books hm hb.localId_not_mem) (fun _ _ h => h)
    (fun _ h => h.elim)

variable [RaftStore σ E]

theorem rollback_books (idx : Index) : Rel (Keep Books) (rollback (σ := σ) (E := E) idx) := by
  refine Rel.of_pre fun s hb => ?_
  simp only [rollback, wp_bind]
  refine wp_of_rel (liftStore_tidy _) (fun _ t ht => ?_) (fun t ht => hb.congr ht)
  have hbt := hb.congr ht
  simp only [wp_get, wp_modify]
  -- both lists are cut to a prefix; if no configuration went, the configurations are unchanged
  have hci := trim_prefix (fun i => decide (i > idx)) t.committableIndices
  have hcf := trim_prefix (fun c => decide (c.idx > idx)) t.configurations
  exact reconfigure_books hbt (hbt.toMarks.of_sublist rfl rfl hci.sublist hcf.sublist) rfl rfl
    fun hsame => hcf.eq_of_length (not_not.mp hsame)

/-- `commit(idx)` keeps the bookkeeping when every committable index left is above `idx`, as
`commit_if_possible` and `become_leader` make sure. -/
theorem commit_books (idx : Index) :
    Rel (fun s s' => Books s ∧ (∀ j ∈ s.committableIndices, idx < j) → Books s')
      (commit (σ := σ) (E := E) idx) := by
  refine Rel.of_pre fun s ⟨hb, hcl⟩ => ?_
  simp only [commit, wp_bind, wp_get]
  refine wp_ite_of (fun _ => hb) fun hle => wp_ite_of (fun _ => hb) fun _ => ?_
  simp only [wp_bind, wp_modify]
  have hb₁ : Books { s with commitIdx := idx } := hb.commitTo (Nat.le_of_not_lt hle) hcl rfl rfl
  refine wp_of_rel (liftStore_tidy _) (fun _ t ht => ?_) (fun t ht => hb₁.congr ht)
  have hbt := hb₁.congr ht
  simp only [wp_get]
  -- the configurations already committed are dropped from the front
  have hcf := dropCommittedConfigurations_suffix idx t.configurations
  exact reconfigure_books hbt (hbt.toMarks.of_sublist rfl rfl (List.Sublist.refl _) hcf.sublist)
    rfl rfl fun hsame => hcf.eq_of_length (not_not.mp hsame)

theorem commitIfPossible_books (idx : Index) :
    Rel (Keep Books) (commitIfPossible (σ := σ) (E := E) idx) := by
  refine Rel.of_pre fun s hb => ?_
  simp only [commitIfPossible, wp_bind, wp_get]
  refine wp_ite_of (fun _ => ?_) (fun _ => hb)
  simp only [wp_bind, wp_modify]
  -- the indices up to `idx` are popped, and what is left is above `idx`
  have hsuffix := List.dropWhile_suffix (l := s.committableIndices) (fun i => decide (i ≤ idx))
  have hb₁ : Books { s with
      committableIndices := s.committableIndices.dropWhile fun i => decide (i ≤ idx) } :=
    ⟨hb.toMarks.of_sublist rfl rfl hsuffix.sublist (List.Sublist.refl _), hb.nodes_keys⟩
  split
  · rename_i highest hlast
    -- the highest index popped is at most `idx`, so below every index left
    have hh : highest ≤ idx := by
      simpa using List.mem_takeWhile_imp (List.mem_of_getLast? hlast)
    have hcl : ∀ j ∈ (s.committableIndices.dropWhile fun i => decide (i ≤ idx)), highest < j :=
      fun j hj => Nat.lt_of_le_of_lt hh (lt_of_mem_dropWhile hb.committable_sorted idx j hj)
    exact wp_of_rel (commit_books highest) (fun _ _ h => h ⟨hb₁, hcl⟩) (fun _ h => h ⟨hb₁, hcl⟩)
  · exact hb₁

theorem updateCommit_books : Rel (Keep Books) (updateCommit (σ := σ) (E := E)) := by
  apply Rel.get_bind
  intro t
  refine Rel.bind Keep.trans
    (Rel.foldlM Keep.refl Keep.trans (fun _ c => Rel.bind Keep.trans
      (keep_of_tidy (confirmedIdx_tidy c)) fun _ => Rel.pure Keep.refl _) _)
    fun _ => Rel.get_bind fun _ => ?_
  exact Rel.ite (Rel.throw Keep.refl _) (commitIfPossible_books _)

theorem becomeFollower_books (draw : Int) (term : Term) :
    Rel (Keep Books) (becomeFollower (σ := σ) (E := E) draw term) :=
  Rel.bind Keep.trans (modify_keepsBooks fun _ => ⟨rfl, rfl⟩) fun _ =>
    Rel.bind Keep.trans (keep_of_tidy (restartElectionTimeout_tidy _)) fun _ =>
      Rel.bind Keep.trans (modify_keepsBooks fun _ => ⟨rfl, rfl⟩) fun _ =>
        Rel.get_bind fun _ => Rel.bind Keep.trans (rollback_books _) fun _ =>
          Rel.modify fun _ hb => hb.clear rfl rfl

theorem becomeLeader_books : Rel (Keep Books) (becomeLeader (σ := σ) (E := E)) := by
  apply Rel.get_bind
  intro t
  -- whether or not it rolls back first, it goes on the same way
  extract_lets rest
  have hrest : ∀ u, Rel (Keep Books) (rest u) := by
    intro u
    refine Rel.of_pre fun s hb => ?_
    simp only [rest, wp_bind, wp_modify, wp_get]
    have hb₁ : Books
        { s with committableIndices := [], state := .Leader, leaderId := some s.localId,
                 timeoutElapsed := 0 } := hb.clear rfl rfl
    -- with no committable index left, a node alone commits its whole log
    have hcl : ∀ j ∈ ([] : List Index), s.lastIdx < j := fun j hj => absurd hj List.not_mem_nil
    refine wp_ite_of (fun _ => ?_) (fun _ => ?_)
    · exact wp_of_rel (commit_books _) (fun _ _ h => h ⟨hb₁, hcl⟩) (fun _ h => h ⟨hb₁, hcl⟩)
    · exact wp_of_rel (resetNodes_tidy _ _) (fun _ _ h => hb₁.congr h) (fun _ h => hb₁.congr h)
  exact Rel.ite (Rel.bind Keep.trans (rollback_books _) hrest) (hrest ())

theorem addVoteForMe_books (fromNode : NodeId) :
    Rel (Keep Books) (addVoteForMe (σ := σ) (E := E) fromNode) :=
  Rel.bind Keep.trans (modify_keepsBooks fun _ => ⟨rfl, rfl⟩) fun _ =>
    Rel.get_bind fun _ => Rel.ite becomeLeader_books (Rel.pure Keep.refl _)

theorem becomeCandidate_books (draw : Int) :
    Rel (Keep Books) (becomeCandidate (σ := σ) (E := E) draw) :=
  Rel.bind Keep.trans (modify_keepsBooks fun _ => ⟨rfl, rfl⟩) fun _ =>
    Rel.bind Keep.trans (keep_of_tidy (restartElectionTimeout_tidy _)) fun _ =>
      Rel.get_bind fun _ => Rel.bind Keep.trans (addVoteForMe_books _) fun _ =>
        Rel.get_bind fun _ =>
          Rel.forM Keep.refl Keep.trans fun p _ => keep_of_tidy (sendRequestVote_tidy p.1)

theorem appendEntriesLoop_books (fromNode : NodeId) (n : Nat) :
    ∀ (i : Index) (isFirstEntry : Bool) (data : List E),
      Rel (Keep Books) (appendEntriesLoop (σ := σ) fromNode n i isFirstEntry data) := by
  induction n with
  | zero => exact fun _ _ _ => Rel.pure Keep.refl _
  | succ n ih =>
      intro i isFirstEntry data
      refine Rel.of_pre fun s hb => ?_
      simp only [appendEntriesLoop, wp_bind, wp_get]
      refine wp_ite_of (fun _ => ?skip) fun hnew => wp_ite_of (fun _ => ?suspended) fun _ => ?record
      case skip =>
        cases data with
        | nil => exact hb
        | cons _ rest => exact wp_books (ih _ _ _) hb
      case suspended =>
        rw [wp_bind]
        exact wp_books (Rel.bind Keep.trans (keep_of_tidy (sendAppendEntriesResponse_tidy _ _))
          fun _ => Rel.pure Keep.refl _) hb
      case record =>
        -- the entry becomes the last one, past every committable index
        have hlt : s.lastIdx < i := Nat.lt_of_not_le hnew
        have hb₁ : Books { s with lastIdx := i } := hb.raise hlt.le rfl rfl
        simp only [wp_bind, wp_modify]
        cases data with
        | nil => exact hb₁
        | cons e rest =>
            simp only [wp_bind, wp_modify]
            refine wp_of_rel (liftStore_tidy _) (fun p t ht => ?_) (fun t ht => hb₁.congr ht)
            obtain ⟨res, sigTerm⟩ := p
            cases res with
            | FAILED => exact hb₁.congr ht
            | PASS => exact wp_books (ih _ _ _) (hb₁.congr ht)
            | PASS_SIGNATURE =>
                simp only [wp_bind, wp_modify]
                -- a signature: the entry is also committable
                obtain ⟨hc, hl, hci, hcf, hid⟩ := Raft.marks_eq.mp ht.1
                refine wp_books (ih _ _ _) (hb.push hlt ?_ ht.2)
                show (t.commitIdx, t.lastIdx, t.committableIndices ++ [i], t.configurations,
                  t.localId) = _
                rw [hc, hl, hci, hcf, hid]

theorem acceptAppendEntries_books (r : AppendEntries) (prevTerm : Term) (data : List E) :
    Rel (Keep Books) (acceptAppendEntries (σ := σ) r prevTerm data) :=
  Rel.ite (keep_of_tidy (sendAppendEntriesResponse_tidy _ _)) <|
    Rel.bind Keep.trans (appendEntriesLoop_books _ _ _ _ _) fun _ =>
      Rel.ite (Rel.bind Keep.trans (modify_keepsBooks fun _ => ⟨rfl, rfl⟩) fun _ =>
        Rel.bind Keep.trans (keep_of_tidy (sendAppendEntriesResponse_tidy _ _)) fun _ =>
          Rel.bind Keep.trans (commitIfPossible_books _) fun _ =>
            modify_keepsBooks fun _ => ⟨rfl, rfl⟩) (Rel.pure Keep.refl _)

theorem recvAppendEntries_books (draw : Int) (r : AppendEntries) (data : List E) :
    Rel (Keep Books) (recvAppendEntries (σ := σ) draw r data) := by
  apply Rel.get_bind
  intro t
  -- stepping down first or not, the rest is a response or an acceptance
  have hstep : Rel (Keep Books) (becomeFollower (σ := σ) (E := E) draw r.term >>= fun _ =>
      acceptAppendEntries r (t.getTermInternal r.prevIdx) data) :=
    Rel.bind Keep.trans (becomeFollower_books _ _) fun _ => acceptAppendEntries_books _ _ _
  exact Rel.ite (Rel.pure Keep.refl _) <|
    Rel.bind Keep.trans (keep_of_tidy (restartElectionTimeout_tidy _)) fun _ =>
      Rel.ite hstep <| Rel.ite hstep <|
        Rel.ite (keep_of_tidy (sendAppendEntriesResponse_tidy _ _)) (acceptAppendEntries_books _ _ _)

theorem recvAppendEntriesResponse_books (draw : Int) (r : AppendEntriesResponse) :
    Rel (Keep Books) (recvAppendEntriesResponse (σ := σ) (E := E) draw r) := by
  apply Rel.get_bind
  intro t
  refine Rel.ite (Rel.pure Keep.refl _) ?_
  split
  · exact Rel.pure Keep.refl _
  · -- the fall-through: record the match index, then resend or try to commit
    extract_lets update
    have hu : Rel (Keep Books) update :=
      Rel.get_bind fun _ => Rel.bind Keep.trans (modify_keepsBooks fun _ => updateNode_tidy _ _ _)
        fun _ => Rel.ite (keep_of_tidy (sendAppendEntries_tidy _ _)) updateCommit_books
    exact Rel.ite (becomeFollower_books _ _) <|
      Rel.ite (Rel.ite (Rel.pure Keep.refl _) hu) <|
        Rel.ite (Rel.ite (Rel.pure Keep.refl _) hu) hu

theorem recvRequestVote_books (draw : Int) (r : RequestVote) :
    Rel (Keep Books) (recvRequestVote (σ := σ) (E := E) draw r) := by
  apply Rel.get_bind
  intro t
  refine Rel.ite (Rel.pure Keep.refl _)
    (Rel.ite (keep_of_tidy (sendRequestVoteResponse_tidy _ _)) ?_)
  extract_lets rest
  have hrest : ∀ u, Rel (Keep Books) (rest u) := by
    intro u
    apply Rel.get_bind
    intro s
    refine Rel.ite (keep_of_tidy (sendRequestVoteResponse_tidy _ _)) ?_
    dsimp only
    -- the answer is sent whether or not the vote is granted
    exact Rel.ite (Rel.bind Keep.trans (keep_of_tidy (restartElectionTimeout_tidy _)) fun _ =>
        Rel.bind Keep.trans (modify_keepsBooks fun _ => ⟨rfl, rfl⟩) fun _ =>
          keep_of_tidy (sendRequestVoteResponse_tidy _ _))
      (keep_of_tidy (sendRequestVoteResponse_tidy _ _))
  exact Rel.ite (Rel.bind Keep.trans (becomeFollower_books _ _) hrest) (hrest ())

theorem recvRequestVoteResponse_books (draw : Int) (r : RequestVoteResponse) :
    Rel (Keep Books) (recvRequestVoteResponse (σ := σ) (E := E) draw r) :=
  Rel.get_bind fun _ => Rel.ite (Rel.pure Keep.refl _) <| Rel.ite (Rel.pure Keep.refl _) <|
    Rel.ite (becomeFollower_books _ _) <| Rel.ite (Rel.pure Keep.refl _) <|
      Rel.ite (Rel.pure Keep.refl _) (addVoteForMe_books _)

theorem replicateLoop_books (entries : List (Index × E × Bool)) :
    Rel (Keep Books) (replicateLoop (σ := σ) entries) := by
  induction entries with
  | nil => exact Rel.pure Keep.refl _
  | cons entry rest ih =>
      obtain ⟨index, data, globallyCommittable⟩ := entry
      refine Rel.of_pre fun s hb => ?_
      simp only [replicateLoop, wp_bind, wp_get]
      refine wp_ite_of (fun _ => hb) fun hnext => ?_
      -- the entry at `last_idx + 1` becomes the last, and committable if it is globally so
      have hlt : s.lastIdx < index := by
        rw [not_not.mp hnext]
        exact Nat.lt_succ_self _
      have hb₁ : ∀ t : Raft σ E, t.marks = (s.commitIdx, index,
          (if globallyCommittable then s.committableIndices ++ [index] else s.committableIndices),
          s.configurations, s.localId) → t.nodes.map Prod.fst = s.nodes.map Prod.fst → Books t := by
        intro t hm hk
        cases globallyCommittable
        · exact hb.raise hlt.le hm hk
        · exact hb.push hlt hm hk
      simp only [wp_bind, wp_modify, wp_get]
      refine wp_ite_of (fun _ => wp_books ?_ (hb₁ _ rfl rfl)) (fun _ => wp_books ih (hb₁ _ rfl rfl))
      exact Rel.bind Keep.trans (keep_of_tidy updateBatchSize_tidy) fun _ =>
        Rel.bind Keep.trans (modify_keepsBooks fun _ => ⟨rfl, rfl⟩) fun _ =>
          Rel.get_bind fun _ =>
            Rel.bind Keep.trans (Rel.forM Keep.refl Keep.trans fun p _ =>
              keep_of_tidy (sendAppendEntries_tidy p.1 _)) fun _ => ih

theorem replicate_books (entries : List (Index × E × Bool)) :
    Rel (Keep Books) (replicate (σ := σ) entries) := by
  apply Rel.get_bind
  intro t
  refine Rel.ite (Rel.bind Keep.trans (rollback_books _) fun _ => Rel.pure Keep.refl _)
    (Rel.bind Keep.trans (replicateLoop_books _) fun _ => ?_)
  refine Rel.ite (Rel.pure Keep.refl _) (Rel.get_bind fun _ => ?_)
  dsimp only
  exact Rel.ite (Rel.bind Keep.trans updateCommit_books fun _ => Rel.pure Keep.refl _)
    (Rel.pure Keep.refl _)

theorem periodic_books (draw elapsed : Int) :
    Rel (Keep Books) (periodic (σ := σ) (E := E) draw elapsed) :=
  Rel.bind Keep.trans (modify_keepsBooks fun _ => ⟨rfl, rfl⟩) fun _ =>
    Rel.get_bind fun _ => Rel.ite
      (Rel.ite (Rel.bind Keep.trans (modify_keepsBooks fun _ => ⟨rfl, rfl⟩) fun _ =>
        Rel.bind Keep.trans (keep_of_tidy updateBatchSize_tidy) fun _ => Rel.get_bind fun _ =>
          Rel.forM Keep.refl Keep.trans fun p _ => keep_of_tidy (sendAppendEntries_tidy p.1 _))
        (Rel.pure Keep.refl _))
      (Rel.ite (becomeCandidate_books _) (Rel.pure Keep.refl _))

theorem recvMessage_books (draw : Int) (m : RaftMsg E) :
    Rel (Keep Books) (recvMessage (σ := σ) draw m) := by
  cases m with
  | appendEntries ae data => exact recvAppendEntries_books draw ae data
  | appendEntriesResponse r => exact recvAppendEntriesResponse_books draw r
  | requestVote r => exact recvRequestVote_books draw r
  | requestVoteResponse r => exact recvRequestVoteResponse_books draw r

end Keeps

/-! ## Every run of a node -/

/-- A call into a node through the methods the host and the node's store use:
`add_configuration`, `replicate`, `recv_message` and `periodic`. -/
inductive NodeCall (E : Type) where
  | addConfiguration (c : Configuration)
  | replicate (entries : List (Index × E × Bool))
  | recvMessage (draw : Int) (m : RaftMsg E)
  | periodic (draw elapsed : Int)

section Run

variable [RaftStore σ E]

/-- The method a call runs. -/
def NodeCall.op : NodeCall E → RaftM σ E Unit
  | .addConfiguration c => Ccf.Raft.addConfiguration c
  | .replicate entries => do
      let _ ← Ccf.Raft.replicate entries
      pure ()
  | .recvMessage draw m => Ccf.Raft.recvMessage draw m
  | .periodic draw elapsed => Ccf.Raft.periodic draw elapsed

/-- The node after a sequence of calls, each made from the state the one before left, whether
it returned or threw. -/
def NodeCall.runAll : Raft σ E → List (NodeCall E) → Raft σ E
  | r, [] => r
  | r, c :: cs => NodeCall.runAll (c.op r).state cs

/-- A call made at the right point: an `add_configuration` at an index no lower than those of
the configurations the node holds. -/
def NodeCall.InOrder (r : Raft σ E) : NodeCall E → Prop
  | .addConfiguration c => ∀ c' ∈ r.configurations, c'.idx ≤ c.idx
  | _ => True

/-- Every call of the sequence made at the right point. -/
def NodeCall.AllInOrder : Raft σ E → List (NodeCall E) → Prop
  | _, [] => True
  | r, c :: cs => c.InOrder r ∧ NodeCall.AllInOrder (c.op r).state cs

/-- One call keeps the bookkeeping. -/
theorem NodeCall.op_books {r : Raft σ E} (hb : Books r) {c : NodeCall E} (hc : c.InOrder r) :
    Books (c.op r).state := by
  cases c with
  | addConfiguration c => exact (addConfiguration_books c).state r ⟨hb, hc⟩
  | replicate entries =>
      exact (Rel.bind Keep.trans (replicate_books entries) fun _ => Rel.pure Keep.refl _).state r hb
  | recvMessage draw m => exact (recvMessage_books draw m).state r hb
  | periodic draw elapsed => exact (periodic_books draw elapsed).state r hb

/-- Every sequence of calls made at the right points keeps the bookkeeping. -/
theorem NodeCall.runAll_books {r : Raft σ E} (hb : Books r) {cs : List (NodeCall E)}
    (hcs : NodeCall.AllInOrder r cs) : Books (NodeCall.runAll r cs) := by
  induction cs generalizing r with
  | nil => exact hb
  | cons c cs ih => exact ih (NodeCall.op_books hb hcs.1) hcs.2

end Run

theorem Books.init (store : σ) (id : NodeId) (requestTimeout electionTimeout : Int)
    (publicOnly : Bool) :
    Books (Raft.init (E := E) store id requestTimeout electionTimeout publicOnly) := by
  refine ⟨⟨Nat.le_refl 0, List.Pairwise.nil, fun i hi => absurd hi List.not_mem_nil,
    List.Pairwise.nil⟩, fun n => ?_⟩
  -- no configuration and no node
  simp [Raft.init, activeNodes]

/-- Every member of an active configuration but the node itself is a node it knows, so the
`nodes.at` of `update_commit` finds it. -/
theorem Books.lookup_isSome {r : Raft σ E} (h : Books r) {c : Configuration}
    (hc : c ∈ r.configurations) {n : NodeId} (hn : n ∈ c.nodes) (hne : n ≠ r.localId) :
    (r.nodes.lookup n).isSome := by
  have hactive : n ∈ activeNodes r.configurations := by
    rw [activeNodes, List.mem_eraseDups, List.mem_flatMap]
    exact ⟨c, hc, hn⟩
  exact (lookup_isSome_iff_mem_keys _ _).mpr ((h.nodes_keys n).mpr ⟨hactive, hne⟩)

/-- From its construction on, through any sequence of `add_configuration`, `replicate`,
`recv_message` and `periodic` with the configurations added in order of index, a node keeps its
committable indices increasing and within `(commit_idx, last_idx]`, its configurations in order,
and exactly the other members of its active configurations as its nodes, so that `nodes.at` in
`update_commit` finds every member. -/
theorem raft_bookkeeping [RaftStore σ E] (store : σ) (id : NodeId)
    (requestTimeout electionTimeout : Int) (publicOnly : Bool) (cs : List (NodeCall E))
    (hcs : NodeCall.AllInOrder (Raft.init store id requestTimeout electionTimeout publicOnly) cs) :
    let r := NodeCall.runAll (Raft.init store id requestTimeout electionTimeout publicOnly) cs
    Books r ∧ ∀ c ∈ r.configurations, ∀ n ∈ c.nodes, n ≠ r.localId → (r.nodes.lookup n).isSome := by
  intro r
  have hb : Books r := NodeCall.runAll_books (Books.init _ _ _ _ _) hcs
  exact ⟨hb, fun c hc n hn hne => hb.lookup_isSome hc hn hne⟩

/-- A cluster of three nodes, 1 to 3. -/
def threeMembers : Configuration := ⟨0, [1, 2, 3], by decide⟩

/-- Node 1 given the configuration of three nodes, then a tick, then an entry to replicate. -/
theorem raft_bookkeeping_threeNodes :
    NodeCall.AllInOrder (Raft.init ⟨1⟩ 1 100 500 false : Raft LoggingStubStore (List UInt8))
        [.addConfiguration threeMembers, .periodic 0 600, .replicate [(1, [7], true)]] ∧
      let r := NodeCall.runAll (Raft.init ⟨1⟩ 1 100 500 false : Raft LoggingStubStore (List UInt8))
        [.addConfiguration threeMembers, .periodic 0 600, .replicate [(1, [7], true)]]
      Books r ∧ ∀ c ∈ r.configurations, ∀ n ∈ c.nodes, n ≠ r.localId → (r.nodes.lookup n).isSome :=
  ⟨⟨fun _ h => absurd h List.not_mem_nil, trivial, trivial, trivial⟩,
    raft_bookkeeping _ _ _ _ _ _ ⟨fun _ h => absurd h List.not_mem_nil, trivial, trivial, trivial⟩⟩

/-- Configurations added out of order stay out of order. -/
theorem configurations_out_of_order :
    ¬((NodeCall.runAll (Raft.init ⟨1⟩ 1 100 500 false : Raft LoggingStubStore (List UInt8))
      [.addConfiguration ⟨2, [1], List.nodup_singleton 1⟩,
        .addConfiguration ⟨1, [1], List.nodup_singleton 1⟩]).configurations.map (·.idx)).Pairwise
      (· ≤ ·) := by
  decide

end Ccf.Raft
