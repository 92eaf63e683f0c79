import Ccf.Kv.Concurrent

/-!
# Reads of a map a transaction does not write are never checked

`TxView::prepare` returns `true` at once for a view without writes
(`prepare_of_writes_empty`), so `Tx::commit` validates only the reads made in maps
the transaction also writes (`Tx.prepareAll_iff`). A transaction that reads one map and
writes another therefore commits whatever happened to the map it read after it read
it.

The run below does this with two maps `A` and `B`. Transaction 1 reads key 0 of
`A`, finding nothing; transaction 2 writes 1 there and commits at version 1;
transaction 1 then writes `B` and commits at version 2. Run in version order,
transaction 1 would have read 1 (`stale_read_committed`).
-/

namespace Ccf.Kv

variable {K V C : Type} [DecidableEq K] [Inhabited V]

omit [Inhabited V] in
theorem TxView.prepare_of_writes_empty (view : TxView K V) (m : Map K V)
    (h : view.writes.entries = []) : view.prepare m = true := by
  simp [TxView.prepare, h]

omit [Inhabited V] in
/-- `Tx::commit` checks only the views that write: over maps the store has, the
views pass `prepare` exactly when those with writes do. -/
theorem Tx.prepareAll_iff (s : Store K V C) (views : List (String × TxView K V))
    (hmaps : ∀ p ∈ views, ∃ m, s.find p.2.map = some m) :
    Tx.prepareAll s views = true ↔
      ∀ p ∈ views, p.2.writes.entries ≠ [] → ∀ m, s.find p.2.map = some m →
        p.2.prepare m = true := by
  unfold Tx.prepareAll
  rw [List.all_eq_true]
  constructor
  · intro h p hp _ m hm
    have := h p hp
    rwa [hm] at this
  · intro h p hp
    obtain ⟨m, hm⟩ := hmaps p hp
    rw [hm]
    by_cases hw : p.2.writes.entries = []
    · exact TxView.prepare_of_writes_empty _ _ hw
    · exact h p hp hw m hm

/-- A store with two public maps, `A` and `B`, from naturals to naturals. -/
def twoMaps : Store Nat Nat Unit :=
  ⟨[Map.new "A" .PUBLIC false, Map.new "B" .PUBLIC false], by decide, none, none, 0, 0, 0, 0⟩

/-- Transaction 1 reads `A`; transaction 2 writes `A` and commits; transaction 1
writes `B` and commits. -/
def staleRead : List (Op Nat Nat) :=
  [.getView 1 "A", .get 1 "A" 0, .getView 2 "A", .put 2 "A" 0 1, .commit 2,
   .getView 1 "B", .put 1 "B" 0 1, .commit 1]

-- Made here once: the equation lemmas that the proofs below unfold.
section
attribute [local simp] twoMaps
end

/-- Transaction 1 read key 0 of `A` as absent and committed at version 2; at version
1, after transaction 2, key 0 of `A` held 1. -/
theorem stale_read_committed :
    Sys.Reachable twoMaps ((Sys.init twoMaps).afterOps staleRead) ∧
      (((Sys.init twoMaps).afterOps (staleRead.take 1)).txs 1 |>.get "A" 0).1 = none ∧
      (Tx.commit (((Sys.init twoMaps).afterOps (staleRead.take 4)).store,
        ((Sys.init twoMaps).afterOps (staleRead.take 4)).txs 2)).value? = some CommitSuccess.OK ∧
      (Tx.commit (((Sys.init twoMaps).afterOps (staleRead.take 7)).store,
        ((Sys.init twoMaps).afterOps (staleRead.take 7)).txs 1)).value? = some CommitSuccess.OK ∧
      (((Sys.init twoMaps).afterOps staleRead).txs 2).version = 1 ∧
      (((Sys.init twoMaps).afterOps staleRead).txs 1).version = 2 ∧
      ((stateAt ((Sys.init twoMaps).afterOps staleRead).past "A" 1).bind
        (·.lookup 0)).map (·.value) = some 1 := by
  refine ⟨Sys.Reachable.afterOps (Run.Reachable.of_init rfl) ?_, ?_⟩
  · exact ⟨trivial, trivial, trivial, trivial, trivial, trivial, trivial, trivial, trivial⟩
  · decide

end Ccf.Kv
