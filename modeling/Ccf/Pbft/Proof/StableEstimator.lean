import Ccf.Pbft.StableEstimator

/-!
# `Stable_estimator::add` counts the wrong replica's `gep`

`gep` of a replica is meant to count the replicas whose `lp` is at least its `lc`. When
a message arrives from replica `id`, two things may change: `id`'s new `lp` may now
reach another replica's `lc`, which raises that replica's `gep`, and another replica's
`lp` may reach `id`'s new `lc`, which should raise `id`'s own `gep`. The source raises
the other replica's `gep` in both cases (`if (lc <= v.lp) v.gep++`), where the second
should be `val.gep++`, as the matching `lec` update is. A replica whose `lp` is below
every reported `lc` then lends its count to replicas whose `lc` it does not reach,
and the estimate can be taken with fewer than `f + 1` replicas prepared up to it.
-/

namespace Ccf.Pbft

namespace StableEstimator

/-- The estimator after `add`ing the messages in order, on a node with fault bound `f`. -/
def addAll (s : StableEstimator) (f : Int) : List ReplyStable → StableEstimator
  | [] => s
  | m :: ms => (s.add f m false).1.addAll f ms

end StableEstimator

/-- Replica 0 reports `lc = lp = 10`; replicas 1 and 2 report `lc = 5`, `lp = 9`. -/
def staleReports : List ReplyStable :=
  [⟨0, 10, 10, true⟩, ⟨1, 5, 9, true⟩, ⟨2, 5, 9, true⟩]

/-- **The estimate is taken without `f + 1` replicas prepared up to it.** With four
replicas and `f = 1`, after the three reports the estimate is 10, though only replica
0 reported an `lp` of at least 10: replica 0's `gep` is 3, raised by the two replicas
whose `lp` of 9 does not reach its `lc` of 10. -/
theorem estimate_without_prepared_quorum :
    ((StableEstimator.new 4).addAll 1 staleReports).estimate = 10 ∧
      ((StableEstimator.new 4).addAll 1 staleReports).vals.map (·.lp) = [10, 9, 9, -1] ∧
      (((StableEstimator.new 4).addAll 1 staleReports).val 0).gep = 3 := by
  decide

end Ccf.Pbft
