import Mathlib.Order.Std
import Ccf.Pbft.StableEstimator

/-!
# The `k`-th largest value (`consensus/pbft/libbyz/K_max.h`)

`K_max(k, vector, n, tmax)` finds the value `r` with `k` entries at or above it by walking down
the distinct values of the vector: each pass of its `for` loop finds the greatest entry below the
previous pass's value `last_max` and counts how often it occurs, and the `while` loop stops once
the counts add up to `k`. The pass starts from the sentinel `cur_max = -1` the first time and
`cur_max = 0` after that; an entry equal to the sentinel is counted as long as no greater entry
has been found.

The template is kept generic: it needs `==`, `<` and the two sentinels of its type. The loop need
not end, so it is run with `fuel` passes and gives `none` when they run out.

`Stable_estimator::low_estimate` calls it on the `lp` of every replica, `-1` for a replica that
has not reported, and rounds the result down to a checkpoint.
-/

namespace Ccf.Pbft

/-- `Seqno` with the order of its values: the comparisons of `int64_t`. -/
instance : LinearOrder Seqno := .ofStd Seqno
  { lawfulOrderLeftLeaningMax := .of_eq fun a b => by
      show (if a ≤ b then b else a) = _
      by_cases hab : a ≤ b <;> by_cases hba : b ≤ a
      · rw [if_pos hab, if_pos hba]
        exact Int64.le_antisymm hba hab
      · rw [if_pos hab, if_neg hba]
      · rw [if_neg hab, if_pos hba]
      · exact absurd (Int64.le_total a b) (by simp [hab, hba]) }

section KMax

variable {T : Type} [DecidableEq T] [LT T] [DecidableLT T]

/-- One round of the `for` loop: entry `cv` against `cur_max` and `cur_count`, below
`last_max`. -/
def kMaxVisit (lastMax : T) (cur : T × Int) (cv : T) : T × Int :=
  if cv = cur.1 then (cur.1, cur.2 + 1)
  else if cv > cur.1 then
    if cv < lastMax then (cv, 1) else cur
  else cur

/-- The `for` loop over the `n` entries, from `cur_max` and a count of 0. -/
def kMaxPass (vector : List T) (n : Nat) (lastMax curMax : T) : T × Int :=
  (vector.take n).foldl (kMaxVisit lastMax) (curMax, 0)

-- Made here once: the equation lemmas that the proofs below unfold.
section
attribute [local simp] kMaxVisit kMaxPass
end

variable [OfNat T 0]

/-- The `while (last_count < k)` loop, with at most `fuel` tests of its condition. -/
def kMaxLoop (k : Int) (vector : List T) (n : Nat) : Nat → T → Int → T → Option T
  | 0, _, _, _ => none
  | fuel + 1, lastMax, lastCount, curMax =>
      if lastCount < k then
        let (curMax, curCount) := kMaxPass vector n lastMax curMax
        kMaxLoop k vector n fuel curMax (lastCount + curCount) 0
      else some lastMax

-- Made here once: the equation lemmas that the proofs below unfold.
section
attribute [local simp] kMaxLoop
end

variable [Neg T] [OfNat T 1]

/-- `K_max(k, vector, n, tmax)`. -/
def kMax (fuel : Nat) (k : Int) (vector : List T) (n : Nat) (tmax : T) : Option T :=
  kMaxLoop k vector n fuel tmax 0 (-1)

-- Made here once: the equation lemmas that the proofs below unfold.
section
attribute [local simp] kMax
end

end KMax

/-- `checkpoint_interval` (`parameters.h`). -/
def checkpointInterval : Seqno := 256

/-- `max_out` (`parameters.h`). -/
def maxOut : Seqno := 512

namespace StableEstimator

/-- The vector `low_estimate` hands to `K_max`: the `lp` of each replica. -/
def lps (s : StableEstimator) : List Seqno := (List.range s.nv).map fun i => (s.val i).lp

/-- `low_estimate()` on a node with fault bound `f`, with `fuel` passes for `K_max`: the `lp`
that `f + 1` replicas have reached, less `max_out`, rounded to a checkpoint. -/
def lowEstimate (s : StableEstimator) (f : Int) (fuel : Nat) : Option Seqno :=
  (kMax fuel (f + 1) s.lps s.nv seqnoMax).map fun mlp =>
    (mlp - maxOut + checkpointInterval - 2) / checkpointInterval * checkpointInterval

-- Made here once: the equation lemmas that the proofs below unfold.
section
attribute [local simp] lowEstimate
end

end StableEstimator

end Ccf.Pbft
