import Ccf.Pbft.Types

/-!
# Estimating the stable checkpoint (`consensus/pbft/libbyz/Stable_estimator.cpp`)

A replica that falls behind asks the others for their last stable checkpoint `lc` and
last prepared sequence number `lp` (`Reply_stable`). The estimator keeps, per replica,
the least `lc` and the greatest `lp` it reported, and two counters it updates
incrementally on each message: `lec`, meant to count the replicas whose `lc` is at most
this one's, and `gep`, meant to count those whose `lp` is at least this one's `lc`. Once
some replica's `lc` has `lec ≥ 2f + 1` and `gep ≥ f + 1`, that `lc` is the estimate.

`add` reads the message's sequence numbers into `int`s (`const int lc = …`), kept as the
32-bit wrap it is; `lec` and `gep` are `int` counters of at most `nv` and are integers
here. Whether a message authenticates (`verify()`) is a field of the message. The
replica count and `f` come from the node; the count is fixed at construction.
-/

namespace Ccf.Pbft

/-- `Reply_stable`, with the outcome of its `verify()`. -/
structure ReplyStable where
  id : Nat
  lastCheckpoint : Seqno
  lastPrepared : Seqno
  verified : Bool
  deriving DecidableEq, Repr

/-- `Stable_estimator::Val`: what one replica reported. -/
structure Val where
  /-- Minimum `lc` sent by the replica. -/
  lc : Seqno
  /-- Number of values with `lc` at most this `lc`. -/
  lec : Int
  /-- Number of values with `lp` at least this `lc`. -/
  gep : Int
  /-- Maximum `lp` sent by the replica. -/
  lp : Seqno
  deriving DecidableEq, Repr

/-- `Val::clear`, which the constructor runs. -/
def Val.clear : Val := ⟨seqnoMax, 0, 0, -1⟩

-- Made here once: the equation lemmas that the proofs below unfold.
section
attribute [local simp] Val.clear
end

/-- `Stable_estimator`. -/
structure StableEstimator where
  vals : List Val
  nv : Nat
  /-- The estimate, or `-1` while it is not known. -/
  est : Seqno
  deriving DecidableEq, Repr

namespace StableEstimator

/-- The constructor, for a node of `nv` replicas. -/
def new (nv : Nat) : StableEstimator := ⟨List.replicate nv Val.clear, nv, -1⟩

/-- `estimate()`. -/
def estimate (s : StableEstimator) : Seqno := s.est

/-- `vals[i]`. -/
def val (s : StableEstimator) (i : Nat) : Val := s.vals.getD i Val.clear

/-- The loop of `add` over the other replicas `i`, with the sender `id`, its reported
`lc` and `lp`, and its previous `lc` and `lp` in `oc` and `op` (`Seqno_max` and `-1`
when they did not move). It stops at the first replica whose counters meet the
thresholds, taking its `lc` as the estimate. -/
def addLoop (id : Nat) (lc lp oc op : Seqno) (nle nge : Int) :
    List Nat → StableEstimator → StableEstimator
  | [], s => s
  | i :: is, s =>
      if i = id then addLoop id lc lp oc op nle nge is s
      else
        let v := s.val i
        let val := s.val id
        let v₁ := if oc > v.lc ∧ lc ≤ v.lc then { v with lec := v.lec + 1 } else v
        let val₁ := if lc ≥ v.lc then { val with lec := val.lec + 1 } else val
        let v₂ := if op < v.lc ∧ lp ≥ v.lc then { v₁ with gep := v₁.gep + 1 } else v₁
        let v₃ := if lc ≤ v.lp then { v₂ with gep := v₂.gep + 1 } else v₂
        let s' := { s with vals := (s.vals.set i v₃).set id val₁ }
        if v₃.lec ≥ nle ∧ v₃.gep ≥ nge then { s' with est := v₃.lc }
        else addLoop id lc lp oc op nle nge is s'

/-- `add(m, mine)` on a node with fault bound `f`: the new state, and whether the
estimate is known. -/
def add (s : StableEstimator) (f : Int) (m : ReplyStable) (mine : Bool) :
    StableEstimator × Bool :=
  if mine || m.verified then
    let id := m.id
    let lc : Seqno := m.lastCheckpoint.toInt32.toInt64
    let lp : Seqno := m.lastPrepared.toInt32.toInt64
    let val := s.val id
    -- a lower `lc` restarts the sender's counters
    let (oc, val) : Seqno × Val :=
      if lc < val.lc then (val.lc, { val with lc := lc, lec := 1, gep := 1 })
      else (seqnoMax, val)
    let (op, val) : Seqno × Val :=
      if val.lp < lp then (val.lp, { val with lp := lp }) else (-1, val)
    let nge := f + 1
    let nle := 2 * f + 1
    let s := addLoop id lc lp oc op nle nge (List.range s.nv) { s with vals := s.vals.set id val }
    let val := s.val id
    let s := if s.est < 0 ∧ val.lec ≥ nle ∧ val.gep ≥ nge then { s with est := val.lc } else s
    (s, decide (s.est ≥ 0))
  else (s, decide (s.est ≥ 0))

-- Made here once: the equation lemmas that the proofs below unfold.
section
attribute [local simp] new val add
end

end StableEstimator

end Ccf.Pbft
