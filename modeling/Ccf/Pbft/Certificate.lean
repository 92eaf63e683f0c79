import Ccf.Pbft.Types
import Ccf.Lib.Exec

/-!
# Certificates (`consensus/pbft/libbyz/Certificate.h`)

A certificate collects matching messages from different replicas. It keeps up to
`f + 1` distinct values (`vals`), each with the number of messages counted for it;
`bmap` has the replicas whose message was taken. The value counted `correct = f + 1`
times becomes the correct value `c`; the local replica's own message enters through
`add_mine`, which makes its value correct at once. The certificate is complete when
the correct value is counted `complete` times.

`T` is any message type with the `id()`, `full()` and `match()` the template requires
(`CertMessage`, with `match` as `matchMsg`); `Node` has what a certificate reads of the
local node. `c` points into `vals` and is its index here; a message pointer is the
message, and a null pointer is `none`. `bmap` is the list of the replicas whose bit is
set; the `Max_num_replicas` bound of the bitset is not modelled (`is_replica` holds only
of configured replicas). `PBFT_ASSERT` throws `std::logic_error` in debug builds, so a
failed assertion is a `throw`. `t_sent`, the time of the local message, is left out:
nothing here reads it.
-/

namespace Ccf.Pbft

/-- What `Certificate<T>` requires of `T`: `id()`, `full()` and `match(T*)`. -/
class CertMessage (T : Type) where
  id : T → Nat
  full : T → Bool
  matchMsg : T → T → Bool

/-- What a certificate reads of the local `node`. -/
structure Node where
  id : Nat
  f : Nat
  numCorrectReplicas : Nat
  isReplica : Nat → Bool

/-- `Certificate::Message_val`: a value and the number of messages counted for it. -/
structure MessageVal (T : Type) where
  m : Option T
  count : Nat

/-- `Message_val::clear`. -/
def MessageVal.empty {T : Type} : MessageVal T := ⟨none, 0⟩

/-- `Certificate<T>`. -/
structure Certificate (T : Type) where
  bmap : List Nat
  vals : List (MessageVal T)
  maxSize : Nat
  curSize : Nat
  correct : Nat
  c : Option Nat
  complete : Nat
  comp : Nat
  mym : Option T
  f : Nat

namespace Certificate

variable {T : Type} [CertMessage T]

open CertMessage (full matchMsg)

/-- The constructor `Certificate(comp)`. -/
def new (node : Node) (comp : Nat) : Certificate T where
  bmap := []
  vals := List.replicate (node.f + 1) MessageVal.empty
  maxSize := node.f + 1
  curSize := 0
  correct := node.f + 1
  c := none
  complete := if comp = 0 then node.numCorrectReplicas else comp
  comp := comp
  mym := none
  f := node.f

/-- `vals[i]`. -/
def val (s : Certificate T) (i : Nat) : MessageVal T := s.vals.getD i MessageVal.empty

/-- A write to `vals[i]`. -/
def setVal (s : Certificate T) (i : Nat) (v : MessageVal T) : Certificate T :=
  { s with vals := s.vals.set i v }

/-- `mine()`. -/
def mine (s : Certificate T) : Option T := s.mym

/-- `cvalue()`. -/
def cvalue (s : Certificate T) : Option T := s.c.bind fun i => (s.val i).m

/-- `num_correct()`. -/
def numCorrect (s : Certificate T) : Nat := match s.c with
  | some i => (s.val i).count
  | none => 0

/-- `is_complete()`. -/
def isComplete (s : Certificate T) : Bool := decide (s.numCorrect ≥ s.complete)

/-- `val.m->match(m)`; a null value matches nothing. -/
def matchesVal (v : MessageVal T) (m : T) : Bool := v.m.any fun x => matchMsg x m

/-- `val.m->full()`. -/
def fullVal (v : MessageVal T) : Bool := v.m.any full

/-- Clear the values `[lo, hi)`. -/
def clearVals (s : Certificate T) (lo hi : Nat) : Certificate T :=
  { s with vals := s.vals.mapIdx fun i v => if lo ≤ i ∧ i < hi then MessageVal.empty else v }

/-- `clear()`. -/
def clear (s : Certificate T) : Certificate T :=
  { s.clearVals 0 s.curSize with bmap := [], c := none, mym := none, curSize := 0 }

/-- `reset_f()`: a new array of `f + 1` values for the node's current `f`. -/
def resetF (s : Certificate T) (node : Node) : Certificate T :=
  { s with
    f := node.f
    maxSize := node.f + 1
    vals := List.replicate (node.f + 1) MessageVal.empty
    curSize := 0
    correct := node.f + 1
    complete := if s.comp = 0 then node.numCorrectReplicas else s.comp }

/-- The start of `add` and `add_mine`: `if (bmap.none() && f != node->f()) reset_f();`. -/
def refresh (s : Certificate T) (node : Node) : Certificate T :=
  if s.bmap = [] ∧ s.f ≠ node.f then s.resetF node else s

/-- The first of the current values that `m` matches. -/
def findMatch (s : Certificate T) (m : T) : Option Nat :=
  (List.range s.curSize).find? fun i => matchesVal (s.val i) m

/-- Count `m` for the value `v`, taking `m` as the value when it is full and `v` is not. -/
def countFor (v : MessageVal T) (m : T) : MessageVal T :=
  if !fullVal v && full m then ⟨some m, v.count + 1⟩ else { v with count := v.count + 1 }

/-- `add(m)` once `m` is known to come from a replica with no message here, when
the certificate has no correct value or `m` matches it below `complete`. -/
def addNew (node : Node) (m : T) (s : Certificate T) : EStateM String (Certificate T) Bool := do
  if CertMessage.id m = node.id then throw "verify should return false for messages from self"
  let s := { s with bmap := CertMessage.id m :: s.bmap }
  match s.c with
  | some i =>
      set (s.setVal i (countFor (s.val i) m))
      return true
  | none =>
      match s.findMatch m with
      | some i =>
          -- the value reaching `correct` becomes the correct one
          let v := countFor (s.val i) m
          let s := s.setVal i v
          set (if v.count ≥ s.correct then { s with c := some i } else s)
          return true
      | none =>
          if s.curSize < s.maxSize then
            set { s.setVal s.curSize ⟨some m, 1⟩ with curSize := s.curSize + 1 }
            return true
          else
            -- "More than f+1 distinct values in certificate"
            set s.clear
            return false

/-- `add(m)`. -/
def add (node : Node) (m : T) : EStateM String (Certificate T) Bool := do
  let s := (← get).refresh node
  set s
  if s.f = 0 then
    let v := s.val 0
    set { s.setVal 0 ⟨some m, v.count + 2⟩ with
      bmap := CertMessage.id m :: s.bmap, c := some 0, mym := some m }
    return true
  if node.isReplica (CertMessage.id m) ∧ CertMessage.id m ∉ s.bmap then
    let takes := match s.c with
      | none => true
      | some i => decide ((s.val i).count < s.complete) && matchesVal (s.val i) m
    if takes then addNew node m s
    else
      set { s with bmap := CertMessage.id m :: s.bmap }
      return false
  else return false

/-- `add_mine(m)`. -/
def addMine (node : Node) (m : T) : EStateM String (Certificate T) Bool := do
  if CertMessage.id m ≠ node.id then throw "Invalid argument"
  if !full m then throw "Invalid argument"
  let s := (← get).refresh node
  set s
  if s.c.any fun i => !matchesVal (s.val i) m then
    throw "Node is faulty, more than f faulty replicas or faulty primary "
  -- with no correct value, `m`'s value becomes the correct one, or the first slot
  let s := match s.c with
    | some _ => s
    | none => match s.findMatch m with
      | some i => { s with c := some i }
      | none => { s.setVal 0 { s.val 0 with count := 0 } with c := some 0 }
  let i := s.c.getD 0
  if (s.val i).m = none ∧ s.curSize ≠ 0 then throw "Invalid state"
  let s := if (s.val i).m = none then { s with curSize := 1 } else s
  set { s.setVal i ⟨some m, (s.val i).count + 1⟩ with mym := some m }
  return true

/-- `mark_stale()`: unless complete, keep only the local message. -/
def markStale [DecidableEq T] : EStateM String (Certificate T) Unit := do
  let s ← get
  if !s.isComplete then
    match s.mym with
    | some my =>
        if s.cvalue ≠ some my then throw "Broken invariant"
        let s := s.setVal (s.c.getD 0) MessageVal.empty
        let s := { s.setVal 0 ⟨some my, 1⟩ with c := some 0 }
        set { s.clearVals 1 s.curSize with curSize := 1, bmap := [] }
    | none =>
        set { s.clearVals 0 s.curSize with c := none, curSize := 0, bmap := [] }

-- Made here once: the equation lemmas that the proofs below unfold.
section
attribute [local simp] new val setVal cvalue numCorrect isComplete matchesVal fullVal clearVals clear refresh findMatch countFor addNew add addMine markStale
end

end Certificate

end Ccf.Pbft
