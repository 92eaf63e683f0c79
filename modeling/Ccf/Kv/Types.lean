import Mathlib.Data.Int.Basic
import Mathlib.Algebra.Group.Int.Defs
import Mathlib.Algebra.Group.Nat.Defs

/-!
# The KV store's shared vocabulary (`kv/kvtypes.h`)

Versions index modifications to the store. They are `int64_t` in the source and
negative values carry meaning: a deleted key keeps a tombstone stamped `-v`, and
`NoVersion` (the most negative value) marks "no dependency" in read sets and a
removal in write sets. They are therefore modelled as `Int`, with `NoVersion`
the same constant the source uses.
-/

namespace Ccf.Kv

/-- `kv::Version`: `int64_t`. -/
abbrev Version := Int

/-- `kv::Term`: `uint64_t`. -/
abbrev Term := Nat

/-- `kv::NoVersion = std::numeric_limits<Version>::min()`. -/
def NoVersion : Version := -9223372036854775808

-- Made here once: the equation lemmas that the proofs below unfold.
section
attribute [local simp] NoVersion
end

/-- `kv::CommitSuccess`. -/
inductive CommitSuccess where
  | OK
  | CONFLICT
  | NO_REPLICATE
  deriving DecidableEq, Repr

/-- `kv::SecurityDomain`; `PUBLIC` sorts before `PRIVATE`, which is the order in
which `std::map<SecurityDomain, …>` groups maps for serialisation. -/
inductive SecurityDomain where
  | PUBLIC
  | PRIVATE
  deriving DecidableEq, Repr

/-- `kv::DeserialiseSuccess`. -/
inductive DeserialiseSuccess where
  | FAILED
  | PASS
  | PASS_SIGNATURE
  deriving DecidableEq, Repr

end Ccf.Kv
