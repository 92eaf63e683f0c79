import Ccf.Kv.Tx
import Ccf.Raft.Types

/-!
# The store Raft replicates into (`consensus/raft/rafttypes.h`)

`raft::Adaptor<kv::Store>` hands Raft's three calls on to the store: `deserialise`
applies a replicated entry, and `compact` and `rollback` take Raft's index as the
store's version. An entry is a serialised transaction (`RawTx`). Its size, which
bounds the batches `send_append_entries` makes, is counted in packed values rather
than bytes.
-/

namespace Ccf.Kv

variable {K V C : Type}

/-- The size of a serialised transaction: the values packed in its public domain, and
one for the ciphertext. -/
def RawTx.size (data : RawTx K V C) : Nat :=
  data.publicDomain.length + if data.privateDomain.isSome then 1 else 0

-- Made here once: the equation lemmas that the proofs below unfold.
section
attribute [local simp] RawTx.size
end

/-- `raft::Adaptor<kv::Store>`. -/
instance [DecidableEq K] [Inhabited V] : Raft.RaftStore (Store K V C) (RawTx K V C) where
  deserialise data publicOnly := Store.deserialise data publicOnly
  compact idx := modify fun s => s.compact idx
  rollback idx := modify fun s => s.rollback idx
  dataSize := RawTx.size

end Ccf.Kv
