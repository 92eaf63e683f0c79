import Mathlib.Data.List.Basic

/-!
# PBFT's basic types (`consensus/pbft/libbyz/types.h`)

Sequence numbers are `Long = int64_t` and kept at that width: the library stores them
in `int` variables in places, and what those conversions do is part of its behaviour.
-/

namespace Ccf.Pbft

/-- `Seqno`: `int64_t`. -/
abbrev Seqno := Int64

/-- `Seqno_max = std::numeric_limits<Seqno>::max()`. -/
def seqnoMax : Seqno := 9223372036854775807

-- Made here once: the equation lemmas that the proofs below unfold.
section
attribute [local simp] seqnoMax
end

end Ccf.Pbft
