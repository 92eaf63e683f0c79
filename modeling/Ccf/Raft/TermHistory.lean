import Ccf.Raft.Types

/-!
# `raft::TermHistory`

`terms[t]` is the first index of term `t`. `update idx term` pads the vector up to
position `term` with `idx`, and `term_at idx` finds the term of an index with
`std::upper_bound` — a binary search that is only meaningful when the vector is
sorted. Because nothing in the class enforces that, the search is modelled as
libstdc++ implements it, not as the "number of entries `≤ idx`" it computes on
sorted input, and the final `(it - begin) - 1` keeps its wrap to `2^64 - 1` when
the search stops at position `0`.
-/

namespace Ccf.Raft

/-- `raft::TermHistory`. -/
structure TermHistory where
  terms : List Index
  deriving DecidableEq, Repr

namespace TermHistory

/-- The libstdc++ `upper_bound` loop over positions `[first, first + len)`.
Each round strictly shrinks `len`, so `len` rounds of fuel always suffice. -/
def upperBoundAux (xs : List Index) (val : Index) : Nat → Nat → Nat → Nat
  | 0, first, _ => first
  | fuel + 1, first, len =>
      if len = 0 then first
      else
        let half := len / 2
        let middle := first + half
        if val < xs.getD middle 0 then upperBoundAux xs val fuel first half
        else upperBoundAux xs val fuel (middle + 1) (len - half - 1)

/-- `std::upper_bound(terms.begin(), terms.end(), idx) - terms.begin()`. -/
def upperBound (xs : List Index) (val : Index) : Nat :=
  upperBoundAux xs val xs.length 0 xs.length

/-- `TermHistory::update`: `for (i = terms.size(); i <= term; ++i) terms.push_back(idx)`. -/
def update (th : TermHistory) (idx : Index) (term : Term) : TermHistory :=
  { terms := th.terms ++ List.replicate (term + 1 - th.terms.length) idx }

/-- `TermHistory::term_at`. The difference `it - begin` is a `ptrdiff_t`; subtracting
one from position `0` and converting to the unsigned `Term` gives `2^64 - 1`. -/
def termAt (th : TermHistory) (idx : Index) : Term :=
  if idx = 0 then 0
  else
    let pos := upperBound th.terms idx
    if pos = 0 then 2 ^ 64 - 1 else pos - 1

/-- `TermHistory::initialise`: append the given vector. -/
def initialise (th : TermHistory) (terms' : List Index) : TermHistory :=
  { terms := th.terms ++ terms' }

-- Made here once: the equation lemmas that the proofs below unfold.
section
attribute [local simp] update
end

end TermHistory

end Ccf.Raft
