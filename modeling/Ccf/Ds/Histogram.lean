import Mathlib.Data.List.Basic

set_option linter.dupNamespace false

/-!
# Histograms (`ds/histogram.h`)

`Histogram<V, LOW, HIGH, SIGNIFICANT_BITS>` counts the values it records in buckets that
grow with the value: the values of `[LOW, HIGH)` are shifted right by `LOW_BITS`, and the
result is bucketed by its bit length and the `SIGNIFICANT_BITS - 1` bits after its leading
one (`get_index`); `get_value` gives the first value of a bucket. Values below `LOW` and from
`HIGH` on are only counted as underflow and overflow.

`size_t` is 64 bits. Values of `V` are integers here, and the `size_t` arithmetic is on
`Nat`: the template arguments are values of `V`, so below `2^64` (`Params.fits`), and the
values bucketed lie between them, so nothing wraps. `__builtin_clzl` is `63 - log2 x` on
the nonzero words it is given. The `static_assert`s are a field of `Params`, so only the
instantiations that compile can be built. `assert(i < BUCKETS)` in `record` is an error: without it the increment writes past
`count`. The counts are the list `count`.
-/

namespace Ccf.Histogram

/-- `bits`: `sizeof(size_t) * 8`. -/
def bits : Nat := 64

/-- `clz(x)`: the leading zero bits of a nonzero 64-bit word. -/
def clz (x : Nat) : Nat := bits - 1 - x.log2

/-- The loop of `clz_const`: the round of bit `i` is `i + 1`, from the top bit down, and `n`
counts the zero bits passed. -/
def clzConstLoop (x : Nat) : Nat → Nat → Nat
  | 0, n => n
  | i + 1, n => if x &&& 1 <<< i = 1 <<< i then n else clzConstLoop x i (n + 1)

/-- `clz_const(x)`. -/
def clzConst (x : Nat) : Nat := clzConstLoop x bits 0

/-- `next_pow2_const(x)`. -/
def nextPow2Const (x : Nat) : Nat := if x ≤ 2 then x else 1 <<< (bits - clzConst (x - 1))

/-- `next_pow2_bits_const(x)`: the bit length of `x`, less one when `x` is a power of two. -/
def nextPow2BitsConst (x : Nat) : Nat :=
  bits - clzConst x - (if x &&& (x - 1) = 0 then 1 else 0)

/-- The `static_assert`s of `Histogram`. -/
def staticAsserts (LOW HIGH SIGNIFICANT_BITS : Nat) : Bool :=
  decide (LOW ≥ 1) && decide (LOW < HIGH) && LOW == nextPow2Const LOW &&
    HIGH == nextPow2Const HIGH && decide (SIGNIFICANT_BITS ≥ 1 ∧ SIGNIFICANT_BITS ≤ 6)

-- Made here once: the equation lemmas that the proofs below unfold.
section
attribute [local simp] bits clz clzConstLoop clzConst nextPow2Const nextPow2BitsConst staticAsserts
end

/-- The template arguments `LOW`, `HIGH` and `SIGNIFICANT_BITS`, as the `static_assert`s
accept them. -/
structure Params where
  LOW : Nat
  HIGH : Nat
  SIGNIFICANT_BITS : Nat
  asserts : staticAsserts LOW HIGH SIGNIFICANT_BITS = true
  fits : HIGH < 1 <<< bits

namespace Params

variable (p : Params)

/-- `LOW_BITS`. -/
def LOW_BITS : Nat := nextPow2BitsConst p.LOW

/-- `HIGH_BITS`. -/
def HIGH_BITS : Nat := nextPow2BitsConst p.HIGH

/-- `BUCKETS`. -/
def BUCKETS : Nat := (p.HIGH_BITS - p.LOW_BITS - 1) <<< (p.SIGNIFICANT_BITS - 1)

/-- `SIGNIFICANT`. -/
def SIGNIFICANT : Nat := 1 <<< p.SIGNIFICANT_BITS

/-- `SIGNIFICANT_MASK`: the bits after the leading one that pick a bucket. -/
def SIGNIFICANT_MASK : Nat := (p.SIGNIFICANT >>> 1) - 1

/-- `get_index(value)`. -/
def getIndex (value : Int) : Nat :=
  let v := value.toNat >>> p.LOW_BITS
  let s := bits - clz v
  if s ≤ p.SIGNIFICANT_BITS then v - 1
  else
    let shift := s - p.SIGNIFICANT_BITS
    let m1 := (v >>> shift) &&& p.SIGNIFICANT_MASK
    let m2 := (shift + 1) <<< (p.SIGNIFICANT_BITS - 1)
    m1 + m2 - 1

/-- `get_value(index)`: the first value of bucket `index`. -/
def getValue (index : Nat) : Int :=
  let i := index + 1
  if i < p.SIGNIFICANT then i
  else
    let shift := (i >>> (p.SIGNIFICANT_BITS - 1)) - 1
    let m1 := (i &&& p.SIGNIFICANT_MASK) <<< shift
    let m2 := 1 <<< (shift + p.SIGNIFICANT_BITS - 1)
    ((m1 + m2) <<< p.LOW_BITS : Nat)

/-- `get_range(index)`: the values of bucket `index`. -/
def getRange (index : Nat) : Int × Int :=
  if index ≥ p.BUCKETS then (p.HIGH, p.HIGH) else (p.getValue index, p.getValue (index + 1) - 1)

-- Made here once: the equation lemmas that the proofs below unfold.
section
attribute [local simp] SIGNIFICANT_MASK getIndex getValue getRange
end

end Params

/-- `Histogram`: the least and greatest values recorded, the values below `LOW` and from
`HIGH` on, and the counts of the buckets. -/
structure Histogram where
  low : Int
  high : Int
  underflow : Nat
  overflow : Nat
  count : List Nat

/-- `record(value)`. -/
def Histogram.record (p : Params) (h : Histogram) (value : Int) : Except String Histogram :=
  let h := if value < h.low then { h with low := value } else h
  let h := if value > h.high then { h with high := value } else h
  if value < p.LOW then .ok { h with underflow := h.underflow + 1 }
  else if value ≥ p.HIGH then .ok { h with overflow := h.overflow + 1 }
  else
    let i := p.getIndex value
    if i < p.BUCKETS then .ok { h with count := h.count.modify i (· + 1) }
    else .error "assert(i < BUCKETS)"

-- Made here once: the equation lemmas that the proofs below unfold.
section
attribute [local simp] Histogram.record
end

end Ccf.Histogram
