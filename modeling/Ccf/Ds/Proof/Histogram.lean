import Ccf.Ds.Histogram
import Mathlib.Data.Nat.Bitwise
import Mathlib.Tactic.Ring

set_option linter.dupNamespace false

/-!
# Proofs about histograms

`get_index` is first put in closed form: a shifted value `v` of fewer than
`SIGNIFICANT_BITS` bits is bucket `v - 1`, a longer one is bucketed by its
`SIGNIFICANT_BITS` top bits `t` and the `shift` that drops the rest
(`getIndex_small`, `getIndex_large`). `get_value` is the inverse on those buckets
(`getValue_large`) and is strictly increasing (`getValue_lt_succ`).

From three significant bits on, and with `HIGH` above `2 * LOW`, the largest bucket of
`[LOW, HIGH)` is `BUCKETS - 1` (`getIndex_lt_BUCKETS`), so `record` is `tally`
(`record_eq_tally`). The range of a bucket holds its values when `LOW` is `1`, or from
`LOW * SIGNIFICANT` on (`getRange_getIndex_mem`): below that `get_value` returns its
index without the shift by `LOW_BITS`. Outside these conditions the `static_assert`s still
accept the parameters and the assert fails (`histogram_bucket_divergence`).
-/

namespace Ccf.Histogram

/-! ## Bit lengths -/

theorem log2_eq_of_bounds {n k : Nat} (hlo : 2 ^ k ≤ n) (hhi : n < 2 ^ (k + 1)) :
    n.log2 = k := by
  have hn : n ≠ 0 := by have := Nat.two_pow_pos k; omega
  have h1 : k ≤ n.log2 := (Nat.le_log2 hn).2 hlo
  have h2 : n.log2 < k + 1 := (Nat.log2_lt hn).2 hhi
  omega

/-- Each round of `clz_const`'s loop either finds the top bit of `x` or counts a zero. -/
theorem clzConstLoop_eq {x : Nat} (h0 : 0 < x) :
    ∀ {i : Nat} (n : Nat), x < 2 ^ i → clzConstLoop x i n = n + (i - 1 - x.log2)
  | 0, _, hx => by omega
  | i + 1, n, hx => by
      have hlog : x.log2 < i + 1 := (Nat.log2_lt (by omega)).2 hx
      rw [clzConstLoop, Nat.one_shiftLeft, Nat.and_two_pow]
      by_cases hb : x.testBit i
      · -- the top bit of `x` is bit `i`
        have hi : x.log2 = i := by
          apply le_antisymm (by omega)
          exact (Nat.le_log2 (by omega)).2 (Nat.ge_two_pow_of_testBit hb)
        simp [hb, hi]
      · have hx' : x < 2 ^ i := by
          by_contra hge
          exact hb (Nat.testBit_of_two_pow_le_and_two_pow_add_one_gt (by omega) hx)
        have hlog' : x.log2 < i := (Nat.log2_lt (by omega)).2 hx'
        have hpow : (0 : Nat) < 2 ^ i := Nat.two_pow_pos i
        rw [Bool.not_eq_true] at hb
        rw [hb, Bool.toNat_false, Nat.zero_mul, if_neg (by omega),
          clzConstLoop_eq h0 (n + 1) hx']
        omega

theorem clzConst_eq {x : Nat} (h0 : 0 < x) (hx : x < 2 ^ bits) :
    clzConst x = bits - 1 - x.log2 := by
  rw [clzConst, clzConstLoop_eq h0 0 hx, Nat.zero_add]

/-- The bit length of a nonzero word: `bits - clz v` is `log2 v + 1`. -/
theorem bits_sub_clz {v : Nat} (h0 : 0 < v) (hv : v < 2 ^ bits) :
    bits - clz v = v.log2 + 1 := by
  have : v.log2 < bits := (Nat.log2_lt (by omega)).2 hv
  unfold clz
  omega

theorem nextPow2Const_eq {x : Nat} (h2 : 2 < x) (hx : x ≤ 2 ^ bits) :
    nextPow2Const x = 2 ^ ((x - 1).log2 + 1) := by
  have hlog : (x - 1).log2 < bits := (Nat.log2_lt (by omega)).2 (by omega)
  rw [nextPow2Const, if_neg (by omega), clzConst_eq (by omega) (by omega), Nat.one_shiftLeft]
  congr 1
  omega

/-- The values `next_pow2_const` leaves in place are the powers of two. -/
theorem eq_two_pow_of_fixed {x : Nat} (h1 : 1 ≤ x) (hx : x < 2 ^ bits)
    (h : x = nextPow2Const x) : x = 2 ^ x.log2 := by
  by_cases h2 : x ≤ 2
  · rcases (by omega : x = 1 ∨ x = 2) with rfl | rfl <;> decide
  · rw [nextPow2Const_eq (by omega) (by omega)] at h
    rw [h, Nat.log2_two_pow]

theorem nextPow2BitsConst_two_pow {k : Nat} (hk : k < bits) : nextPow2BitsConst (2 ^ k) = k := by
  have hlt : 2 ^ k < 2 ^ bits := Nat.pow_lt_pow_right (by decide) hk
  have hand : 2 ^ k &&& (2 ^ k - 1) = 0 := by
    rw [Nat.and_two_pow_sub_one_eq_mod, Nat.mod_self]
  rw [nextPow2BitsConst, clzConst_eq (Nat.two_pow_pos k) hlt, Nat.log2_two_pow, if_pos hand]
  omega

/-! ## The constants of an instantiation -/

theorem staticAsserts_iff {L H S : Nat} :
    staticAsserts L H S = true ↔
      1 ≤ L ∧ L < H ∧ L = nextPow2Const L ∧ H = nextPow2Const H ∧ 1 ≤ S ∧ S ≤ 6 := by
  simp [staticAsserts, and_assoc]

/-- A power of two the `static_assert`s admit is `2 ^ next_pow2_bits_const` of itself. -/
theorem eq_two_pow_nextPow2BitsConst {x : Nat} (h1 : 1 ≤ x) (hx : x < 2 ^ bits)
    (h : x = nextPow2Const x) : x = 2 ^ nextPow2BitsConst x ∧ nextPow2BitsConst x < bits := by
  have hpow := eq_two_pow_of_fixed h1 hx h
  have hlog : x.log2 < bits := (Nat.log2_lt (by omega)).2 hx
  rw [hpow, nextPow2BitsConst_two_pow hlog]
  exact ⟨rfl, hlog⟩

namespace Params

variable (p : Params)

theorem low_pos : 1 ≤ p.LOW := (staticAsserts_iff.1 p.asserts).1

theorem low_lt_high : p.LOW < p.HIGH := (staticAsserts_iff.1 p.asserts).2.1

theorem sig_pos : 1 ≤ p.SIGNIFICANT_BITS := (staticAsserts_iff.1 p.asserts).2.2.2.2.1

theorem sig_le : p.SIGNIFICANT_BITS ≤ 6 := (staticAsserts_iff.1 p.asserts).2.2.2.2.2

theorem high_lt : p.HIGH < 2 ^ bits := by
  simpa [Nat.one_shiftLeft] using p.fits

theorem low_eq : p.LOW = 2 ^ p.LOW_BITS :=
  (eq_two_pow_nextPow2BitsConst p.low_pos (p.low_lt_high.trans p.high_lt)
    (staticAsserts_iff.1 p.asserts).2.2.1).1

theorem high_eq : p.HIGH = 2 ^ p.HIGH_BITS :=
  (eq_two_pow_nextPow2BitsConst (p.low_pos.trans p.low_lt_high.le) p.high_lt
    (staticAsserts_iff.1 p.asserts).2.2.2.1).1

theorem highBits_lt : p.HIGH_BITS < bits :=
  (eq_two_pow_nextPow2BitsConst (p.low_pos.trans p.low_lt_high.le) p.high_lt
    (staticAsserts_iff.1 p.asserts).2.2.2.1).2

theorem lowBits_lt_highBits : p.LOW_BITS < p.HIGH_BITS := by
  have h := p.low_lt_high
  rw [p.low_eq, p.high_eq] at h
  exact (Nat.pow_lt_pow_iff_right (by decide)).1 h

theorem SIGNIFICANT_eq : p.SIGNIFICANT = 2 ^ p.SIGNIFICANT_BITS := Nat.one_shiftLeft _

theorem SIGNIFICANT_MASK_eq : p.SIGNIFICANT_MASK = 2 ^ (p.SIGNIFICANT_BITS - 1) - 1 := by
  have h := p.sig_pos
  rw [SIGNIFICANT_MASK, SIGNIFICANT_eq, Nat.shiftRight_eq_div_pow, Nat.pow_one,
    show p.SIGNIFICANT_BITS = p.SIGNIFICANT_BITS - 1 + 1 by omega, Nat.pow_succ,
    Nat.mul_div_cancel _ (by decide), Nat.add_sub_cancel]

theorem BUCKETS_eq :
    p.BUCKETS = (p.HIGH_BITS - p.LOW_BITS - 1) * 2 ^ (p.SIGNIFICANT_BITS - 1) :=
  Nat.shiftLeft_eq _ _

theorem two_pow_sig : 2 ^ p.SIGNIFICANT_BITS = 2 * 2 ^ (p.SIGNIFICANT_BITS - 1) := by
  obtain ⟨k, hk⟩ : ∃ k, p.SIGNIFICANT_BITS = k + 1 := ⟨_, (Nat.sub_add_cancel p.sig_pos).symm⟩
  rw [hk, Nat.pow_succ', Nat.add_sub_cancel]

theorem sig_lt_bits : 2 ^ p.SIGNIFICANT_BITS < 2 ^ bits :=
  Nat.pow_lt_pow_right (by decide) (by have := p.sig_le; unfold bits; omega)

end Params

/-- The `k` bits from the top of `v`, for `k + s` the bit length of `v`, lie in
`[2 ^ (k - 1), 2 ^ k)`. -/
theorem top_bits_bounds {v k s : Nat} (h0 : v ≠ 0) (hk : 1 ≤ k) (hks : k + s = v.log2 + 1) :
    2 ^ (k - 1) ≤ v / 2 ^ s ∧ v / 2 ^ s < 2 ^ k := by
  constructor
  · rw [Nat.le_div_iff_mul_le (Nat.two_pow_pos s), ← Nat.pow_add,
      show k - 1 + s = v.log2 by omega]
    exact Nat.log2_self_le h0
  · rw [Nat.div_lt_iff_lt_mul (Nat.two_pow_pos s), ← Nat.pow_add, hks]
    exact Nat.lt_log2_self

/-! ## `get_index` and `get_value` in closed form -/

namespace Params

variable (p : Params)

/-- A shifted value of fewer than `SIGNIFICANT_BITS` bits is its own bucket. -/
theorem getIndex_small {x : Int} {v : Nat} (hv : x.toNat >>> p.LOW_BITS = v) (h0 : 0 < v)
    (hsmall : v < 2 ^ p.SIGNIFICANT_BITS) : p.getIndex x = v - 1 := by
  have hlog : v.log2 < p.SIGNIFICANT_BITS := (Nat.log2_lt (by omega)).2 hsmall
  unfold getIndex
  dsimp only
  rw [hv, bits_sub_clz h0 (hsmall.trans p.sig_lt_bits), if_pos (by omega)]

/-- A longer one is bucketed by its `SIGNIFICANT_BITS` top bits `t` and the `shift` that
drops the others: bucket `t + shift * 2 ^ (SIGNIFICANT_BITS - 1) - 1`. -/
theorem getIndex_large {x : Int} {v : Nat} (hv : x.toNat >>> p.LOW_BITS = v)
    (hlarge : 2 ^ p.SIGNIFICANT_BITS ≤ v) (hv64 : v < 2 ^ bits) :
    p.getIndex x = v / 2 ^ (v.log2 + 1 - p.SIGNIFICANT_BITS) +
      (v.log2 + 1 - p.SIGNIFICANT_BITS) * 2 ^ (p.SIGNIFICANT_BITS - 1) - 1 := by
  have h0 : 0 < v := lt_of_lt_of_le (Nat.two_pow_pos _) hlarge
  have hlog : p.SIGNIFICANT_BITS ≤ v.log2 := (Nat.le_log2 (by omega)).2 hlarge
  have hsig := p.sig_pos
  obtain ⟨htlo, hthi⟩ := top_bits_bounds (v := v) (k := p.SIGNIFICANT_BITS)
    (s := v.log2 + 1 - p.SIGNIFICANT_BITS) (by omega) hsig (by omega)
  rw [p.two_pow_sig] at hthi
  unfold getIndex
  dsimp only
  rw [hv, bits_sub_clz h0 hv64, if_neg (by omega), SIGNIFICANT_MASK_eq,
    Nat.and_two_pow_sub_one_eq_mod, Nat.shiftRight_eq_div_pow, Nat.shiftLeft_eq,
    show v.log2 + 1 - p.SIGNIFICANT_BITS + 1 = (v.log2 + 1 - p.SIGNIFICANT_BITS) + 1 from rfl,
    Nat.succ_mul, Nat.mod_eq_sub_mod htlo, Nat.mod_eq_of_lt (by omega)]
  omega

/-- `get_value` below `SIGNIFICANT`: the bucket's one value, not shifted by `LOW_BITS`. -/
theorem getValue_small {index : Nat} (h : index + 1 < 2 ^ p.SIGNIFICANT_BITS) :
    p.getValue index = ((index + 1 : Nat) : Int) := by
  unfold getValue
  dsimp only
  rw [if_pos (by rwa [SIGNIFICANT_eq])]

/-- `get_value` from `SIGNIFICANT` on, with `index + 1 = q * 2 ^ (SIGNIFICANT_BITS - 1) + r`:
the mantissa `2 ^ (SIGNIFICANT_BITS - 1) + r` shifted left by `q - 1 + LOW_BITS`. -/
theorem getValue_large {q r : Nat} (hr : r < 2 ^ (p.SIGNIFICANT_BITS - 1)) (hq : 2 ≤ q) :
    p.getValue (q * 2 ^ (p.SIGNIFICANT_BITS - 1) + r - 1) =
      (((2 ^ (p.SIGNIFICANT_BITS - 1) + r) * 2 ^ (q - 1) * 2 ^ p.LOW_BITS : Nat) : Int) := by
  have hsig := p.sig_pos
  have hM : 2 * 2 ^ (p.SIGNIFICANT_BITS - 1) ≤ q * 2 ^ (p.SIGNIFICANT_BITS - 1) :=
    Nat.mul_le_mul_right _ hq
  have hi : q * 2 ^ (p.SIGNIFICANT_BITS - 1) + r - 1 + 1 = q * 2 ^ (p.SIGNIFICANT_BITS - 1) + r := by
    have := Nat.two_pow_pos (p.SIGNIFICANT_BITS - 1)
    omega
  have hdiv : (q * 2 ^ (p.SIGNIFICANT_BITS - 1) + r) / 2 ^ (p.SIGNIFICANT_BITS - 1) = q := by
    rw [Nat.add_comm, Nat.add_mul_div_right _ _ (Nat.two_pow_pos _), Nat.div_eq_of_lt hr,
      Nat.zero_add]
  have hmod : (q * 2 ^ (p.SIGNIFICANT_BITS - 1) + r) % 2 ^ (p.SIGNIFICANT_BITS - 1) = r := by
    rw [Nat.add_comm, Nat.add_mul_mod_self_right, Nat.mod_eq_of_lt hr]
  unfold getValue
  dsimp only
  rw [hi, if_neg (by rw [SIGNIFICANT_eq, two_pow_sig]; omega), SIGNIFICANT_MASK_eq,
    Nat.and_two_pow_sub_one_eq_mod, Nat.shiftRight_eq_div_pow, hdiv, hmod, Nat.shiftLeft_eq,
    Nat.shiftLeft_eq, Nat.shiftLeft_eq, Nat.one_mul,
    show q - 1 + p.SIGNIFICANT_BITS - 1 = (q - 1) + (p.SIGNIFICANT_BITS - 1) by omega,
    Nat.pow_add]
  congr 1
  ring

/-- `get_value` is strictly increasing: past `SIGNIFICANT` the mantissa grows by one, or
wraps to `2 ^ (SIGNIFICANT_BITS - 1)` and the exponent grows by one. -/
theorem getValue_lt_succ (j : Nat) : p.getValue j < p.getValue (j + 1) := by
  have hsig := p.sig_pos
  have hS := p.two_pow_sig
  set M := 2 ^ (p.SIGNIFICANT_BITS - 1) with hMdef
  have hM : 0 < M := Nat.two_pow_pos _
  have hL : 0 < 2 ^ p.LOW_BITS := Nat.two_pow_pos _
  rcases Nat.lt_or_ge (j + 1 + 1) (2 ^ p.SIGNIFICANT_BITS) with hsmall | hlarge
  · rw [getValue_small p (by omega), getValue_small p hsmall]
    omega
  by_cases hedge : j + 1 + 1 = 2 ^ p.SIGNIFICANT_BITS
  · -- `j` is the last bucket of one value, `j + 1` the first of the shifted ones
    rw [getValue_small p (by omega), show j + 1 = 2 * M + 0 - 1 by omega,
      getValue_large p hM (le_refl 2), ← hMdef]
    have : 2 * M ≤ (M + 0) * 2 ^ (2 - 1) * 2 ^ p.LOW_BITS := by
      rw [show (M + 0) * 2 ^ (2 - 1) = 2 * M by ring]
      exact Nat.le_mul_of_pos_right _ hL
    exact_mod_cast (show 2 * M + 0 - 1 < (M + 0) * 2 ^ (2 - 1) * 2 ^ p.LOW_BITS by omega)
  obtain ⟨q, r, hr, hj⟩ : ∃ q r, r < M ∧ j + 1 = q * M + r :=
    ⟨(j + 1) / M, (j + 1) % M, Nat.mod_lt _ hM, (Nat.div_add_mod' _ _).symm⟩
  have hq : 2 ≤ q := by
    by_contra hq
    have : q * M ≤ 1 * M := Nat.mul_le_mul_right _ (by omega)
    omega
  rw [show j = q * M + r - 1 by omega, getValue_large p hr hq, ← hMdef]
  by_cases hr' : r + 1 < M
  · rw [show q * M + r - 1 + 1 = q * M + (r + 1) - 1 by omega, getValue_large p hr' hq, ← hMdef]
    exact_mod_cast Nat.mul_lt_mul_of_pos_right
      (Nat.mul_lt_mul_of_pos_right (by omega) (Nat.two_pow_pos _)) hL
  · rw [show q * M + r - 1 + 1 = (q + 1) * M + 0 - 1 by rw [Nat.succ_mul]; omega,
      getValue_large p hM (by omega), ← hMdef]
    have hexp : (M + 0) * 2 ^ (q + 1 - 1) = (2 * M) * 2 ^ (q - 1) := by
      rw [show q + 1 - 1 = q - 1 + 1 by omega, Nat.pow_succ]
      ring
    rw [hexp]
    exact_mod_cast Nat.mul_lt_mul_of_pos_right
      (Nat.mul_lt_mul_of_pos_right (by omega) (Nat.two_pow_pos _)) hL

theorem getValue_mono {i j : Nat} (hij : i ≤ j) : p.getValue i ≤ p.getValue j := by
  induction hij with
  | refl => exact Int.le_refl _
  | step _ ih => exact Int.le_trans ih (Int.le_of_lt (p.getValue_lt_succ _))

/-! ## The bucket of a value -/

theorem span_lt_bits : p.HIGH_BITS - p.LOW_BITS < bits := by
  have := p.highBits_lt
  omega

theorem lowBits_succ_lt (hwide : 2 * p.LOW < p.HIGH) : p.LOW_BITS + 1 < p.HIGH_BITS := by
  rw [p.low_eq, p.high_eq, ← Nat.pow_succ'] at hwide
  exact (Nat.pow_lt_pow_iff_right (by decide)).1 hwide

/-- A value of `[LOW, HIGH)` shifted right by `LOW_BITS` has between one and
`HIGH_BITS - LOW_BITS` bits. -/
theorem shifted_bounds {x : Int} (hlo : (p.LOW : Int) ≤ x) (hhi : x < p.HIGH) :
    0 < x.toNat >>> p.LOW_BITS ∧ x.toNat >>> p.LOW_BITS < 2 ^ (p.HIGH_BITS - p.LOW_BITS) := by
  have hl := p.low_eq
  have hh := p.high_eq
  have hn1 : 2 ^ p.LOW_BITS ≤ x.toNat := by omega
  have hn2 : x.toNat < 2 ^ (p.HIGH_BITS - p.LOW_BITS) * 2 ^ p.LOW_BITS := by
    rw [← Nat.pow_add, Nat.sub_add_cancel p.lowBits_lt_highBits.le]
    omega
  rw [Nat.shiftRight_eq_div_pow]
  exact ⟨Nat.div_pos hn1 (Nat.two_pow_pos _), (Nat.div_lt_iff_lt_mul (Nat.two_pow_pos _)).2 hn2⟩

/-- With at least three significant bits and `HIGH` above `2 * LOW`, every value of
`[LOW, HIGH)` has a bucket: the largest index, for the values just below `HIGH`, is
`BUCKETS - 1`. -/
theorem getIndex_lt_BUCKETS (hsig : 3 ≤ p.SIGNIFICANT_BITS) (hwide : 2 * p.LOW < p.HIGH)
    {x : Int} (hlo : (p.LOW : Int) ≤ x) (hhi : x < p.HIGH) : p.getIndex x < p.BUCKETS := by
  obtain ⟨h0, hv⟩ := p.shifted_bounds hlo hhi
  have hd := p.lowBits_succ_lt hwide
  have hspan := p.span_lt_bits
  have hS := p.two_pow_sig
  generalize hvdef : x.toNat >>> p.LOW_BITS = v at h0 hv
  generalize hd' : p.HIGH_BITS - p.LOW_BITS = d at hv hspan
  rw [BUCKETS_eq, show p.HIGH_BITS - p.LOW_BITS - 1 = d - 1 by omega]
  set M := 2 ^ (p.SIGNIFICANT_BITS - 1) with hMdef
  rcases Nat.lt_or_ge v (2 ^ p.SIGNIFICANT_BITS) with hsmall | hlarge
  · rw [p.getIndex_small hvdef h0 hsmall]
    by_cases hvM : v ≤ M
    · have : 1 * M ≤ (d - 1) * M := Nat.mul_le_mul_right _ (by omega)
      omega
    · -- `v` has `SIGNIFICANT_BITS` bits, so the span `d` has at least as many
      have hdS : p.SIGNIFICANT_BITS - 1 < d :=
        (Nat.pow_lt_pow_iff_right (by decide)).1 (by omega : 2 ^ (p.SIGNIFICANT_BITS - 1) < 2 ^ d)
      have : 2 * M ≤ (d - 1) * M := Nat.mul_le_mul_right _ (by omega)
      omega
  · have hv64 : v < 2 ^ bits := hv.trans (Nat.pow_lt_pow_right (by decide) hspan)
    have hlog : v.log2 < d := (Nat.log2_lt (by omega)).2 hv
    have hsl : p.SIGNIFICANT_BITS ≤ v.log2 := (Nat.le_log2 (by omega)).2 hlarge
    obtain ⟨-, hthi⟩ := top_bits_bounds (v := v) (k := p.SIGNIFICANT_BITS)
      (s := v.log2 + 1 - p.SIGNIFICANT_BITS) (by omega) p.sig_pos (by omega)
    rw [hS] at hthi
    have hM : 0 < M := Nat.two_pow_pos _
    rw [p.getIndex_large hvdef hlarge hv64, ← hMdef]
    -- the top bits are below `2 * M` and the shift is at most `d - 3`
    have : (v.log2 + 1 - p.SIGNIFICANT_BITS + 2) * M ≤ (d - 1) * M :=
      Nat.mul_le_mul_right _ (by omega)
    rw [Nat.add_mul] at this
    omega

/-- The bucket of a value of more than `SIGNIFICANT_BITS` bits after the shift starts at its
top bits `t` shifted back, and the next bucket at `t + 1` shifted back. -/
theorem getValue_getIndex_large {x : Int} {v : Nat} (hv : x.toNat >>> p.LOW_BITS = v)
    (hlarge : 2 ^ p.SIGNIFICANT_BITS ≤ v) (hv64 : v < 2 ^ bits) :
    p.getValue (p.getIndex x) =
        ((v / 2 ^ (v.log2 + 1 - p.SIGNIFICANT_BITS) * 2 ^ (v.log2 + 1 - p.SIGNIFICANT_BITS) *
          2 ^ p.LOW_BITS : Nat) : Int) ∧
      p.getValue (p.getIndex x + 1) =
        (((v / 2 ^ (v.log2 + 1 - p.SIGNIFICANT_BITS) + 1) *
          2 ^ (v.log2 + 1 - p.SIGNIFICANT_BITS) * 2 ^ p.LOW_BITS : Nat) : Int) := by
  have hS := p.two_pow_sig
  have hv0 : v ≠ 0 := by have := Nat.two_pow_pos p.SIGNIFICANT_BITS; omega
  have hsl : p.SIGNIFICANT_BITS ≤ v.log2 := (Nat.le_log2 hv0).2 hlarge
  obtain ⟨htlo, hthi⟩ := top_bits_bounds (v := v) (k := p.SIGNIFICANT_BITS)
    (s := v.log2 + 1 - p.SIGNIFICANT_BITS) hv0 p.sig_pos (by omega)
  have hsh : 1 ≤ v.log2 + 1 - p.SIGNIFICANT_BITS := by omega
  rw [p.getIndex_large hv hlarge hv64]
  generalize v / 2 ^ (v.log2 + 1 - p.SIGNIFICANT_BITS) = t at htlo hthi ⊢
  generalize v.log2 + 1 - p.SIGNIFICANT_BITS = sh at hsh ⊢
  set M := 2 ^ (p.SIGNIFICANT_BITS - 1) with hMdef
  have hM : 0 < M := Nat.two_pow_pos _
  rw [hS] at hthi
  constructor
  · rw [show t + sh * M - 1 = (sh + 1) * M + (t - M) - 1 by rw [Nat.succ_mul]; omega,
      p.getValue_large (by omega) (by omega), ← hMdef, Nat.add_sub_cancel' htlo,
      Nat.add_sub_cancel]
  by_cases ht : t + 1 < 2 * M
  · rw [show t + sh * M - 1 + 1 = (sh + 1) * M + (t + 1 - M) - 1 by rw [Nat.succ_mul]; omega,
      p.getValue_large (by omega) (by omega), ← hMdef, show M + (t + 1 - M) = t + 1 by omega,
      Nat.add_sub_cancel]
  · -- the top bits wrap to `M` and the exponent grows by one
    rw [show t + sh * M - 1 + 1 = (sh + 2) * M + 0 - 1 by rw [Nat.add_mul]; omega,
      p.getValue_large hM (by omega), ← hMdef, show t + 1 = 2 * M by omega,
      show sh + 2 - 1 = sh + 1 by omega, Nat.pow_succ]
    congr 1
    ring

/-- The first value of the bucket of `x` is at most `x` and the first value of the next
bucket is above it, when `LOW` is `1` or `x` is past the values that `get_value` returns
without the shift by `LOW_BITS`. -/
theorem getValue_getIndex_bounds {x : Int} (hlo : (p.LOW : Int) ≤ x) (hhi : x < p.HIGH)
    (hexact : p.LOW = 1 ∨ ((p.LOW * p.SIGNIFICANT : Nat) : Int) ≤ x) :
    p.getValue (p.getIndex x) ≤ x ∧ x < p.getValue (p.getIndex x + 1) := by
  obtain ⟨h0, hv⟩ := p.shifted_bounds hlo hhi
  have hn : ((x.toNat : Nat) : Int) = x := Int.toNat_of_nonneg (by omega)
  have hL : 0 < 2 ^ p.LOW_BITS := Nat.two_pow_pos _
  generalize hvdef : x.toNat >>> p.LOW_BITS = v at h0 hv
  have hvn : v = x.toNat / 2 ^ p.LOW_BITS := by rw [← hvdef, Nat.shiftRight_eq_div_pow]
  rcases Nat.lt_or_ge v (2 ^ p.SIGNIFICANT_BITS) with hsmall | hlarge
  · -- only when `LOW` is `1`: then `v` is `x`, and its bucket holds it alone
    have hlow : p.LOW = 1 := by
      refine hexact.resolve_right fun hx => ?_
      have hx' : 2 ^ p.SIGNIFICANT_BITS * 2 ^ p.LOW_BITS ≤ x.toNat := by
        rw [p.SIGNIFICANT_eq, p.low_eq, Nat.mul_comm] at hx
        omega
      have := (Nat.le_div_iff_mul_le hL).2 hx'
      omega
    have hLB : p.LOW_BITS = 0 := by
      by_contra hne
      have := Nat.one_lt_two_pow hne
      have := p.low_eq
      omega
    have hvx : v = x.toNat := by rw [hvn, hLB, Nat.pow_zero, Nat.div_one]
    have hval : p.getValue (p.getIndex x) = x := by
      rw [p.getIndex_small hvdef h0 hsmall, p.getValue_small (by omega), Nat.sub_add_cancel h0,
        hvx, hn]
    have hnext := p.getValue_lt_succ (p.getIndex x)
    rw [hval] at hnext
    exact ⟨hval.le, hnext⟩
  · have hv64 : v < 2 ^ bits := hv.trans (Nat.pow_lt_pow_right (by decide) p.span_lt_bits)
    obtain ⟨hcur, hnext⟩ := p.getValue_getIndex_large hvdef hlarge hv64
    rw [hcur, hnext, ← hn]
    generalize v.log2 + 1 - p.SIGNIFICANT_BITS = sh
    have hle : v / 2 ^ sh * 2 ^ sh * 2 ^ p.LOW_BITS ≤ x.toNat := calc
      v / 2 ^ sh * 2 ^ sh * 2 ^ p.LOW_BITS ≤ v * 2 ^ p.LOW_BITS :=
        Nat.mul_le_mul_right _ (Nat.div_mul_le_self _ _)
      _ ≤ x.toNat := by rw [hvn]; exact Nat.div_mul_le_self _ _
    have hlt : x.toNat < (v / 2 ^ sh + 1) * 2 ^ sh * 2 ^ p.LOW_BITS := calc
      x.toNat < 2 ^ p.LOW_BITS * (v + 1) := by rw [hvn]; exact Nat.lt_mul_div_succ _ hL
      _ ≤ 2 ^ p.LOW_BITS * (2 ^ sh * (v / 2 ^ sh + 1)) :=
        Nat.mul_le_mul_left _ (Nat.lt_mul_div_succ _ (Nat.two_pow_pos _))
      _ = (v / 2 ^ sh + 1) * 2 ^ sh * 2 ^ p.LOW_BITS := by ring
    exact ⟨by exact_mod_cast hle, by exact_mod_cast hlt⟩

theorem getRange_of_lt {index : Nat} (h : index < p.BUCKETS) :
    p.getRange index = (p.getValue index, p.getValue (index + 1) - 1) := by
  rw [getRange, if_neg (by omega)]

end Params

/-! ## `record` -/

/-- What `record` is for: the least and greatest values seen are kept, and the one counter
the value belongs to goes up by one. -/
def Histogram.tally (p : Params) (h : Histogram) (value : Int) : Histogram where
  low := min h.low value
  high := max h.high value
  underflow := if value < p.LOW then h.underflow + 1 else h.underflow
  overflow := if (p.HIGH : Int) ≤ value then h.overflow + 1 else h.overflow
  count := if (p.LOW : Int) ≤ value ∧ value < p.HIGH then
      h.count.modify (p.getIndex value) (· + 1)
    else h.count

-- Made here once: the equation lemmas that the proofs below unfold.
section
attribute [local simp] Histogram.tally
end

/-- The first two lines of `record`: the least and greatest values seen, where the test of
`high` reads the copy that `low` was set in. -/
theorem record_seen (h : Histogram) (x : Int) :
    (if x > (if x < h.low then { h with low := x } else h).high then
        { (if x < h.low then { h with low := x } else h) with high := x }
      else if x < h.low then { h with low := x } else h) =
      { h with low := min h.low x, high := max h.high x } := by
  obtain ⟨low, high, u, o, c⟩ := h
  by_cases hl : x < low <;> by_cases hh : x > high <;>
    simp only [hl, hh, if_true, if_false] <;> congr 1 <;> omega

theorem record_assert_fails {p : Params} {h : Histogram} {x : Int} (hlo : (p.LOW : Int) ≤ x)
    (hhi : x < p.HIGH) (hi : p.BUCKETS ≤ p.getIndex x) :
    h.record p x = .error "assert(i < BUCKETS)" := by
  unfold Histogram.record
  dsimp only
  rw [record_seen, if_neg (by omega), if_neg (by omega), if_neg (by omega)]

/-- With at least three significant bits and `HIGH` above `2 * LOW`, `record` never fails
its assert and is `tally`. -/
theorem record_eq_tally (p : Params) (hsig : 3 ≤ p.SIGNIFICANT_BITS) (hwide : 2 * p.LOW < p.HIGH)
    (h : Histogram) (x : Int) :
    h.record p x = .ok (h.tally p x) := by
  have hlh := p.low_lt_high
  unfold Histogram.record Histogram.tally
  dsimp only
  rw [record_seen]
  by_cases hL : x < p.LOW
  · -- an underflow
    have hH : ¬ (p.HIGH : Int) ≤ x := by omega
    have hin : ¬ ((p.LOW : Int) ≤ x ∧ x < p.HIGH) := by omega
    simp only [hL, hH, hin, if_true, if_false]
  by_cases hH : (p.HIGH : Int) ≤ x
  · -- an overflow
    have hin : ¬ ((p.LOW : Int) ≤ x ∧ x < p.HIGH) := by omega
    simp only [hL, hH, hin, if_true, if_false]
  · -- a bucket: `get_index` is below `BUCKETS`, so the assert holds
    have hin : (p.LOW : Int) ≤ x ∧ x < p.HIGH := by omega
    have hi := p.getIndex_lt_BUCKETS hsig hwide hin.1 hin.2
    simp only [hL, hH, hin, hi, and_self, if_true, if_false]

/-- `Histogram<int, 1, 4, 1>`. -/
def oneBit : Params := ⟨1, 4, 1, by decide, by decide⟩

/-- `Histogram<int, 1, 2>`: `HIGH` is `2 * LOW`, with the default three significant bits. -/
def noBuckets : Params := ⟨1, 2, 3, by decide, by decide⟩

/-- `Histogram<int, 2, 16>`. -/
def lowTwo : Params := ⟨2, 16, 3, by decide, by decide⟩

theorem histogram_bucket_divergence :
    (∀ h : Histogram, h.record oneBit 2 = .error "assert(i < BUCKETS)") ∧
      (∀ h : Histogram, h.record noBuckets 1 = .error "assert(i < BUCKETS)") ∧
      lowTwo.getRange (lowTwo.getIndex 2) = (1, 1) :=
  ⟨fun _ => record_assert_fails (by decide) (by decide) (by decide),
    fun _ => record_assert_fails (by decide) (by decide) (by decide), by decide⟩

/-- `Histogram<int, HIST_MIN, HIST_MAX, HIST_BUCKET_GRANULARITY>` of `metrics.h`. -/
def metrics : Params := ⟨1, 1 <<< 17, 5, by decide, by decide⟩

theorem record_eq_tally_metrics :
    ({ low := 0, high := 0, underflow := 0, overflow := 0, count := [] } : Histogram).record
        metrics 1000 =
      .ok (Histogram.tally metrics ⟨0, 0, 0, 0, []⟩ 1000) :=
  record_eq_tally metrics (by decide) (by decide) _ _

namespace Params

variable (p : Params)

/-- The bucket of a value holds it, when `LOW` is `1` or the value is from
`LOW * SIGNIFICANT` on. -/
theorem getRange_getIndex_mem (hsig : 3 ≤ p.SIGNIFICANT_BITS) (hwide : 2 * p.LOW < p.HIGH)
    {x : Int} (hlo : (p.LOW : Int) ≤ x) (hhi : x < p.HIGH)
    (hexact : p.LOW = 1 ∨ ((p.LOW * p.SIGNIFICANT : Nat) : Int) ≤ x) :
    (p.getRange (p.getIndex x)).1 ≤ x ∧ x ≤ (p.getRange (p.getIndex x)).2 := by
  obtain ⟨hcur, hnext⟩ := p.getValue_getIndex_bounds hlo hhi hexact
  rw [p.getRange_of_lt (p.getIndex_lt_BUCKETS hsig hwide hlo hhi)]
  exact ⟨hcur, by dsimp only; omega⟩

/-- The ranges of distinct buckets are disjoint, and in the order of the buckets. -/
theorem getRange_disjoint {i j : Nat} (hij : i < j) (hj : j < p.BUCKETS) :
    (p.getRange i).2 < (p.getRange j).1 := by
  have hle : p.getValue (i + 1) ≤ p.getValue j := p.getValue_mono hij
  rw [p.getRange_of_lt (hij.trans hj), p.getRange_of_lt hj]
  dsimp only
  omega

end Params

theorem getRange_getIndex_mem_metrics :
    (metrics.getRange (metrics.getIndex 1000)).1 ≤ 1000 ∧
      1000 ≤ (metrics.getRange (metrics.getIndex 1000)).2 :=
  metrics.getRange_getIndex_mem (by decide) (by decide) (by decide) (by decide) (Or.inl rfl)

theorem getRange_disjoint_metrics : (metrics.getRange 3).2 < (metrics.getRange 200).1 :=
  metrics.getRange_disjoint (by decide) (by decide)

end Ccf.Histogram
