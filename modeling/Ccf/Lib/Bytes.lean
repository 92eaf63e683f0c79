import Mathlib.Data.Nat.Bitwise
import Mathlib.Tactic.Ring

/-!
# Byte memory

Memory as a function from addresses to bytes, with what C++ code does to it: little-endian
loads and stores of a machine word (`*reinterpret_cast<uint64_t*>`), `memset` and `memcpy`.
Each store comes with what a later load sees: over the range it wrote, what it wrote; over a
range it does not touch, what was there (`load_congr` is the frame rule all of them use).

The second half gathers the facts about `&&&`, `|||`, `<<<` and `>>>` on `Nat` that packing
two fields into one word needs.
-/

namespace Bytes

/-- The `n` bytes from `i`, as a little-endian number. -/
def load (m : Nat → UInt8) (i : Nat) : Nat → Nat
  | 0 => 0
  | n + 1 => (m i).toNat + 256 * load m (i + 1) n

/-- The `n` bytes from `i`. -/
def read (m : Nat → UInt8) (i n : Nat) : List UInt8 :=
  (List.range n).map fun k => m (i + k)

/-- Store the low `n` bytes of `v` from `i`, little-endian. -/
def store (m : Nat → UInt8) (i n v : Nat) : Nat → UInt8 := fun j =>
  if i ≤ j ∧ j < i + n then UInt8.ofNat (v / 256 ^ (j - i)) else m j

/-- `memset(m + i, b, n)`. -/
def fill (m : Nat → UInt8) (i n : Nat) (b : UInt8) : Nat → UInt8 := fun j =>
  if i ≤ j ∧ j < i + n then b else m j

/-- `memcpy(m + i, bs, bs.size())`. -/
def copy (m : Nat → UInt8) (i : Nat) (bs : List UInt8) : Nat → UInt8 := fun j =>
  if i ≤ j ∧ j < i + bs.length then bs.getD (j - i) 0 else m j

-- Made here once: the equation lemmas that the proofs below unfold.
section
attribute [local simp] read store fill copy
end

variable {m m' : Nat → UInt8}

/-! ## Loads -/

@[simp] theorem load_zero (i : Nat) : load m i 0 = 0 := rfl

theorem load_succ (i n : Nat) : load m i (n + 1) = (m i).toNat + 256 * load m (i + 1) n := rfl

/-- **Frame rule.** Two memories that agree on a range load the same from it. -/
theorem load_congr {i n : Nat} (h : ∀ k < n, m (i + k) = m' (i + k)) :
    load m i n = load m' i n := by
  induction n generalizing i with
  | zero => rfl
  | succ n ih =>
      have h0 : m i = m' i := by simpa using h 0 (Nat.succ_pos n)
      have hrest : load m (i + 1) n = load m' (i + 1) n :=
        ih fun k hk => by simpa [Nat.add_assoc, Nat.add_comm 1 k] using h (k + 1) (by omega)
      rw [load_succ, load_succ, h0, hrest]

theorem load_lt (i n : Nat) : load m i n < 256 ^ n := by
  induction n generalizing i with
  | zero => simp
  | succ n ih =>
      have hb := UInt8.toNat_lt (m i)
      have hr := ih (i + 1)
      rw [load_succ, Nat.pow_succ]
      omega

/-- A load of `a + b` bytes is the load of the first `a`, then of the next `b` above them. -/
theorem load_add (i a b : Nat) : load m i (a + b) = load m i a + 256 ^ a * load m (i + a) b := by
  induction a generalizing i with
  | zero => simp
  | succ a ih =>
      rw [Nat.add_right_comm, load_succ, load_succ, ih (i + 1), Nat.pow_succ,
        show i + 1 + a = i + (a + 1) by omega]
      ring

/-- Memory that is zero over a range loads zero from it. -/
theorem load_eq_zero {i n : Nat} (h : ∀ k < n, m (i + k) = 0) : load m i n = 0 := by
  have : load m i n = load (fun _ => 0) i n := load_congr h
  rw [this]
  clear h this
  induction n generalizing i with
  | zero => rfl
  | succ n ih => simp [load_succ, ih]

/-! ## Stores -/

theorem store_of_not_mem {i n v j : Nat} (h : j < i ∨ i + n ≤ j) : store m i n v j = m j := by
  simp only [store]
  rw [if_neg (by omega)]

/-- What a store writes loads back, as far as it fits in the bytes stored. -/
theorem load_store (i n v : Nat) : load (store m i n v) i n = v % 256 ^ n := by
  induction n generalizing i v m with
  | zero => simp [Nat.mod_one]
  | succ n ih =>
      -- the bytes above the first are the store of `v / 256` from `i + 1`
      have hrest : load (store m i (n + 1) v) (i + 1) n = load (store m (i + 1) n (v / 256)) (i + 1) n := by
        apply load_congr
        intro k hk
        simp only [store]
        rw [if_pos (by omega), if_pos (by omega), Nat.div_div_eq_div_mul,
          show i + 1 + k - i = k + 1 by omega, show i + 1 + k - (i + 1) = k by omega,
          Nat.pow_succ, Nat.mul_comm (256 ^ k)]
      have hfirst : (store m i (n + 1) v i).toNat = v % 256 := by
        simp [store, UInt8.toNat_ofNat']
      rw [load_succ, hrest, ih, hfirst, Nat.pow_succ, Nat.mul_comm (256 ^ n) 256, Nat.mod_mul]

/-- A store leaves a load from a range it does not touch as it was. -/
theorem load_store_of_disjoint {i n v j k : Nat} (h : j + k ≤ i ∨ i + n ≤ j) :
    load (store m i n v) j k = load m j k :=
  load_congr fun t ht => store_of_not_mem (by omega)

/-! ## `memset` and `memcpy` -/

theorem fill_of_not_mem {i n j : Nat} {b : UInt8} (h : j < i ∨ i + n ≤ j) :
    fill m i n b j = m j := by
  simp only [fill]
  rw [if_neg (by omega)]

theorem fill_of_mem {i n j : Nat} {b : UInt8} (h : i ≤ j ∧ j < i + n) : fill m i n b j = b := by
  simp only [fill]
  rw [if_pos h]

theorem copy_of_not_mem {i j : Nat} {bs : List UInt8} (h : j < i ∨ i + bs.length ≤ j) :
    copy m i bs j = m j := by
  simp only [copy]
  rw [if_neg (by omega)]

theorem load_copy_of_disjoint {i j k : Nat} {bs : List UInt8} (h : j + k ≤ i ∨ i + bs.length ≤ j) :
    load (copy m i bs) j k = load m j k :=
  load_congr fun t ht => copy_of_not_mem (by omega)

/-! ## Reading bytes -/

@[simp] theorem read_zero (i : Nat) : read m i 0 = [] := rfl

@[simp] theorem length_read (i n : Nat) : (read m i n).length = n := by simp [read]

theorem read_congr {i n : Nat} (h : ∀ k < n, m (i + k) = m' (i + k)) : read m i n = read m' i n := by
  simp only [read]
  exact List.map_congr_left fun k hk => h k (List.mem_range.mp hk)

/-- Two memories with the same bytes on a range load the same from it. -/
theorem load_eq_of_read_eq {i n : Nat} (h : read m i n = read m' i n) : load m i n = load m' i n :=
  load_congr fun k hk => by
    have hk' := congrArg (·[k]?) h
    simpa [read, hk] using hk'

/-- The bytes of `a + b` from `i` are the first `a`, then the next `b`. -/
theorem read_add (i a b : Nat) : read m i (a + b) = read m i a ++ read m (i + a) b := by
  simp only [read, List.range_add, List.map_append, List.map_map]
  congr 1
  exact List.map_congr_left fun k _ => by simp [Nat.add_assoc]

/-- What `memcpy` copied reads back. -/
theorem read_copy (i : Nat) (bs : List UInt8) : read (copy m i bs) i bs.length = bs := by
  apply List.ext_getElem (by simp)
  intro k hk _
  simp only [read, List.getElem_map, List.getElem_range, copy]
  simp only [length_read] at hk
  rw [if_pos (by omega), Nat.add_sub_cancel_left, List.getD_eq_getElem _ _ hk]

/-- What `memcpy` copied of `n` bytes reads back as `n` bytes. -/
theorem read_copy_of_length {i n : Nat} {bs : List UInt8} (h : bs.length = n) :
    read (copy m i bs) i n = bs := by
  rw [← h]
  exact read_copy i bs

theorem read_copy_of_disjoint {i j k : Nat} {bs : List UInt8} (h : j + k ≤ i ∨ i + bs.length ≤ j) :
    read (copy m i bs) j k = read m j k :=
  read_congr fun t ht => copy_of_not_mem (by omega)

theorem read_store_of_disjoint {i n v j k : Nat} (h : j + k ≤ i ∨ i + n ≤ j) :
    read (store m i n v) j k = read m j k :=
  read_congr fun t ht => store_of_not_mem (by omega)

/-! ## Bits of a word -/

/-- A field shifted above another that fits below the shift: `|||` is `+`. -/
theorem shiftLeft_or_eq_add {a b k : Nat} (hb : b < 2 ^ k) : a <<< k ||| b = a * 2 ^ k + b := by
  rw [← Nat.shiftLeft_add_eq_or_of_lt hb, Nat.shiftLeft_eq]

/-- Clearing the low `k` bits of a number of `n` bits: `&&&` with `2 ^ n - 2 ^ k`. -/
theorem and_two_pow_sub_two_pow {x n k : Nat} (hk : k ≤ n) (hx : x < 2 ^ n) :
    x &&& (2 ^ n - 2 ^ k) = x / 2 ^ k * 2 ^ k := by
  have hmask : 2 ^ n - 2 ^ k = (2 ^ (n - k) - 1) * 2 ^ k := by
    rw [Nat.sub_mul, Nat.one_mul, ← Nat.pow_add, Nat.sub_add_cancel hk]
  rw [hmask]
  apply Nat.eq_of_testBit_eq
  intro i
  rw [Nat.testBit_and, Nat.testBit_mul_two_pow, Nat.testBit_mul_two_pow,
    Nat.testBit_two_pow_sub_one, Nat.testBit_div_two_pow]
  by_cases hki : k ≤ i
  · by_cases hin : i < n
    · simp [hki, show i - k < n - k by omega, Nat.sub_add_cancel hki]
    · have hbit : x.testBit i = false :=
        Nat.testBit_lt_two_pow (Nat.lt_of_lt_of_le hx (Nat.pow_le_pow_right (by omega) (by omega)))
      simp [hki, show ¬ i - k < n - k by omega, Nat.sub_add_cancel hki, hbit]
  · simp [hki]

/-- `x &&& 2 ^ k` tests bit `k`. -/
theorem and_two_pow_ne_zero_iff {x k : Nat} : x &&& 2 ^ k ≠ 0 ↔ x.testBit k = true := by
  rw [Nat.and_two_pow]
  cases x.testBit k <;> simp

end Bytes
