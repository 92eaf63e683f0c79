import Mathlib.Data.Nat.Bitwise

/-!
# Little-endian integers in byte strings

`le n v` is the `n` bytes of `v`, least significant first: what `memcpy` of an `n`-byte
unsigned integer puts in a buffer on a little-endian machine, and so also what a cast of `v`
to `n` bytes keeps (`v % 256 ^ n`). `ofLe` reads such bytes back. Readers of frames and of
serialised messages take a prefix of their input and go on with the rest: the lemmas say what
`ofLe` gives on the front of `le n v ++ rest`.
-/

namespace Codec

/-- The `n` bytes of `v`, least significant first. -/
def le : Nat → Nat → List UInt8
  | 0, _ => []
  | n + 1, v => UInt8.ofNat (v % 256) :: le n (v / 256)

/-- The number whose bytes, least significant first, are `bs`. -/
def ofLe : List UInt8 → Nat
  | [] => 0
  | b :: bs => b.toNat + 256 * ofLe bs

-- Made here once: the equation lemmas that the proofs below unfold.
section
attribute [local simp] le ofLe
end

@[simp] theorem length_le (n v : Nat) : (le n v).length = n := by
  induction n generalizing v with
  | zero => rfl
  | succ n ih => simp [le, ih]

theorem ofLe_le (n v : Nat) : ofLe (le n v) = v % 256 ^ n := by
  induction n generalizing v with
  | zero => simp [le, ofLe, Nat.mod_one]
  | succ n ih =>
      rw [le, ofLe, ih, UInt8.toNat_ofNat', show (2 : Nat) ^ 8 = 256 from rfl, Nat.mod_mod,
        Nat.pow_succ', Nat.mod_mul]

theorem ofLe_le_of_lt {n v : Nat} (h : v < 256 ^ n) : ofLe (le n v) = v := by
  rw [ofLe_le, Nat.mod_eq_of_lt h]

/-- The bytes of `v` are those of `v` cut to `n` bytes. -/
theorem le_mod (n v : Nat) : le n (v % 256 ^ n) = le n v := by
  induction n generalizing v with
  | zero => rfl
  | succ n ih =>
      have hlow : v % 256 ^ (n + 1) % 256 = v % 256 :=
        Nat.mod_mod_of_dvd v (Nat.dvd_of_mod_eq_zero (by rw [Nat.pow_succ, Nat.mul_mod_left]))
      have hhigh : v % 256 ^ (n + 1) / 256 = v / 256 % 256 ^ n := by
        rw [Nat.pow_succ', Nat.mod_mul_right_div_self]
      rw [le, le, hlow, hhigh, ih]

/-- `n` bytes hold a number below `256 ^ n`. -/
theorem ofLe_lt (bs : List UInt8) : ofLe bs < 256 ^ bs.length := by
  induction bs with
  | nil => exact Nat.one_pos
  | cons b bs ih =>
      have hb : b.toNat < 256 := b.toNat_lt
      rw [ofLe, List.length_cons, Nat.pow_succ]
      omega

/-- At most `n` bytes taken from the front hold a number below `256 ^ n`. -/
theorem ofLe_take_lt (n : Nat) (bs : List UInt8) : ofLe (bs.take n) < 256 ^ n :=
  Nat.lt_of_lt_of_le (ofLe_lt _)
    (Nat.pow_le_pow_right (by decide) (List.length_take_le n bs))

/-- The front `n` bytes of `le n v ++ rest` read back as `v` cut to `n` bytes. -/
theorem ofLe_take_le_append (n v : Nat) (rest : List UInt8) :
    ofLe ((le n v ++ rest).take n) = v % 256 ^ n := by
  rw [List.take_left' (length_le n v), ofLe_le]

end Codec
