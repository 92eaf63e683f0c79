import Mathlib.Data.Nat.Basic
import Mathlib.Algebra.GroupWithZero.Nat

/-!
# Positions in a circular buffer

A circular buffer of size `n` keeps position `p` of an unbounded stream at index `p % n`. Two
facts carry every argument about one: within a window of `n` positions the index determines the
position (`eq_of_mod_eq`), and a record that does not run past the end of the buffer has its
bytes at consecutive indices (`mod_add_of_lt`). From them, a write to the indices of one record
misses the index of every other position of the window (`mod_not_mem`).
-/

namespace Circular

variable {n : Nat}

/-- Within one lap, the index of `p + t` is `t` past the index of `p`. -/
theorem mod_add_of_lt {p t : Nat} (h : p % n + t < n) : (p + t) % n = p % n + t := by
  have hp : p + t = n * (p / n) + (p % n + t) := by have := Nat.div_add_mod p n; omega
  rw [hp, Nat.mul_add_mod, Nat.mod_eq_of_lt h]

/-- **Within a window of `n` positions, the index determines the position.** -/
theorem eq_of_mod_eq {a p q : Nat} (hp : a ≤ p) (hp' : p < a + n) (hq : a ≤ q) (hq' : q < a + n)
    (h : p % n = q % n) : p = q := by
  have hpd := Nat.div_add_mod p n
  have hqd := Nat.div_add_mod q n
  -- positions with the same index differ by a multiple of `n`, and these differ by less
  rcases Nat.lt_trichotomy (p / n) (q / n) with hlt | heq | hgt
  · have : n * (p / n) + n ≤ n * (q / n) := by
      rw [← Nat.mul_succ]; exact Nat.mul_le_mul_left n hlt
    omega
  · rw [← hpd, ← hqd, heq, h]
  · have : n * (q / n) + n ≤ n * (p / n) := by
      rw [← Nat.mul_succ]; exact Nat.mul_le_mul_left n hgt
    omega

/-- **A record's indices miss every other position of the window.** If the record at `p` of
length `l` does not run past the end of the buffer, then a position `q` of the window outside
it has its index outside the record's indices. -/
theorem mod_not_mem {a p l q : Nat} (hp : a ≤ p) (hpl : p + l ≤ a + n) (hlap : p % n + l ≤ n)
    (hq : a ≤ q) (hq' : q < a + n) (hout : q < p ∨ p + l ≤ q) :
    q % n < p % n ∨ p % n + l ≤ q % n := by
  by_contra hin
  -- `q`'s index is `t` past `p`'s, so `q` is `p + t`
  obtain ⟨t, ht, hqt⟩ : ∃ t, t < l ∧ q % n = p % n + t := ⟨q % n - p % n, by omega, by omega⟩
  have hpt : (p + t) % n = q % n := by rw [mod_add_of_lt (by omega), hqt]
  have := eq_of_mod_eq (show a ≤ p + t by omega) (by omega) hq hq' hpt
  omega

/-- **Writes inside one record leave the others.** If `b'` differs from `b` only at the
indices of the record at `p` of length `l`, it agrees with `b` at the indices of any record of
the window that does not meet it. -/
theorem agree_outside {β : Type} {b b' : Nat → β} {a p l q l' : Nat}
    (hbuf : ∀ j, j < p % n ∨ p % n + l ≤ j → b' j = b j)
    (hp : a ≤ p) (hpl : p + l ≤ a + n) (hlap : p % n + l ≤ n)
    (hq : a ≤ q) (hql : q + l' ≤ a + n) (hlap' : q % n + l' ≤ n) (hdisj : q + l' ≤ p ∨ p + l ≤ q) :
    ∀ j, q % n ≤ j → j < q % n + l' → b' j = b j := by
  intro j hj hj'
  -- the index `j` is that of position `q + t` of the record at `q`
  have hqt : (q + (j - q % n)) % n = j := by rw [mod_add_of_lt (by omega)]; omega
  apply hbuf
  rw [← hqt]
  exact mod_not_mem hp hpl hlap (by omega) (by omega) (by omega)

/-- A position in the same lap as `tl`, at or before it, is as far into the lap as it is past
the lap's start. -/
theorem mod_of_same_lap {h tl : Nat} (hlo : tl - tl % n ≤ h) (hhi : h ≤ tl) :
    h % n = h - (tl - tl % n) := by
  have htl := Nat.div_add_mod tl n
  have hlt : h - (tl - tl % n) < n ∨ n = 0 := by
    rcases Nat.eq_zero_or_pos n with hn | hn
    · exact .inr hn
    · exact .inl (by have := Nat.mod_lt tl hn; omega)
  rcases hlt with hlt | hn
  · have hh : h = n * (tl / n) + (h - (tl - tl % n)) := by omega
    rw [hh, Nat.mul_add_mod, Nat.mod_eq_of_lt hlt]
    omega
  · subst hn
    simp at hlo ⊢

/-! ## Records laid end to end

The records of a stream from position `p` on, each at the position where the one before it
ends: `Laid len E p xs` says that each record satisfies `E` at its position. -/

section Laid

variable {α : Type} (len : α → Nat) (E : Nat → α → Prop)

/-- Records laid end to end from `p`, each satisfying `E` at its position. -/
def Laid : Nat → List α → Prop
  | _, [] => True
  | p, x :: xs => E p x ∧ Laid (p + len x) xs

/-- The positions the records take. -/
def span (xs : List α) : Nat := (xs.map len).sum

-- Made here once: the equation lemmas that the proofs below unfold.
section
attribute [local simp] span
end

variable {len E}

@[simp] theorem span_nil : span len [] = 0 := rfl

@[simp] theorem span_cons (x : α) (xs : List α) : span len (x :: xs) = len x + span len xs := by
  simp [span]

@[simp] theorem span_append (xs ys : List α) : span len (xs ++ ys) = span len xs + span len ys := by
  simp [span]

@[simp] theorem laid_nil (p : Nat) : Laid len E p [] := trivial

@[simp] theorem laid_cons {p : Nat} {x : α} {xs : List α} :
    Laid len E p (x :: xs) ↔ E p x ∧ Laid len E (p + len x) xs := Iff.rfl

theorem laid_append {p : Nat} {xs ys : List α} :
    Laid len E p (xs ++ ys) ↔ Laid len E p xs ∧ Laid len E (p + span len xs) ys := by
  induction xs generalizing p with
  | nil => simp
  | cons x xs ih => simp [ih, Nat.add_assoc, and_assoc]

/-- Records that satisfy `E` satisfy `E'` wherever `E` implies `E'` for a record at its
position, which lies between the start and the end of the records. -/
theorem Laid.imp {E' : Nat → α → Prop} {p : Nat} {xs : List α}
    (h : ∀ q x, x ∈ xs → p ≤ q → q + len x ≤ p + span len xs → E q x → E' q x)
    (hl : Laid len E p xs) : Laid len E' p xs := by
  induction xs generalizing p with
  | nil => trivial
  | cons x xs ih =>
      obtain ⟨hx, hxs⟩ := hl
      refine ⟨h p x (by simp) le_rfl (by simp) hx, ih (fun q y hy hq hqy hE => ?_) hxs⟩
      exact h q y (by simp [hy]) (by omega) (by simp at hqy ⊢; omega) hE

/-- A record of the list, at its position. -/
theorem Laid.mem {p : Nat} {xs : List α} {x : α} (hl : Laid len E p xs) (hx : x ∈ xs) :
    ∃ xs₁ xs₂, xs = xs₁ ++ x :: xs₂ ∧ E (p + span len xs₁) x := by
  obtain ⟨xs₁, xs₂, rfl⟩ := List.append_of_mem hx
  exact ⟨xs₁, xs₂, rfl, ((laid_append.mp hl).2).1⟩

end Laid

end Circular
