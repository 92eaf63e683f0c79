import Mathlib.Order.Basic

/-!
# `std::upper_bound`, as libstdc++ runs it

`upper_bound(first, last, val, comp)` halves the range `[first, first + len)` until it is
empty: if `comp(val, *middle)` holds, the answer is at `middle` or before it, else after it.
The standard defines its answer only on a range partitioned by `comp(val, ·)`, false on a
prefix and true on the rest, and there the answer is the first position where it holds
(`upperBound_eq_findIdx`). The loop is kept as the library runs it, so that a caller that
searches a range that is not partitioned gets what the code gives.
-/

namespace UpperBound

variable {α β : Type}

/-- The loop over positions `[first, first + len)` of `xs`; every round shrinks `len`, so
`len` rounds of fuel are enough. -/
def loop (comp : β → α → Bool) (xs : List α) (val : β) : Nat → Nat → Nat → Nat
  | 0, first, _ => first
  | fuel + 1, first, len =>
      if len = 0 then first
      else
        let half := len / 2
        let middle := first + half
        if (xs[middle]?.map (comp val)).getD false then loop comp xs val fuel first half
        else loop comp xs val fuel (middle + 1) (len - half - 1)

/-- `std::upper_bound(xs.begin(), xs.end(), val, comp) - xs.begin()`. -/
def upperBound (comp : β → α → Bool) (xs : List α) (val : β) : Nat :=
  loop comp xs val xs.length 0 xs.length

/-- The entries where `p` holds come after those where it does not. -/
def Partitioned (p : α → Bool) (xs : List α) : Prop :=
  ∀ i j (hi : i < xs.length) (hj : j < xs.length), i ≤ j → p xs[i] = true → p xs[j] = true

-- Made here once: the equation lemmas that the proofs below unfold.
section
attribute [local simp] loop
end

variable {comp : β → α → Bool} {xs : List α} {val : β}

/-- What the loop keeps: the answer lies in `[first, first + len]`, with `comp val` false
before `first` and true from `first + len` on. -/
structure Bracket (p : α → Bool) (xs : List α) (first len : Nat) : Prop where
  le_length : first + len ≤ xs.length
  below : ∀ i (hi : i < xs.length), i < first → p xs[i] = false
  above : ∀ i (hi : i < xs.length), first + len ≤ i → p xs[i] = true

theorem Bracket.findIdx_eq {p : α → Bool} {first : Nat} (h : Bracket p xs first 0) :
    xs.findIdx p = first := by
  by_cases hf : first < xs.length
  · exact (List.findIdx_eq hf).mpr ⟨h.above first hf (by omega), fun j hj => h.below j (by omega) hj⟩
  · have hlen : first = xs.length := by have := h.le_length; omega
    subst hlen
    refine List.findIdx_eq_length.mpr fun x hx => ?_
    obtain ⟨i, hi, rfl⟩ := List.getElem_of_mem hx
    exact h.below i hi hi

theorem loop_eq_findIdx (hpart : Partitioned (comp val) xs) :
    ∀ fuel first len, len ≤ fuel → Bracket (comp val) xs first len →
      loop comp xs val fuel first len = xs.findIdx (comp val)
  | 0, first, len, hfuel, h => by
    have hlen : len = 0 := by omega
    subst hlen
    exact h.findIdx_eq.symm
  | fuel + 1, first, len, hfuel, h => by
    rw [loop]
    by_cases hlen : len = 0
    · subst hlen
      rw [if_pos rfl]
      exact h.findIdx_eq.symm
    rw [if_neg hlen]
    -- the middle is inside the range, so it is read
    have hle := h.le_length
    have hmid : first + len / 2 < xs.length := by omega
    simp only [List.getElem?_eq_getElem hmid, Option.map_some, Option.getD_some]
    by_cases hp : comp val xs[first + len / 2] = true
    · -- the answer is at the middle or before it
      rw [if_pos hp]
      refine loop_eq_findIdx hpart fuel first (len / 2) (by omega) ⟨by omega, h.below, ?_⟩
      intro i hi hle
      exact hpart _ i hmid hi hle hp
    · -- the answer is after the middle
      rw [if_neg hp]
      refine loop_eq_findIdx hpart fuel _ _ (by omega) ⟨by omega, fun i hi hlt => ?_,
        fun i hi hle => h.above i hi (by omega)⟩
      by_cases hif : i < first
      · exact h.below i hi hif
      · -- between `first` and the middle: true there would make the middle true
        cases hpi : comp val xs[i]
        · rfl
        · exact absurd (hpart i _ hi hmid (by omega) hpi) hp

/-- On a partitioned list, `upper_bound` finds the first entry where `comp val` holds. -/
theorem upperBound_eq_findIdx (hpart : Partitioned (comp val) xs) :
    upperBound comp xs val = xs.findIdx (comp val) :=
  loop_eq_findIdx hpart _ 0 _ (Nat.le_refl _)
    ⟨by omega, fun _ _ h => absurd h (Nat.not_lt_zero _), fun _ hi h => absurd hi (by omega)⟩

end UpperBound
