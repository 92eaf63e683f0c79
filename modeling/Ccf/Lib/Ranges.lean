import Mathlib.Data.List.Chain

/-!
# Cutting an interval into consecutive ranges

A loop that sends the indices `[lo, hi]` in batches sends ranges `[a, b]`, each starting right
after the previous one ended. `Cover w lo hi rs` says that the ranges `rs` do exactly that:
each is non-empty and has at most `w` elements, the first starts at `lo`, each next one starts
one past the end of the one before, and the last ends at `hi`. It has one constructor per round
of such a loop, so a loop builds it by induction on its rounds. From it the ranges are
consecutive (`Cover.isChain`), in increasing order without overlap (`Cover.pairwise`), and an
index lies in one of them exactly when it lies in `[lo, hi]` (`Cover.mem_iff`).
-/

namespace Ranges

/-- The ranges `rs` cut `[lo, hi]` into consecutive non-empty pieces of at most `w` elements. -/
inductive Cover (w : ℕ) : ℕ → ℕ → List (ℕ × ℕ) → Prop
  /-- The last piece. -/
  | single {a b : ℕ} : a ≤ b → b + 1 - a ≤ w → Cover w a b [(a, b)]
  /-- A piece `[a, b]`, then pieces covering what follows it. -/
  | cons {a b c : ℕ} {rs : List (ℕ × ℕ)} : a ≤ b → b + 1 - a ≤ w → Cover w (b + 1) c rs →
      Cover w a c ((a, b) :: rs)

variable {w lo hi : ℕ} {rs : List (ℕ × ℕ)}

/-- A cover is of a non-empty interval. -/
theorem Cover.le (h : Cover w lo hi rs) : lo ≤ hi := by
  induction h with
  | single hab _ => exact hab
  | cons hab _ _ ih => omega

/-- Every piece is non-empty, has at most `w` elements and lies within `[lo, hi]`. -/
theorem Cover.bounds (h : Cover w lo hi rs) :
    ∀ p ∈ rs, lo ≤ p.1 ∧ p.1 ≤ p.2 ∧ p.2 ≤ hi ∧ p.2 + 1 - p.1 ≤ w := by
  induction h with
  | single hab hw =>
      rintro p hp
      rw [List.mem_singleton.mp hp]
      exact ⟨le_rfl, hab, le_rfl, hw⟩
  | cons hab hw hrest ih =>
      have hle := hrest.le
      intro p hp
      rcases List.mem_cons.mp hp with rfl | hp
      · exact ⟨le_rfl, hab, by omega, hw⟩
      · obtain ⟨h₁, h₂, h₃, h₄⟩ := ih p hp
        exact ⟨by omega, h₂, h₃, h₄⟩

/-- **Each piece starts one past the end of the one before.** -/
theorem Cover.isChain (h : Cover w lo hi rs) : rs.IsChain fun p q => q.1 = p.2 + 1 := by
  induction h with
  | single => exact .singleton _
  | cons _ _ hrest ih =>
      -- the rest is not empty and starts right after the first piece
      cases hrest with
      | single => exact .cons_cons rfl ih
      | cons => exact .cons_cons rfl ih

/-- **The pieces are in increasing order and do not overlap.** -/
theorem Cover.pairwise (h : Cover w lo hi rs) : rs.Pairwise fun p q => p.2 < q.1 := by
  induction h with
  | single => exact List.pairwise_singleton _ _
  | cons _ _ hrest ih =>
      refine List.pairwise_cons.mpr ⟨fun q hq => ?_, ih⟩
      have := (hrest.bounds q hq).1
      omega

/-- **An index lies in one of the pieces exactly when it lies in `[lo, hi]`.** -/
theorem Cover.mem_iff (h : Cover w lo hi rs) (x : ℕ) :
    (∃ p ∈ rs, p.1 ≤ x ∧ x ≤ p.2) ↔ lo ≤ x ∧ x ≤ hi := by
  induction h with
  | single => simp
  | cons hab _ hrest ih =>
      have hle := hrest.le
      simp only [List.mem_cons, exists_eq_or_imp, ih]
      omega

end Ranges
