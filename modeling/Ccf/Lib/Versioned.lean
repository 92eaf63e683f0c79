import Mathlib.Data.List.Pairwise
import Mathlib.Data.List.Forall2
import Mathlib.Data.Int.Order.Basic

/-!
# The latest entry at a version

A history kept as a list of entries stamped with versions, oldest first, is read
at version `u` by taking the last entry stamped at or before `u` (`lastAtMost`).
These are the facts a history's operations need: entries appended after `u`, or
dropped from before the one read, do not change what is read at `u`. Two histories related
entry by entry end in related entries (`forall₂_getLast`), and relations entry by entry compose
(`forall₂_trans`).
-/

namespace Versioned

variable {α : Type} (key : α → Int)

/-- The last entry of `l` whose version is at most `u`. -/
def lastAtMost (l : List α) (u : Int) : Option α :=
  l.reverse.find? fun a => decide (key a ≤ u)

-- Made here once: the equation lemmas that the proofs below unfold.
section
attribute [local simp] lastAtMost
end

variable {key}

/-- Entries later than `u` at the end are not read at `u`. -/
theorem lastAtMost_append_of_gt {l₁ l₂ : List α} {u : Int} (h : ∀ a ∈ l₂, u < key a) :
    lastAtMost key (l₁ ++ l₂) u = lastAtMost key l₁ u := by
  unfold lastAtMost
  rw [List.reverse_append, List.find?_append]
  have hnone : l₂.reverse.find? (fun a => decide (key a ≤ u)) = none := by
    rw [List.find?_eq_none]
    intro a ha
    have := h a (List.mem_reverse.mp ha)
    simp only [decide_eq_true_eq, not_le]
    exact this
  rw [hnone, Option.none_or]

/-- When every entry is at most `u`, the last one is read. -/
theorem lastAtMost_of_le {l : List α} {u : Int} (hl : l ≠ []) (h : ∀ a ∈ l, key a ≤ u) :
    lastAtMost key l u = some (l.getLast hl) := by
  unfold lastAtMost
  obtain ⟨init, last, rfl⟩ := List.eq_nil_or_concat l |>.resolve_left hl
  simp [h last (by simp)]

/-- Entries before one at most `u` are not read at `u`. -/
theorem lastAtMost_append_of_le {l₁ l₂ : List α} {b : α} {u : Int} (h : key b ≤ u) :
    lastAtMost key (l₁ ++ b :: l₂) u = lastAtMost key (b :: l₂) u := by
  unfold lastAtMost
  rw [List.reverse_append, List.find?_append]
  have hsome : ((b :: l₂).reverse.find? fun a => decide (key a ≤ u)).isSome := by
    rw [List.find?_isSome]
    exact ⟨b, by simp, by simpa using h⟩
  obtain ⟨a, ha⟩ := Option.isSome_iff_exists.mp hsome
  rw [ha, Option.some_or]

/-- The entry read at `u` is one of the list's, at most `u`. -/
theorem lastAtMost_mem {l : List α} {u : Int} {a : α} (h : lastAtMost key l u = some a) :
    a ∈ l ∧ key a ≤ u := by
  unfold lastAtMost at h
  have hm := List.mem_of_find?_eq_some h
  have hp := List.find?_some h
  exact ⟨List.mem_reverse.mp hm, by simpa using hp⟩

/-- Two histories related entry by entry end in related entries. -/
theorem forall₂_getLast {β : Type} {R : α → β → Prop} {l₁ : List α} {l₂ : List β}
    (h : List.Forall₂ R l₁ l₂) (h₁ : l₁ ≠ []) (h₂ : l₂ ≠ []) : R (l₁.getLast h₁) (l₂.getLast h₂) := by
  induction h with
  | nil => exact absurd rfl h₁
  | cons hab hrest ih =>
      cases hrest with
      | nil => exact hab
      | cons _ _ =>
          rw [List.getLast_cons (List.cons_ne_nil _ _), List.getLast_cons (List.cons_ne_nil _ _)]
          exact ih _ _

/-- Relations entry by entry compose. -/
theorem forall₂_trans {β γ : Type} {R : α → β → Prop} {S : β → γ → Prop} {T : α → γ → Prop}
    (hT : ∀ a b c, R a b → S b c → T a c) :
    ∀ {l₁ : List α} {l₂ : List β} {l₃ : List γ},
      List.Forall₂ R l₁ l₂ → List.Forall₂ S l₂ l₃ → List.Forall₂ T l₁ l₃
  | _, _, _, .nil, .nil => .nil
  | _, _, _, .cons h₁ t₁, .cons h₂ t₂ => .cons (hT _ _ _ h₁ h₂) (forall₂_trans hT t₁ t₂)

end Versioned
