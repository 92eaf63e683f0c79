import Mathlib.Algebra.BigOperators.Group.List.Basic
import Mathlib.Algebra.GroupWithZero.Nat
import Mathlib.Data.Finset.Card
import Mathlib.Data.List.Sort
import Mathlib.Order.Bounds.Basic

/-!
# Majorities intersect

The counting fact behind every quorum protocol: two sets, each holding a strict
majority of the same membership list, share a member. Membership lists and
quorums are kept as lists without duplicates, the way the protocols store them;
the proof goes through `Finset` cardinalities.

A leader reads what a majority has stored off the members' reports: a value `x`
has been *reached* by `q` members when `q` of the reports are at least `x`. Sorting
the `n` reports and reading position `n - q` gives the largest such value
(`isGreatest_reached_insertionSort`), and position `(n - 1) / 2` the largest value
a majority has reached (`isGreatest_majority`). Without sorting, a value is the largest
that `q` reports have reached when `q` reach it and fewer than `q` lie above it
(`isGreatest_reached_of_above_lt`). With several memberships at once,
the loop `if (x < m) m = x` keeps the least of their values (`isLeast_foldl`).

A tally that counts each report for the one value it matches never counts a report
twice: when no report satisfies two of the predicates, their counts add up to at most
the number of reports (`Exclusive.sum_countP_le_length`).
-/

namespace Quorum

variable {α : Type} [DecidableEq α]

/-- `Q` is a strict majority of `members`: no duplicates, drawn from the members,
and more than half as many of them. -/
structure IsMajority (members Q : List α) : Prop where
  nodup : Q.Nodup
  sub : Q ⊆ members
  large : members.length / 2 + 1 ≤ Q.length

/-- **Two majorities of the same membership share a member.** -/
theorem exists_mem_of_majorities {members Q₁ Q₂ : List α}
    (h₁ : IsMajority members Q₁) (h₂ : IsMajority members Q₂) : ∃ v, v ∈ Q₁ ∧ v ∈ Q₂ := by
  have hc₁ : Q₁.toFinset.card = Q₁.length := List.toFinset_card_of_nodup h₁.nodup
  have hc₂ : Q₂.toFinset.card = Q₂.length := List.toFinset_card_of_nodup h₂.nodup
  have hm : members.toFinset.card ≤ members.length := List.toFinset_card_le _
  have hsub₁ : Q₁.toFinset ⊆ members.toFinset := fun v hv => by
    simpa using h₁.sub (List.mem_toFinset.mp hv)
  have hsub₂ : Q₂.toFinset ⊆ members.toFinset := fun v hv => by
    simpa using h₂.sub (List.mem_toFinset.mp hv)
  -- two halves-plus-one outnumber the whole membership
  have hlt : members.toFinset.card < Q₁.toFinset.card + Q₂.toFinset.card := by
    have := h₁.large
    have := h₂.large
    omega
  obtain ⟨v, hv⟩ := Finset.inter_nonempty_of_card_lt_card_add_card hsub₁ hsub₂ hlt
  rw [Finset.mem_inter, List.mem_toFinset, List.mem_toFinset] at hv
  exact ⟨v, hv⟩

/-! ## The value a quorum has reached -/

section Reached

variable {α : Type} [LinearOrder α]

/-- The values that at least `q` of the reports `xs` have reached. -/
def reached (xs : List α) (q : ℕ) : Set α := {x | q ≤ xs.countP fun y => decide (x ≤ y)}

-- Made here once: the equation lemmas that the proofs below unfold.
section
attribute [local simp] reached
end

theorem reached_perm {xs ys : List α} (h : xs.Perm ys) (q : ℕ) : reached xs q = reached ys q := by
  ext x
  simp only [reached, Set.mem_ofPred_eq, h.countP_eq]

/-- A value that some members reached is at most one of the reports. -/
theorem exists_ge_of_mem_reached {xs : List α} {q : ℕ} {x : α} (hx : x ∈ reached xs q)
    (hq : 0 < q) : ∃ y ∈ xs, x ≤ y := by
  obtain ⟨y, hy, hxy⟩ := List.countP_pos_iff.mp (lt_of_lt_of_le hq hx)
  exact ⟨y, hy, of_decide_eq_true hxy⟩

/-- In a sorted list the entry at position `k` is reached by the entries from it on. -/
theorem getElem_mem_reached {ys : List α} (hs : ys.Pairwise (· ≤ ·)) {k : ℕ}
    (hk : k < ys.length) : ys[k] ∈ reached ys (ys.length - k) := by
  have hall : ∀ y ∈ ys.drop k, decide (ys[k] ≤ y) = true := by
    intro y hy
    obtain ⟨j, hj, rfl⟩ := List.getElem_of_mem hy
    rw [List.getElem_drop, decide_eq_true_iff]
    rcases Nat.eq_zero_or_pos j with rfl | hj0
    · exact le_of_eq (by simp)
    · exact List.pairwise_iff_getElem.mp hs k (k + j) hk _ (by omega)
  calc ys.length - k = (ys.drop k).length := (List.length_drop ..).symm
    _ = (ys.drop k).countP fun y => decide (ys[k] ≤ y) := (List.countP_eq_length.mpr hall).symm
    _ ≤ ys.countP fun y => decide (ys[k] ≤ y) := (List.drop_sublist k ys).countP_le

/-- In a sorted list nothing above the entry at position `k` is reached by as many. -/
theorem not_mem_reached_of_lt {ys : List α} (hs : ys.Pairwise (· ≤ ·)) {k : ℕ}
    (hk : k < ys.length) {x : α} (hx : ys[k] < x) : x ∉ reached ys (ys.length - k) := by
  intro hmem
  -- none of the first `k + 1` entries reaches `x`
  have hnone : (ys.take (k + 1)).countP (fun y => decide (x ≤ y)) = 0 := by
    rw [List.countP_eq_zero]
    intro y hy
    obtain ⟨j, hj, rfl⟩ := List.getElem_of_mem hy
    rw [List.getElem_take, decide_eq_true_iff, not_le]
    have hjk : j ≤ k := by simp at hj; omega
    rcases Nat.lt_or_eq_of_le hjk with hlt | rfl
    · exact lt_of_le_of_lt (List.pairwise_iff_getElem.mp hs j k _ hk hlt) hx
    · exact hx
  have hsplit : ys.countP (fun y => decide (x ≤ y)) =
      (ys.take (k + 1)).countP (fun y => decide (x ≤ y)) +
        (ys.drop (k + 1)).countP (fun y => decide (x ≤ y)) := by
    rw [← List.countP_append, List.take_append_drop]
  have hrest : (ys.drop (k + 1)).countP (fun y => decide (x ≤ y)) ≤ (ys.drop (k + 1)).length :=
    List.countP_le_length
  simp only [reached, Set.mem_ofPred_eq] at hmem
  simp only [List.length_drop] at hrest
  omega

theorem isGreatest_reached_getElem {ys : List α} (hs : ys.Pairwise (· ≤ ·)) {k : ℕ}
    (hk : k < ys.length) : IsGreatest (reached ys (ys.length - k)) ys[k] :=
  ⟨getElem_mem_reached hs hk, fun _ hx => not_lt.mp fun hlt => not_mem_reached_of_lt hs hk hlt hx⟩

/-- **Sorting the reports and reading position `k` gives the largest value that
`length - k` of them have reached.** -/
theorem isGreatest_reached_insertionSort {xs : List α} {k : ℕ} {v : α}
    (h : (xs.insertionSort (· ≤ ·))[k]? = some v) : IsGreatest (reached xs (xs.length - k)) v := by
  have hperm := List.perm_insertionSort (· ≤ ·) xs
  obtain ⟨hk, rfl⟩ := List.getElem?_eq_some_iff.mp h
  rw [← reached_perm hperm, ← hperm.length_eq]
  exact isGreatest_reached_getElem (List.pairwise_insertionSort (· ≤ ·) xs) hk

/-- **Position `(n - 1) / 2` of the sorted reports is the largest value a strict
majority of them has reached**, for an odd or an even number `n` of reports. -/
theorem isGreatest_majority {xs : List α} {v : α}
    (h : (xs.insertionSort (· ≤ ·))[(xs.length - 1) / 2]? = some v) :
    IsGreatest (reached xs (xs.length / 2 + 1)) v := by
  have hk : (xs.length - 1) / 2 < xs.length := by
    have := (List.getElem?_eq_some_iff.mp h).1
    rwa [List.length_insertionSort] at this
  have hq : xs.length - (xs.length - 1) / 2 = xs.length / 2 + 1 := by omega
  rw [← hq]
  exact isGreatest_reached_insertionSort h

/-- How many of the reports `xs` have reached `x`. -/
def atLeast (xs : List α) (x : α) : ℕ := xs.countP fun y => decide (x ≤ y)

/-- How many of the reports `xs` lie above `x`. -/
def above (xs : List α) (x : α) : ℕ := xs.countP fun y => decide (x < y)

-- Made here once: the equation lemmas that the proofs below unfold.
section
attribute [local simp] atLeast
end

theorem mem_reached_iff {xs : List α} {q : ℕ} {x : α} : x ∈ reached xs q ↔ q ≤ atLeast xs x :=
  Iff.rfl

theorem atLeast_anti (xs : List α) {x y : α} (h : x ≤ y) : atLeast xs y ≤ atLeast xs x :=
  List.countP_mono_left fun _ _ hz => decide_eq_true (le_trans h (of_decide_eq_true hz))

theorem atLeast_le_above (xs : List α) {x y : α} (h : x < y) : atLeast xs y ≤ above xs x :=
  List.countP_mono_left fun _ _ hz => decide_eq_true (lt_of_lt_of_le h (of_decide_eq_true hz))

/-- **A value that `q` reports have reached, with fewer than `q` of them above it, is the largest
value they have reached.** -/
theorem isGreatest_reached_of_above_lt {xs : List α} {q : ℕ} {x : α} (hx : q ≤ atLeast xs x)
    (hlt : above xs x < q) : IsGreatest (reached xs q) x := by
  refine ⟨hx, fun y hy => not_lt.mp fun hxy => ?_⟩
  -- every report that reaches `y` lies above `x`
  have hle := atLeast_le_above xs hxy
  rw [mem_reached_iff] at hy
  omega

/-- With no report strictly between `x` and `y`, the reports that reach `x` are those that reach
`y` and those equal to `x`. -/
theorem atLeast_eq_add {xs : List α} {x y : α} (hxy : x < y) (hgap : ∀ z ∈ xs, x < z → y ≤ z) :
    atLeast xs x = atLeast xs y + xs.count x := by
  induction xs with
  | nil => rfl
  | cons z zs ih =>
      have ih' := ih fun z' hz' => hgap z' (List.mem_cons_of_mem z hz')
      simp only [atLeast, List.countP_cons, List.count_cons] at ih' ⊢
      rcases lt_trichotomy z x with hzx | rfl | hxz
      · -- below `x`: counted by neither side
        have hyz : ¬ y ≤ z := not_le.mpr (hzx.trans hxy)
        simp only [not_le.mpr hzx, hyz, decide_false, Bool.false_eq_true, beq_iff_eq, ne_of_lt hzx,
          ↓reduceIte]
        omega
      · simp only [le_refl, not_le.mpr hxy, decide_true, decide_false, Bool.false_eq_true,
          beq_self_eq_true, ↓reduceIte]
        omega
      · -- above `x`: then at `y` or above, by the gap
        have hyz := hgap z (List.mem_cons_self ..) hxz
        simp only [le_of_lt hxz, hyz, decide_true, beq_iff_eq, (ne_of_lt hxz).symm, ↓reduceIte]
        omega

/-- With no report strictly between `x` and `y`, the reports above `x` are those that reach `y`. -/
theorem above_eq_atLeast {xs : List α} {x y : α} (hxy : x < y)
    (hgap : ∀ z ∈ xs, x < z → y ≤ z) : above xs x = atLeast xs y :=
  List.countP_congr fun z hz => by
    simp only [decide_eq_true_eq]
    exact ⟨hgap z hz, lt_of_lt_of_le hxy⟩

end Reached

/-! ## The least value over several memberships -/

section Least

variable {α β : Type} [LinearOrder α] (f : β → α)

/-- The loop `if (f b < m) m = f b` over `l` ends at or below its start and every
`f b`, and at one of them. -/
theorem foldl_min_spec : ∀ (l : List β) (init : α),
    let v := l.foldl (fun acc b => if f b < acc then f b else acc) init
    v ≤ init ∧ (∀ b ∈ l, v ≤ f b) ∧ (v = init ∨ ∃ b ∈ l, v = f b)
  | [], init => by simp
  | b :: l, init => by
      obtain ⟨hle, hall, hone⟩ := foldl_min_spec l (if f b < init then f b else init)
      -- the value after the first round is `min (f b) init`
      have hb : (if f b < init then f b else init) ≤ f b ∧
          (if f b < init then f b else init) ≤ init := by
        split
        · next h => exact ⟨le_rfl, le_of_lt h⟩
        · next h => exact ⟨not_lt.mp h, le_rfl⟩
      refine ⟨le_trans hle hb.2, ?_, ?_⟩
      · simp only [List.foldl_cons, List.mem_cons, forall_eq_or_imp]
        exact ⟨le_trans hle hb.1, hall⟩
      · simp only [List.foldl_cons, List.mem_cons, exists_eq_or_imp]
        rcases hone with h | ⟨b', hb', h⟩
        · rw [h]
          split
          · exact Or.inr (Or.inl rfl)
          · exact Or.inl rfl
        · exact Or.inr (Or.inr ⟨b', hb', h⟩)

/-- **Started above every `f b` of a non-empty `l`, the loop ends at their least value.** -/
theorem isLeast_foldl {l : List β} {init : α} (hne : l ≠ []) (hinit : ∀ b ∈ l, f b ≤ init) :
    IsLeast (f '' {b | b ∈ l}) (l.foldl (fun acc b => if f b < acc then f b else acc) init) := by
  obtain ⟨hle, hall, hone⟩ := foldl_min_spec f l init
  refine ⟨?_, fun _ ⟨b, hb, hfb⟩ => hfb ▸ hall b hb⟩
  rcases hone with h | ⟨b, hb, h⟩
  · -- stuck at the start: then it is at most, hence equal to, any `f b`
    obtain ⟨b, hb⟩ := List.exists_mem_of_ne_nil l hne
    exact ⟨b, hb, le_antisymm ((hinit b hb).trans h.ge) (hall b hb)⟩
  · exact ⟨b, hb, h.symm⟩

end Least

section Tally

variable {α : Type} {ps : List (α → Bool)}

/-- No element satisfies two of the predicates `ps`. -/
def Exclusive (ps : List (α → Bool)) : Prop :=
  ps.Pairwise fun p q => ∀ a, ¬ (p a = true ∧ q a = true)

-- Made here once: the equation lemmas that the proofs below unfold.
section
attribute [local simp] Exclusive
end

theorem Exclusive.countP_le_one (hps : Exclusive ps) (a : α) :
    ps.countP (fun p => p a) ≤ 1 := by
  induction ps with
  | nil => simp
  | cons p ps ih =>
      obtain ⟨hp, hrest⟩ := List.pairwise_cons.mp hps
      rw [List.countP_cons]
      by_cases ha : p a = true
      · -- no later predicate holds at `a`
        have hzero : ps.countP (fun q => q a) = 0 :=
          List.countP_eq_zero.mpr fun q hq hqa => hp q hq a ⟨ha, hqa⟩
        simp [hzero, ha]
      · simpa [ha] using ih hrest

theorem sum_map_ite_eq_countP (ps : List (α → Bool)) (a : α) :
    (ps.map fun p => if p a then 1 else 0).sum = ps.countP (fun p => p a) := by
  induction ps with
  | nil => rfl
  | cons p ps ih => rw [List.map_cons, List.sum_cons, ih, List.countP_cons, Nat.add_comm]

/-- **Exclusive tallies add up to at most the number of elements.** -/
theorem Exclusive.sum_countP_le_length (hps : Exclusive ps) :
    ∀ l : List α, (ps.map fun p => l.countP p).sum ≤ l.length
  | [] => by simp
  | a :: l => by
      have hsplit : (ps.map fun p => (a :: l).countP p).sum =
          (ps.map fun p => l.countP p).sum + (ps.map fun p => if p a then 1 else 0).sum := by
        simp only [List.countP_cons, List.sum_map_add]
      have hone := hps.countP_le_one a
      rw [← sum_map_ite_eq_countP] at hone
      have hrest := hps.sum_countP_le_length l
      rw [hsplit, List.length_cons]
      omega

end Tally

end Quorum
