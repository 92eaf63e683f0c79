import Mathlib.Order.Lattice

/-!
# Association lists sorted by key

A list of bindings whose keys increase strictly is a finite map; the bindings of a search tree,
read in order, are one. `upsert k v` puts a binding in its place: over the binding of `k` if
there is one, before the first greater key if not. It keeps the keys sorted (`Sorted.upsert`),
and a lookup after it finds `v` at `k` and what was there before elsewhere, on any list
(`lookup_upsert`). Where everything before a point is below `k`, or everything after it above,
it works on one side of the point only (`upsert_append_of_gt`, `upsert_append_of_lt`).
-/

namespace SortedMap

variable {K V : Type}

/-- The keys of the bindings, in order. -/
def keys (l : List (K × V)) : List K := l.map Prod.fst

-- Made here once: the equation lemmas that the proofs below unfold.
section
attribute [local simp] keys
end

@[simp] theorem keys_nil : keys ([] : List (K × V)) = [] := rfl

@[simp] theorem keys_cons (p : K × V) (l : List (K × V)) : keys (p :: l) = p.1 :: keys l := rfl

@[simp] theorem keys_append (l₁ l₂ : List (K × V)) : keys (l₁ ++ l₂) = keys l₁ ++ keys l₂ :=
  List.map_append

variable [LinearOrder K]

/-- The keys increase strictly. -/
def Sorted (l : List (K × V)) : Prop := (keys l).Pairwise (· < ·)

/-- Bind `k` to `v`: over the binding of `k`, or before the first greater key. -/
def upsert (k : K) (v : V) : List (K × V) → List (K × V)
  | [] => [(k, v)]
  | (k', v') :: l =>
      if k < k' then (k, v) :: (k', v') :: l
      else if k' < k then (k', v') :: upsert k v l
      else (k', v) :: l

-- Made here once: the equation lemmas that the proofs below unfold.
section
attribute [local simp] Sorted upsert
end

theorem sorted_cons {p : K × V} {l : List (K × V)} :
    Sorted (p :: l) ↔ (∀ k ∈ keys l, p.1 < k) ∧ Sorted l :=
  List.pairwise_cons

/-- A sorted list around one binding: sorted on each side, below it on the left and above it
on the right. -/
theorem sorted_append_cons {l₁ l₂ : List (K × V)} {k : K} {v : V} :
    Sorted (l₁ ++ (k, v) :: l₂) ↔
      Sorted l₁ ∧ Sorted l₂ ∧ (∀ k' ∈ keys l₁, k' < k) ∧ ∀ k' ∈ keys l₂, k < k' := by
  unfold Sorted
  rw [keys_append, keys_cons, List.pairwise_append, List.pairwise_cons]
  constructor
  · rintro ⟨h₁, ⟨hk, h₂⟩, hlt⟩
    exact ⟨h₁, h₂, fun k' hk' => hlt k' hk' k List.mem_cons_self, hk⟩
  · rintro ⟨h₁, h₂, hlt, hk⟩
    refine ⟨h₁, ⟨hk, h₂⟩, fun a ha b hb => ?_⟩
    -- across the binding, by transitivity through `k`
    rcases List.mem_cons.mp hb with rfl | hb
    · exact hlt a ha
    · exact lt_trans (hlt a ha) (hk b hb)

/-- From the last binding back, the keys decrease. -/
theorem Sorted.getElem_reverse_lt {l : List (K × V)} (h : Sorted l) {i j : Nat} (hij : i < j)
    (hi : i < l.reverse.length) (hj : j < l.reverse.length) : l.reverse[j].1 < l.reverse[i].1 := by
  have hrev : (keys l.reverse).Pairwise (fun a b => b < a) := by
    rw [keys, List.map_reverse, List.pairwise_reverse]
    exact h
  have hlt := List.pairwise_iff_getElem.mp hrev i j (by simpa [keys] using hi)
    (by simpa [keys] using hj) hij
  simpa [keys] using hlt

/-- Below the first key is below them all. -/
theorem Sorted.forall_lt_iff {l : List (K × V)} (h : Sorted l) (k : K) :
    (∀ k' ∈ keys l, k < k') ↔ ∀ k₁ ∈ (keys l).head?, k < k₁ := by
  cases l with
  | nil => simp
  | cons p l =>
    rw [keys_cons, List.head?_cons]
    constructor
    · intro hall k₁ hk₁
      rw [Option.mem_some_iff] at hk₁
      exact hall k₁ (hk₁ ▸ List.mem_cons_self)
    · intro hfirst k' hk'
      have hp : k < p.1 := hfirst p.1 rfl
      rcases List.mem_cons.mp hk' with rfl | hk'
      · exact hp
      · exact lt_trans hp ((sorted_cons.mp h).1 k' hk')

theorem upsert_append_of_lt {k : K} {v : V} (l₁ : List (K × V)) {l₂ : List (K × V)}
    (h : ∀ k' ∈ keys l₂, k < k') : upsert k v (l₁ ++ l₂) = upsert k v l₁ ++ l₂ := by
  induction l₁ with
  | nil =>
    cases l₂ with
    | nil => rfl
    | cons p l₂ =>
      -- `k` goes in front of the first binding of `l₂`
      have hp : k < p.1 := h p.1 (by simp)
      simp [upsert, hp]
  | cons p l₁ ih =>
    obtain ⟨k', v'⟩ := p
    simp only [List.cons_append, upsert]
    split_ifs <;> simp [ih]

theorem upsert_append_of_gt {k : K} {v : V} {l₁ : List (K × V)} (l₂ : List (K × V))
    (h : ∀ k' ∈ keys l₁, k' < k) : upsert k v (l₁ ++ l₂) = l₁ ++ upsert k v l₂ := by
  induction l₁ with
  | nil => rfl
  | cons p l₁ ih =>
    obtain ⟨k', v'⟩ := p
    have hk' : k' < k := h k' (by simp)
    rw [List.cons_append, upsert, if_neg (lt_asymm hk'), if_pos hk',
      ih fun k'' hk'' => h k'' (by simp [hk''])]
    rfl

theorem mem_keys_upsert {k k' : K} {v : V} (l : List (K × V)) :
    k' ∈ keys (upsert k v l) ↔ k' = k ∨ k' ∈ keys l := by
  induction l with
  | nil => simp [upsert]
  | cons p l ih =>
    obtain ⟨a, b⟩ := p
    simp only [upsert]
    split_ifs with h₁ h₂
    · simp
    · simp only [keys_cons, List.mem_cons, ih]
      exact or_left_comm
    · -- the binding of `k` itself
      have ha : a = k := le_antisymm (not_lt.mp h₁) (not_lt.mp h₂)
      subst ha
      simp

theorem Sorted.upsert {l : List (K × V)} (h : Sorted l) (k : K) (v : V) :
    Sorted (upsert k v l) := by
  induction l with
  | nil => exact List.pairwise_singleton _ _
  | cons p l ih =>
    obtain ⟨a, b⟩ := p
    obtain ⟨ha, hl⟩ := sorted_cons.mp h
    simp only [SortedMap.upsert]
    split_ifs with h₁ h₂
    · -- in front: below `a`, and so below everything after it
      refine sorted_cons.mpr ⟨fun k' hk' => ?_, h⟩
      rcases List.mem_cons.mp hk' with rfl | hk'
      · exact h₁
      · exact lt_trans h₁ (ha k' hk')
    · refine sorted_cons.mpr ⟨fun k' hk' => ?_, ih hl⟩
      rcases (mem_keys_upsert l).mp hk' with rfl | hk'
      · exact h₂
      · exact ha k' hk'
    · exact sorted_cons.mpr ⟨ha, hl⟩

theorem lookup_cons_eq (a k' : K) (b : V) (l : List (K × V)) :
    ((a, b) :: l).lookup k' = if k' = a then some b else l.lookup k' := by
  by_cases h : k' = a
  · subst h
    rw [List.lookup_cons, beq_self_eq_true, if_pos rfl]
  · rw [List.lookup_cons, beq_false_of_ne h, if_neg h]

theorem lookup_eq_none_of_not_mem {k : K} {l : List (K × V)} (h : k ∉ keys l) :
    l.lookup k = none :=
  List.lookup_eq_none_iff.mpr fun p hp => by
    rw [bne_iff_ne]
    rintro rfl
    exact h (List.mem_map_of_mem hp)

theorem lookup_upsert (k k' : K) (v : V) (l : List (K × V)) :
    (upsert k v l).lookup k' = if k' = k then some v else l.lookup k' := by
  induction l with
  | nil => exact lookup_cons_eq k k' v []
  | cons p l ih =>
    obtain ⟨a, b⟩ := p
    simp only [upsert]
    by_cases h₁ : k < a
    · rw [if_pos h₁, lookup_cons_eq]
    by_cases h₂ : a < k
    · -- past `a`, which is not `k`
      rw [if_neg h₁, if_pos h₂, lookup_cons_eq, ih, lookup_cons_eq]
      by_cases hk : k' = k
      · subst hk
        simp [(ne_of_lt h₂).symm]
      · simp [hk]
    · -- the binding of `k` itself
      have ha : a = k := le_antisymm (not_lt.mp h₁) (not_lt.mp h₂)
      subst ha
      rw [if_neg h₁, if_neg h₂, lookup_cons_eq, lookup_cons_eq]
      by_cases hk : k' = a <;> simp [hk]

/-- A key below every key of a sorted list is not bound in its tail. -/
theorem lookup_eq_none_of_lt {k : K} {l : List (K × V)} (h : ∀ k' ∈ keys l, k < k') :
    l.lookup k = none :=
  lookup_eq_none_of_not_mem fun hk => lt_irrefl k (h k hk)

/-- **Extensionality.** Two sorted lists that bind every key alike are equal. -/
theorem Sorted.ext_lookup {l₁ l₂ : List (K × V)} (h₁ : Sorted l₁) (h₂ : Sorted l₂)
    (h : ∀ k, l₁.lookup k = l₂.lookup k) : l₁ = l₂ := by
  induction l₁ generalizing l₂ with
  | nil =>
    cases l₂ with
    | nil => rfl
    | cons p l₂ =>
      have hp := h p.1
      rw [List.lookup_nil, lookup_cons_eq, if_pos rfl] at hp
      cases hp
  | cons p l₁ ih =>
    obtain ⟨a, b⟩ := p
    obtain ⟨ha, hl₁⟩ := sorted_cons.mp h₁
    cases l₂ with
    | nil =>
      have hp := h a
      rw [List.lookup_nil, lookup_cons_eq, if_pos rfl] at hp
      cases hp
    | cons q l₂ =>
      obtain ⟨c, d⟩ := q
      obtain ⟨hc, hl₂⟩ := sorted_cons.mp h₂
      -- the first keys are the least of each list, so they are the same key
      have hac : a = c := by
        rcases lt_trichotomy a c with hlt | heq | hgt
        · have hp := h a
          rw [lookup_cons_eq, if_pos rfl, lookup_cons_eq, if_neg (ne_of_lt hlt),
            lookup_eq_none_of_lt fun k' hk' => lt_trans hlt (hc k' hk')] at hp
          cases hp
        · exact heq
        · have hp := h c
          rw [lookup_cons_eq, if_neg (ne_of_lt hgt), lookup_cons_eq, if_pos rfl,
            lookup_eq_none_of_lt fun k' hk' => lt_trans hgt (ha k' hk')] at hp
          cases hp
      subst hac
      have hbd : b = d := by
        have hp := h a
        rw [lookup_cons_eq, if_pos rfl, lookup_cons_eq, if_pos rfl] at hp
        exact Option.some.inj hp
      subst hbd
      -- the tails bind every key alike: `a` in neither, the others as the lists do
      refine congrArg _ (ih hl₁ hl₂ fun k => ?_)
      by_cases hk : k = a
      · subst hk
        rw [lookup_eq_none_of_lt ha, lookup_eq_none_of_lt hc]
      · have hp := h k
        rwa [lookup_cons_eq, if_neg hk, lookup_cons_eq, if_neg hk] at hp

/-- Binding two different keys, in either order, gives the same sorted list. -/
theorem Sorted.upsert_comm {l : List (K × V)} (h : Sorted l) {k₁ k₂ : K} (hk : k₁ ≠ k₂)
    (v₁ v₂ : V) :
    SortedMap.upsert k₁ v₁ (SortedMap.upsert k₂ v₂ l) =
      SortedMap.upsert k₂ v₂ (SortedMap.upsert k₁ v₁ l) := by
  refine ((h.upsert k₂ v₂).upsert k₁ v₁).ext_lookup ((h.upsert k₁ v₁).upsert k₂ v₂) fun k => ?_
  rw [lookup_upsert, lookup_upsert, lookup_upsert, lookup_upsert]
  by_cases h₁ : k = k₁
  · subst h₁
    rw [if_pos rfl, if_neg hk, if_pos rfl]
  · rw [if_neg h₁]
    by_cases h₂ : k = k₂
    · rw [if_pos h₂, if_pos h₂]
    · rw [if_neg h₂, if_neg h₂, if_neg h₁]

end SortedMap
