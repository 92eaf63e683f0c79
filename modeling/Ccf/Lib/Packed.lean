import Mathlib.Data.List.Sigma
import Mathlib.Data.List.Range
import Mathlib.Data.Finset.Card

/-!
# Sparse arrays packed by rank, and lists routed into buckets

A sparse array over the slots of a list `l` is often stored packed: what the occupied slots
hold, in slot order, with a bitmap saying which slots are occupied. Here `g` says what a
slot holds (`none` for a free one), so the packed array is `l.filterMap g`, and what slot
`i` holds sits at its *rank*, the number of occupied slots before `i` (`getElem?_rank`).
Writing a slot inserts, erases or overwrites at its rank (`filterMap_set_insert`,
`filterMap_set_erase`, `filterMap_set_set`); the rank is what a bitmap's population count
below `i` computes (`rank_eq_countP_range`).

A hash trie also *routes*: everything in bucket `i` has a key that the hash sends to `i`.
Routed buckets of association lists concatenate to one with distinct keys, and a lookup in
it is a lookup in the key's own bucket (`Routed.nodupKeys`, `Routed.dlookup`).

A write of one key to an association list with distinct keys adds the key and grows the
list exactly when the key was missing (`length_of_write`).
-/

namespace Packed

section Rank

variable {α β : Type} (g : α → Option β)

/-- The position of slot `i` in the packed array: the number of occupied slots before it. -/
def rank (l : List α) (i : Nat) : Nat := ((l.take i).filterMap g).length

-- Made here once: the equation lemmas that the proofs below unfold.
section
attribute [local simp] rank
end

variable {g}

@[simp] theorem rank_zero (l : List α) : rank g l 0 = 0 := by
  simp [rank]

theorem rank_cons_succ (y : α) (t : List α) (i : Nat) :
    rank g (y :: t) (i + 1) = rank g t i + (g y).toList.length := by
  cases hy : g y <;> simp [rank, hy]

/-- Writing slot `i` leaves the slots before it, so its rank. -/
@[simp] theorem rank_set (l : List α) (i : Nat) (a : α) : rank g (l.set i a) i = rank g l i := by
  simp [rank, List.take_set_of_le (le_refl i)]

theorem rank_le_length (l : List α) (i : Nat) : rank g l i ≤ (l.filterMap g).length :=
  ((List.take_sublist i l).filterMap g).length_le

/-- The rank counts the occupied slots before `i`, as a population count does. -/
theorem rank_eq_countP_range (d : α) {l : List α} {i : Nat} (hi : i ≤ l.length) :
    rank g l i = (List.range i).countP fun j => (g (l.getD j d)).isSome := by
  induction i with
  | zero => simp
  | succ i ih =>
      have hlt : i < l.length := hi
      rw [List.range_succ, List.countP_append, ← ih hlt.le]
      unfold rank
      rw [List.take_add_one, List.filterMap_append, List.length_append,
        List.getElem?_eq_getElem hlt]
      cases hg : g l[i] <;> simp [List.getElem?_eq_getElem hlt, hg]

/-- Inserting into the front part of a list. -/
theorem insertIdx_append_left {A B : List α} {i : Nat} (x : α) (h : i ≤ A.length) :
    (A ++ B).insertIdx i x = A.insertIdx i x ++ B := by
  induction A generalizing i with
  | nil =>
      obtain rfl : i = 0 := Nat.le_zero.mp h
      simp
  | cons a A ih =>
      cases i with
      | zero => simp
      | succ i =>
          rw [List.cons_append, List.insertIdx_succ_cons, List.insertIdx_succ_cons,
            ih (Nat.le_of_succ_le_succ h), List.cons_append]

/-- Inserting into the back part of a list. -/
theorem insertIdx_append_right (A B : List α) (i : Nat) (x : α) :
    (A ++ B).insertIdx (A.length + i) x = A ++ B.insertIdx i x := by
  induction A with
  | nil => simp
  | cons a A ih =>
      rw [List.cons_append, List.length_cons, Nat.add_right_comm, List.insertIdx_succ_cons, ih,
        List.cons_append]

section Slot

variable {l : List α} {i : Nat} {x a : α} {b b' : β}

/-- **Reading.** An occupied slot's value sits at its rank. -/
theorem getElem?_rank (hx : l[i]? = some x) (hg : g x = some b) :
    (l.filterMap g)[rank g l i]? = some b := by
  induction l generalizing i with
  | nil => simp at hx
  | cons y t ih =>
      cases i with
      | zero =>
          obtain rfl : y = x := by simpa using hx
          simp [hg]
      | succ i =>
          rw [rank_cons_succ, List.filterMap_cons]
          cases hy : g y with
          | none => simpa using ih (by simpa using hx)
          | some c =>
              simp only [Option.toList_some, List.length_singleton]
              rw [List.getElem?_cons_succ]
              exact ih (by simpa using hx)

theorem rank_lt_length (hx : l[i]? = some x) (hg : g x = some b) :
    rank g l i < (l.filterMap g).length :=
  (List.getElem?_eq_some_iff.mp (getElem?_rank hx hg)).1

/-- **Occupying a free slot** inserts at its rank. -/
theorem filterMap_set_insert (hx : l[i]? = some x) (hgx : g x = none) (ha : g a = some b) :
    (l.set i a).filterMap g = (l.filterMap g).insertIdx (rank g l i) b := by
  induction l generalizing i with
  | nil => simp at hx
  | cons y t ih =>
      cases i with
      | zero =>
          obtain rfl : y = x := by simpa using hx
          simp [hgx, ha]
      | succ i =>
          rw [List.set_cons_succ, rank_cons_succ, List.filterMap_cons, List.filterMap_cons]
          cases hy : g y with
          | none => simpa using ih (by simpa using hx)
          | some c =>
              simp only [Option.toList_some, List.length_singleton]
              rw [List.insertIdx_succ_cons, ih (by simpa using hx)]

/-- **Freeing an occupied slot** erases at its rank. -/
theorem filterMap_set_erase (hx : l[i]? = some x) (hgx : g x = some b) (ha : g a = none) :
    (l.set i a).filterMap g = (l.filterMap g).eraseIdx (rank g l i) := by
  induction l generalizing i with
  | nil => simp at hx
  | cons y t ih =>
      cases i with
      | zero =>
          obtain rfl : y = x := by simpa using hx
          simp [hgx, ha]
      | succ i =>
          rw [List.set_cons_succ, rank_cons_succ, List.filterMap_cons, List.filterMap_cons]
          cases hy : g y with
          | none => simpa using ih (by simpa using hx)
          | some c =>
              simp only [Option.toList_some, List.length_singleton]
              rw [List.eraseIdx_cons_succ, ih (by simpa using hx)]

/-- **Overwriting an occupied slot** overwrites at its rank. -/
theorem filterMap_set_set (hx : l[i]? = some x) (hgx : g x = some b) (ha : g a = some b') :
    (l.set i a).filterMap g = (l.filterMap g).set (rank g l i) b' := by
  induction l generalizing i with
  | nil => simp at hx
  | cons y t ih =>
      cases i with
      | zero =>
          obtain rfl : y = x := by simpa using hx
          simp [hgx, ha]
      | succ i =>
          rw [List.set_cons_succ, rank_cons_succ, List.filterMap_cons, List.filterMap_cons]
          cases hy : g y with
          | none => simpa using ih (by simpa using hx)
          | some c =>
              simp only [Option.toList_some, List.length_singleton]
              rw [List.set_cons_succ, ih (by simpa using hx)]

/-- A write that leaves a slot free, or one `g` does not see, leaves the packed array. -/
theorem filterMap_set_of_none (hx : l[i]? = some x) (hgx : g x = none) (ha : g a = none) :
    (l.set i a).filterMap g = l.filterMap g := by
  induction l generalizing i with
  | nil => simp at hx
  | cons y t ih =>
      cases i with
      | zero =>
          obtain rfl : y = x := by simpa using hx
          simp [hgx, ha]
      | succ i =>
          rw [List.set_cons_succ, List.filterMap_cons, List.filterMap_cons,
            ih (by simpa using hx)]

end Slot

/-- A list read slot by slot. -/
theorem flatMap_eq_flatMap_range {γ : Type} (l : List α) (d : α) (f : α → List γ) :
    l.flatMap f = (List.range l.length).flatMap fun i => f (l.getD i d) := by
  induction l with
  | nil => rfl
  | cons a l ih =>
      rw [List.length_cons, List.range_succ_eq_map, List.flatMap_cons, List.flatMap_cons,
        List.flatMap_map, ih]
      rfl

end Rank

section Routed

variable {κ : Type} {γ : κ → Type}

/-- Bucket `i` holds only keys that `r` sends to `i`. -/
def Routed (r : κ → Nat) (b : Nat → List (Sigma γ)) (n : Nat) : Prop :=
  ∀ i < n, ∀ p ∈ b i, r p.1 = i

variable {r : κ → Nat} {b : Nat → List (Sigma γ)} {n : Nat}

theorem Routed.key (h : Routed r b n) {i : Nat} (hi : i < n) {k : κ} (hk : k ∈ (b i).keys) :
    r k = i := by
  obtain ⟨p, hp, rfl⟩ := List.mem_map.mp hk
  exact h i hi p hp

theorem Routed.of_succ (h : Routed r b (n + 1)) : Routed r b n :=
  fun i hi => h i (Nat.lt_succ_of_lt hi)

/-- Every key of the buckets is routed to its bucket. -/
theorem Routed.lt_of_mem_keys (h : Routed r b n) {k : κ}
    (hk : k ∈ ((List.range n).flatMap b).keys) : r k < n := by
  obtain ⟨p, hp, rfl⟩ := List.mem_map.mp hk
  obtain ⟨i, hi, hpi⟩ := List.mem_flatMap.mp hp
  rw [List.mem_range] at hi
  rw [h i hi p hpi]
  exact hi

/-- **Routed buckets have distinct keys** when each bucket has. -/
theorem Routed.nodupKeys (h : Routed r b n) (hb : ∀ i < n, (b i).NodupKeys) :
    ((List.range n).flatMap b).NodupKeys := by
  rw [List.flatMap_def, List.nodupKeys_flatten]
  refine ⟨?each, ?apart⟩
  case each =>
    intro l hl
    obtain ⟨i, hi, rfl⟩ := List.mem_map.mp hl
    exact hb i (List.mem_range.mp hi)
  case apart =>
    rw [List.map_map, List.pairwise_map]
    refine List.pairwise_lt_range.imp_of_mem ?_
    intro i j hi hj hij k hki hkj
    -- a key in two buckets would be routed to both
    have := (h.key (List.mem_range.mp hi) hki).symm.trans (h.key (List.mem_range.mp hj) hkj)
    omega

/-- Buckets that differ from routed ones only in the bucket of `k`, which takes keys that
are `k` or were there, are routed. -/
theorem Routed.update {b' : Nat → List (Sigma γ)} {k : κ} (h : Routed r b n)
    (hsame : ∀ i < n, i ≠ r k → b' i = b i)
    (hkeys : ∀ k' ∈ (b' (r k)).keys, k' = k ∨ k' ∈ (b (r k)).keys) : Routed r b' n := by
  intro i hi p hp
  by_cases hik : i = r k
  · subst hik
    rcases hkeys p.1 (List.mem_map_of_mem hp) with hpk | hpk
    · rw [hpk]
    · exact h.key hi hpk
  · rw [hsame i hi hik] at hp
    exact h i hi p hp

variable [DecidableEq κ]

/-- **A lookup in routed buckets** is a lookup in the key's bucket. -/
theorem Routed.dlookup (h : Routed r b n) {k : κ} (hk : r k < n) :
    ((List.range n).flatMap b).dlookup k = (b (r k)).dlookup k := by
  induction n with
  | zero => omega
  | succ n ih =>
      rw [List.range_succ, List.flatMap_append, List.dlookup_append, List.flatMap_singleton]
      rcases Nat.lt_succ_iff_lt_or_eq.mp hk with hlt | heq
      · -- the key's bucket comes first; the last bucket does not have the key
        have hlast : (b n).dlookup k = none := by
          rw [List.dlookup_eq_none]
          intro hkn
          have := h.key (Nat.lt_succ_self n) hkn
          omega
        rw [ih h.of_succ hlt, hlast, Option.or_none]
      · -- the key's bucket is the last; no earlier bucket has the key
        have hfirst : ((List.range n).flatMap b).dlookup k = none := by
          rw [List.dlookup_eq_none]
          intro hkn
          have := h.of_succ.lt_of_mem_keys hkn
          omega
        rw [hfirst, heq, Option.none_or]

section Update

variable {β : Type} {r : κ → Nat} {b b' : Nat → List (Σ _ : κ, β)} {n : Nat} {k : κ} {v : β}

/-- **Writing `k` in its bucket writes it in the whole.** When the bucket of `k` looks up
`k` as `v` and every other key as before, and the other buckets are unchanged, so does the
concatenation. -/
theorem Routed.dlookup_update (h : Routed r b n) (h' : Routed r b' n) (hk : r k < n)
    (hsame : ∀ i < n, i ≠ r k → b' i = b i)
    (hbk : ∀ k', (b' (r k)).dlookup k' = if k' = k then some v else (b (r k)).dlookup k')
    (k' : κ) :
    ((List.range n).flatMap b').dlookup k' =
      if k' = k then some v else ((List.range n).flatMap b).dlookup k' := by
  by_cases hk' : r k' < n
  · rw [h'.dlookup hk', h.dlookup hk']
    by_cases hr : r k' = r k
    · rw [hr, hbk]
    · -- another bucket: neither it nor the key changed
      have hne : k' ≠ k := fun heq => hr (heq ▸ rfl)
      rw [hsame _ hk' hr, if_neg hne]
  · -- a key routed past the buckets is in neither concatenation
    have hne : k' ≠ k := fun heq => hk' (heq ▸ hk)
    have hnone : ∀ {c : Nat → List (Σ _ : κ, β)}, Routed r c n →
        ((List.range n).flatMap c).dlookup k' = none := fun hc =>
      List.dlookup_eq_none.mpr fun hmem => hk' (hc.lt_of_mem_keys hmem)
    rw [hnone h', hnone h, if_neg hne]

end Update

end Routed

section Write

variable {κ β : Type} [DecidableEq κ] {l l' : List (Σ _ : κ, β)} {k : κ} {v : β}

/-- A list with distinct keys is as long as its set of keys is large. -/
theorem length_eq_card_keys (hl : l.NodupKeys) : l.length = l.keys.toFinset.card := by
  rw [List.toFinset_card_of_nodup hl, List.keys, List.length_map]

section
variable (h : ∀ k', l'.dlookup k' = if k' = k then some v else l.dlookup k')
include h

/-- The keys after a write of `k`: `k` and the keys there were. -/
theorem keys_of_write : ∀ k' ∈ l'.keys, k' = k ∨ k' ∈ l.keys := by
  intro k' hk'
  by_cases hkk : k' = k
  · exact .inl hkk
  · have hsome := List.dlookup_isSome.mpr hk'
    rw [h, if_neg hkk] at hsome
    exact .inr (List.dlookup_isSome.mp hsome)

theorem keys_toFinset_of_write : l'.keys.toFinset = insert k l.keys.toFinset := by
  ext k'
  rw [List.mem_toFinset, Finset.mem_insert, List.mem_toFinset, ← List.dlookup_isSome,
    ← List.dlookup_isSome, h]
  by_cases hk' : k' = k <;> simp [hk']

/-- **A write grows a list with distinct keys exactly when the key was missing.** -/
theorem length_of_write (hl : l.NodupKeys) (hl' : l'.NodupKeys) :
    l'.length = l.length + if (l.dlookup k).isNone then 1 else 0 := by
  rw [length_eq_card_keys hl', length_eq_card_keys hl, keys_toFinset_of_write h]
  by_cases hk : k ∈ l.keys
  · have hnone : (l.dlookup k).isNone = false := by
      rw [Bool.eq_false_iff, ne_eq, Option.isNone_iff_eq_none, List.dlookup_eq_none, not_not]
      exact hk
    rw [Finset.card_insert_of_mem (List.mem_toFinset.mpr hk), hnone]
    rfl
  · have hnone : (l.dlookup k).isNone = true :=
      Option.isNone_iff_eq_none.mpr (List.dlookup_eq_none.mpr hk)
    rw [Finset.card_insert_of_notMem (mt List.mem_toFinset.mp hk), hnone]
    rfl

end

end Write

end Packed
