import Mathlib.Data.List.AList

/-!
# Lookups after `AList.replace`, a filter, and a load

`AList.replace` keeps the position of the entry it changes, so Mathlib's lookup lemmas for
`insert` do not apply to it. The lookup after a replace is the replaced value at its key,
when the key was there, and the old lookup elsewhere.

A list with each key once can be split by a filter on its entries and loaded back by inserting
the entries one by one (`lookup_foldl_insert`); with each key once, the order of the inserts does
not matter, and a key keeps its entry through the filter that keeps that entry
(`dlookup_filter`). Two lists agree on every lookup when each entry of one is in the other and
they are as long (`lookup_eq_iff`). A list of pairs with each key once looks a key up exactly when it holds the
pair (`List.lookup_eq_some_iff_mem`); a `filterMap` that keeps keys, and two filters that no element
passes both, keep keys distinct.
-/

namespace AList

variable {α β : Type} [DecidableEq α]

theorem dlookup_kreplace (a k : α) (b : β) : ∀ l : List (Σ _ : α, β),
    (l.kreplace a b).dlookup k = if k = a then (l.dlookup a).map fun _ => b else l.dlookup k
  | [] => by simp [List.kreplace]
  | ⟨x, y⟩ :: l => by
      have ih := dlookup_kreplace a k b l
      unfold List.kreplace at ih ⊢
      by_cases h : a = x
      · -- the head is the entry replaced
        subst h
        rw [List.lookmap_cons_some _ _ (b := ⟨a, b⟩) (by simp)]
        by_cases hk : k = a
        · subst hk
          simp
        · simp [hk, List.dlookup_cons_ne l ⟨a, y⟩ hk]
      · rw [List.lookmap_cons_none _ _ (by simp [h])]
        by_cases hk : k = x
        · subst hk
          simp [Ne.symm h]
        · -- the head is on another key, so both sides look past it
          have hc : ∀ L : List (Σ _ : α, β), List.dlookup k ((⟨x, y⟩ : Σ _ : α, β) :: L) =
              List.dlookup k L := fun L => List.dlookup_cons_ne L _ hk
          rw [hc, hc, ih]
          by_cases hka : k = a
          · subst hka
            rw [if_pos rfl, if_pos rfl, List.dlookup_cons_ne l _ h]
          · rw [if_neg hka, if_neg hka]

theorem lookup_replace (s : AList fun _ : α => β) (a k : α) (b : β) :
    (s.replace a b).lookup k = if k = a then (s.lookup a).map fun _ => b else s.lookup k :=
  dlookup_kreplace a k b s.entries

/-- On a list with each key once, a filter keeps a key's value when it keeps the key's entry. -/
theorem dlookup_filter (p : (Σ _ : α, β) → Bool) (k : α) :
    ∀ {l : List (Σ _ : α, β)}, l.NodupKeys →
      (l.filter p).dlookup k = (l.dlookup k).filter fun b => p ⟨k, b⟩
  | [], _ => rfl
  | ⟨x, y⟩ :: l, hnd => by
      obtain ⟨hx, hl⟩ := List.nodupKeys_cons.mp hnd
      have ih := dlookup_filter p k hl
      by_cases hk : k = x
      · subst hk
        -- the rest of the list does not have the key, filtered or not
        have hrest : (l.filter p).dlookup k = none := List.dlookup_eq_none.mpr fun hm =>
          hx (((List.filter_sublist (p := p)).map Sigma.fst).subset hm)
        rw [List.filter_cons, List.dlookup_cons_eq]
        cases hp : p ⟨k, y⟩
        · simp [hrest, hp, Option.filter_some]
        · simp [hp, Option.filter_some]
      · rw [List.filter_cons, List.dlookup_cons_ne l ⟨x, y⟩ hk]
        split
        · rw [List.dlookup_cons_ne (l.filter p) ⟨x, y⟩ hk, ih]
        · exact ih

/-- Inserting the entries of a list with each key once: a key of the list gets the value made
from its entry, any other keeps its lookup. -/
theorem lookup_foldl_insert {γ : Type} (g : (Σ _ : α, γ) → β) (k : α) :
    ∀ {l : List (Σ _ : α, γ)}, l.NodupKeys → ∀ a : AList fun _ : α => β,
      (l.foldl (fun a e => a.insert e.1 (g e)) a).lookup k =
        ((l.dlookup k).map fun c => g ⟨k, c⟩).or (a.lookup k)
  | [], _, a => by simp
  | ⟨x, y⟩ :: l, hnd, a => by
      obtain ⟨hx, hl⟩ := List.nodupKeys_cons.mp hnd
      rw [List.foldl_cons, lookup_foldl_insert g k hl]
      by_cases hk : k = x
      · -- the rest does not have the key: the insert of the head decides it
        subst hk
        rw [List.dlookup_eq_none.mpr hx, List.dlookup_cons_eq, AList.lookup_insert]
        rfl
      · rw [List.dlookup_cons_ne l ⟨x, y⟩ hk, AList.lookup_insert_ne hk]

/-- Two lists with each key once that agree on every lookup hold the same entries, in some
order. -/
theorem perm_of_lookup_eq {s t : AList fun _ : α => β} (h : ∀ k, s.lookup k = t.lookup k) :
    s.entries.Perm t.entries :=
  (List.perm_ext_iff_of_nodup s.nodupKeys.nodup t.nodupKeys.nodup).mpr fun ⟨k, b⟩ => by
    rw [← AList.mem_lookup_iff, ← AList.mem_lookup_iff, h]

/-- Two lists agree on every lookup exactly when each entry of the first is one of the second and
they have as many entries: the test an equality can make in one pass over the first and a count of
the second. -/
theorem lookup_eq_iff {s t : AList fun _ : α => β} :
    (∀ k, s.lookup k = t.lookup k) ↔
      (∀ e ∈ s.entries, t.lookup e.1 = some e.2) ∧ s.entries.length = t.entries.length := by
  constructor
  · intro h
    refine ⟨fun e he => ?_, (perm_of_lookup_eq h).length_eq⟩
    rw [← h]
    exact AList.mem_lookup_iff.mpr he
  · rintro ⟨hsub, hlen⟩ k
    -- the entries of the first are among the second's, each once, and there are as many
    have hsubset : s.entries ⊆ t.entries := fun e he => AList.mem_lookup_iff.mp (hsub e he)
    exact AList.perm_lookup
      ((List.subperm_of_subset s.nodupKeys.nodup hsubset).perm_of_length_le (Nat.le_of_eq hlen.symm))

end AList

namespace List

variable {α β : Type} [BEq α] [LawfulBEq α]

/-- A list of pairs with each key once looks up a key's value exactly when it holds the pair. -/
theorem lookup_eq_some_iff_mem {l : List (α × β)} (hnd : (l.map Prod.fst).Nodup) {k : α} {b : β} :
    l.lookup k = some b ↔ (k, b) ∈ l := by
  induction l with
  | nil => simp
  | cons p l ih =>
      obtain ⟨x, y⟩ := p
      obtain ⟨hx, hl⟩ := List.nodup_cons.mp hnd
      rw [List.lookup_cons, List.mem_cons]
      by_cases hk : k = x
      · subst hk
        -- the rest of the list does not hold the key
        have hnot : (k, b) ∉ l := fun h => hx (by simpa using List.mem_map_of_mem (f := Prod.fst) h)
        simp [hnot, eq_comm]
      · simp [beq_false_of_ne hk, hk, ih hl]

end List

namespace List

variable {α γ δ : Type}

/-- A `filterMap` each of whose results has the key of the element it came from keeps keys that
were distinct distinct. -/
theorem nodup_map_filterMap {l : List γ} {f : γ → Option δ} {g : γ → α} {h : δ → α}
    (hf : ∀ a ∈ l, ∀ b, f a = some b → h b = g a) (hl : (l.map g).Nodup) :
    ((l.filterMap f).map h).Nodup := by
  induction l with
  | nil => simp
  | cons a l ih =>
      rw [List.map_cons, List.nodup_cons] at hl
      have hf' : ∀ a ∈ l, ∀ b, f a = some b → h b = g a := fun a ha => hf a (List.mem_cons_of_mem _ ha)
      cases hfa : f a with
      | none =>
          rw [List.filterMap_cons_none hfa]
          exact ih hf' hl.2
      | some b =>
          rw [List.filterMap_cons_some hfa, List.map_cons, List.nodup_cons]
          refine ⟨fun hb => hl.1 ?_, ih hf' hl.2⟩
          -- a later result with the same key came from an element with the same key
          obtain ⟨b', hb', he⟩ := List.mem_map.mp hb
          obtain ⟨a', ha', hfa'⟩ := List.mem_filterMap.mp hb'
          rw [← hf a List.mem_cons_self b hfa, ← he, hf' a' ha' b' hfa']
          exact List.mem_map_of_mem ha'

/-- Two filters of a list with distinct keys that no element passes both have distinct keys
between them. -/
theorem nodup_map_filter_append {l : List γ} {p q : γ → Bool} (g : γ → α) (hl : (l.map g).Nodup)
    (hpq : ∀ a ∈ l, p a = true → q a = false) : ((l.filter p ++ l.filter q).map g).Nodup := by
  rw [List.map_append, List.nodup_append]
  refine ⟨(List.filter_sublist.map g).nodup hl, (List.filter_sublist.map g).nodup hl, ?_⟩
  intro x hx y hy hxy
  obtain ⟨a, ha, rfl⟩ := List.mem_map.mp hx
  obtain ⟨b, hb, rfl⟩ := List.mem_map.mp hy
  obtain ⟨ha, hpa⟩ := List.mem_filter.mp ha
  obtain ⟨hb, hqb⟩ := List.mem_filter.mp hb
  -- equal keys on the list are equal elements, which would pass both filters
  have hab : a = b := List.inj_on_of_nodup_map hl ha hb hxy
  subst hab
  rw [hpq a ha hpa] at hqb
  cases hqb

end List
