import Ccf.Kv.Proof.Rollback

/-!
# What committing writes does to a map

`TxView::commit` walks the write set in the order of the `unordered_map` that holds
it, but a write set has each key once, so the order does not matter: the value of a
key afterwards depends only on its own write and its value before (`applyWrites_lookup`).
A write stamps its value with the commit version; a removal leaves a tombstone `-v`,
and only over a key the state has. Whether the state changed is decided the same way,
key by key (`applyWrites_changes`).

So the state a commit leaves is a function of the write set and the state before, both
read as maps from keys (`TxView.commit_back`), and `Tx::commit` over views of distinct
maps commits each map by its own view (`Tx.commitEach_find`). Both sides of replication
are then compared through these two facts.
-/

namespace Ccf.Kv

open TxView

variable {K V C : Type}

/-! ## One write set -/

section Writes

variable [DecidableEq K] [Inhabited V]

/-- What a write does to the value of its key at version `v`. -/
def applyOne (v : Version) (w : VersionV V) (cur : Option (VersionV V)) : Option (VersionV V) :=
  if w.version ≥ 0 then some ⟨v, w.value⟩ else cur.map fun _ => ⟨-v, default⟩

/-- The value of `k` after the writes `ws` at version `v`, over the state `st`. -/
def applyLookup (v : Version) (ws : Write K V) (st : State K V) (k : K) : Option (VersionV V) :=
  match ws.lookup k with
  | some w => applyOne v w (st.lookup k)
  | none => st.lookup k

-- Made here once: the equation lemmas that the proofs below unfold.
section
attribute [local simp] applyOne applyLookup
end

theorem applyWrites_lookup (v : Version) :
    ∀ (ws : List (Σ _ : K, VersionV V)) (st : State K V) (ch : Bool), ws.NodupKeys →
      ∀ k, (applyWrites v ws st ch).1.lookup k =
        match ws.dlookup k with
        | some w => applyOne v w (st.lookup k)
        | none => st.lookup k
  | [], st, ch, _, k => rfl
  | w :: rest, st, ch, hnd, k => by
      obtain ⟨hw, hrest⟩ := List.nodupKeys_cons.mp hnd
      -- the rest of the writes are on other keys, so they leave `w.1` as `w` left it
      have hkeep : ∀ st' ch', (applyWrites v rest st' ch').1.lookup w.1 = st'.lookup w.1 := by
        intro st' ch'
        rw [applyWrites_lookup v rest st' ch' hrest w.1, List.dlookup_eq_none.mpr hw]
      by_cases hk : k = w.1
      · subst hk
        rw [List.dlookup_cons_eq]
        unfold applyWrites
        by_cases hv : w.2.version ≥ 0
        · rw [if_pos hv, hkeep, AList.lookup_insert]
          simp [applyOne, hv]
        · rw [if_neg hv]
          by_cases hm : w.1 ∈ st
          · rw [if_pos hm, hkeep, AList.lookup_insert]
            obtain ⟨x, hx⟩ := Option.isSome_iff_exists.mp (AList.lookup_isSome.mpr hm)
            simp [applyOne, hv, hx]
          · rw [if_neg hm, hkeep, AList.lookup_eq_none.mpr hm]
            simp [applyOne, hv]
      · rw [List.dlookup_cons_ne _ _ hk]
        unfold applyWrites
        split
        · rw [applyWrites_lookup v rest _ true hrest k, AList.lookup_insert_ne hk]
        split
        · rw [applyWrites_lookup v rest _ true hrest k, AList.lookup_insert_ne hk]
        · exact applyWrites_lookup v rest st ch hrest k

theorem applyWrites_changes (v : Version) :
    ∀ (ws : List (Σ _ : K, VersionV V)) (st : State K V) (ch : Bool), ws.NodupKeys →
      (applyWrites v ws st ch).2 =
        (ch || ws.any fun w => decide (w.2.version ≥ 0) || decide (w.1 ∈ st))
  | [], st, ch, _ => by simp [applyWrites]
  | w :: rest, st, ch, hnd => by
      obtain ⟨hw, hrest⟩ := List.nodupKeys_cons.mp hnd
      -- a write on another key does not change whether the state has a key of the rest
      have hsame : ∀ x : VersionV V, (rest.any fun w' => decide (w'.2.version ≥ 0) ||
          decide (w'.1 ∈ st.insert w.1 x)) = rest.any fun w' => decide (w'.2.version ≥ 0) ||
          decide (w'.1 ∈ st) := by
        intro x
        rw [Bool.eq_iff_iff, List.any_eq_true, List.any_eq_true]
        refine exists_congr fun w' => and_congr_right fun hw' => ?_
        have hne : w'.1 ≠ w.1 := fun h => hw (h ▸ List.mem_keys_of_mem hw')
        simp [AList.mem_insert, hne]
      unfold applyWrites
      split
      · next hv =>
        rw [applyWrites_changes v rest _ true hrest, hsame]
        simp [hv]
      split
      · next hv hm =>
        rw [applyWrites_changes v rest _ true hrest, hsame]
        simp [hm]
      · next hv hm =>
        rw [applyWrites_changes v rest st ch hrest]
        simp [hv, hm]

/-- A write set that changes nothing leaves every key as it was. -/
theorem applyLookup_of_unchanged {v : Version} {ws : Write K V} {st : State K V} {ch : Bool}
    (h : (applyWrites v ws.entries st ch).2 = false) (k : K) : applyLookup v ws st k = st.lookup k := by
  rw [applyWrites_changes v ws.entries st ch ws.nodupKeys] at h
  simp only [Bool.or_eq_false_iff, List.any_eq_false, Bool.or_eq_true, decide_eq_true_eq,
    not_or] at h
  unfold applyLookup
  cases hw : ws.lookup k with
  | none => rfl
  | some w =>
      obtain ⟨hv, hm⟩ := h.2 ⟨k, w⟩ (List.of_mem_dlookup (Option.mem_def.mpr hw))
      have hnone : st.lookup k = none := AList.lookup_eq_none.mpr hm
      simp [applyOne, hv, hnone]

/-- The current state a view's commit leaves, key by key. -/
theorem TxView.commit_back (view : TxView K V) (v : Version) (m : Map K V) (k : K) :
    ((view.commit v m).2.back.state).lookup k = applyLookup v view.writes m.back.state k := by
  unfold TxView.commit
  split
  · next he =>
    have hnil : view.writes.entries = [] := List.isEmpty_iff.mp he
    have hw : view.writes.lookup k = none := by
      rw [AList.lookup_eq_none, AList.mem_keys, AList.keys, hnil]
      simp
    simp [applyLookup, hw]
  dsimp only
  split
  · next hc =>
    rw [Map.back_push]
    show (applyWrites v view.writes.entries m.back.state view.changes).1.lookup k = _
    rw [applyWrites_lookup v _ _ _ view.writes.nodupKeys]
    rfl
  · next hc => exact (applyLookup_of_unchanged (Bool.not_eq_true _ ▸ hc) k).symm

end Writes

/-! ## The views of a transaction -/

section Views

/-- Each view is filed under the name of its map, and no name twice. -/
structure ViewsShape (views : List (String × TxView K V)) : Prop where
  nodup : (views.map (·.1)).Nodup
  map : ∀ p ∈ views, p.2.map = p.1

theorem ViewsShape.tail {p : String × TxView K V} {rest : List (String × TxView K V)}
    (h : ViewsShape (p :: rest)) : ViewsShape rest :=
  ⟨(List.nodup_cons.mp h.nodup).2, fun q hq => h.map q (List.mem_cons_of_mem _ hq)⟩

theorem ViewsShape.not_mem {p : String × TxView K V} {rest : List (String × TxView K V)}
    (h : ViewsShape (p :: rest)) : rest.lookup p.1 = none := by
  have hn := (List.nodup_cons.mp h.nodup).1
  cases hl : rest.lookup p.1 with
  | none => rfl
  | some w => exact absurd (List.mem_map_of_mem (f := (·.1)) (lookup_mem hl)) hn

/-- Replacing the map of one name leaves the others. -/
theorem Store.find_setMap (s : Store K V C) (m' : Map K V) (name : String) :
    (s.setMap m').find name = if name = m'.name then (s.find name).map fun _ => m' else s.find name := by
  rw [Store.find_of_maps (f := fun x => if x.name = m'.name then m' else x)
    (fun x => by split <;> simp_all) rfl]
  cases hf : s.find name with
  | none => split <;> rfl
  | some m =>
      obtain ⟨-, hname⟩ := Store.find_spec hf
      by_cases hn : name = m'.name
      · simp [hn, hname]
      · have : m.name ≠ m'.name := hname ▸ hn
        simp [hn, this]

variable [DecidableEq K] [Inhabited V]

/-- `Tx::commit` over views of distinct maps commits each map of the store by its own
view, if it has one. -/
theorem Tx.commitEach_find (v : Version) :
    ∀ (views : List (String × TxView K V)) (s : Store K V C), ViewsShape views →
      ∀ name, (Tx.commitEach v s views).1.find name =
        (s.find name).map fun m =>
          match views.lookup name with
          | some view => (view.commit v m).2
          | none => m
  | [], s, _, name => by
      show s.find name = _
      cases s.find name <;> rfl
  | (n, view) :: rest, s, hv, name => by
      have hmap : view.map = n := hv.map (n, view) List.mem_cons_self
      have hrest := hv.tail
      have hnot : rest.lookup n = none := hv.not_mem
      cases hf : s.find view.map with
      | none =>
          simp only [Tx.commitEach, hf]
          rw [Tx.commitEach_find v rest s hrest name]
          by_cases hn : name = n
          · subst hn
            rw [← hmap, hf]
            rfl
          · rw [List.lookup_cons, beq_false_of_ne hn]
      | some m =>
          simp only [Tx.commitEach, hf]
          rw [Tx.commitEach_find v rest _ hrest name, Store.find_setMap]
          have hname : (view.commit v m).2.name = n := by
            rw [(TxView.commit_grows view v m).name, (Store.find_spec hf).2, hmap]
          by_cases hn : name = n
          · subst hn
            rw [if_pos hname.symm, ← hmap, hf, hmap, hnot, List.lookup_cons, beq_self_eq_true]
            rfl
          · rw [if_neg (hname ▸ hn), List.lookup_cons, beq_false_of_ne hn]

end Views

end Ccf.Kv
