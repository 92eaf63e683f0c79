import Ccf.Kv.Map
import Ccf.Lib.AList

/-!
# A transaction's view as an overlay (`Map::TxView`)

What a key holds in a view is the transaction's own write to it, a removal reading as
nothing, and otherwise the snapshot's live value (`TxView.value`). On a view not yet
committed, `get` answers exactly that (`get_value`); `put` and `remove` change it at their
key only; `get`'s read set and `foreach`'s read version leave it as it was. So over any
sequence of calls, `get` answers what the last write to the key left, or the snapshot's
value where there was none (`get_runs`).

Two answers are not this one. `remove` reports whether the transaction wrote the key or the
snapshot has it at all, a tombstone included (`remove_result`): a second `remove`, or one
on a deleted key, returns `true`. And `foreach` drops the result of `state.foreach`, so
after the callback answers `false` on a snapshot entry the pending writes are still
visited. Run to the end, it visits each key with a value once, with that value
(`foreach_visits`).
-/

namespace Ccf.Kv

variable {K V : Type}

/-- What a versioned value reads as: nothing once deleted. -/
def VersionV.live (w : VersionV V) : Option V := if deleted w.version then none else some w.value

-- Made here once: the equation lemmas that the proofs below unfold.
section
attribute [local simp] VersionV.live
end

namespace TxView

variable [DecidableEq K]

/-- The value `key` has in the view: the transaction's own write if there is one, else
the snapshot's. -/
def value (view : TxView K V) (key : K) : Option V :=
  match view.writes.lookup key with
  | some w => w.live
  | none => (view.state.lookup key).bind VersionV.live

-- Made here once: the equation lemmas that the proofs below unfold.
section
attribute [local simp] value
end

/-- The value depends on the writes and the snapshot only. -/
theorem value_congr {view view' : TxView K V} (hw : view'.writes = view.writes)
    (hs : view'.state = view.state) : view'.value = view.value := by
  funext key
  simp only [value, hw, hs]

/-- A view with no writes reads the snapshot. -/
theorem value_of_writes_empty {view : TxView K V} (h : view.writes = ∅) (key : K) :
    view.value key = (view.state.lookup key).bind VersionV.live := by
  simp [value, h, AList.lookup_empty]

/-! ## Each call -/

section Calls

variable {view : TxView K V} (hopen : view.commitVersion = NoVersion)
include hopen

theorem get_value (key : K) : (view.get key).1 = view.value key := by
  unfold get value
  rw [if_neg (not_not.mpr hopen)]
  cases view.writes.lookup key with
  | some w => rfl
  | none =>
      cases view.state.lookup key with
      | none => rfl
      | some found => rfl

theorem get_view (key : K) :
    (view.get key).2.value = view.value ∧ (view.get key).2.commitVersion = view.commitVersion := by
  unfold get
  rw [if_neg (not_not.mpr hopen)]
  -- a read only adds to the read set
  split
  · exact ⟨rfl, rfl⟩
  · split
    · exact ⟨value_congr rfl rfl, rfl⟩
    · exact ⟨value_congr rfl rfl, rfl⟩

theorem put_value (key : K) (x : V) :
    (view.put key x).2.value = Function.update view.value key (some x) ∧
      (view.put key x).2.commitVersion = view.commitVersion := by
  unfold put
  rw [if_neg (not_not.mpr hopen)]
  refine ⟨funext fun k => ?_, rfl⟩
  by_cases hk : k = key
  · subst hk
    simp [value, AList.lookup_insert, VersionV.live, deleted]
  · simp only [value, AList.lookup_insert_ne hk, Function.update_of_ne hk]

theorem remove_value [Inhabited V] (key : K) :
    (view.remove key).2.value = Function.update view.value key none ∧
      (view.remove key).2.commitVersion = view.commitVersion := by
  unfold remove
  rw [if_neg (not_not.mpr hopen)]
  dsimp only
  have hdel : (⟨NoVersion, default⟩ : VersionV V).live = none := by
    simp [VersionV.live, deleted, NoVersion]
  refine ⟨funext fun k => ?_, by split <;> (try split) <;> rfl⟩
  by_cases hk : k = key
  · subst hk
    rw [Function.update_self]
    split
    · split
      · -- written only by this transaction: the write is forgotten, and the snapshot has
        -- nothing
        next hs =>
        have hnone : view.state.lookup k = none := by simpa using hs
        simp [value, AList.lookup_erase, hnone]
      · obtain ⟨w, hw⟩ := Option.isSome_iff_exists.mp
          (AList.lookup_isSome.mpr ‹k ∈ view.writes›)
        simp [value, AList.lookup_replace, hw, hdel]
    · split
      · next hw hs =>
        have hnone : view.state.lookup k = none := by simpa using hs
        simp [value, AList.lookup_eq_none.mpr hw, hnone]
      · simp [value, AList.lookup_insert, hdel]
  · rw [Function.update_of_ne hk]
    split
    · split
      · simp [value, AList.lookup_erase_ne hk]
      · simp [value, AList.lookup_replace, hk]
    · split
      · rfl
      · simp only [value, AList.lookup_insert_ne hk]

/-- What `remove` answers: whether the transaction wrote the key or the snapshot has it,
deleted or not. -/
theorem remove_result [Inhabited V] (key : K) :
    (view.remove key).1 = (decide (key ∈ view.writes) || (view.state.lookup key).isSome) := by
  unfold remove
  rw [if_neg (not_not.mpr hopen)]
  dsimp only
  by_cases hw : key ∈ view.writes
  · rw [if_pos hw]
    split <;> simp [hw]
  · rw [if_neg hw]
    cases (view.state.lookup key).isSome <;> simp [hw]

theorem foreach_view (f : K → V → Bool) :
    (view.foreach f).2.2.value = view.value ∧
      (view.foreach f).2.2.commitVersion = view.commitVersion := by
  unfold foreach
  rw [if_neg (not_not.mpr hopen)]
  exact ⟨value_congr rfl rfl, rfl⟩

end Calls

/-! ## Sequences of calls -/

/-- A call on a transaction's view. -/
inductive Call (K V : Type) where
  | get (key : K)
  | put (key : K) (value : V)
  | remove (key : K)
  | foreach (f : K → V → Bool)

/-- The view after a call. -/
def Call.run [Inhabited V] : Call K V → TxView K V → TxView K V
  | .get key, view => (view.get key).2
  | .put key x, view => (view.put key x).2
  | .remove key, view => (view.remove key).2
  | .foreach f, view => (view.foreach f).2.2

/-- The view after a sequence of calls. -/
def runs [Inhabited V] (view : TxView K V) (calls : List (Call K V)) : TxView K V :=
  calls.foldl (fun view c => c.run view) view

/-- What a call writes: a put sets its key's value, a remove clears it. -/
def Call.write : Call K V → (K → Option V) → K → Option V
  | .put key x, val => Function.update val key (some x)
  | .remove key, val => Function.update val key none
  | _, val => val

-- Made here once: the equation lemmas that the proofs below unfold.
section
attribute [local simp] Call.run Call.write
end

variable [Inhabited V]

/-- One call changes the values as it writes, and leaves the view open. -/
theorem Call.run_value (c : Call K V) {view : TxView K V} (hopen : view.commitVersion = NoVersion) :
    (c.run view).value = c.write view.value ∧ (c.run view).commitVersion = NoVersion := by
  cases c with
  | get key =>
      obtain ⟨hv, hc⟩ := get_view hopen key
      exact ⟨hv, hc.trans hopen⟩
  | put key x =>
      obtain ⟨hv, hc⟩ := put_value hopen key x
      exact ⟨hv, hc.trans hopen⟩
  | remove key =>
      obtain ⟨hv, hc⟩ := remove_value hopen key
      exact ⟨hv, hc.trans hopen⟩
  | foreach f =>
      obtain ⟨hv, hc⟩ := foreach_view hopen f
      exact ⟨hv, hc.trans hopen⟩

/-- Over a sequence of calls the values are the writes of the calls, in order, over the
view's values before. -/
theorem runs_value : ∀ (calls : List (Call K V)) {view : TxView K V},
    view.commitVersion = NoVersion →
      (runs view calls).value = calls.foldl (fun val c => c.write val) view.value ∧
        (runs view calls).commitVersion = NoVersion
  | [], _, hopen => ⟨rfl, hopen⟩
  | c :: calls, view, hopen => by
      obtain ⟨hv, hc⟩ := c.run_value hopen
      have ih := runs_value calls hc
      rw [hv] at ih
      exact ih

/-- `get` after any sequence of calls on an open view answers what the last put or remove
of the key left, or the view's value before them. -/
theorem get_runs (calls : List (Call K V)) {view : TxView K V}
    (hopen : view.commitVersion = NoVersion) (key : K) :
    ((runs view calls).get key).1 = calls.foldl (fun val c => c.write val) view.value key := by
  obtain ⟨hv, hc⟩ := runs_value calls hopen
  rw [get_value hc, hv]

/-! ## Iteration -/

omit [DecidableEq K] [Inhabited V] in
/-- A callback that never stops is called on every entry. -/
theorem visitUntil_all {f : K → V → Bool} (hf : ∀ k x, f k x = true) :
    ∀ l : List (K × V), visitUntil f l = (l, true)
  | [] => rfl
  | (k, x) :: rest => by
      simp only [visitUntil, hf, if_true, visitUntil_all hf rest]

omit [DecidableEq K] [Inhabited V] in
/-- The keys `filterMap` keeps from an association list are among its keys, in order. -/
theorem filterMap_keys_sublist {β : Type} (g : (Σ _ : K, VersionV V) → Option (K × β))
    (hg : ∀ e p, g e = some p → p.1 = e.1) :
    ∀ l : List (Σ _ : K, VersionV V), ((l.filterMap g).map Prod.fst).Sublist l.keys
  | [] => List.Sublist.slnil
  | e :: l => by
      have ih := filterMap_keys_sublist g hg l
      cases h : g e with
      | none =>
          rw [List.filterMap_cons_none h]
          exact ih.cons _
      | some p =>
          rw [List.filterMap_cons_some h, List.map_cons, hg e p h]
          exact ih.cons_cons _

omit [Inhabited V] in
/-- An entry kept by a `filterMap` that keeps keys is found by its key. -/
theorem mem_filterMap_entries {β : Type} (s : AList fun _ : K => VersionV V)
    {g : (Σ _ : K, VersionV V) → Option (K × β)} (hg : ∀ e p, g e = some p → p.1 = e.1)
    (k : K) (x : β) :
    (k, x) ∈ s.entries.filterMap g ↔ ∃ w, s.lookup k = some w ∧ g ⟨k, w⟩ = some (k, x) := by
  rw [List.mem_filterMap]
  constructor
  · rintro ⟨⟨k', w⟩, he, hgk⟩
    have hk : k = k' := hg _ _ hgk
    subst hk
    exact ⟨w, AList.mem_lookup_iff.mpr he, hgk⟩
  · rintro ⟨w, hw, hgk⟩
    exact ⟨⟨k, w⟩, AList.mem_lookup_iff.mp hw, hgk⟩

omit [DecidableEq K] [Inhabited V] in
theorem VersionV.live_eq_some {w : VersionV V} {x : V} :
    w.live = some x ↔ deleted w.version = false ∧ w.value = x := by
  unfold VersionV.live
  cases deleted w.version <;> simp

omit [Inhabited V] in
/-- The snapshot entries `foreach` visits: the live ones the transaction did not write. -/
theorem mem_foreach_state (view : TxView K V) (k : K) (x : V) :
    (k, x) ∈ view.state.entries.filterMap (fun e =>
      if e.1 ∉ view.writes ∧ !deleted e.2.version then some (e.1, e.2.value) else none) ↔
      k ∉ view.writes ∧ (view.state.lookup k).bind VersionV.live = some x := by
  rw [mem_filterMap_entries _ (fun e p h => by
    split at h
    · simp only [Option.some.injEq] at h
      rw [← h]
    · cases h)]
  constructor
  · rintro ⟨w, hw, hif⟩
    split at hif
    · next hc =>
      simp only [Option.some.injEq, Prod.mk.injEq, true_and] at hif
      simp only [Bool.not_eq_eq_eq_not, Bool.not_true] at hc
      exact ⟨hc.1, by simp [hw, VersionV.live_eq_some, hc.2, hif]⟩
    · cases hif
  · rintro ⟨hk, hl⟩
    obtain ⟨w, hw, hlw⟩ := Option.bind_eq_some_iff.mp hl
    obtain ⟨hd, rfl⟩ := VersionV.live_eq_some.mp hlw
    exact ⟨w, hw, by simp [hk, hd]⟩

omit [Inhabited V] in
/-- The writes `foreach` visits: the live ones. -/
theorem mem_foreach_writes (view : TxView K V) (k : K) (x : V) :
    (k, x) ∈ view.writes.entries.filterMap (fun e =>
      if !deleted e.2.version then some (e.1, e.2.value) else none) ↔
      (view.writes.lookup k).bind VersionV.live = some x := by
  rw [mem_filterMap_entries _ (fun e p h => by
    split at h
    · simp only [Option.some.injEq] at h
      rw [← h]
    · cases h)]
  constructor
  · rintro ⟨w, hw, hif⟩
    split at hif
    · next hc =>
      simp only [Option.some.injEq, Prod.mk.injEq, true_and] at hif
      simp only [Bool.not_eq_true'] at hc
      simp [hw, VersionV.live_eq_some, hc, hif]
    · cases hif
  · intro hl
    obtain ⟨w, hw, hlw⟩ := Option.bind_eq_some_iff.mp hl
    obtain ⟨hd, rfl⟩ := VersionV.live_eq_some.mp hlw
    exact ⟨w, hw, by simp [hd]⟩

omit [Inhabited V] in
/-- Run to the end, `foreach` visits each key that has a value in the view, once, with
that value. -/
theorem foreach_visits {view : TxView K V} (hopen : view.commitVersion = NoVersion)
    {f : K → V → Bool} (hf : ∀ k x, f k x = true) :
    ((view.foreach f).2.1.map Prod.fst).Nodup ∧
      ∀ k x, (k, x) ∈ (view.foreach f).2.1 ↔ view.value k = some x := by
  unfold foreach
  rw [if_neg (not_not.mpr hopen)]
  dsimp only
  rw [visitUntil_all hf, visitUntil_all hf]
  dsimp only
  refine ⟨?_, fun k x => ?_⟩
  · -- each part has its list's keys once, and the snapshot's part skips the written keys
    rw [List.map_append, List.nodup_append]
    refine ⟨(filterMap_keys_sublist _ (fun e p h => by
        split at h
        · simp only [Option.some.injEq] at h
          rw [← h]
        · cases h) _).nodup view.state.nodupKeys,
      (filterMap_keys_sublist _ (fun e p h => by
        split at h
        · simp only [Option.some.injEq] at h
          rw [← h]
        · cases h) _).nodup view.writes.nodupKeys, ?_⟩
    rintro a ha b hb rfl
    obtain ⟨⟨a', x⟩, hx, rfl⟩ := List.mem_map.mp ha
    obtain ⟨⟨b', y⟩, hy, hb'⟩ := List.mem_map.mp hb
    dsimp only at hb'
    subst hb'
    have hnot := ((mem_foreach_state view _ x).mp hx).1
    obtain ⟨w, hw, -⟩ := Option.bind_eq_some_iff.mp ((mem_foreach_writes view _ y).mp hy)
    exact hnot (AList.lookup_isSome.mp (by simp [hw]))
  · rw [List.mem_append, mem_foreach_state, mem_foreach_writes]
    unfold value
    cases hwk : view.writes.lookup k with
    | some w =>
        have hk : k ∈ view.writes := AList.lookup_isSome.mp (by simp [hwk])
        simp [hk]
    | none =>
        have hk : k ∉ view.writes := AList.lookup_eq_none.mp hwk
        simp [hk]

end TxView

/-- Map `A` after keys 0 and 1 are put at version 1 and key 1 is removed at version 2: its
state keeps key 1 as a tombstone. -/
def tombstoned : Map Nat Nat :=
  let m : Map Nat Nat := Map.new "A" .PUBLIC false
  let put01 := (((m.createView 0).put 0 5).2.put 1 6).2
  let m := (put01.commit 1 m).2
  ((((m.createView 1).remove 1).2).commit 2 m).2

/-- A transaction's view of `tombstoned` at version 2. -/
def tombstonedView : TxView Nat Nat := tombstoned.createView 2

/-- `remove` answers `true` on the deleted key 1, and on key 0 a second time, though neither
has a value then; and a callback that answers `false` at once is still called on the
transaction's own write after the snapshot's entry. -/
theorem remove_true_and_foreach_continues :
    tombstonedView.value 1 = none ∧ (tombstonedView.remove 1).1 = true ∧
      (tombstonedView.remove 0).2.value 0 = none ∧
      ((tombstonedView.remove 0).2.remove 0).1 = true ∧
      ((tombstonedView.put 2 7).2.foreach fun _ _ => false).1 = false ∧
      ((tombstonedView.put 2 7).2.foreach fun _ _ => false).2.1 = [(0, 5), (2, 7)] := by
  decide

end Ccf.Kv
