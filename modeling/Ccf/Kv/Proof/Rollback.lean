import Ccf.Kv.Proof.Isolation
import Ccf.Lib.Versioned
import Mathlib.Data.List.TakeWhile

/-!
# Rollback is an exact undo

`Store::rollback(v)`, for `commit_version() ≤ v < current_version()`, leaves every
map in the state it had when the store was at version `v`, and sets the version to
`v`; and a transaction that wrote a map the rollback discarded states of, through a
view created before it, can only conflict (`rollback_exact_undo`).

The first part is an invariant of every map's `roll` (`MapOk`): its entries are in
version order, none later than the store's version, the first no later than the
compacted version, and reading it at any version from the first entry's on gives the
state the ghost record `past` holds for that version. Commits append entries at the
next version, compaction drops entries from the front, and rollback drops the
entries later than its version from the back, which keeps the invariant; read at
`v`, it says what the rollback leaves.

The second part rests on rollback counters: a view records its map's counter when
it is created and `prepare` fails while the two differ. Counters only grow, and a
map that loses a state counts one more rollback than any view created before.
-/

namespace Ccf.Kv

open Versioned

variable {K V C : Type}

/-! ## Rolling back and compacting a roll -/

section Roll

/-- The last entry of a roll at or before `u`. -/
abbrev readAt (roll : List (LocalCommit K V)) (u : Version) : Option (LocalCommit K V) :=
  lastAtMost (·.version) roll u

-- Made here once: the equation lemmas that the proofs below unfold.
section
attribute [local simp] readAt
end

/-- `rollback`'s loop, on a roll read from the back, drops exactly the entries later
than `v` when the first one it keeps is at or before `v`. -/
theorem popAfter_append (v : Version) (lo : List (LocalCommit K V)) (hlo : lo ≠ [])
    (hv : (lo.head hlo).version ≤ v) :
    ∀ hi : List (LocalCommit K V), (∀ a ∈ hi, v < a.version) →
      Map.popAfter v (hi ++ lo) = (lo, !hi.isEmpty)
  | [], _ => by
      obtain ⟨x, rest, rfl⟩ := List.exists_cons_of_ne_nil hlo
      cases rest with
      | nil => rfl
      | cons n rest => simp [Map.popAfter, show x.version ≤ v from hv]
  | h :: hi, hgt => by
      have hne : hi ++ lo ≠ [] := by simp [hlo]
      obtain ⟨n, rest, hrest⟩ := List.exists_cons_of_ne_nil hne
      have hh : ¬ h.version ≤ v := not_le.mpr (hgt h (by simp))
      have ih := popAfter_append v lo hlo hv hi fun a ha => hgt a (by simp [ha])
      simp only [List.cons_append, hrest, Map.popAfter, hh, if_false] at ih ⊢
      rw [ih]
      rfl

variable (m : Map K V) (v : Version)

/-- The entries a rollback to `v` keeps and drops, when the roll is in version order
and its first entry is at or before `v`. -/
theorem Map.rollback_split (hs : m.roll.Pairwise fun a b => a.version ≤ b.version)
    (hf : m.front.version ≤ v) :
    ∃ lo hi, m.roll = lo ++ hi ∧ lo ≠ [] ∧ (∀ a ∈ lo, a.version ≤ v) ∧
      (∀ a ∈ hi, v < a.version) ∧ (m.rollback v).roll = lo ∧
      (m.rollback v).rollbackCounter =
        if hi = [] then m.rollbackCounter else m.rollbackCounter + 1 := by
  let p : LocalCommit K V → Bool := fun a => decide (a.version ≤ v)
  set lo := m.roll.takeWhile p with hlo_def
  set hi := m.roll.dropWhile p with hhi_def
  have hroll : m.roll = lo ++ hi := List.takeWhile_append_dropWhile.symm
  have hlo : lo ≠ [] := by
    obtain ⟨x, rest, hx⟩ := List.exists_cons_of_ne_nil m.roll_ne
    have hxv : x.version ≤ v := by
      have : m.front = x := by simp [Map.front, hx]
      exact this ▸ hf
    simp [hlo_def, hx, p, hxv]
  have hle : ∀ a ∈ lo, a.version ≤ v := fun a ha => by
    simpa [p] using List.mem_takeWhile_imp ha
  -- the first entry dropped is later than `v`, and the rest are later still
  have hgt : ∀ a ∈ hi, v < a.version := by
    intro a ha
    have hne : hi ≠ [] := List.ne_nil_of_mem ha
    have hhead := List.head_dropWhile_not p (l := m.roll) hne
    have hv : v < (hi.head hne).version := by simpa [p] using hhead
    have hsorted : hi.Pairwise fun a b => a.version ≤ b.version :=
      hs.sublist (hroll ▸ List.sublist_append_right lo hi)
    obtain ⟨h, t, hht⟩ := List.exists_cons_of_ne_nil hne
    simp only [hht, List.head_cons] at hv
    rw [hht] at ha hsorted
    rcases List.mem_cons.mp ha with rfl | ht
    · exact hv
    · exact lt_of_lt_of_le hv (List.rel_of_pairwise_cons hsorted ht)
  have hpop : Map.popAfter v m.roll.reverse = (lo.reverse, !hi.reverse.isEmpty) := by
    rw [hroll, List.reverse_append]
    refine popAfter_append v lo.reverse (by simpa using hlo) ?_ hi.reverse
      fun a ha => hgt a (List.mem_reverse.mp ha)
    rw [List.head_reverse]
    exact hle _ (List.getLast_mem _)
  refine ⟨lo, hi, hroll, hlo, hle, hgt, ?_, ?_⟩
  · simp [Map.rollback, hpop]
  · by_cases hh : hi = [] <;> simp [Map.rollback, hpop, hh]

/-- Without a global hook, compaction drops entries from the front only, and the first
entry it keeps is at or before `c` when the first one was. -/
theorem Map.compactRoll_suffix (c : Version) :
    ∀ l : List (LocalCommit K V), (∀ h : l ≠ [], (l.head h).version ≤ c) →
      ∃ pre, l = pre ++ (Map.compactRoll false c l).1 ∧
        ∀ h : (Map.compactRoll false c l).1 ≠ [], (((Map.compactRoll false c l).1).head h).version ≤ c
  | [], _ => ⟨[], rfl, fun h => absurd rfl h⟩
  | [x], hx => ⟨[], rfl, hx⟩
  | r :: n :: rest, hr => by
      unfold Map.compactRoll
      split
      · exact ⟨[], rfl, hr⟩
      simp only [Bool.false_and]
      split
      · exact ⟨[], rfl, hr⟩
      · next _ hn =>
        -- the next entry is at or before `c`: the loop goes on from it
        obtain ⟨pre, hpre, hhead⟩ :=
          Map.compactRoll_suffix c (n :: rest) fun _ => not_lt.mp hn
        exact ⟨r :: pre, by rw [List.cons_append, ← hpre], hhead⟩

end Roll

/-! ## Finding maps in a store -/

section Store

variable {s : Store K V C} {m : Map K V} {name : String}

theorem Store.find_spec (h : s.find name = some m) : m ∈ s.maps ∧ m.name = name :=
  ⟨List.mem_of_find?_eq_some h, by simpa using List.find?_some h⟩

/-- Names are unique, so a map of the store is the one found under its name. -/
theorem Store.find_of_mem (hm : m ∈ s.maps) : s.find m.name = some m := by
  obtain ⟨m', hm'⟩ : ∃ m', s.find m.name = some m' := by
    apply Option.isSome_iff_exists.mp
    rw [Store.find, List.find?_isSome]
    exact ⟨m, hm, by simp⟩
  obtain ⟨hmem', hname'⟩ := Store.find_spec hm'
  rw [hm', List.inj_on_of_nodup_map s.maps_nodup hmem' hm hname']

theorem Store.find_of_maps {s' : Store K V C} {f : Map K V → Map K V}
    (hf : ∀ m, (f m).name = m.name) (h : s'.maps = s.maps.map f) :
    s'.find name = (s.find name).map f := by
  simp only [Store.find, h, List.find?_map]
  congr 2
  funext x
  simp [hf]

theorem Store.mem_mapMaps {f : Map K V → Map K V} {hf : ∀ m, (f m).name = m.name} {m' : Map K V} :
    m' ∈ (s.mapMaps f hf).maps ↔ ∃ m ∈ s.maps, f m = m' := by
  simp [Store.mapMaps]

/-- In a list of maps with distinct names, a map's state is found under its name. -/
theorem lookup_states {l : List (Map K V)} (hl : (l.map (·.name)).Nodup) (hm : m ∈ l) :
    (l.map fun m => (m.name, m.back.state)).lookup m.name = some m.back.state := by
  induction l with
  | nil => cases hm
  | cons a l ih =>
      rw [List.map_cons, List.nodup_cons] at hl
      rw [List.map_cons, List.lookup_cons]
      by_cases ha : m = a
      · subst ha
        rw [beq_self_eq_true]
      · have hml : m ∈ l := (List.mem_cons.mp hm).resolve_left ha
        have hname : m.name ≠ a.name := fun h => hl.1 (h ▸ List.mem_map_of_mem hml)
        have hb : (m.name == a.name) = false := by simpa using hname
        rw [hb]
        exact ih hl.2 hml

/-- Each map's current state is recorded under its name. -/
theorem snapshot_lookup (hm : m ∈ s.maps) : (snapshot s).lookup m.name = some m.back.state :=
  lookup_states s.maps_nodup hm

end Store

/-! ## What a commit does to the maps

A commit appends at most one entry per written map, all at the commit's version;
`Grows v` says so of one map and `StoreGrows v` of every map of the store. -/

section Commit

/-- `m'` is `m` with entries appended at version `v`. -/
structure Grows (v : Version) (m m' : Map K V) : Prop where
  name : m'.name = m.name
  counter : m'.rollbackCounter = m.rollbackCounter
  hook : m'.globalHook = m.globalHook
  roll : ∃ extra, m'.roll = m.roll ++ extra ∧ ∀ c ∈ extra, c.version = v

theorem Grows.refl (v : Version) (m : Map K V) : Grows v m m :=
  ⟨rfl, rfl, rfl, [], by simp, by simp⟩

theorem Grows.trans {v : Version} {m₁ m₂ m₃ : Map K V} (h₁ : Grows v m₁ m₂) (h₂ : Grows v m₂ m₃) :
    Grows v m₁ m₃ := by
  obtain ⟨n₁, c₁, k₁, e₁, he₁, hv₁⟩ := h₁
  obtain ⟨n₂, c₂, k₂, e₂, he₂, hv₂⟩ := h₂
  refine ⟨n₂.trans n₁, c₂.trans c₁, k₂.trans k₁, e₁ ++ e₂,
    by rw [he₂, he₁, List.append_assoc], ?_⟩
  intro c hc
  rcases List.mem_append.mp hc with hc | hc
  · exact hv₁ c hc
  · exact hv₂ c hc

/-- Every map of `s'` is the map of `s` in its place, grown at `v`; the versions are
those of `s`. -/
def StoreGrows (v : Version) (s s' : Store K V C) : Prop :=
  (∃ g : Map K V → Map K V, s'.maps = s.maps.map g ∧ ∀ x ∈ s.maps, Grows v x (g x)) ∧
    s'.version = s.version ∧ s'.compacted = s.compacted

theorem StoreGrows.refl (v : Version) (s : Store K V C) : StoreGrows v s s :=
  ⟨⟨id, by simp, fun x _ => Grows.refl v x⟩, rfl, rfl⟩

theorem StoreGrows.trans {v : Version} {s₁ s₂ s₃ : Store K V C} (h₁ : StoreGrows v s₁ s₂)
    (h₂ : StoreGrows v s₂ s₃) : StoreGrows v s₁ s₃ := by
  obtain ⟨⟨g₁, hm₁, hg₁⟩, hv₁, hc₁⟩ := h₁
  obtain ⟨⟨g₂, hm₂, hg₂⟩, hv₂, hc₂⟩ := h₂
  refine ⟨⟨g₂ ∘ g₁, by rw [hm₂, hm₁, List.map_map], fun x hx => ?_⟩, hv₂.trans hv₁,
    hc₂.trans hc₁⟩
  exact (hg₁ x hx).trans (hg₂ (g₁ x) (hm₁ ▸ List.mem_map_of_mem hx))

/-- A grown map put in place of the one the store has under its name. -/
theorem StoreGrows.setMap {v : Version} {s : Store K V C} {m m' : Map K V}
    (hfind : s.find m'.name = some m) (hg : Grows v m m') : StoreGrows v s (s.setMap m') := by
  refine ⟨⟨fun x => if x.name = m'.name then m' else x, rfl, fun x hx => ?_⟩, rfl, rfl⟩
  dsimp only
  split
  · next hx' =>
    -- the only map of that name is the one found
    have : x = m := by
      have := Store.find_of_mem hx
      rw [hx', hfind] at this
      exact (Option.some.inj this).symm
    exact this ▸ hg
  · exact Grows.refl v x

theorem Store.nextVersion_of_nonneg {s : Store K V C} (h : 0 ≤ s.version) :
    s.nextVersion = (s.version + 1, { s with version := s.version + 1 }) := by
  have : ¬ s.version + 1 < 0 := not_lt.mpr (Int.le_add_one h)
  simp [Store.nextVersion, this]

variable [DecidableEq K] [Inhabited V]

theorem TxView.commit_grows (view : TxView K V) (v : Version) (m : Map K V) :
    Grows v m (view.commit v m).2 := by
  unfold TxView.commit
  split
  · exact Grows.refl v m
  dsimp only
  split
  · exact ⟨rfl, rfl, rfl, [_], rfl, by simp⟩
  · exact Grows.refl v m

/-- The frame of a view: its map and the rollback counter it saw. -/
def TxView.frame (view : TxView K V) : String × Nat := (view.map, view.rollbackCounter)

/-- The frames of a list of views, by name. -/
def frames (views : List (String × TxView K V)) : List (String × String × Nat) :=
  views.map fun p => (p.1, p.2.frame)

-- Made here once: the equation lemmas that the proofs below unfold.
section
attribute [local simp] TxView.frame frames
end

theorem TxView.commit_frame (view : TxView K V) (v : Version) (m : Map K V) :
    (view.commit v m).1.frame = view.frame := by
  unfold TxView.commit
  split
  · rfl
  dsimp only
  split <;> rfl

/-- Committing the views grows the maps at the version used and keeps the views'
frames. -/
theorem Tx.commitEach_grows (v : Version) :
    ∀ (views : List (String × TxView K V)) (s : Store K V C),
      StoreGrows v s (Tx.commitEach v s views).1 ∧ frames (Tx.commitEach v s views).2 = frames views
  | [], s => ⟨StoreGrows.refl v s, rfl⟩
  | (n, view) :: rest, s => by
      cases hf : s.find view.map with
      | none =>
          obtain ⟨hs, hfr⟩ := Tx.commitEach_grows v rest s
          simp only [Tx.commitEach, hf]
          exact ⟨hs, by simp [frames] at hfr ⊢; exact hfr⟩
      | some m =>
          have hg := TxView.commit_grows view v m
          have hfind : s.find (view.commit v m).2.name = some m := by
            rw [hg.name, (Store.find_spec hf).2]
            exact hf
          obtain ⟨hs, hfr⟩ := Tx.commitEach_grows v rest (s.setMap (view.commit v m).2)
          simp only [Tx.commitEach, hf]
          refine ⟨(StoreGrows.setMap hfind hg).trans hs, ?_⟩
          simp only [frames, List.map_cons, TxView.commit_frame] at hfr ⊢
          rw [hfr]

end Commit

/-! ## The ghost record -/

section Record

variable {past : List (Version × List (String × State K V))} {s : Store K V C}
  {name : String} {u : Version}

theorem stateAt_record_lt (h : u < s.version) :
    stateAt (record past s) name u = stateAt past name u := by
  unfold stateAt record
  rw [List.find?_append, List.find?_filter]
  have hlast : [(s.version, snapshot s)].find? (fun p => decide (p.1 = u)) = none := by
    simp [ne_of_gt h]
  have hfilter : (past.find? fun p => decide (decide (p.1 < s.version) = true ∧
      decide (p.1 = u) = true)) = past.find? fun p => decide (p.1 = u) := by
    congr 1
    funext p
    by_cases hp : p.1 = u <;> simp [hp, h]
  rw [hlast, hfilter, Option.or_none]

theorem stateAt_record_self : stateAt (record past s) name s.version = (snapshot s).lookup name := by
  unfold stateAt record
  rw [List.find?_append]
  have hnone : (past.filter fun p => decide (p.1 < s.version)).find?
      (fun p => decide (p.1 = s.version)) = none := by
    rw [List.find?_eq_none]
    intro p hp
    have := (List.mem_filter.mp hp).2
    simp only [decide_eq_true_eq] at this
    simp [ne_of_lt this]
  simp [hnone]

end Record

/-! ## Views keep their frames

Of a view, only its map and the counter it saw (`TxView.frame`) matter here. The
operations of a transaction keep the frame of every view it has, and `get_view` only
adds views, so a view a transaction once had stays, under its name, with its frame. -/

section Views

theorem frames_lookup (l : List (String × TxView K V)) (n : String) :
    (frames l).lookup n = (l.lookup n).map TxView.frame := by
  induction l with
  | nil => rfl
  | cons p l ih =>
      obtain ⟨k, w⟩ := p
      simp only [frames, List.map_cons, List.lookup_cons] at ih ⊢
      cases n == k <;> simp [ih]

theorem lookup_mem {l : List (String × TxView K V)} {n : String} {view : TxView K V}
    (h : l.lookup n = some view) : (n, view) ∈ l := by
  obtain ⟨l₁, l₂, rfl, -⟩ := List.lookup_eq_some_iff.mp h
  simp

theorem lookup_setView (name n : String) (view : TxView K V) (l : List (String × TxView K V)) :
    (setView name view l).lookup n = if n = name then (l.lookup n).map fun _ => view
      else l.lookup n := by
  induction l with
  | nil => simp [setView]
  | cons p l ih =>
      obtain ⟨k, w⟩ := p
      simp only [setView, List.map_cons] at ih ⊢
      by_cases hk : k = name
      · subst hk
        rw [if_pos rfl, List.lookup_cons, List.lookup_cons]
        cases h : n == k
        · have hn : n ≠ k := by simpa using h
          simpa [hn] using ih
        · simp [beq_iff_eq.mp h]
      · rw [if_neg hk, List.lookup_cons, List.lookup_cons]
        cases h : n == k
        · exact ih
        · have hn : n ≠ name := beq_iff_eq.mp h ▸ hk
          simp [hn]

theorem mem_setView {name : String} {view : TxView K V} {l : List (String × TxView K V)}
    {p : String × TxView K V} (h : p ∈ setView name view l) : p ∈ l ∨ p = (name, view) := by
  obtain ⟨q, hq, rfl⟩ := List.mem_map.mp h
  by_cases hq' : q.1 = name
  · exact .inr (by simp [hq'])
  · exact .inl (by simpa [hq'] using hq)

/-- Inserting a view under a name the list lacks files it there and leaves the other
names' views. -/
theorem lookup_insertView {name n : String} {view : TxView K V} :
    ∀ {l : List (String × TxView K V)}, l.lookup name = none →
      (insertView name view l).lookup n = if n = name then some view else l.lookup n
  | [], _ => by
      by_cases hn : n = name
      · simp [insertView, hn]
      · simp [insertView, List.lookup_cons, beq_false_of_ne hn, hn]
  | (k, w) :: l, hl => by
      have hk : (name == k) = false := by
        rw [List.lookup_cons] at hl
        cases h : name == k
        · rfl
        · rw [h] at hl; cases hl
      have hl' : l.lookup name = none := by rwa [List.lookup_cons, hk] at hl
      have ih : (insertView name view l).lookup n = if n = name then some view else l.lookup n :=
        lookup_insertView hl'
      unfold insertView at ih ⊢
      rw [List.orderedInsert_cons]
      split
      · -- inserted in front of `(k, w)`
        by_cases hn : n = name
        · simp [hn]
        · simp [List.lookup_cons, beq_false_of_ne hn, hn]
      · -- inserted further on
        rw [List.lookup_cons, List.lookup_cons, ih]
        by_cases hn : n = name
        · subst hn
          simp [hk]
        · simp [hn]

/-- `l'` files the views of `l`, with their frames, under the same names. -/
def SameFrames (l l' : List (String × TxView K V)) : Prop :=
  ∀ n, (frames l').lookup n = (frames l).lookup n

/-- Every view of `l` is in `l'` under its name, with its frame. -/
def FramesKept (l l' : List (String × TxView K V)) : Prop :=
  ∀ n f, (frames l).lookup n = some f → (frames l').lookup n = some f

theorem SameFrames.refl (l : List (String × TxView K V)) : SameFrames l l := fun _ => rfl

theorem SameFrames.of_frames {l l' : List (String × TxView K V)} (h : frames l' = frames l) :
    SameFrames l l' := fun n => by rw [h]

theorem SameFrames.kept {l l' : List (String × TxView K V)} (h : SameFrames l l') :
    FramesKept l l' := fun n _ hf => (h n).trans hf

theorem SameFrames.setView {l : List (String × TxView K V)} {name : String}
    {view view' : TxView K V} (hl : l.lookup name = some view) (hf : view'.frame = view.frame) :
    SameFrames l (setView name view' l) := by
  intro n
  rw [frames_lookup, frames_lookup, lookup_setView]
  split
  · next hn =>
    subst hn
    simp [hl, hf]
  · rfl

theorem FramesKept.insertView {l : List (String × TxView K V)} {name : String} {view : TxView K V}
    (hl : l.lookup name = none) : FramesKept l (insertView name view l) := by
  intro n f h
  have hn : n ≠ name := by
    rintro rfl
    rw [frames_lookup, hl] at h
    cases h
  rw [frames_lookup] at h ⊢
  rwa [lookup_insertView hl, if_neg hn]

/-- An operation of a view that keeps its frame keeps the transaction's frames. -/
theorem Tx.onView_sameFrames {α : Type} (tx : Tx K V) (name : String) (none_ : α)
    (op : TxView K V → α × TxView K V) (hop : ∀ v, (op v).2.frame = v.frame) :
    SameFrames tx.viewList (tx.onView name none_ op).2.viewList := by
  unfold Tx.onView
  split
  · exact SameFrames.refl _
  · next view hv => exact SameFrames.setView hv (hop view)

variable [DecidableEq K]

theorem TxView.get_frame (view : TxView K V) (key : K) : (view.get key).2.frame = view.frame := by
  unfold TxView.get
  split
  · rfl
  split
  · rfl
  split <;> rfl

theorem TxView.put_frame (view : TxView K V) (key : K) (value : V) :
    (view.put key value).2.frame = view.frame := by
  unfold TxView.put
  split <;> rfl

theorem TxView.foreach_frame (view : TxView K V) (f : K → V → Bool) :
    (view.foreach f).2.2.frame = view.frame := by
  unfold TxView.foreach
  split <;> rfl

theorem TxView.remove_frame [Inhabited V] (view : TxView K V) (key : K) :
    (view.remove key).2.frame = view.frame := by
  unfold TxView.remove
  split
  · rfl
  dsimp only
  split
  · split <;> rfl
  split <;> rfl

end Views

/-! ## What a commit does to the store and the transaction -/

section TxCommit

variable [DecidableEq K] [Inhabited V] {s s' : Store K V C}

theorem Tx.commitViews_some {views views' : List (String × TxView K V)} {version : Version}
    (h : Tx.commitViews s views Store.nextVersion = some (version, s', views')) :
    SameFrames views views' ∧ (s' = s ∨ StoreGrows s.nextVersion.1 s.nextVersion.2 s') := by
  unfold Tx.commitViews at h
  split at h
  · cases h
  split at h
  · -- some view writes: every view is committed at the next version
    obtain ⟨hg, hf⟩ := Tx.commitEach_grows s.nextVersion.1 views s.nextVersion.2
    simp only [Option.some.injEq, Prod.mk.injEq] at h
    obtain ⟨-, rfl, rfl⟩ := h
    exact ⟨SameFrames.of_frames hf, .inr hg⟩
  · simp only [Option.some.injEq, Prod.mk.injEq] at h
    obtain ⟨-, rfl, rfl⟩ := h
    exact ⟨SameFrames.refl _, .inl rfl⟩

/-- `Tx::commit` keeps the transaction's views, with their frames, and leaves the
store as it was or grown at the next version; this holds when it throws too. -/
theorem Tx.commit_state (tx : Tx K V) :
    SameFrames tx.viewList (Tx.commit (s, tx)).state.2.viewList ∧
      ((Tx.commit (s, tx)).state.1 = s ∨
        StoreGrows s.nextVersion.1 s.nextVersion.2 (Tx.commit (s, tx)).state.1) := by
  apply EStateM.wp_state (P := fun st : Store K V C × Tx K V =>
    SameFrames tx.viewList st.2.viewList ∧
      (st.1 = s ∨ StoreGrows s.nextVersion.1 s.nextVersion.2 st.1))
  simp only [Tx.commit, EStateM.wp_bind, EStateM.wp_getState, EStateM.wp_ite, EStateM.wp_throw,
    EStateM.wp_set, EStateM.wp_pure]
  split
  · exact ⟨SameFrames.refl _, .inl trivial⟩
  split
  · exact ⟨SameFrames.refl _, .inl trivial⟩
  split
  · -- a view failed `prepare`: only the flags change
    exact ⟨SameFrames.refl _, .inl rfl⟩
  · next version s' views h =>
    -- the views committed; serialising may still throw, after the writes
    obtain ⟨hf, hs⟩ := Tx.commitViews_some h
    simp only [EStateM.wp_bind, EStateM.wp_set]
    split <;> exact ⟨hf, hs⟩

/-- A transaction not yet committed, one of whose views fails `prepare`, conflicts and
leaves the store as it was. -/
theorem Tx.commit_conflict (tx : Tx K V) (hc : tx.committed = false) (hne : tx.viewList ≠ [])
    (hp : Tx.prepareAll s tx.viewList = false) :
    (Tx.commit (s, tx)).value? = some .CONFLICT ∧ (Tx.commit (s, tx)).state.1 = s := by
  have hv : Tx.commitViews s tx.viewList Store.nextVersion = none := by
    simp [Tx.commitViews, hp]
  apply EStateM.value?_of_wp (P := fun st : Store K V C × Tx K V => st.1 = s)
  simp only [Tx.commit, EStateM.wp_bind, EStateM.wp_getState, EStateM.wp_ite, EStateM.wp_throw,
    hc, Bool.false_eq_true, if_false, List.isEmpty_iff, hne, hv, EStateM.wp_set, EStateM.wp_pure]
  exact ⟨trivial, trivial⟩

end TxCommit

/-! ## Rollback counters only grow -/

section Counters

variable {s s' : Store K V C}

/-- Every map of `s` is in `s'`, under its name, with a counter at least as high. -/
def CountersGrow (s s' : Store K V C) : Prop :=
  ∀ name m, s.find name = some m →
    ∃ m', s'.find name = some m' ∧ m.rollbackCounter ≤ m'.rollbackCounter

theorem CountersGrow.refl (s : Store K V C) : CountersGrow s s := fun _ m h => ⟨m, h, le_rfl⟩

theorem CountersGrow.of_maps {f : Map K V → Map K V} (hf : ∀ m, (f m).name = m.name)
    (hc : ∀ m, m.rollbackCounter ≤ (f m).rollbackCounter) (h : s'.maps = s.maps.map f) :
    CountersGrow s s' :=
  fun _ m hm => ⟨f m, by rw [Store.find_of_maps hf h, hm]; rfl, hc m⟩

theorem StoreGrows.countersGrow {v : Version} (h : StoreGrows v s s') : CountersGrow s s' := by
  intro name m hm
  obtain ⟨⟨g, hmaps, hg⟩, -, -⟩ := h
  obtain ⟨hmem, rfl⟩ := Store.find_spec hm
  have hgm : g m ∈ s'.maps := hmaps ▸ List.mem_map_of_mem hmem
  refine ⟨g m, ?_, (hg m hmem).counter.ge⟩
  rw [← (hg m hmem).name]
  exact Store.find_of_mem hgm

theorem Store.compact_countersGrow (v : Version) : CountersGrow s (s.compact v) := by
  unfold Store.compact
  split
  · exact CountersGrow.refl s
  · exact CountersGrow.of_maps (f := (·.compact v)) (fun _ => rfl) (fun _ => le_rfl) rfl

theorem Map.rollback_counter_ge (m : Map K V) (v : Version) :
    m.rollbackCounter ≤ (m.rollback v).rollbackCounter := by
  unfold Map.rollback
  dsimp only
  split <;> simp

theorem Store.rollback_countersGrow (v : Version) : CountersGrow s (s.rollback v) := by
  unfold Store.rollback
  split
  · exact CountersGrow.refl s
  split
  · exact CountersGrow.refl s
  · exact CountersGrow.of_maps (f := (·.rollback v)) (fun _ => rfl)
      (fun m => Map.rollback_counter_ge m v) rfl

theorem Store.compact_of_le {v : Version} (h : v ≤ s.version) :
    (s.compact v).maps = s.maps.map (·.compact v) ∧ (s.compact v).version = s.version ∧
      (s.compact v).compacted = v := by
  unfold Store.compact
  split
  · next hgt => exact absurd hgt (not_lt.mpr h)
  · exact ⟨rfl, rfl, rfl⟩

theorem Store.rollback_of_lt {v : Version} (h₁ : s.compacted ≤ v) (h₂ : v < s.version) :
    (s.rollback v).maps = s.maps.map (·.rollback v) ∧ (s.rollback v).version = v ∧
      (s.rollback v).compacted = s.compacted := by
  unfold Store.rollback
  split
  · next hge => exact absurd h₂ (not_lt.mpr hge)
  split
  · next hlt => exact absurd h₁ (not_le.mpr hlt)
  · exact ⟨rfl, rfl, rfl⟩

end Counters

/-! ## The invariant of the rolls -/

section MapOk

variable {past : List (Version × List (String × State K V))} {s s' : Store K V C}
  {m : Map K V} {v : Version}

/-- What a map's roll keeps, against the store it is in and the ghost record: its
entries in version order, none later than the store's version, the first no later
than the compacted version; and at every version from the first entry's on, the
state read is the one recorded. -/
structure MapOk (past : List (Version × List (String × State K V))) (s : Store K V C)
    (m : Map K V) : Prop where
  sorted : m.roll.Pairwise fun a b => a.version ≤ b.version
  front_le : m.front.version ≤ s.compacted
  le_version : ∀ c ∈ m.roll, c.version ≤ s.version
  past : ∀ u, m.front.version ≤ u → u ≤ s.version →
    stateAt past m.name u = (readAt m.roll u).map (·.state)
  noHook : m.globalHook = false

theorem Map.front_le_of_mem (hs : m.roll.Pairwise fun a b => a.version ≤ b.version)
    {c : LocalCommit K V} (hc : c ∈ m.roll) : m.front.version ≤ c.version := by
  obtain ⟨x, rest, hx⟩ := List.exists_cons_of_ne_nil m.roll_ne
  have hfront : m.front = x := by simp [Map.front, hx]
  rw [hx] at hs hc
  rw [hfront]
  rcases List.mem_cons.mp hc with rfl | hc
  · exact le_rfl
  · exact List.rel_of_pairwise_cons hs hc

/-- After a step the record holds the current states at the current version, so a
roll need only match the older record below it. -/
theorem MapOk.recorded (hm : m ∈ s.maps) (hs : m.roll.Pairwise fun a b => a.version ≤ b.version)
    (hf : m.front.version ≤ s.compacted) (hv : ∀ c ∈ m.roll, c.version ≤ s.version)
    (hp : ∀ u, m.front.version ≤ u → u < s.version →
      stateAt past m.name u = (readAt m.roll u).map (·.state)) (hh : m.globalHook = false) :
    MapOk (record past s) s m := by
  refine ⟨hs, hf, hv, fun u hu hu' => ?_, hh⟩
  rcases lt_or_eq_of_le hu' with hlt | rfl
  · rw [stateAt_record_lt hlt]
    exact hp u hu hlt
  · -- at the current version the record holds the current state
    rw [stateAt_record_self, snapshot_lookup hm, readAt, lastAtMost_of_le m.roll_ne hv]
    rfl

/-- A step that leaves the store as it is. -/
theorem MapOk.keep (h : MapOk past s m) (hm : m ∈ s.maps) : MapOk (record past s) s m :=
  MapOk.recorded hm h.sorted h.front_le h.le_version (fun u hu hu' => h.past u hu hu'.le) h.noHook

/-- A commit at the next version. -/
theorem MapOk.grow {m' : Map K V} (h : MapOk past s m) (hg : Grows (s.version + 1) m m')
    (hm' : m' ∈ s'.maps) (hv : s'.version = s.version + 1) (hc : s'.compacted = s.compacted) :
    MapOk (record past s') s' m' := by
  obtain ⟨hname, -, hhook, extra, hroll, hextra⟩ := hg
  have hfront : m'.front = m.front := by
    simp only [Map.front, hroll]
    exact List.head_append_of_ne_nil m.roll_ne
  -- the old entries are at most the old version, the new ones at the next
  have hold : ∀ c ∈ m.roll, c.version < s.version + 1 := fun c hc =>
    Int.lt_add_one_iff.mpr (h.le_version c hc)
  refine MapOk.recorded hm' ?_ ?_ ?_ ?_ ?_
  · rw [hroll, List.pairwise_append]
    refine ⟨h.sorted, List.pairwise_of_forall_mem_list fun a ha b hb => ?_, fun a ha b hb => ?_⟩
    · rw [hextra a ha, hextra b hb]
    · rw [hextra b hb]
      exact (hold a ha).le
  · rw [hfront, hc]
    exact h.front_le
  · intro c hc
    rw [hv]
    rw [hroll] at hc
    rcases List.mem_append.mp hc with hc | hc
    · exact (hold c hc).le
    · exact (hextra c hc).le
  · intro u hu hu'
    rw [hv] at hu'
    rw [hfront] at hu
    have hgt : ∀ c ∈ extra, u < c.version := fun c hc => hextra c hc ▸ hu'
    rw [hname, hroll, readAt, lastAtMost_append_of_gt hgt]
    exact h.past u hu (Int.lt_add_one_iff.mp hu')
  · rw [hhook]
    exact h.noHook

/-- A compaction at `v`, no earlier than the compacted version. -/
theorem MapOk.compact (h : MapOk past s m) (hcv : s.compacted ≤ v) (hm' : m.compact v ∈ s'.maps)
    (hv : s'.version = s.version) (hc : s'.compacted = v) :
    MapOk (record past s') s' (m.compact v) := by
  obtain ⟨pre, hpre, hhead⟩ :=
    Map.compactRoll_suffix v m.roll fun _ => h.front_le.trans hcv
  -- without a global hook nothing is moved out of the entries kept
  have hroll : (m.compact v).roll = (Map.compactRoll false v m.roll).1 := by
    rw [← h.noHook]
    rfl
  have hsl : (m.compact v).roll.Sublist m.roll := by
    rw [hroll]
    nth_rewrite 2 [hpre]
    exact List.sublist_append_right pre _
  have hsub : ∀ c ∈ (m.compact v).roll, c ∈ m.roll := fun _ hc => hsl.subset hc
  have hfront : (m.compact v).front.version ≤ v := by
    simpa only [Map.front, hroll] using hhead (hroll ▸ (m.compact v).roll_ne)
  refine MapOk.recorded hm' ?_ (hc ▸ hfront) (fun c hc' => hv ▸ h.le_version c (hsub c hc')) ?_
    h.noHook
  · exact h.sorted.sublist hsl
  · intro u hu hu'
    -- the entries dropped all come before the first one kept, which is at most `u`
    obtain ⟨b, rest, hb⟩ := List.exists_cons_of_ne_nil (m.compact v).roll_ne
    have hbu : b.version ≤ u := by
      have : (m.compact v).front = b := by simp [Map.front, hb]
      exact this ▸ hu
    have hread : readAt m.roll u = readAt (m.compact v).roll u := by
      rw [readAt, readAt, hb]
      conv_lhs => rw [hpre, ← hroll, hb]
      exact lastAtMost_append_of_le hbu
    have hmu : m.front.version ≤ u :=
      (Map.front_le_of_mem h.sorted (hsub _ (hb ▸ List.mem_cons_self))).trans hbu
    rw [← hread]
    exact h.past u hmu (hv ▸ hu'.le)

/-- A rollback to `v`, between the compacted and the current version. -/
theorem MapOk.rollback (h : MapOk past s m) (hcv : s.compacted ≤ v) (hvs : v < s.version)
    (hm' : m.rollback v ∈ s'.maps) (hv : s'.version = v) (hc : s'.compacted = s.compacted) :
    MapOk (record past s') s' (m.rollback v) := by
  obtain ⟨lo, hi, hroll, hlo, hle, hgt, hroll', -⟩ :=
    Map.rollback_split m v h.sorted (h.front_le.trans hcv)
  have hfront : (m.rollback v).front = m.front := by
    simp only [Map.front, hroll', hroll]
    exact (List.head_append_of_ne_nil hlo).symm
  refine MapOk.recorded hm' ?_ ?_ ?_ ?_ h.noHook
  · rw [hroll']
    exact h.sorted.sublist (hroll ▸ List.sublist_append_left lo hi)
  · rw [hfront, hc]
    exact h.front_le
  · intro c hc'
    rw [hv]
    exact hle c (hroll' ▸ hc')
  · intro u hu hu'
    rw [hv] at hu'
    rw [hfront] at hu
    -- the entries dropped are all later than `v`, so later than `u`
    have hread : readAt m.roll u = readAt (m.rollback v).roll u := by
      rw [readAt, readAt, hroll, hroll']
      exact lastAtMost_append_of_gt fun c hc' => hu'.trans (hgt c hc')
    rw [← hread]
    exact h.past u hu (hu'.trans hvs).le

/-- What a rollback to `v` leaves as the map's state: what the record holds for `v`. -/
theorem MapOk.rollback_state (h : MapOk past s m) (hcv : s.compacted ≤ v) (hvs : v ≤ s.version) :
    stateAt past m.name v = some (m.rollback v).back.state := by
  obtain ⟨lo, hi, hroll, hlo, hle, hgt, hroll', -⟩ :=
    Map.rollback_split m v h.sorted (h.front_le.trans hcv)
  have hback : (m.rollback v).back = lo.getLast hlo := by
    simp only [Map.back, hroll']
  rw [h.past v (h.front_le.trans hcv) hvs, readAt, hroll, lastAtMost_append_of_gt hgt,
    lastAtMost_of_le hlo hle, hback]
  rfl

end MapOk

/-! ## The views' counters -/

section ViewsOk

variable {s s' : Store K V C} {l l' : List (String × TxView K V)} {m : Map K V}

/-- Each view of a transaction is over the map it is filed under, which the store has,
and saw a counter no higher than the map's. -/
def ViewsOk (s : Store K V C) (l : List (String × TxView K V)) : Prop :=
  ∀ n f, (frames l).lookup n = some f →
    f.1 = n ∧ ∃ m, s.find n = some m ∧ f.2 ≤ m.rollbackCounter

theorem ViewsOk.nil : ViewsOk s ([] : List (String × TxView K V)) := fun _ _ h => by cases h

theorem ViewsOk.same (h : ViewsOk s l) (hl : SameFrames l l') : ViewsOk s l' :=
  fun n f hf => h n f ((hl n) ▸ hf)

theorem ViewsOk.grow (h : ViewsOk s l) (hs : CountersGrow s s') : ViewsOk s' l := by
  intro n f hf
  obtain ⟨hn, m, hm, hle⟩ := h n f hf
  obtain ⟨m', hm', hle'⟩ := hs n m hm
  exact ⟨hn, m', hm', hle.trans hle'⟩

/-- A view created now sees the map's own counter. -/
theorem ViewsOk.insertView (h : ViewsOk s l) (hl : l.lookup m.name = none)
    (hm : s.find m.name = some m) (rv : Version) :
    ViewsOk s (insertView m.name (m.createView rv) l) := by
  intro n f hf
  rw [frames_lookup, lookup_insertView hl] at hf
  split at hf
  · next hn =>
    subst hn
    cases hf
    exact ⟨rfl, m, hm, le_rfl⟩
  · exact h n f (by rwa [frames_lookup])

theorem Tx.getView_viewsOk (tx : Tx K V) (hm : s.find m.name = some m) (h : ViewsOk s tx.viewList) :
    ViewsOk s (tx.getView s m).viewList := by
  unfold Tx.getView
  split
  · exact h
  · next hv => exact h.insertView hv hm _

theorem Tx.getView_framesKept (tx : Tx K V) (s : Store K V C) (m : Map K V) :
    FramesKept tx.viewList (tx.getView s m).viewList := by
  unfold Tx.getView
  split
  · exact (SameFrames.refl _).kept
  · next hv => exact FramesKept.insertView hv

end ViewsOk

/-! ## The invariant of the system -/

section Inv

variable [DecidableEq K] {sys : Sys K V C} {v : Version}

/-- A store as it starts: every state its maps hold is at the store's version, which is
compacted and not negative. -/
structure Fresh (s : Store K V C) : Prop where
  at_version : ∀ m ∈ s.maps, ∀ c ∈ m.roll, c.version = s.version
  compacted_eq : s.compacted = s.version
  version_nonneg : 0 ≤ s.version

/-- The invariant: every map's roll is in order and matches the record, the versions
are ordered, and the transactions' views are counted. -/
structure Inv (sys : Sys K V C) : Prop where
  maps : ∀ m ∈ sys.store.maps, MapOk sys.past sys.store m
  compacted_nonneg : 0 ≤ sys.store.compacted
  compacted_le : sys.store.compacted ≤ sys.store.version
  views : ∀ t, ViewsOk sys.store (sys.txs t).viewList

theorem Inv.init {s₀ : Store K V C} (h : Fresh s₀) (hh : ∀ m ∈ s₀.maps, m.globalHook = false) :
    Inv (Sys.init s₀) := by
  have hpast : (Sys.init s₀).past = record [] s₀ := by simp [Sys.init, record]
  refine ⟨fun m hm => ?_, h.compacted_eq ▸ h.version_nonneg, h.compacted_eq.le,
    fun _ => ViewsOk.nil⟩
  have hall := h.at_version m hm
  have hfront : m.front.version = s₀.version := hall _ (List.head_mem _)
  rw [hpast]
  refine MapOk.recorded hm ?_ ?_ (fun c hc => (hall c hc).le) ?_ (hh m hm)
  · exact List.pairwise_of_forall_mem_list fun a ha b hb => by rw [hall a ha, hall b hb]
  · rw [hfront, h.compacted_eq]
  · intro u hu hu'
    rw [hfront] at hu
    exact absurd hu' (not_lt.mpr hu)

/-- A step that leaves the store as it is and the transactions' views counted. -/
theorem Inv.keep (h : Inv sys) (txs : Nat → Tx K V)
    (hv : ∀ t, ViewsOk sys.store (txs t).viewList) :
    Inv ⟨sys.store, txs, record sys.past sys.store⟩ :=
  ⟨fun m hm => (h.maps m hm).keep hm, h.compacted_nonneg, h.compacted_le, hv⟩

theorem Inv.update_same (h : Inv sys) (t : Nat) (tx : Tx K V)
    (hv : ViewsOk sys.store tx.viewList) : Inv (sys.update sys.store t tx) := by
  refine h.keep _ fun t' => ?_
  by_cases ht : t' = t
  · subst ht
    simpa using hv
  · simpa [ht] using h.views t'

theorem Inv.update_grow (h : Inv sys) (t : Nat) (tx : Tx K V) {s' : Store K V C}
    (hs : StoreGrows (sys.store.version + 1) { sys.store with version := sys.store.version + 1 } s')
    (hv : ViewsOk sys.store tx.viewList) : Inv (sys.update s' t tx) := by
  have hcg : CountersGrow sys.store s' := hs.countersGrow
  obtain ⟨⟨g, hmaps, hg⟩, hver, hcomp⟩ := hs
  refine ⟨fun m' hm' => ?_, hcomp ▸ h.compacted_nonneg, ?_, fun t' => ?_⟩
  · obtain ⟨m, hm, rfl⟩ := List.mem_map.mp (hmaps ▸ hm')
    exact (h.maps m hm).grow (hg m hm) hm' hver hcomp
  · show s'.compacted ≤ s'.version
    rw [hver, hcomp]
    exact h.compacted_le.trans (Int.le_add_one le_rfl)
  · by_cases ht : t' = t
    · subst ht
      simpa [Sys.update] using hv.grow hcg
    · simpa [Sys.update, ht] using (h.views t').grow hcg

variable [Inhabited V]

/-- Compaction at a version no earlier than the compacted one. -/
theorem Inv.compact (h : Inv sys) (hen : sys.store.commitVersion ≤ v) :
    Inv (sys.apply (.compact v)) := by
  simp only [Sys.apply]
  by_cases hv : v ≤ sys.store.version
  · obtain ⟨hmaps, hver, hcomp⟩ := Store.compact_of_le hv
    refine ⟨fun m' hm' => ?_, ?_, ?_, fun t => (h.views t).grow (Store.compact_countersGrow v)⟩
    · obtain ⟨m, hm, rfl⟩ := List.mem_map.mp (hmaps ▸ hm')
      exact (h.maps m hm).compact hen hm' hver hcomp
    · show 0 ≤ (sys.store.compact v).compacted
      rw [hcomp]
      exact h.compacted_nonneg.trans hen
    · show (sys.store.compact v).compacted ≤ (sys.store.compact v).version
      rw [hcomp, hver]
      exact hv
  · -- beyond the current version compaction does nothing
    have hs : sys.store.compact v = sys.store := by
      unfold Store.compact
      split
      · rfl
      · next hle => exact absurd (not_lt.mp hle) hv
    rw [hs]
    exact h.keep sys.txs h.views

/-- Rollback, to any version: outside the compacted and the current version it does
nothing. -/
theorem Inv.rollback (h : Inv sys) (v : Version) : Inv (sys.apply (.rollback v)) := by
  simp only [Sys.apply]
  by_cases hv : sys.store.compacted ≤ v ∧ v < sys.store.version
  · obtain ⟨hmaps, hver, hcomp⟩ := Store.rollback_of_lt hv.1 hv.2
    refine ⟨fun m' hm' => ?_, ?_, ?_, fun t => (h.views t).grow (Store.rollback_countersGrow v)⟩
    · obtain ⟨m, hm, rfl⟩ := List.mem_map.mp (hmaps ▸ hm')
      exact (h.maps m hm).rollback hv.1 hv.2 hm' hver hcomp
    · show 0 ≤ (sys.store.rollback v).compacted
      rw [hcomp]
      exact h.compacted_nonneg
    · show (sys.store.rollback v).compacted ≤ (sys.store.rollback v).version
      rw [hcomp, hver]
      exact hv.1
  · have hs : sys.store.rollback v = sys.store := by
      unfold Store.rollback
      split
      · rfl
      split
      · rfl
      · next hge hlt => exact absurd ⟨not_lt.mp hlt, not_le.mp hge⟩ hv
    rw [hs]
    exact h.keep sys.txs h.views

theorem Inv.commit (h : Inv sys) (t : Nat) : Inv (sys.apply (.commit t)) := by
  obtain ⟨hf, hs⟩ := Tx.commit_state (s := sys.store) (sys.txs t)
  have hv := (h.views t).same hf
  simp only [Sys.apply]
  rcases hs with hs | hs
  · rw [hs]
    exact h.update_same t _ hv
  · rw [Store.nextVersion_of_nonneg (h.compacted_nonneg.trans h.compacted_le)] at hs
    exact h.update_grow t _ hs hv

/-- Every enabled call keeps the invariant. -/
theorem Inv.step {sys' : Sys K V C} (h : Inv sys) (hs : Sys.Step sys sys') : Inv sys' := by
  obtain ⟨op, hen, rfl⟩ := hs
  cases op with
  | getView t name =>
      simp only [Sys.apply]
      split
      · exact h
      · next m hm =>
        obtain ⟨-, hname⟩ := Store.find_spec hm
        exact h.update_same t _ (Tx.getView_viewsOk _ (hname ▸ hm) (h.views t))
  | get t name key =>
      exact h.update_same t _ ((h.views t).same (Tx.onView_sameFrames _ _ _ _ fun v => v.get_frame key))
  | put t name key value =>
      exact h.update_same t _
        ((h.views t).same (Tx.onView_sameFrames _ _ _ _ fun v => v.put_frame key value))
  | remove t name key =>
      exact h.update_same t _
        ((h.views t).same (Tx.onView_sameFrames _ _ _ _ fun v => v.remove_frame key))
  | foreach t name f =>
      exact h.update_same t _
        ((h.views t).same (Tx.onView_sameFrames _ _ _ _ fun v => v.foreach_frame f))
  | commit t => exact h.commit t
  | compact v => exact h.compact hen
  | rollback v => exact h.rollback v

theorem Inv.reachable {s₀ : Store K V C} (h₀ : Fresh s₀) (hh : ∀ m ∈ s₀.maps, m.globalHook = false)
    (hr : Sys.Reachable s₀ sys) : Inv sys :=
  Run.Reachable.invariant Inv (fun _ hi => hi ▸ Inv.init h₀ hh) (fun _ _ _ hi hs => hi.step hs) hr

end Inv

/-! ## Views created before a rollback -/

section Doomed

variable [DecidableEq K] [Inhabited V] {sys sys' : Sys K V C} {t : Nat} {name : String}

/-- Transaction `t` has a view of the map `name` that saw fewer rollbacks of it than the
map has had. -/
def Doomed (sys : Sys K V C) (t : Nat) (name : String) : Prop :=
  ∃ f m, (frames (sys.txs t).viewList).lookup name = some f ∧ sys.store.find name = some m ∧
    f.2 < m.rollbackCounter

/-- A step keeps every view of every transaction, and every map with its counter or a
higher one. -/
theorem Sys.apply_keeps (sys : Sys K V C) (op : Op K V) :
    CountersGrow sys.store (sys.apply op).store ∧
      ∀ t, FramesKept (sys.txs t).viewList ((sys.apply op).txs t).viewList := by
  -- one transaction at most changes, and keeps what `hk` says of it
  have upd : ∀ (s : Store K V C) (t : Nat) (tx : Tx K V),
      FramesKept (sys.txs t).viewList tx.viewList →
        ∀ t', FramesKept (sys.txs t').viewList ((sys.update s t tx).txs t').viewList := by
    intro s t tx hk t'
    by_cases ht : t' = t
    · subst ht
      simpa [Sys.update] using hk
    · simpa [Sys.update, ht] using (SameFrames.refl _).kept
  cases op with
  | getView t name =>
      simp only [Sys.apply]
      split
      · exact ⟨CountersGrow.refl _, fun _ => (SameFrames.refl _).kept⟩
      · exact ⟨CountersGrow.refl _, upd _ t _ (Tx.getView_framesKept _ _ _)⟩
  | get t name key =>
      exact ⟨CountersGrow.refl _,
        upd _ t _ (Tx.onView_sameFrames _ _ _ _ fun v => v.get_frame key).kept⟩
  | put t name key value =>
      exact ⟨CountersGrow.refl _,
        upd _ t _ (Tx.onView_sameFrames _ _ _ _ fun v => v.put_frame key value).kept⟩
  | remove t name key =>
      exact ⟨CountersGrow.refl _,
        upd _ t _ (Tx.onView_sameFrames _ _ _ _ fun v => v.remove_frame key).kept⟩
  | foreach t name f =>
      have hf := Tx.onView_sameFrames (sys.txs t) name (false, [])
        (fun v => let r := v.foreach f; ((r.1, r.2.1), r.2.2)) fun v => v.foreach_frame f
      exact ⟨CountersGrow.refl _, upd _ t _ hf.kept⟩
  | commit t =>
      obtain ⟨hf, hs⟩ := Tx.commit_state (s := sys.store) (sys.txs t)
      refine ⟨?_, upd _ t _ hf.kept⟩
      rcases hs with hs | hs
      · exact hs ▸ CountersGrow.refl _
      · exact hs.countersGrow
  | compact v => exact ⟨Store.compact_countersGrow v, fun _ => (SameFrames.refl _).kept⟩
  | rollback v => exact ⟨Store.rollback_countersGrow v, fun _ => (SameFrames.refl _).kept⟩

theorem Doomed.step (h : Doomed sys t name) (hs : Sys.Step sys sys') : Doomed sys' t name := by
  obtain ⟨op, -, rfl⟩ := hs
  obtain ⟨f, m, hf, hm, hlt⟩ := h
  obtain ⟨hc, hk⟩ := sys.apply_keeps op
  obtain ⟨m', hm', hle⟩ := hc name m hm
  exact ⟨f, m', hk t name f hf, hm', lt_of_lt_of_le hlt hle⟩

theorem Doomed.reaches (h : Doomed sys t name) (hr : Relation.ReflTransGen Sys.Step sys sys') :
    Doomed sys' t name := by
  induction hr with
  | refl => exact h
  | tail _ hs ih => exact ih.step hs

/-- A rollback that drops a state of a map dooms the views of it created before. -/
theorem Doomed.of_rollback {v : Version} (h : Inv sys) (hcv : sys.store.compacted ≤ v)
    (hvs : v < sys.store.version) {m : Map K V} (hm : m ∈ sys.store.maps)
    (hlater : ∃ c ∈ m.roll, v < c.version) {view : TxView K V}
    (hv : (sys.txs t).view? m.name = some view) : Doomed (sys.apply (.rollback v)) t m.name := by
  have hf : (frames (sys.txs t).viewList).lookup m.name = some view.frame := by
    rw [frames_lookup]
    exact congrArg (Option.map TxView.frame) hv
  obtain ⟨-, m₀, hm₀, hle⟩ := h.views t m.name view.frame hf
  rw [Store.find_of_mem hm] at hm₀
  cases hm₀
  -- the map loses its states after `v`, so its counter goes up by one
  obtain ⟨lo, hi, hroll, -, hlo, -, -, hcount⟩ :=
    Map.rollback_split m v (h.maps m hm).sorted ((h.maps m hm).front_le.trans hcv)
  have hhi : hi ≠ [] := by
    rintro rfl
    obtain ⟨c, hc, hvc⟩ := hlater
    rw [hroll, List.append_nil] at hc
    exact absurd (hlo c hc) (not_le.mpr hvc)
  have hfind : (sys.apply (.rollback v)).store.find m.name = some (m.rollback v) := by
    show (sys.store.rollback v).find m.name = _
    rw [Store.find_of_maps (f := (·.rollback v)) (fun _ => rfl)
      (Store.rollback_of_lt hcv hvs).1, Store.find_of_mem hm]
    rfl
  refine ⟨view.frame, m.rollback v, hf, hfind, ?_⟩
  rw [hcount, if_neg hhi]
  exact Nat.lt_succ_of_le hle

/-- A doomed view with writes fails `prepare`, so its transaction conflicts and the
store is left as it was. -/
theorem Doomed.conflict (h : Inv sys) (hd : Doomed sys t name) {view : TxView K V}
    (hv : (sys.txs t).view? name = some view) (hw : view.writes.entries ≠ [])
    (hc : (sys.txs t).committed = false) :
    (Tx.commit (sys.store, sys.txs t)).value? = some .CONFLICT ∧
      (Tx.commit (sys.store, sys.txs t)).state.1 = sys.store := by
  obtain ⟨f, m, hf, hm, hlt⟩ := hd
  have hf' : (frames (sys.txs t).viewList).lookup name = some view.frame := by
    rw [frames_lookup]
    exact congrArg (Option.map TxView.frame) hv
  rw [hf'] at hf
  cases hf
  obtain ⟨hmap, -⟩ := h.views t name view.frame hf'
  have hprep : view.prepare m = false := by
    have hne : view.rollbackCounter ≠ m.rollbackCounter := Nat.ne_of_lt hlt
    simp [TxView.prepare, hw, hne]
  have hmem := lookup_mem hv
  apply Tx.commit_conflict _ hc (List.ne_nil_of_mem hmem)
  rw [Tx.prepareAll, List.all_eq_false]
  have hfind : sys.store.find view.map = some m := (show view.map = name from hmap) ▸ hm
  exact ⟨(name, view), hmem, by simp [hfind, hprep]⟩

end Doomed

/-! ## Rollback is an exact undo -/

section Undo

variable [DecidableEq K] [Inhabited V]

/-- `Store::rollback(v)` with `commit_version() ≤ v < current_version()`, anywhere in a
run from a fresh store whose maps have no global hook: the version becomes `v`; every map
is left in the state the record holds for `v`; and a transaction that had a view of a map
that loses states, whatever calls follow, conflicts if it commits with writes through that
view, and its writes are not applied. -/
theorem rollback_exact_undo {s₀ : Store K V C} (h₀ : Fresh s₀)
    (hh : ∀ m ∈ s₀.maps, m.globalHook = false) {sys : Sys K V C}
    (hr : Sys.Reachable s₀ sys) {v : Version} (hc : sys.store.commitVersion ≤ v)
    (hv : v < sys.store.currentVersion) :
    (sys.apply (.rollback v)).store.currentVersion = v ∧
      (∀ m ∈ (sys.apply (.rollback v)).store.maps,
        stateAt sys.past m.name v = some m.back.state) ∧
      ∀ t (m : Map K V) (view : TxView K V), m ∈ sys.store.maps →
        (∃ c ∈ m.roll, v < c.version) → (sys.txs t).view? m.name = some view →
        ∀ sys', Relation.ReflTransGen Sys.Step (sys.apply (.rollback v)) sys' →
          ∀ view', (sys'.txs t).view? m.name = some view' → view'.writes.entries ≠ [] →
            (sys'.txs t).committed = false →
            (Tx.commit (sys'.store, sys'.txs t)).value? = some .CONFLICT ∧
              (Tx.commit (sys'.store, sys'.txs t)).state.1 = sys'.store := by
  have h := Inv.reachable h₀ hh hr
  obtain ⟨hmaps, hver, -⟩ := Store.rollback_of_lt hc hv
  refine ⟨hver, fun m' hm' => ?_, fun t m view hm hlater hview sys' hr' view' hview' hw hcom => ?_⟩
  · have hm'' : m' ∈ (sys.store.rollback v).maps := hm'
    obtain ⟨m, hm, rfl⟩ := List.mem_map.mp (hmaps ▸ hm'')
    exact (h.maps m hm).rollback_state hc hv.le
  · -- every state from the rollback on is reachable, so keeps the invariant
    have hreach : Sys.Reachable s₀ sys' := by
      obtain ⟨i, hi, hri⟩ := hr
      exact ⟨i, hi, (hri.tail ⟨.rollback v, trivial, rfl⟩).trans hr'⟩
    have hd := (Doomed.of_rollback h hc hv hm hlater hview).reaches hr'
    exact hd.conflict (Inv.reachable h₀ hh hreach) hview' hw hcom

/-- Transaction 1 writes `A` and commits at version 1; transaction 2 takes a view of
`A` at version 1 and writes through it. -/
def undoneWrite : List (Op Nat Nat) :=
  [.getView 1 "A", .put 1 "A" 0 1, .commit 1, .getView 2 "A", .put 2 "A" 0 2]

/-- Rolling the store of `undoneWrite` back to version 0. -/
theorem rollback_exact_undo_undoneWrite :
    Fresh twoMaps ∧ (∀ m ∈ twoMaps.maps, m.globalHook = false) ∧ Sys.Reachable twoMaps ((Sys.init twoMaps).afterOps undoneWrite) ∧
      ((Sys.init twoMaps).afterOps undoneWrite).store.commitVersion ≤ 0 ∧
      0 < ((Sys.init twoMaps).afterOps undoneWrite).store.currentVersion ∧
      ((((Sys.init twoMaps).afterOps undoneWrite).apply (.rollback 0)).store.currentVersion = 0 ∧
      (∀ m ∈ (((Sys.init twoMaps).afterOps undoneWrite).apply (.rollback 0)).store.maps,
        stateAt ((Sys.init twoMaps).afterOps undoneWrite).past m.name 0 = some m.back.state) ∧
      ∀ t (m : Map Nat Nat) (view : TxView Nat Nat),
        m ∈ ((Sys.init twoMaps).afterOps undoneWrite).store.maps →
        (∃ c ∈ m.roll, 0 < c.version) →
        (((Sys.init twoMaps).afterOps undoneWrite).txs t).view? m.name = some view →
        ∀ sys', Relation.ReflTransGen Sys.Step
            (((Sys.init twoMaps).afterOps undoneWrite).apply (.rollback 0)) sys' →
          ∀ view', (sys'.txs t).view? m.name = some view' → view'.writes.entries ≠ [] →
            (sys'.txs t).committed = false →
            (Tx.commit (sys'.store, sys'.txs t)).value? = some .CONFLICT ∧
              (Tx.commit (sys'.store, sys'.txs t)).state.1 = sys'.store) := by
  have hf : Fresh twoMaps := ⟨by decide, rfl, le_rfl⟩
  have hh : ∀ m ∈ twoMaps.maps, m.globalHook = false := by decide
  have hr : Sys.Reachable twoMaps ((Sys.init twoMaps).afterOps undoneWrite) :=
    Sys.Reachable.afterOps (Run.Reachable.of_init rfl)
      ⟨trivial, trivial, trivial, trivial, trivial, trivial⟩
  have hc : ((Sys.init twoMaps).afterOps undoneWrite).store.commitVersion ≤ 0 := by decide
  have hv : 0 < ((Sys.init twoMaps).afterOps undoneWrite).store.currentVersion := by
    decide
  exact ⟨hf, hh, hr, hc, hv, rollback_exact_undo hf hh hr hc hv⟩

end Undo

end Ccf.Kv
