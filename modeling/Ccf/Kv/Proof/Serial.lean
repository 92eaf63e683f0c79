import Ccf.Kv.Proof.Apply
import Ccf.Lib.AList

/-!
# A committed transaction read the current state of the maps it writes

`Tx::commit` validates a transaction optimistically, by versions: `prepare` passes a view with
writes when its map has counted no rollback since the view was created, every key it read is
still absent or still at the version it read, and, after a `foreach`, the map's current state is
still the one at the view's version. Versions stand for values because a map's states form one
line of history (`RollOk`): each state is stamped at or before its version, a tombstone `-v`
counting as `v`, and each later state keeps every key of an earlier one and holds, among its
entries stamped at or before the earlier one's version, only the earlier one's own (`Extends`).

A commit at the next version only adds entries stamped with it (`Stamps`); compaction, and a
rollback that drops no state, leave the current state; a rollback that drops one counts, which
fails the views created before it. So a view keeps a record of the snapshot it read
(`ViewOk`), and while its map has counted no rollback since, the map's current state extends
that snapshot (`Tracks`). Both hold in every reachable state of a store whose maps start as one
line of history (`Serial.reachable`).

When `Tx::commit` returns `OK`, each map the transaction writes is then as it read it: a key it
read has in the current state the entry it read, value and version, and after a `foreach` the
current state is its snapshot; and the commit leaves the map with the writes applied to that
current state at the next version (`committed_reads_current`). A transaction that writes every
map it reads thus runs as if alone at its commit version; the maps it only reads are not checked
(`Kv/Proof/Isolation.lean`).
-/

namespace Ccf.Kv

variable {K V C : Type}

/-! ## Stamps and the line of a map's states -/

section States

variable [DecidableEq K] {u w : Int} {S T U : State K V}

/-- A stamp written at or before version `u`: a version `v` or a tombstone `-v`, `v ≤ u`. -/
def Within (u x : Int) : Prop := -u ≤ x ∧ x ≤ u

/-- Every entry of `S` is stamped at or before `u`. -/
def Stamped (u : Version) (S : State K V) : Prop :=
  ∀ k e, S.lookup k = some e → Within u e.version

-- Made here once: the equation lemmas that the proofs below unfold.
section
attribute [local simp] Within Stamped
end

/-- `T` is `S`, the state at version `u`, after later commits: it keeps every key of `S`, and
its entries stamped at or before `u` are those of `S`. -/
structure Extends (u : Version) (S T : State K V) : Prop where
  keeps : ∀ k, k ∈ S → k ∈ T
  older : ∀ k e, T.lookup k = some e → Within u e.version → S.lookup k = some e

/-- `T` is `S` with entries stamped `w` or `-w` put in: what a commit at `w` leaves. -/
structure Stamps (w : Int) (S T : State K V) : Prop where
  keeps : ∀ k, k ∈ S → k ∈ T
  new : ∀ k e, T.lookup k = some e →
    S.lookup k = some e ∨ (e.version : Int) = w ∨ (e.version : Int) = -w

theorem Extends.refl (u : Version) (S : State K V) : Extends u S S :=
  ⟨fun _ hk => hk, fun _ _ he _ => he⟩

/-- A commit past `u` keeps a state extending the one at `u`. -/
theorem Extends.stamps (h : Extends u S T) (hs : Stamps w T U) (hu : u < w) : Extends u S U := by
  refine ⟨fun k hk => hs.keeps k (h.keeps k hk), fun k e he hw => ?_⟩
  rcases hs.new k e he with hT | hnew | hnew
  · exact h.older k e hT hw
  · -- a stamp `w` or `-w` is not within `u`
    rw [hnew] at hw
    unfold Within at hw
    omega
  · rw [hnew] at hw
    unfold Within at hw
    omega

theorem Stamped.stamps (h : Stamped u S) (hs : Stamps w S T) (hu : u ≤ w) (hw : 0 ≤ w) :
    Stamped w T := by
  intro k e he
  rcases hs.new k e he with hS | hnew | hnew
  · obtain ⟨h₁, h₂⟩ := h k e hS
    exact ⟨by omega, by omega⟩
  · rw [hnew]
    exact ⟨by omega, le_rfl⟩
  · rw [hnew]
    exact ⟨le_rfl, by omega⟩

theorem Stamped.mono (h : Stamped u S) (hu : u ≤ w) : Stamped w S := by
  intro k e he
  obtain ⟨h₁, h₂⟩ := h k e he
  exact ⟨by omega, by omega⟩

/-- A key of `S` is one of `T`. -/
theorem Extends.lookup_some (h : Extends u S T) {k : K} {e : VersionV V} (hS : S.lookup k = some e) :
    (T.lookup k).isSome := by
  apply AList.lookup_isSome.mpr
  exact h.keeps k (AList.lookup_isSome.mp (by rw [hS]; rfl))

/-- A state extending `S` and stamped no later than it is `S`. -/
theorem Extends.lookup_eq (h : Extends u S T) (hT : Stamped u T) (k : K) :
    T.lookup k = S.lookup k := by
  cases hk : T.lookup k with
  | some e => exact (h.older k e hk (hT k e hk)).symm
  | none =>
      cases hs : S.lookup k with
      | none => rfl
      | some e =>
          have := h.lookup_some hs
          rw [hk] at this
          cases this

/-- What `get` records of a key it reads from the snapshot `S`: the version it finds there,
or `NoVersion`. -/
def seenVersion (S : State K V) (k : K) : Version := ((S.lookup k).map (·.version)).getD NoVersion

-- Made here once: the equation lemmas that the proofs below unfold.
section
attribute [local simp] seenVersion
end

/-- **A read `prepare` validates by version reads the current entry.** When `T` extends the
snapshot `S` it was read from, a key read at the version `S` had passes `readValid` in `T` only
if `T` has for it the entry `S` has. -/
theorem Extends.read (h : Extends u S T) (hS : Stamped u S) {k : K}
    (hv : TxView.readValid T k (seenVersion S k) = true) : T.lookup k = S.lookup k := by
  unfold TxView.readValid at hv
  cases hT : T.lookup k with
  | none =>
      cases hs : S.lookup k with
      | none => rfl
      | some e =>
          -- `T` keeps the keys of `S`
          have := h.lookup_some hs
          rw [hT] at this
          cases this
  | some found =>
      rw [hT] at hv
      cases hs : S.lookup k with
      | none => simp [seenVersion, hs] at hv
      | some e =>
          have hv' : e.version ≠ NoVersion ∧ e.version = found.version := by
            simpa [seenVersion, hs] using hv
          have hver := hv'.2
          have hwithin : Within u found.version := by
            rw [← hver]
            exact hS k e hs
          have := h.older k found hT hwithin
          rw [hs] at this
          exact this.symm

theorem Stamps.of_applyLookup [Inhabited V] {ws : Write K V}
    (hT : ∀ k, T.lookup k = applyLookup w ws S k) : Stamps w S T := by
  refine ⟨fun k hk => ?_, fun k e he => ?_⟩
  · obtain ⟨x, hx⟩ := Option.isSome_iff_exists.mp (AList.lookup_isSome.mpr hk)
    rw [← AList.lookup_isSome, hT k]
    unfold applyLookup applyOne
    cases ws.lookup k with
    | none => simp [hx]
    | some w' =>
        dsimp only
        split <;> simp [hx]
  · rw [hT k] at he
    cases hw' : ws.lookup k with
    | none =>
        simp only [applyLookup, hw'] at he
        exact .inl he
    | some w' =>
        simp only [applyLookup, hw', applyOne] at he
        split at he
        · cases he
          exact .inr (.inl rfl)
        · obtain ⟨x, -, rfl⟩ := Option.map_eq_some_iff.mp he
          exact .inr (.inr rfl)

end States

/-! ## The roll of a map -/

section Roll

variable [DecidableEq K] {m : Map K V}

/-- A map's states form one line of history: each is stamped at or before its version, and
each later one extends each earlier one. -/
structure RollOk (m : Map K V) : Prop where
  stamped : ∀ c ∈ m.roll, Stamped c.version c.state
  chained : m.roll.Pairwise fun c d => Extends c.version c.state d.state

/-- A new map is its empty state at version 0. -/
theorem RollOk.new (name : String) (d : SecurityDomain) (hook : Bool) :
    RollOk (Map.new name d hook : Map K V) :=
  ⟨by simp [Map.new, Stamped], by simp [Map.new]⟩

theorem RollOk.sublist {m' : Map K V} (h : RollOk m) (hl : m'.roll.Sublist m.roll) : RollOk m' :=
  ⟨fun c hc => h.stamped c (hl.subset hc), h.chained.sublist hl⟩

/-- The current state extends every state of the roll. -/
theorem RollOk.extends_back (h : RollOk m) {c : LocalCommit K V} (hc : c ∈ m.roll) :
    Extends c.version c.state m.back.state :=
  h.chained.rel_getLast_of_rel_getLast_getLast hc (Extends.refl _ _)

omit [DecidableEq K] in
theorem Map.version_le_back (hs : m.roll.Pairwise fun a b => a.version ≤ b.version)
    {c : LocalCommit K V} (hc : c ∈ m.roll) : c.version ≤ m.back.version :=
  hs.rel_getLast_of_rel_getLast_getLast hc le_rfl

/-- A state appended past every version of the roll, stamped from the current one. -/
theorem RollOk.push (h : RollOk m) {c : LocalCommit K V} (hv : ∀ d ∈ m.roll, d.version < c.version)
    (hs : Stamps c.version m.back.state c.state) (h0 : 0 ≤ c.version) : RollOk (m.push c) := by
  have hback : m.back ∈ m.roll := List.getLast_mem _
  have hroll : (m.push c).roll = m.roll ++ [c] := rfl
  refine ⟨fun d hd => ?_, ?_⟩
  · rw [hroll] at hd
    rcases List.mem_append.mp hd with hd | hd
    · exact h.stamped d hd
    · rw [List.mem_singleton.mp hd]
      exact (h.stamped _ hback).stamps hs (hv _ hback).le h0
  · rw [hroll, List.pairwise_append]
    refine ⟨h.chained, List.pairwise_singleton _ _, fun d hd e he => ?_⟩
    rw [List.mem_singleton.mp he]
    exact (h.extends_back hd).stamps hs (hv d hd)

variable [Inhabited V]

/-- `TxView::commit` leaves the map, or appends the state its writes make of the current one. -/
theorem TxView.commit_map (view : TxView K V) (w : Version) (m : Map K V) :
    (view.commit w m).2 = m ∨
      ∃ c, (view.commit w m).2 = m.push c ∧ c.version = w ∧ Stamps w m.back.state c.state := by
  unfold TxView.commit
  split
  · exact .inl rfl
  dsimp only
  split
  · exact .inr ⟨_, rfl, rfl, Stamps.of_applyLookup fun k =>
      applyWrites_lookup w _ _ _ view.writes.nodupKeys k⟩
  · exact .inl rfl

theorem TxView.commit_rollOk (view : TxView K V) {w : Version} (h : RollOk m)
    (hv : ∀ d ∈ m.roll, d.version < w) (h0 : 0 ≤ w) : RollOk (view.commit w m).2 := by
  rcases TxView.commit_map view w m with hm | ⟨c, hm, hc, hs⟩
  · rw [hm]
    exact h
  · rw [hm]
    subst hc
    exact h.push hv hs h0

omit [DecidableEq K] [Inhabited V] in
/-- Without a global hook, compaction keeps the current state and a part of the roll. -/
theorem Map.compact_back (hh : m.globalHook = false) {v : Version} (hf : m.front.version ≤ v) :
    (m.compact v).back = m.back ∧ (m.compact v).roll.Sublist m.roll := by
  obtain ⟨pre, hpre, -⟩ := Map.compactRoll_suffix v m.roll fun _ => hf
  have hroll : (m.compact v).roll = (Map.compactRoll false v m.roll).1 := by
    rw [← hh]
    rfl
  have hsplit : m.roll = pre ++ (m.compact v).roll := hroll ▸ hpre
  refine ⟨?_, hsplit ▸ List.sublist_append_right pre _⟩
  -- the roll ends with the part kept
  have hlast : ∀ (l : List (LocalCommit K V)) (hl : l ≠ []), l = pre ++ (m.compact v).roll →
      l.getLast hl = (m.compact v).roll.getLast (m.compact v).roll_ne := by
    rintro l hl rfl
    exact List.getLast_append_right _
  exact (hlast m.roll m.roll_ne hsplit).symm

end Roll

/-! ## Views -/

section Views

variable [DecidableEq K] [Inhabited V] {s s' : Store K V C} {view view' : TxView K V}

/-- What the validation reads of a view besides its reads: its map, the counter it saw, and its
snapshot with the snapshot's version. -/
def TxView.base (view : TxView K V) : String × Nat × Version × State K V :=
  (view.map, view.rollbackCounter, view.startVersion, view.state)

/-- A write a view can hold: a put, stamped 0, or a removal of a key its snapshot has. -/
def WriteOk (S : State K V) (k : K) (w : VersionV V) : Prop :=
  w.version = 0 ∨ (w = ⟨NoVersion, default⟩ ∧ k ∈ S)

-- Made here once: the equation lemmas that the proofs below unfold.
section
attribute [local simp] TxView.base
end

/-- A view's record of its snapshot: the snapshot is stamped at or before the view's version,
each key was read from it, an iteration depends on exactly that version, and each write is
one a view can hold. -/
structure ViewOk (view : TxView K V) : Prop where
  stamped : Stamped view.startVersion view.state
  reads : ∀ k ver, view.reads.lookup k = some ver → ver = seenVersion view.state k
  readVersion : view.readVersion = NoVersion ∨ view.readVersion = view.startVersion
  writes : ∀ k w, view.writes.lookup k = some w → WriteOk view.state k w

section WriteOk

variable {S : State K V} {ws : Write K V}

theorem WriteOk.insert (h : ∀ k w, ws.lookup k = some w → WriteOk S k w) {key : K}
    {w' : VersionV V} (hw : WriteOk S key w') :
    ∀ k w, (ws.insert key w').lookup k = some w → WriteOk S k w := by
  intro k w hk
  by_cases hkey : k = key
  · subst hkey
    rw [AList.lookup_insert] at hk
    cases hk
    exact hw
  · rw [AList.lookup_insert_ne hkey] at hk
    exact h k w hk

theorem WriteOk.replace (h : ∀ k w, ws.lookup k = some w → WriteOk S k w) {key : K}
    {w' : VersionV V} (hw : WriteOk S key w') :
    ∀ k w, (ws.replace key w').lookup k = some w → WriteOk S k w := by
  intro k w hk
  rw [AList.lookup_replace] at hk
  split at hk
  · next hkey =>
    obtain ⟨-, -, rfl⟩ := Option.map_eq_some_iff.mp hk
    exact hkey ▸ hw
  · exact h k w hk

theorem WriteOk.erase (h : ∀ k w, ws.lookup k = some w → WriteOk S k w) (key : K) :
    ∀ k w, (ws.erase key).lookup k = some w → WriteOk S k w := by
  intro k w hk
  by_cases hkey : k = key
  · subst hkey
    rw [AList.lookup_erase] at hk
    cases hk
  · rw [AList.lookup_erase_ne hkey] at hk
    exact h k w hk

end WriteOk

/-- While the map of a view has counted no rollback since the view was created, the map's
current state extends the view's snapshot. -/
structure Tracks (s : Store K V C) (view : TxView K V) : Prop where
  counter_le : ∀ m, s.find view.map = some m → view.rollbackCounter ≤ m.rollbackCounter
  current : ∀ m, s.find view.map = some m → view.rollbackCounter = m.rollbackCounter →
    view.startVersion ≤ m.back.version ∧ Extends view.startVersion view.state m.back.state

omit [Inhabited V] in
theorem Tracks.congr (h : Tracks s view) (hb : view'.base = view.base) : Tracks s view' := by
  simp only [TxView.base, Prod.mk.injEq] at hb
  obtain ⟨hmap, hc, hv, hst⟩ := hb
  refine ⟨fun m hm => ?_, fun m hm hcm => ?_⟩
  · rw [hmap] at hm
    rw [hc]
    exact h.counter_le m hm
  · rw [hmap] at hm
    rw [hc] at hcm
    rw [hv, hst]
    exact h.current m hm hcm

omit [Inhabited V] in
/-- `get` records the version its snapshot has for the key; `unordered_map::insert` keeps the
first record. -/
theorem recordRead_ok {S : State K V} {reads : Read K}
    (h : ∀ k ver, reads.lookup k = some ver → ver = seenVersion S k) (key : K) :
    ∀ k ver, (TxView.recordRead reads key (seenVersion S key)).lookup k = some ver →
      ver = seenVersion S k := by
  intro k ver hk
  unfold TxView.recordRead at hk
  split at hk
  · exact h k ver hk
  · by_cases hkey : k = key
    · subst hkey
      rw [AList.lookup_insert] at hk
      cases hk
      rfl
    · rw [AList.lookup_insert_ne hkey] at hk
      exact h k ver hk

theorem TxView.get_ok (h : ViewOk view) (key : K) :
    ViewOk (view.get key).2 ∧ (view.get key).2.base = view.base := by
  unfold TxView.get
  split
  · exact ⟨h, rfl⟩
  split
  · exact ⟨h, rfl⟩
  split
  · next hnone =>
    have hseen : seenVersion view.state key = NoVersion := by simp [seenVersion, hnone]
    refine ⟨⟨h.stamped, ?_, h.readVersion, h.writes⟩, rfl⟩
    rw [← hseen]
    exact recordRead_ok h.reads key
  · next found hfound =>
    have hseen : seenVersion view.state key = found.version := by simp [seenVersion, hfound]
    refine ⟨⟨h.stamped, ?_, h.readVersion, h.writes⟩, rfl⟩
    rw [← hseen]
    exact recordRead_ok h.reads key

theorem TxView.put_ok (h : ViewOk view) (key : K) (value : V) :
    ViewOk (view.put key value).2 ∧ (view.put key value).2.base = view.base := by
  unfold TxView.put
  split
  · exact ⟨h, rfl⟩
  · exact ⟨⟨h.stamped, h.reads, h.readVersion, WriteOk.insert h.writes (.inl rfl)⟩, rfl⟩

/-- `remove` records a removal only of a key its snapshot has. -/
theorem TxView.remove_ok (h : ViewOk view) (key : K) :
    ViewOk (view.remove key).2 ∧ (view.remove key).2.base = view.base := by
  have hw : ∀ ws : Write K V, (∀ k w, ws.lookup k = some w → WriteOk view.state k w) →
      ViewOk { view with writes := ws } :=
    fun _ hws => ⟨h.stamped, h.reads, h.readVersion, hws⟩
  -- the key is in the snapshot when the search finds it
  have hmem : ¬(!(view.state.lookup key).isSome) = true → key ∈ view.state := fun hs =>
    AList.lookup_isSome.mp (Option.isSome_iff_ne_none.mpr (by simpa using hs))
  unfold TxView.remove
  split
  · exact ⟨h, rfl⟩
  dsimp only
  split
  · split
    · exact ⟨hw _ (WriteOk.erase h.writes key), rfl⟩
    · next hs => exact ⟨hw _ (WriteOk.replace h.writes (.inr ⟨rfl, hmem hs⟩)), rfl⟩
  split
  · exact ⟨h, rfl⟩
  · next hs => exact ⟨hw _ (WriteOk.insert h.writes (.inr ⟨rfl, hmem hs⟩)), rfl⟩

/-- `foreach` makes the view depend on its snapshot's version. -/
theorem TxView.foreach_ok (h : ViewOk view) (f : K → V → Bool) :
    ViewOk (view.foreach f).2.2 ∧ (view.foreach f).2.2.base = view.base := by
  unfold TxView.foreach
  split
  · exact ⟨h, rfl⟩
  · exact ⟨⟨h.stamped, h.reads, .inr rfl, h.writes⟩, rfl⟩

theorem TxView.commit_ok (h : ViewOk view) (v : Version) (m : Map K V) :
    ViewOk (view.commit v m).1 ∧ (view.commit v m).1.base = view.base := by
  unfold TxView.commit
  split
  · exact ⟨⟨h.stamped, h.reads, h.readVersion, h.writes⟩, rfl⟩
  dsimp only
  split
  · exact ⟨⟨h.stamped, h.reads, h.readVersion, h.writes⟩, rfl⟩
  · exact ⟨⟨h.stamped, h.reads, h.readVersion, h.writes⟩, rfl⟩

/-- A view created now: its snapshot is a state of the roll, which the current state extends. -/
theorem Map.createView_ok {m : Map K V} (hr : RollOk m)
    (hs : m.roll.Pairwise fun a b => a.version ≤ b.version) (hm : s.find m.name = some m)
    (rv : Version) : ViewOk (m.createView rv) ∧ Tracks s (m.createView rv) := by
  -- the state `create_view` picks is one of the roll
  obtain ⟨c, hc, hstate, hver⟩ : ∃ c ∈ m.roll, (m.createView rv).state = c.state ∧
      (m.createView rv).startVersion = c.version := by
    unfold Map.createView
    cases hfind : m.roll.reverse.find? fun c => decide (c.version ≤ rv) with
    | none => exact ⟨m.front, List.head_mem _, rfl, rfl⟩
    | some c => exact ⟨c, List.mem_reverse.mp (List.mem_of_find?_eq_some hfind), rfl, rfl⟩
  have hmap : (m.createView rv).map = m.name := rfl
  have hcount : (m.createView rv).rollbackCounter = m.rollbackCounter := rfl
  refine ⟨⟨hstate ▸ hver ▸ hr.stamped c hc, fun k ver hk => ?_, .inl rfl, fun k w hk => ?_⟩,
    ⟨?_, ?_⟩⟩
  · -- nothing is read or written yet
    simp [Map.createView] at hk
  · simp [Map.createView] at hk
  · intro m' hm'
    rw [hmap, hm] at hm'
    cases hm'
    exact hcount.le
  · intro m' hm' _
    rw [hmap, hm] at hm'
    cases hm'
    rw [hstate, hver]
    exact ⟨Map.version_le_back hs hc, hr.extends_back hc⟩

/-- How a step moves a map: it counts at least the rollbacks it counted, and unless it counts
one more, it keeps the current state or appends one past it, stamped from it. -/
def Moves (m m' : Map K V) : Prop :=
  m.rollbackCounter ≤ m'.rollbackCounter ∧
    (m'.rollbackCounter = m.rollbackCounter →
      m'.back = m.back ∨
        m.back.version < m'.back.version ∧ Stamps m'.back.version m.back.state m'.back.state)

omit [Inhabited V] in
theorem Moves.refl (m : Map K V) : Moves m m := ⟨le_rfl, fun _ => .inl rfl⟩

variable {f : Map K V → Map K V}

omit [Inhabited V] in
theorem Tracks.move (h : Tracks s view) (hfind : ∀ n, s'.find n = (s.find n).map f)
    (hmove : ∀ m ∈ s.maps, Moves m (f m)) : Tracks s' view := by
  -- the map found now is the move of the one found before
  have hpre : ∀ m', s'.find view.map = some m' →
      ∃ m, s.find view.map = some m ∧ f m = m' ∧ Moves m m' := by
    intro m' hm'
    rw [hfind] at hm'
    obtain ⟨m, hm, rfl⟩ := Option.map_eq_some_iff.mp hm'
    exact ⟨m, hm, rfl, hmove m (Store.find_spec hm).1⟩
  refine ⟨fun m' hm' => ?_, fun m' hm' hc => ?_⟩
  · obtain ⟨m, hm, -, hmv⟩ := hpre m' hm'
    exact (h.counter_le m hm).trans hmv.1
  · obtain ⟨m, hm, -, hmv⟩ := hpre m' hm'
    have hle := h.counter_le m hm
    have hsame : m'.rollbackCounter = m.rollbackCounter := by
      have := hmv.1
      omega
    obtain ⟨hsv, hext⟩ := h.current m hm (by omega)
    rcases hmv.2 hsame with hback | ⟨hlt, hst⟩
    · rw [hback]
      exact ⟨hsv, hext⟩
    · exact ⟨hsv.trans hlt.le, hext.stamps hst (lt_of_le_of_lt hsv hlt)⟩

end Views

/-! ## Transactions -/

section Txs

variable [DecidableEq K] [Inhabited V] {s s' : Store K V C} {tx tx' : Tx K V}

/-- Every view of a transaction is filed under its map, once, keeps its record, and tracks its
map in the store. -/
structure TxOk (s : Store K V C) (tx : Tx K V) : Prop where
  shape : ViewsShape tx.viewList
  views : ∀ p ∈ tx.viewList, ViewOk p.2 ∧ Tracks s p.2

theorem TxOk.new : TxOk s (Tx.new : Tx K V) :=
  ⟨⟨List.nodup_nil, fun _ h => by cases h⟩, fun _ h => by cases h⟩

theorem TxOk.of_viewList (h : TxOk s tx) (hv : tx'.viewList = tx.viewList) : TxOk s tx' :=
  ⟨hv ▸ h.shape, hv ▸ h.views⟩

theorem TxOk.move {f : Map K V → Map K V} (h : TxOk s tx)
    (hfind : ∀ n, s'.find n = (s.find n).map f) (hmove : ∀ m ∈ s.maps, Moves m (f m)) :
    TxOk s' tx :=
  ⟨h.shape, fun p hp => ⟨(h.views p hp).1, (h.views p hp).2.move hfind hmove⟩⟩

omit [DecidableEq K] [Inhabited V] in
theorem setView_keys (name : String) (view : TxView K V) (l : List (String × TxView K V)) :
    (setView name view l).map (·.1) = l.map (·.1) := by
  simp only [setView, List.map_map]
  congr 1
  funext p
  simp only [Function.comp_apply]
  split <;> simp_all

/-- An operation of one view that keeps its record and its base. -/
theorem TxOk.onView {α : Type} (h : TxOk s tx) (name : String) (none_ : α)
    (op : TxView K V → α × TxView K V) (hop : ∀ v, ViewOk v → ViewOk (op v).2 ∧ (op v).2.base = v.base) :
    TxOk s (tx.onView name none_ op).2 := by
  unfold Tx.onView
  split
  · exact h
  · next view hv =>
    have hmem := lookup_mem hv
    obtain ⟨hok, hb⟩ := hop view (h.views _ hmem).1
    have hmap : (op view).2.map = name := by
      have := congrArg (·.1) hb
      simp only [TxView.base] at this
      rw [this]
      exact h.shape.map _ hmem
    refine ⟨⟨?_, fun p hp => ?_⟩, fun p hp => ?_⟩
    · rw [setView_keys]
      exact h.shape.nodup
    · rcases mem_setView hp with hp | rfl
      · exact h.shape.map p hp
      · exact hmap
    · rcases mem_setView hp with hp | rfl
      · exact h.views p hp
      · exact ⟨hok, (h.views _ hmem).2.congr hb⟩

omit [DecidableEq K] [Inhabited V] in
theorem not_mem_keys_of_lookup {name : String} :
    ∀ {l : List (String × TxView K V)}, l.lookup name = none → name ∉ l.map (·.1)
  | [], _ => by simp
  | (k, w) :: l, h => by
      rw [List.lookup_cons] at h
      cases hk : name == k with
      | true =>
          rw [hk] at h
          cases h
      | false =>
          rw [hk] at h
          have hne : name ≠ k := by simpa using hk
          simp only [List.map_cons, List.mem_cons, not_or]
          exact ⟨hne, not_mem_keys_of_lookup h⟩

omit [DecidableEq K] [Inhabited V] in
/-- A view filed under a name the views lack, over the map of that name. -/
theorem ViewsShape.insertView {views : List (String × TxView K V)} {name : String}
    {view : TxView K V} (h : ViewsShape views) (hl : views.lookup name = none)
    (hmap : view.map = name) : ViewsShape (Kv.insertView name view views) := by
  refine ⟨?_, fun p hp => ?_⟩
  · have hperm := (List.perm_orderedInsert (fun a b : String × TxView K V => a.1 ≤ b.1)
      (name, view) views).map (·.1)
    rw [Kv.insertView, hperm.nodup_iff, List.map_cons, List.nodup_cons]
    exact ⟨not_mem_keys_of_lookup hl, h.nodup⟩
  · rcases (List.mem_orderedInsert _).mp hp with rfl | hp
    · exact hmap
    · exact h.map p hp

/-- A view filed under a name the transaction has no view of. -/
theorem TxOk.insertView (h : TxOk s tx) {name : String} {view : TxView K V} (rv : Version)
    (hl : tx.viewList.lookup name = none) (hmap : view.map = name) (hv : ViewOk view ∧ Tracks s view) :
    TxOk s { tx with readVersion := rv, viewList := insertView name view tx.viewList } := by
  refine ⟨h.shape.insertView hl hmap, fun p hp => ?_⟩
  · rcases (List.mem_orderedInsert _).mp hp with rfl | hp
    · exact hv
    · exact h.views p hp

theorem TxOk.getView (h : TxOk s tx) {m : Map K V} (hr : RollOk m)
    (hs : m.roll.Pairwise fun a b => a.version ≤ b.version) (hm : s.find m.name = some m) :
    TxOk s (tx.getView s m) := by
  unfold Tx.getView
  split
  · exact h
  · next hv => exact h.insertView _ hv rfl (Map.createView_ok hr hs hm _)

end Txs

/-! ## Committing -/

section Commit

variable [DecidableEq K] [Inhabited V] {s : Store K V C} {tx : Tx K V}

/-- `Tx::commit(views, f)` returns only when every view passes `prepare`; it then leaves the
store and the views when none writes, and otherwise commits them all at the version `f`
gives. -/
theorem Tx.commitViews_spec {views views' : List (String × TxView K V)} {version : Version}
    {s' : Store K V C} (h : Tx.commitViews s views Store.nextVersion = some (version, s', views')) :
    Tx.prepareAll s views = true ∧
      ((views.any (·.2.hasWrites) = false ∧ s' = s ∧ views' = views) ∨
        (views.any (·.2.hasWrites) = true ∧
          s' = (Tx.commitEach s.nextVersion.1 s.nextVersion.2 views).1 ∧
          views' = (Tx.commitEach s.nextVersion.1 s.nextVersion.2 views).2)) := by
  unfold Tx.commitViews at h
  split at h
  · cases h
  · next hp =>
    refine ⟨by simpa using hp, ?_⟩
    split at h
    · next hw =>
      simp only [Option.some.injEq, Prod.mk.injEq] at h
      obtain ⟨-, rfl, rfl⟩ := h
      exact .inr ⟨hw, rfl, rfl⟩
    · next hw =>
      simp only [Option.some.injEq, Prod.mk.injEq] at h
      obtain ⟨-, rfl, rfl⟩ := h
      exact .inl ⟨by simpa using hw, rfl, rfl⟩

/-- `Tx::commit` leaves the store and the transaction's views as they were, or commits the
views at the next version; this holds when it throws too. -/
theorem Tx.commit_cases (s : Store K V C) (tx : Tx K V) :
    ((Tx.commit (s, tx)).state.1 = s ∧ (Tx.commit (s, tx)).state.2.viewList = tx.viewList) ∨
      ((Tx.commit (s, tx)).state.1 = (Tx.commitEach s.nextVersion.1 s.nextVersion.2 tx.viewList).1 ∧
        (Tx.commit (s, tx)).state.2.viewList =
          (Tx.commitEach s.nextVersion.1 s.nextVersion.2 tx.viewList).2) := by
  apply EStateM.wp_state (P := fun st : Store K V C × Tx K V =>
    (st.1 = s ∧ st.2.viewList = tx.viewList) ∨
      (st.1 = (Tx.commitEach s.nextVersion.1 s.nextVersion.2 tx.viewList).1 ∧
        st.2.viewList = (Tx.commitEach s.nextVersion.1 s.nextVersion.2 tx.viewList).2))
  simp only [Tx.commit, EStateM.wp_bind, EStateM.wp_getState, EStateM.wp_ite, EStateM.wp_throw,
    EStateM.wp_set, EStateM.wp_pure]
  split
  · exact .inl ⟨by trivial, by trivial⟩
  split
  · exact .inl ⟨by trivial, by trivial⟩
  split
  · exact .inl ⟨by trivial, by trivial⟩
  · next version s' views h =>
    -- serialising may throw, after the views committed
    have hc : (s' = s ∧ views = tx.viewList) ∨
        (s' = (Tx.commitEach s.nextVersion.1 s.nextVersion.2 tx.viewList).1 ∧
          views = (Tx.commitEach s.nextVersion.1 s.nextVersion.2 tx.viewList).2) := by
      rcases (Tx.commitViews_spec h).2 with ⟨-, hs, hv⟩ | ⟨-, hs, hv⟩
      · exact .inl ⟨hs, hv⟩
      · exact .inr ⟨hs, hv⟩
    simp only [EStateM.wp_bind, EStateM.wp_set]
    split <;> exact hc

/-- A commit that returns `OK` found every view valid, and if some view writes, committed the
views at the next version. -/
theorem Tx.commit_ok (h : (Tx.commit (s, tx)).value? = some .OK) :
    tx.viewList = [] ∨
      Tx.prepareAll s tx.viewList = true ∧
        (tx.viewList.any (·.2.hasWrites) = true →
          (Tx.commit (s, tx)).state.1 = (Tx.commitEach s.nextVersion.1 s.nextVersion.2 tx.viewList).1) := by
  apply EStateM.state_of_value_eq (P := fun st : Store K V C × Tx K V =>
    tx.viewList = [] ∨ Tx.prepareAll s tx.viewList = true ∧
      (tx.viewList.any (·.2.hasWrites) = true →
        st.1 = (Tx.commitEach s.nextVersion.1 s.nextVersion.2 tx.viewList).1)) _ h
  simp only [Tx.commit, EStateM.wp_bind, EStateM.wp_getState, EStateM.wp_ite, EStateM.wp_throw,
    EStateM.wp_set, EStateM.wp_pure]
  split
  · trivial
  split
  · next he => exact fun _ => .inl (List.isEmpty_iff.mp he)
  split
  · -- a conflict is not `OK`
    intro hc
    cases hc
  · next version s' views hcv =>
    obtain ⟨hp, hcases⟩ := Tx.commitViews_spec hcv
    simp only [EStateM.wp_bind, EStateM.wp_set]
    split
    · trivial
    · refine fun _ => .inr ⟨hp, fun hw => ?_⟩
      rcases hcases with ⟨hw', -, -⟩ | ⟨-, hs, -⟩
      · rw [hw] at hw'
        cases hw'
      · exact hs

omit [Inhabited V] in
/-- A view passes `prepare` with writes only if the map counted no rollback since the view was
created, an iteration's version is the current state's, and every read is still valid. -/
theorem TxView.prepare_spec {view : TxView K V} {m : Map K V} (h : view.prepare m = true)
    (hw : view.writes.entries ≠ []) :
    view.rollbackCounter = m.rollbackCounter ∧
      (view.readVersion ≠ NoVersion → view.readVersion = m.back.version) ∧
      ∀ k ver, view.reads.lookup k = some ver → TxView.readValid m.back.state k ver = true := by
  have hne : view.writes.entries.isEmpty = false := by simpa using hw
  unfold TxView.prepare at h
  simp only [hne, Bool.false_eq_true, if_false] at h
  split at h
  · cases h
  · next hc =>
    split at h
    · cases h
    · next hrv =>
      refine ⟨by simpa using hc, fun hnv => ?_, fun k ver hk => ?_⟩
      · by_contra hne'
        exact hrv ⟨hnv, hne'⟩
      · exact List.all_eq_true.mp h ⟨k, ver⟩ (AList.mem_lookup_iff.mp hk)

omit [DecidableEq K] [Inhabited V] in
theorem Store.find_nextVersion (s : Store K V C) (n : String) :
    s.nextVersion.2.find n = s.find n := rfl

omit [DecidableEq K] [Inhabited V] in
theorem Map.back_of_roll {m m' : Map K V} (h : m'.roll = m.roll) : m'.back = m.back :=
  List.getLast_congr _ _ h

/-- A view's commit at a version past every state of the map moves the map. -/
theorem TxView.commit_moves (view : TxView K V) {w : Version} {m : Map K V}
    (hv : ∀ d ∈ m.roll, d.version < w) : Moves m (view.commit w m).2 := by
  rcases TxView.commit_map view w m with hm | ⟨c, hm, hc, hs⟩
  · rw [hm]
    exact Moves.refl m
  · rw [hm]
    refine ⟨le_rfl, fun _ => .inr ⟨?_, ?_⟩⟩
    · rw [Map.back_push, hc]
      exact hv _ (List.getLast_mem _)
    · rw [Map.back_push, hc]
      exact hs

/-- Every view `Tx::commit` leaves is one it had, committed or not. -/
theorem Tx.commitEach_mem (v : Version) :
    ∀ (views : List (String × TxView K V)) (s : Store K V C), ∀ q ∈ (Tx.commitEach v s views).2,
      ∃ p ∈ views, q.2 = p.2 ∨ ∃ m, q.2 = (p.2.commit v m).1
  | [], _, _, hq => by cases hq
  | (n, view) :: rest, s, q, hq => by
      cases hf : s.find view.map with
      | none =>
          simp only [Tx.commitEach, hf] at hq
          rcases List.mem_cons.mp hq with rfl | hq
          · exact ⟨_, List.mem_cons_self, .inl rfl⟩
          · obtain ⟨p, hp, hpq⟩ := Tx.commitEach_mem v rest s q hq
            exact ⟨p, List.mem_cons_of_mem _ hp, hpq⟩
      | some m =>
          simp only [Tx.commitEach, hf] at hq
          rcases List.mem_cons.mp hq with rfl | hq
          · exact ⟨_, List.mem_cons_self, .inr ⟨m, rfl⟩⟩
          · obtain ⟨p, hp, hpq⟩ := Tx.commitEach_mem v rest _ q hq
            exact ⟨p, List.mem_cons_of_mem _ hp, hpq⟩

omit [DecidableEq K] [Inhabited V] in
/-- Lists of views with the same frames are filed alike. -/
theorem ViewsShape.of_frames {l l' : List (String × TxView K V)} (h : ViewsShape l)
    (hf : frames l' = frames l) : ViewsShape l' := by
  have hkeys : l'.map (·.1) = l.map (·.1) := by
    have := congrArg (List.map (·.1)) hf
    simpa [frames, List.map_map, Function.comp_def] using this
  refine ⟨hkeys ▸ h.nodup, fun p hp => ?_⟩
  have hmem : (p.1, p.2.frame) ∈ frames l := hf ▸ List.mem_map_of_mem hp
  obtain ⟨q, hq, hpq⟩ := List.mem_map.mp hmem
  simp only [Prod.mk.injEq, TxView.frame] at hpq
  rw [← hpq.2.1, ← hpq.1]
  exact h.map q hq

end Commit

/-! ## The invariant of the system -/

section Serial

variable [DecidableEq K] [Inhabited V] {sys sys' : Sys K V C}

/-- Every map's states form one line of history, and every transaction's views are filed,
recorded and tracked. -/
structure Serial (sys : Sys K V C) : Prop where
  rolls : ∀ m ∈ sys.store.maps, RollOk m
  txs : ∀ t, TxOk sys.store (sys.txs t)

theorem Serial.init {s₀ : Store K V C} (h : ∀ m ∈ s₀.maps, RollOk m) : Serial (Sys.init s₀) :=
  ⟨h, fun _ => TxOk.new⟩

/-- A step that changes one transaction and keeps the store. -/
theorem Serial.update (h : Serial sys) (t : Nat) (tx : Tx K V) (htx : TxOk sys.store tx) :
    Serial (sys.update sys.store t tx) := by
  refine ⟨h.rolls, fun t' => ?_⟩
  show TxOk sys.store (Function.update sys.txs t tx t')
  by_cases ht : t' = t
  · rw [ht, Function.update_self]
    exact htx
  · rw [Function.update_of_ne ht]
    exact h.txs t'

omit [Inhabited V] in
/-- The maps of a store that moved each map `m` of the old one to `f m`. -/
theorem rolls_move {s s' : Store K V C} {f : Map K V → Map K V}
    (hfind : ∀ n, s'.find n = (s.find n).map f) (hr : ∀ m ∈ s.maps, RollOk (f m)) :
    ∀ m' ∈ s'.maps, RollOk m' := by
  intro m' hm'
  have hf := hfind m'.name
  rw [Store.find_of_mem hm'] at hf
  obtain ⟨m, hm, hfm⟩ := Option.map_eq_some_iff.mp hf.symm
  rw [← hfm]
  exact hr m (Store.find_spec hm).1

/-- Compaction at a version no earlier than the compacted one keeps the current states. -/
theorem Serial.compact (hi : Inv sys) (h : Serial sys) {v : Version}
    (hen : sys.store.commitVersion ≤ v) : Serial (sys.apply (.compact v)) := by
  simp only [Sys.apply]
  by_cases hv : v ≤ sys.store.version
  · obtain ⟨hmaps, -, -⟩ := Store.compact_of_le hv
    have hfind : ∀ n, (sys.store.compact v).find n = (sys.store.find n).map (·.compact v) :=
      fun n => Store.find_of_maps (fun _ => rfl) hmaps
    -- without a global hook, each map keeps its current state and a part of its roll
    have hback : ∀ m ∈ sys.store.maps,
        (m.compact v).back = m.back ∧ (m.compact v).roll.Sublist m.roll := fun m hm =>
      Map.compact_back (hi.maps m hm).noHook ((hi.maps m hm).front_le.trans hen)
    refine ⟨rolls_move hfind fun m hm => (h.rolls m hm).sublist (hback m hm).2, fun t => ?_⟩
    exact (h.txs t).move hfind fun m hm => ⟨le_rfl, fun _ => .inl (hback m hm).1⟩
  · have hs : sys.store.compact v = sys.store := by
      unfold Store.compact
      split
      · rfl
      · next hle => exact absurd (not_lt.mp hle) hv
    rw [hs]
    exact ⟨h.rolls, h.txs⟩

/-- A rollback either drops no state of a map, or counts one more rollback of it. -/
theorem Serial.rollback (hi : Inv sys) (h : Serial sys) (v : Version) :
    Serial (sys.apply (.rollback v)) := by
  simp only [Sys.apply]
  by_cases hv : sys.store.compacted ≤ v ∧ v < sys.store.version
  · obtain ⟨hmaps, -, -⟩ := Store.rollback_of_lt hv.1 hv.2
    have hfind : ∀ n, (sys.store.rollback v).find n = (sys.store.find n).map (·.rollback v) :=
      fun n => Store.find_of_maps (fun _ => rfl) hmaps
    have hsplit := fun m (hm : m ∈ sys.store.maps) =>
      Map.rollback_split m v (hi.maps m hm).sorted ((hi.maps m hm).front_le.trans hv.1)
    refine ⟨rolls_move hfind fun m hm => ?_, fun t => (h.txs t).move hfind fun m hm => ?_⟩
    · obtain ⟨lo, hi', hroll, -, -, -, hroll', -⟩ := hsplit m hm
      exact (h.rolls m hm).sublist (hroll' ▸ hroll ▸ List.sublist_append_left lo hi')
    · obtain ⟨lo, hi', hroll, -, -, -, hroll', hcount⟩ := hsplit m hm
      by_cases hnil : hi' = []
      · -- nothing dropped: the roll is as it was
        rw [if_pos hnil] at hcount
        have hsame : (m.rollback v).roll = m.roll := by rw [hroll', hroll, hnil, List.append_nil]
        exact ⟨hcount.ge, fun _ => .inl (Map.back_of_roll hsame)⟩
      · rw [if_neg hnil] at hcount
        refine ⟨by omega, fun hc => ?_⟩
        omega
  · have hs : sys.store.rollback v = sys.store := by
      unfold Store.rollback
      split
      · rfl
      split
      · rfl
      · next hge hlt => exact absurd ⟨not_lt.mp hlt, not_le.mp hge⟩ hv
    rw [hs]
    exact ⟨h.rolls, h.txs⟩

/-- A commit at the next version moves each map it writes, past all of its states. -/
theorem Serial.commit (hi : Inv sys) (h : Serial sys) (t : Nat) :
    Serial (sys.apply (.commit t)) := by
  simp only [Sys.apply]
  rcases Tx.commit_cases sys.store (sys.txs t) with ⟨hs, hv⟩ | ⟨hs, hv⟩
  · rw [hs]
    exact h.update t _ ((h.txs t).of_viewList hv)
  · set views := (sys.txs t).viewList
    set w := sys.store.nextVersion.1
    have hshape := (h.txs t).shape
    -- the next version is past every state of every map
    have hpast : ∀ m ∈ sys.store.maps, ∀ d ∈ m.roll, d.version < w := by
      intro m hm d hd
      have hw : w = sys.store.version + 1 := by
        simp only [w, Store.nextVersion_of_nonneg (hi.compacted_nonneg.trans hi.compacted_le)]
      rw [hw]
      exact Int.lt_add_one_iff.mpr ((hi.maps m hm).le_version d hd)
    have hw0 : 0 ≤ w := by
      simp only [w, Store.nextVersion_of_nonneg (hi.compacted_nonneg.trans hi.compacted_le)]
      exact Int.le_add_one (hi.compacted_nonneg.trans hi.compacted_le)
    -- each map moves by the view of it, if the transaction has one
    let f : Map K V → Map K V := fun m =>
      ((views.lookup m.name).map fun view => (view.commit w m).2).getD m
    have hfind : ∀ n, (Tx.commitEach w sys.store.nextVersion.2 views).1.find n =
        (sys.store.find n).map f := by
      intro n
      rw [Tx.commitEach_find w views _ hshape n, Store.find_nextVersion]
      cases hf : sys.store.find n with
      | none => rfl
      | some m =>
          obtain ⟨-, rfl⟩ := Store.find_spec hf
          simp only [f, Option.map_some]
          cases views.lookup m.name <;> rfl
    have hmove : ∀ m ∈ sys.store.maps, Moves m (f m) ∧ RollOk (f m) := by
      intro m hm
      show Moves m (((views.lookup m.name).map fun view => (view.commit w m).2).getD m) ∧
        RollOk (((views.lookup m.name).map fun view => (view.commit w m).2).getD m)
      cases views.lookup m.name with
      | none => exact ⟨Moves.refl m, h.rolls m hm⟩
      | some view =>
          exact ⟨TxView.commit_moves view (hpast m hm),
            TxView.commit_rollOk view (h.rolls m hm) (hpast m hm) hw0⟩
    rw [hs]
    refine ⟨rolls_move hfind fun m hm => (hmove m hm).2, fun t' => ?_⟩
    show TxOk _ (Function.update sys.txs t _ t')
    by_cases ht : t' = t
    · -- the committing transaction: its views, committed, track the moved maps
      rw [ht, Function.update_self]
      refine ⟨?_, fun q hq => ?_⟩
      · rw [hv]
        exact hshape.of_frames (Tx.commitEach_grows w views _).2
      · rw [hv] at hq
        obtain ⟨p, hp, hpq⟩ := Tx.commitEach_mem w views _ q hq
        obtain ⟨hok, htr⟩ := (h.txs t).views p hp
        have htr' := htr.move hfind fun m hm => (hmove m hm).1
        rcases hpq with hpq | ⟨m, hpq⟩
        · rw [hpq]
          exact ⟨hok, htr'⟩
        · obtain ⟨hok', hb⟩ := TxView.commit_ok hok w m
          rw [hpq]
          exact ⟨hok', htr'.congr hb⟩
    · rw [Function.update_of_ne ht]
      exact (h.txs t').move hfind fun m hm => (hmove m hm).1

/-- Every call keeps the invariant. -/
theorem Serial.step (hi : Inv sys) (h : Serial sys) (hs : Sys.Step sys sys') : Serial sys' := by
  obtain ⟨op, hen, rfl⟩ := hs
  cases op with
  | getView t name =>
      simp only [Sys.apply]
      split
      · exact h
      · next m hm =>
        obtain ⟨hmem, hname⟩ := Store.find_spec hm
        exact h.update t _ ((h.txs t).getView (h.rolls m hmem) (hi.maps m hmem).sorted (hname ▸ hm))
  | get t name key =>
      exact h.update t _ ((h.txs t).onView _ _ _ fun v hv => TxView.get_ok hv key)
  | put t name key value =>
      exact h.update t _ ((h.txs t).onView _ _ _ fun v hv => TxView.put_ok hv key value)
  | remove t name key =>
      exact h.update t _ ((h.txs t).onView _ _ _ fun v hv => TxView.remove_ok hv key)
  | foreach t name f =>
      exact h.update t _ ((h.txs t).onView _ _ _ fun v hv => TxView.foreach_ok hv f)
  | commit t => exact h.commit hi t
  | compact v => exact h.compact hi hen
  | rollback v => exact h.rollback hi v

/-- **The invariant holds in every reachable state** of a store that starts fresh, without
global hooks, with each map's states one line of history. -/
theorem Serial.reachable {s₀ : Store K V C} (h₀ : Fresh s₀)
    (hh : ∀ m ∈ s₀.maps, m.globalHook = false) (hr₀ : ∀ m ∈ s₀.maps, RollOk m)
    (hr : Sys.Reachable s₀ sys) : Serial sys :=
  Run.Reachable.invariant Serial (fun _ hi => hi ▸ Serial.init hr₀)
    (fun _ _ hrs hS hst => hS.step (Inv.reachable h₀ hh hrs) hst) hr

end Serial

/-! ## What a committed transaction read -/

section Committed

variable [DecidableEq K] [Inhabited V]

/-- **A transaction that commits `OK` read the current state of each map it writes.** Anywhere
in a run from a fresh store whose maps have no global hook and start as one line of history,
when `Tx::commit` returns `OK`, each view with writes is of a map the store has, and: every key
the view read from its snapshot has in the map's current state the entry it read; after a
`foreach`, the current state is the snapshot; and the commit leaves the map with the view's
writes applied to the current state at the next version. -/
theorem committed_reads_current {s₀ : Store K V C} (h₀ : Fresh s₀)
    (hh : ∀ m ∈ s₀.maps, m.globalHook = false) (hr₀ : ∀ m ∈ s₀.maps, RollOk m)
    {sys : Sys K V C} (hr : Sys.Reachable s₀ sys) (t : Nat)
    (hok : (Tx.commit (sys.store, sys.txs t)).value? = some .OK) {n : String}
    {view : TxView K V} (hv : (sys.txs t).view? n = some view) (hw : view.writes.entries ≠ []) :
    ∃ m m', sys.store.find n = some m ∧ (Tx.commit (sys.store, sys.txs t)).state.1.find n = some m' ∧
      (∀ k ver, view.reads.lookup k = some ver → m.back.state.lookup k = view.state.lookup k) ∧
      (view.readVersion ≠ NoVersion → ∀ k, m.back.state.lookup k = view.state.lookup k) ∧
      ∀ k, m'.back.state.lookup k =
        applyLookup (sys.store.currentVersion + 1) view.writes m.back.state k := by
  have hi := Inv.reachable h₀ hh hr
  have hS := Serial.reachable h₀ hh hr₀ hr
  have hl : (sys.txs t).viewList.lookup n = some view := hv
  have hmem : (n, view) ∈ (sys.txs t).viewList := lookup_mem hl
  have hmap : view.map = n := (hS.txs t).shape.map _ hmem
  obtain ⟨hrec, htr⟩ := (hS.txs t).views _ hmem
  -- `OK`: every view passed `prepare`, and, one of them writing, all were committed
  obtain ⟨hprep, hcommitted⟩ := (Tx.commit_ok hok).resolve_left (List.ne_nil_of_mem hmem)
  obtain ⟨m, hm, hpm⟩ : ∃ m, sys.store.find n = some m ∧ view.prepare m = true := by
    have hall := List.all_eq_true.mp hprep _ hmem
    cases hf : sys.store.find n with
    | none =>
        rw [hmap, hf] at hall
        cases hall
    | some m =>
        rw [hmap, hf] at hall
        exact ⟨m, rfl, hall⟩
  obtain ⟨hc, hrv, hreads⟩ := TxView.prepare_spec hpm hw
  obtain ⟨hsv, hext⟩ := htr.current m (hmap ▸ hm) hc
  have hwrites : (sys.txs t).viewList.any (·.2.hasWrites) = true :=
    List.any_eq_true.mpr ⟨_, hmem, by simp [TxView.hasWrites, hw]⟩
  have hnext : sys.store.nextVersion.1 = sys.store.currentVersion + 1 := by
    rw [Store.nextVersion_of_nonneg (hi.compacted_nonneg.trans hi.compacted_le)]
    rfl
  refine ⟨m, (view.commit (sys.store.currentVersion + 1) m).2, hm, ?_, fun k ver hk => ?_,
    fun hne k => ?_, TxView.commit_back view _ m⟩
  · rw [hcommitted hwrites, Tx.commitEach_find _ _ _ (hS.txs t).shape n, Store.find_nextVersion,
      hm, Option.map_some, hl, hnext]
  · -- a key read is still at the version read, so at the entry read
    exact hext.read hrec.stamped (by rw [← hrec.reads k ver hk]; exact hreads k ver hk)
  · -- an iteration pins the current state to the snapshot's version
    have hsame : view.startVersion = m.back.version := by
      rcases hrec.readVersion with h | h
      · exact absurd h hne
      · rw [← h]
        exact hrv hne
    have hstamped : Stamped view.startVersion m.back.state := by
      rw [hsame]
      exact (hS.rolls m (Store.find_spec hm).1).stamped _ (List.getLast_mem _)
    exact hext.lookup_eq hstamped k

/-- Transaction 1 reads key 0 of `A`, finding nothing, and writes 1 there. -/
def readThenWrite : List (Op Nat Nat) := [.getView 1 "A", .get 1 "A" 0, .put 1 "A" 0 1]

/-- Its commit is `OK`, and what it read of `A` is what `A` holds when it commits. -/
theorem committed_reads_current_readThenWrite :
    Fresh twoMaps ∧ (∀ m ∈ twoMaps.maps, m.globalHook = false) ∧
      (∀ m ∈ twoMaps.maps, RollOk m) ∧
      Sys.Reachable twoMaps ((Sys.init twoMaps).afterOps readThenWrite) ∧
      (Tx.commit (((Sys.init twoMaps).afterOps readThenWrite).store,
        ((Sys.init twoMaps).afterOps readThenWrite).txs 1)).value? = some .OK ∧
      ∃ view, (((Sys.init twoMaps).afterOps readThenWrite).txs 1).view? "A" = some view ∧
        view.writes.entries ≠ [] ∧
        ∃ m m', ((Sys.init twoMaps).afterOps readThenWrite).store.find "A" = some m ∧
          (Tx.commit (((Sys.init twoMaps).afterOps readThenWrite).store,
            ((Sys.init twoMaps).afterOps readThenWrite).txs 1)).state.1.find "A" = some m' ∧
          (∀ k ver, view.reads.lookup k = some ver → m.back.state.lookup k = view.state.lookup k) ∧
          (view.readVersion ≠ NoVersion → ∀ k, m.back.state.lookup k = view.state.lookup k) ∧
          ∀ k, m'.back.state.lookup k = applyLookup
            (((Sys.init twoMaps).afterOps readThenWrite).store.currentVersion + 1) view.writes
            m.back.state k := by
  have hf : Fresh twoMaps := ⟨by decide, rfl, le_rfl⟩
  have hh : ∀ m ∈ twoMaps.maps, m.globalHook = false := by decide
  have hr₀ : ∀ m ∈ twoMaps.maps, RollOk m := by
    intro m hm
    simp only [twoMaps, List.mem_cons, List.not_mem_nil, or_false] at hm
    rcases hm with rfl | rfl <;> exact RollOk.new _ _ _
  have hr : Sys.Reachable twoMaps ((Sys.init twoMaps).afterOps readThenWrite) :=
    Sys.Reachable.afterOps (Run.Reachable.of_init rfl) ⟨trivial, trivial, trivial, trivial⟩
  have hok : (Tx.commit (((Sys.init twoMaps).afterOps readThenWrite).store,
      ((Sys.init twoMaps).afterOps readThenWrite).txs 1)).value? = some .OK := by decide
  -- the view of `A` has a write
  have hw' : ((((Sys.init twoMaps).afterOps readThenWrite).txs 1).view? "A").map
      (fun v => v.writes.entries.isEmpty) = some false := by decide
  cases hv : (((Sys.init twoMaps).afterOps readThenWrite).txs 1).view? "A" with
  | none =>
      rw [hv] at hw'
      cases hw'
  | some view =>
      rw [hv] at hw'
      have hw : view.writes.entries ≠ [] := by simpa using hw'
      exact ⟨hf, hh, hr₀, hr, hok, view, rfl, hw, committed_reads_current hf hh hr₀ hr 1 hok hv hw⟩

end Committed

end Ccf.Kv
