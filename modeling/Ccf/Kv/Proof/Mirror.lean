import Ccf.Kv.Proof.Wire
import Ccf.Kv.Proof.Replication

/-!
# A backup that applies what the primary replicates keeps up with it

`Tx::commit` on the primary hands the consensus what `serialise` makes of the committed
transaction (`replicated`), and a backup applies it with `Store::deserialise`. A backup equal to
the store by `Store::operator==`, with the same encryptor, is still equal to it after it applies a
transaction the primary committed `OK` (`backup_mirrors_commit`), anywhere in a run of the primary
from a fresh store. The equality holds exactly when the stores are at one version and have maps of
the same names, each with the same current state, its version and entries (`Store.beq_iff`,
`Map.beq_iff`); with the encryptor that is `Mirrors`.

The primary's side rests on invariants of the run. A transaction not yet committed has changed no
map (`Tx.Unapplied`), so a commit that sends something committed writes, at the version after the
store's. Every view is one a transaction can hold and tracks its map (`Serial`), so its writes are
values stamped `0` and removals of keys its snapshot has, which the map's current state still has
when the view passes `prepare`: `serialise` then counts every removal it packs
(`TxView.commit_removalsIn`). So the data packs each map the commit changed, under its name, with
the writes that changed it (`Tx.serialise_packed`), and the commit left each map with exactly those
writes applied (`Tx.commit_ships`).

The backup's side is `Store.deserialise_packed`: each map named is committed by the view read back
for it, whose writes are, key by key, those packed. A commit's effect on a key depends only on that
key's write and its entry before, and whether it records a new state on whether the writes change
something (`TxView.commit_sameBack`), so the two sides agree (`Mirrors.after`).
-/

namespace Ccf.Kv

variable {K V C : Type} [DecidableEq K] [Inhabited V]

/-! ## Only a commit changes a map -/

section Unapplied

variable {view : TxView K V}

/-- A view not yet committed: only `commit` records changes or committed writes. -/
def TxView.Unapplied (view : TxView K V) : Prop :=
  view.changes = false ∧ view.committedWrites = false

omit [Inhabited V] in
theorem TxView.Unapplied.get (h : view.Unapplied) (key : K) : (view.get key).2.Unapplied := by
  unfold TxView.get
  split
  · exact h
  split
  · exact h
  split <;> exact h

omit [Inhabited V] in
theorem TxView.Unapplied.put (h : view.Unapplied) (key : K) (value : V) :
    (view.put key value).2.Unapplied := by
  unfold TxView.put
  split <;> exact h

theorem TxView.Unapplied.remove (h : view.Unapplied) (key : K) : (view.remove key).2.Unapplied := by
  unfold TxView.remove
  split
  · exact h
  dsimp only
  split
  · split <;> exact h
  · split <;> exact h

omit [Inhabited V] in
theorem TxView.Unapplied.foreach (h : view.Unapplied) (f : K → V → Bool) :
    (view.foreach f).2.2.Unapplied := by
  unfold TxView.foreach
  split <;> exact h

/-- A transaction not yet committed has changed no map: `changes` and `committed_writes` are set
only by `commit`. -/
def Tx.Unapplied (tx : Tx K V) : Prop :=
  tx.committed = false → ∀ p ∈ tx.viewList, p.2.Unapplied

omit [DecidableEq K] [Inhabited V] in
theorem Tx.Unapplied.new : (Tx.new : Tx K V).Unapplied := fun _ _ h => by cases h

omit [DecidableEq K] [Inhabited V] in
/-- An operation of one view that keeps it unapplied. -/
theorem Tx.Unapplied.onView {α : Type} {tx : Tx K V} (h : tx.Unapplied) (name : String) (none_ : α)
    (op : TxView K V → α × TxView K V) (hop : ∀ v : TxView K V, v.Unapplied → (op v).2.Unapplied) :
    (tx.onView name none_ op).2.Unapplied := by
  unfold Tx.onView
  split
  · exact h
  · next view hv =>
    intro hc p hp
    rcases mem_setView hp with hp | rfl
    · exact h hc p hp
    · exact hop _ (h hc _ (lookup_mem hv))

omit [DecidableEq K] [Inhabited V] in
/-- `get_view` adds only views just created, which changed nothing. -/
theorem Tx.Unapplied.getView {tx : Tx K V} (h : tx.Unapplied) (s : Store K V C) (m : Map K V) :
    (tx.getView s m).Unapplied := by
  unfold Tx.getView
  split
  · exact h
  · intro hc p hp
    rcases (List.mem_orderedInsert _).mp hp with rfl | hp
    · exact ⟨rfl, rfl⟩
    · exact h hc p hp

/-- `Tx::commit` leaves the transaction committed, whether it returns or throws. -/
theorem Tx.commit_committed (s : Store K V C) (tx : Tx K V) :
    (Tx.commit (s, tx)).state.2.committed = true := by
  apply EStateM.wp_state (P := fun st : Store K V C × Tx K V => st.2.committed = true)
  simp only [Tx.commit, EStateM.wp_bind, EStateM.wp_getState, EStateM.wp_ite, EStateM.wp_throw,
    EStateM.wp_set, EStateM.wp_pure]
  split
  · next hc => simpa using hc
  split
  · trivial
  split
  · trivial
  · simp only [EStateM.wp_bind, EStateM.wp_set]
    split <;> trivial

omit [Inhabited V] in
/-- A step that changes one transaction, to one that changed no map while open. -/
theorem Unapplied.update {sys : Sys K V C} (h : ∀ t, (sys.txs t).Unapplied) (s : Store K V C) (t : Nat)
    {tx : Tx K V} (htx : tx.Unapplied) : ∀ t', ((sys.update s t tx).txs t').Unapplied := by
  intro t'
  show (Function.update sys.txs t tx t').Unapplied
  by_cases ht : t' = t
  · rw [ht, Function.update_self]
    exact htx
  · rw [Function.update_of_ne ht]
    exact h t'

/-- Every call keeps each transaction not yet committed free of changes. -/
theorem Unapplied.step {sys sys' : Sys K V C} (h : ∀ t, (sys.txs t).Unapplied) (hs : Sys.Step sys sys') :
    ∀ t, (sys'.txs t).Unapplied := by
  obtain ⟨op, -, rfl⟩ := hs
  cases op with
  | getView t name =>
      simp only [Sys.apply]
      split
      · exact h
      · exact Unapplied.update h _ t ((h t).getView _ _)
  | get t name key =>
      exact Unapplied.update h _ t ((h t).onView _ _ _ fun _ hv => hv.get key)
  | put t name key value =>
      exact Unapplied.update h _ t ((h t).onView _ _ _ fun _ hv => hv.put key value)
  | remove t name key =>
      exact Unapplied.update h _ t ((h t).onView _ _ _ fun _ hv => hv.remove key)
  | foreach t name f =>
      exact Unapplied.update h _ t ((h t).onView _ _ _ fun _ hv => hv.foreach f)
  | commit t =>
      -- the committed transaction is left committed
      exact Unapplied.update h _ t fun hc => absurd (Tx.commit_committed sys.store (sys.txs t)) (by simp [hc])
  | compact v => exact h
  | rollback v => exact h

/-- In every reachable state, no open transaction has changed a map. -/
theorem Unapplied.reachable {s₀ : Store K V C} {sys : Sys K V C} (hr : Sys.Reachable s₀ sys) :
    ∀ t, (sys.txs t).Unapplied :=
  Run.Reachable.invariant (fun sys : Sys K V C => ∀ t, (sys.txs t).Unapplied)
    (fun _ hi => by
      subst hi
      exact fun _ => Tx.Unapplied.new)
    (fun _ _ _ hS hst => Unapplied.step hS hst) hr

end Unapplied

/-! ## What `serialise` packs -/

section Serialise

/-- The views `serialise` packs in domain `d`, each with its map, in the order of the views. -/
def shipped (s : Store K V C) (d : SecurityDomain) (views : List (String × TxView K V)) :
    List (TxView K V × Map K V) :=
  views.filterMap fun p => ((s.find p.2.map).filter fun m => m.securityDomain = d).map (p.2, ·)

-- Made here once: the equation lemmas that the proofs below unfold.
section
attribute [local simp] shipped
end

omit [Inhabited V] in
/-- `serialise` of a transaction committed with success, a view of which changed its map: the views
of the public maps, then those of the private ones, serialised in turn. -/
theorem Tx.serialise_of_changes {tx : Tx K V} {s : Store K V C} (hc : tx.committed = true)
    (hs : tx.success = true) (hch : tx.viewList.any (·.2.changes) = true) :
    tx.serialise s false =
      ((shipped s .PUBLIC tx.viewList ++ shipped s .PRIVATE tx.viewList).foldlM
        (fun ser vm => vm.1.serialise ser false vm.2) (Serialiser.init s.encryptor tx.version)) >>=
          fun ser => pure (some ser.getRawData) := by
  unfold Tx.serialise
  simp only [hc, hs, hch, Bool.not_true, Bool.false_eq_true, if_false, shipped]
  -- the source's filters, written with `Option.filter`
  congr 4 <;>
  · funext p
    split
    · next m hm =>
      rw [hm]
      cases hd : m.securityDomain <;> simp [hd]
    · next hm =>
      rw [hm]
      rfl

omit [Inhabited V] in
/-- `serialise` of a transaction committed with success, no view of which changed its map, sends
nothing. -/
theorem Tx.serialise_of_unchanged {tx : Tx K V} {s : Store K V C} (hc : tx.committed = true)
    (hs : tx.success = true) (hch : tx.viewList.any (·.2.changes) = false) :
    tx.serialise s false = .ok none := by
  unfold Tx.serialise
  simp only [hc, hs, hch, Bool.not_true, Bool.not_false, Bool.false_eq_true, if_false, if_true]
  rfl

omit [Inhabited V] in
/-- What `serialise` returned: the data of its serialiser after the views of the public maps,
then those of the private ones. -/
theorem Tx.serialise_ok_some {tx : Tx K V} {s : Store K V C} {data : RawTx K V C}
    (h : tx.serialise s false = .ok (some data)) :
    (∃ p ∈ tx.viewList, p.2.changes = true) ∧ ∃ ser : Serialiser K V C,
      (shipped s .PUBLIC tx.viewList ++ shipped s .PRIVATE tx.viewList).foldlM
        (fun ser vm => vm.1.serialise ser false vm.2) (Serialiser.init s.encryptor tx.version) =
          .ok ser ∧ data = ser.getRawData := by
  -- `serialise` throws unless the transaction committed with success, and sends nothing unless a
  -- view changed its map
  have hc : tx.committed = true := by
    cases hc : tx.committed
    · unfold Tx.serialise at h
      simp only [hc, Bool.not_false, if_true] at h
      cases h
    · rfl
  have hs : tx.success = true := by
    cases hs : tx.success
    · unfold Tx.serialise at h
      simp only [hc, hs, Bool.not_false, Bool.not_true, Bool.false_eq_true, if_false, if_true] at h
      cases h
    · rfl
  have hch : tx.viewList.any (·.2.changes) = true := by
    by_contra hch
    rw [Tx.serialise_of_unchanged hc hs (Bool.eq_false_iff.mpr hch)] at h
    cases h
  rw [Tx.serialise_of_changes hc hs hch] at h
  obtain ⟨ser, hfold, hret⟩ := Except.exists_of_bind_eq_ok h
  cases hret
  exact ⟨by simpa using hch, ser, hfold, rfl⟩

omit [DecidableEq K] [Inhabited V] in
/-- A view is shipped in domain `d` with the map of its name, when the store has it there. -/
theorem mem_shipped {s : Store K V C} {d : SecurityDomain} {views : List (String × TxView K V)}
    {x : TxView K V × Map K V} :
    x ∈ shipped s d views ↔
      ∃ p ∈ views, x.1 = p.2 ∧ s.find p.2.map = some x.2 ∧ x.2.securityDomain = d := by
  rw [shipped, List.mem_filterMap]
  constructor
  · rintro ⟨p, hp, hpx⟩
    obtain ⟨m, hm, rfl⟩ := Option.map_eq_some_iff.mp hpx
    obtain ⟨hfind, hd⟩ := Option.filter_eq_some_iff.mp hm
    exact ⟨p, hp, rfl, hfind, by simpa using hd⟩
  · rintro ⟨p, hp, hx, hfind, hd⟩
    refine ⟨p, hp, ?_⟩
    rw [hfind, Option.filter_some, if_pos (by simpa using hd), Option.map_some, ← hx]

omit [DecidableEq K] [Inhabited V] in
/-- A view shipped in either domain is one of the views, with the map of its name. -/
theorem mem_shipped_append {s : Store K V C} {views : List (String × TxView K V)}
    {x : TxView K V × Map K V} (hx : x ∈ shipped s .PUBLIC views ++ shipped s .PRIVATE views) :
    ∃ p ∈ views, x.1 = p.2 ∧ s.find p.2.map = some x.2 := by
  have hx' : ∃ d, x ∈ shipped s d views := (List.mem_append.mp hx).elim (⟨_, ·⟩) (⟨_, ·⟩)
  obtain ⟨d, hx'⟩ := hx'
  obtain ⟨p, hp, hxp, hfx, -⟩ := mem_shipped.mp hx'
  exact ⟨p, hp, hxp, hfx⟩

omit [DecidableEq K] [Inhabited V] in
/-- Each map is shipped in one domain only, and under its own name, so names are not repeated. -/
theorem shipped_nodup {s : Store K V C} {views : List (String × TxView K V)} (hv : ViewsShape views) :
    ((shipped s .PUBLIC views ++ shipped s .PRIVATE views).map (·.2.name)).Nodup := by
  -- a view shipped with its map has the map's name
  have hname : ∀ d, ∀ p ∈ views, ∀ x, (((s.find p.2.map).filter fun m => m.securityDomain = d).map
      (p.2, ·)) = some x → x.2.name = p.1 := by
    intro d p hp x hx
    obtain ⟨m, hm, rfl⟩ := Option.map_eq_some_iff.mp hx
    rw [(Store.find_spec (Option.filter_eq_some_iff.mp hm).1).2]
    exact hv.map p hp
  rw [List.map_append, List.nodup_append]
  refine ⟨List.nodup_map_filterMap (hname _) hv.nodup, List.nodup_map_filterMap (hname _) hv.nodup, ?_⟩
  intro n hn n' hn' he
  obtain ⟨x, hx, rfl⟩ := List.mem_map.mp hn
  obtain ⟨y, hy, rfl⟩ := List.mem_map.mp hn'
  obtain ⟨p, -, -, hfx, hdx⟩ := mem_shipped.mp hx
  obtain ⟨q, -, -, hfy, hdy⟩ := mem_shipped.mp hy
  -- one name, one map, one domain
  have hxy : x.2 = y.2 := by
    have h₁ := Store.find_of_mem (Store.find_spec hfx).1
    have h₂ := Store.find_of_mem (Store.find_spec hfy).1
    rw [he, h₂] at h₁
    exact (Option.some.inj h₁).symm
  rw [hxy, hdy] at hdx
  cases hdx

/-- The maps a serialiser packs in domain `d`, by name with the writes packed. -/
def packed (L : List (TxView K V × Map K V)) (d : SecurityDomain) : List (String × Write K V) :=
  (L.filter fun p => p.1.changes ∧ p.2.securityDomain = d).map fun p => (p.2.name, p.1.writes)

-- Made here once: the equation lemmas that the proofs below unfold.
section
attribute [local simp] packed
end

omit [DecidableEq K] [Inhabited V] in
theorem mem_packed {L : List (TxView K V × Map K V)} {q : String × Write K V} :
    q ∈ packed L .PUBLIC ++ packed L .PRIVATE ↔
      ∃ x ∈ L, x.1.changes = true ∧ (x.2.name, x.1.writes) = q := by
  simp only [packed, List.mem_append, List.mem_map, List.mem_filter, decide_eq_true_eq]
  constructor
  · rintro (⟨x, ⟨hx, hc, -⟩, rfl⟩ | ⟨x, ⟨hx, hc, -⟩, rfl⟩) <;> exact ⟨x, hx, hc, rfl⟩
  · rintro ⟨x, hx, hc, rfl⟩
    cases hd : x.2.securityDomain
    · exact .inl ⟨x, ⟨hx, hc, hd⟩, rfl⟩
    · exact .inr ⟨x, ⟨hx, hc, hd⟩, rfl⟩

omit [DecidableEq K] [Inhabited V] in
/-- What is packed of the views shipped: the writes of each view that changed its map, under the
view's name, when each view's map is in the store. -/
theorem mem_packed_shipped {s : Store K V C} {views : List (String × TxView K V)}
    (hv : ViewsShape views) (hfind : ∀ p ∈ views, (s.find p.1).isSome) (q : String × Write K V) :
    q ∈ packed (shipped s .PUBLIC views ++ shipped s .PRIVATE views) .PUBLIC ++
        packed (shipped s .PUBLIC views ++ shipped s .PRIVATE views) .PRIVATE ↔
      ∃ p ∈ views, p.2.changes = true ∧ (p.1, p.2.writes) = q := by
  rw [mem_packed]
  constructor
  · rintro ⟨x, hx, hc, rfl⟩
    obtain ⟨p, hp, hxp, hfx⟩ := mem_shipped_append hx
    have hname : x.2.name = p.1 := (Store.find_spec hfx).2.trans (hv.map p hp)
    exact ⟨p, hp, hxp ▸ hc, by rw [hname, hxp]⟩
  · rintro ⟨p, hp, hc, rfl⟩
    obtain ⟨m, hm⟩ := Option.isSome_iff_exists.mp (hfind p hp)
    have hfm : s.find p.2.map = some m := (hv.map p hp).symm ▸ hm
    have hx : (p.2, m) ∈ shipped s m.securityDomain views := mem_shipped.mpr ⟨p, hp, rfl, hfm, rfl⟩
    refine ⟨(p.2, m), ?_, hc, by rw [(Store.find_spec hm).2]⟩
    cases hd : m.securityDomain
    · exact List.mem_append_left _ (hd ▸ hx)
    · exact List.mem_append_right _ (hd ▸ hx)

omit [Inhabited V] in
/-- **What `serialise` packs of a committed transaction**: after the version, the public maps it
changed, then in the private domain the private ones, each as its name and writes, each name once;
and looked up by name, the writes packed are those of the transaction's view of that name, if that
view changed its map. This needs every view's map in the store, and each removal counted of a key
the map has. -/
theorem Tx.serialise_packed {tx : Tx K V} {s : Store K V C} {data : RawTx K V C}
    (hv : ViewsShape tx.viewList) (hfind : ∀ p ∈ tx.viewList, (s.find p.1).isSome)
    (hrm : ∀ p ∈ tx.viewList, ∀ m, s.find p.1 = some m → RemovalsIn p.2 m)
    (h : tx.serialise s false = .ok (some data)) :
    ∃ (ser : Serialiser K V C) (pubs privs : List (String × Write K V)),
      data = ser.getRawData ∧
      ser.publicWriter = .version tx.version :: pubs.flatMap (fun p => packMap p.1 p.2) ∧
      ser.privateWriter = privs.flatMap (fun p => packMap p.1 p.2) ∧
      ser.version = tx.version ∧ ser.cryptoUtil = s.encryptor ∧
      (s.encryptor = none → privs = []) ∧
      ((pubs ++ privs).map (·.1)).Nodup ∧
      ∀ n, (pubs ++ privs).lookup n = ((tx.viewList.lookup n).filter (·.changes)).map (·.writes) := by
  obtain ⟨-, ser, hfold, rfl⟩ := Tx.serialise_ok_some h
  set L := shipped s .PUBLIC tx.viewList ++ shipped s .PRIVATE tx.viewList
  -- each view shipped counts only removals of keys its map has
  have hrmL : ∀ x ∈ L, RemovalsIn x.1 x.2 := by
    intro x hx
    obtain ⟨p, hp, hxp, hfx⟩ := mem_shipped_append hx
    rw [hxp]
    exact hrm p hp x.2 ((hv.map p hp) ▸ hfx)
  obtain ⟨hpub, hpriv, hver, hcu, hsome⟩ := serialise_foldlM hrmL hfold
  have hnd : ((packed L .PUBLIC ++ packed L .PRIVATE).map (·.1)).Nodup := by
    have := List.nodup_map_filter_append (·.2.name) (shipped_nodup (s := s) hv)
      (p := fun x : TxView K V × Map K V => decide (x.1.changes ∧ x.2.securityDomain = .PUBLIC))
      (q := fun x => decide (x.1.changes ∧ x.2.securityDomain = .PRIVATE))
      (fun x _ hp => by simp_all)
    rw [packed, packed, ← List.map_append, List.map_map]
    exact this
  refine ⟨ser, packed L .PUBLIC, packed L .PRIVATE, rfl, ?_, ?_, hver, hcu, fun hnone => ?_, hnd,
    fun n => Option.ext fun ws => ?_⟩
  · rw [hpub, packed, List.flatMap_map]
    rfl
  · rw [hpriv, packed, List.flatMap_map]
    rfl
  · -- without an encryptor, no private map changed
    rw [packed, List.map_eq_nil_iff, List.filter_eq_nil_iff]
    intro x hx hq
    have hq' : x.1.changes = true ∧ x.2.securityDomain = .PRIVATE := by simpa using hq
    have := hsome x hx hq'.1 hq'.2
    simp [Serialiser.init, Serialiser.serialiseInternal, hnone] at this
  · rw [List.lookup_eq_some_iff_mem hnd, mem_packed_shipped hv hfind]
    constructor
    · rintro ⟨p, hp, hc, he⟩
      obtain ⟨rfl, rfl⟩ := Prod.mk.inj he
      have hl : tx.viewList.lookup p.1 = some p.2 := (List.lookup_eq_some_iff_mem hv.nodup).mpr hp
      simp [hl, hc]
    · intro hw
      obtain ⟨view, hview, rfl⟩ := Option.map_eq_some_iff.mp hw
      obtain ⟨hl, hc⟩ := Option.filter_eq_some_iff.mp hview
      exact ⟨(n, view), lookup_mem hl, hc, rfl⟩

end Serialise

/-! ## Maps with the same current state -/

section Equality

/-- Two maps hold the same current state: at the same version, with the same entries. -/
structure SameBack (m1 m2 : Map K V) : Prop where
  version : m1.back.version = m2.back.version
  lookup : ∀ k, m1.back.state.lookup k = m2.back.state.lookup k

namespace SameBack

variable {m1 m2 m3 : Map K V}

omit [Inhabited V] in
theorem refl (m : Map K V) : SameBack m m := ⟨rfl, fun _ => rfl⟩

omit [Inhabited V] in
theorem symm (h : SameBack m1 m2) : SameBack m2 m1 := ⟨h.version.symm, fun k => (h.lookup k).symm⟩

omit [Inhabited V] in
theorem trans (h₁ : SameBack m1 m2) (h₂ : SameBack m2 m3) : SameBack m1 m3 :=
  ⟨h₁.version.trans h₂.version, fun k => (h₁.lookup k).trans (h₂.lookup k)⟩

end SameBack

/-- What a commit leaves of a map: a new current state when the view wrote and applying its writes
changed something, the map as it was otherwise. -/
theorem TxView.commit_snd (view : TxView K V) (v : Version) (m : Map K V) :
    (view.commit v m).2 =
      if !view.writes.entries.isEmpty && (applyWrites v view.writes.entries m.back.state view.changes).2
      then m.push ⟨v, (applyWrites v view.writes.entries m.back.state view.changes).1, view.writes⟩
      else m := by
  unfold TxView.commit
  split
  · next he => simp [he]
  · next he =>
    dsimp only
    split <;> simp_all

/-- The version of a map's current state after a commit: the commit's version when the view wrote
and applying its writes changed something, the old one otherwise. -/
theorem TxView.commit_back_version (view : TxView K V) (v : Version) (m : Map K V) :
    (view.commit v m).2.back.version =
      if !view.writes.entries.isEmpty && (applyWrites v view.writes.entries m.back.state view.changes).2
      then v else m.back.version := by
  rw [TxView.commit_snd]
  split <;> simp

/-- Views with the same writes, key by key, and the same flag of changes push a new state on maps
with the same current state both or neither. -/
theorem TxView.commit_pushes_congr {view view' : TxView K V} {m m' : Map K V}
    (hw : ∀ k, view.writes.lookup k = view'.writes.lookup k) (hc : view.changes = view'.changes)
    (hm : SameBack m m') (v : Version) :
    (!view.writes.entries.isEmpty && (applyWrites v view.writes.entries m.back.state view.changes).2) =
      (!view'.writes.entries.isEmpty &&
        (applyWrites v view'.writes.entries m'.back.state view'.changes).2) := by
  have hperm := AList.perm_of_lookup_eq hw
  have hmem : ∀ k, k ∈ m.back.state ↔ k ∈ m'.back.state := fun k => by
    rw [← AList.lookup_isSome, ← AList.lookup_isSome, hm.lookup k]
  rw [applyWrites_changes v _ _ _ view.writes.nodupKeys,
    applyWrites_changes v _ _ _ view'.writes.nodupKeys, hc, hperm.any_eq, hperm.isEmpty_eq]
  -- a write changes a map by what it writes and whether the map has its key
  have hany : (view'.writes.entries.any fun w => decide (w.2.version ≥ 0) || decide (w.1 ∈ m.back.state)) =
      view'.writes.entries.any fun w => decide (w.2.version ≥ 0) || decide (w.1 ∈ m'.back.state) :=
    List.any_congr rfl fun w => by rw [decide_eq_decide.mpr (hmem w.1)]
  rw [hany]

/-- What a commit leaves of a map's current state depends only on the view's writes, key by key,
its flag of changes, and the map's current state. -/
theorem TxView.commit_sameBack {view view' : TxView K V} {m m' : Map K V}
    (hw : ∀ k, view.writes.lookup k = view'.writes.lookup k) (hc : view.changes = view'.changes)
    (hm : SameBack m m') (v : Version) : SameBack (view.commit v m).2 (view'.commit v m').2 := by
  refine ⟨?_, fun k => ?_⟩
  · rw [TxView.commit_back_version, TxView.commit_back_version,
      TxView.commit_pushes_congr hw hc hm v, hm.version]
  · rw [TxView.commit_back, TxView.commit_back]
    unfold applyLookup
    rw [hw k, hm.lookup k]

/-- A backup that holds a map's current state and commits the writes packed for it, read back,
holds the current state the primary's map has after committing them the same way. -/
theorem readBack_sameBack {ws : Write K V} (hw : Packable ws) {mb m : Map K V} (h : SameBack mb m)
    (v : Version) : SameBack ((readBack mb v ws).commit v mb).2 ((readBack m v ws).commit v m).2 :=
  TxView.commit_sameBack
    (fun k => (readBack_writes_lookup hw mb v k).trans (readBack_writes_lookup hw m v k).symm) rfl h v

/-- Two states of maps with the same entries at the same version. -/
structure SameState (c1 c2 : LocalCommit K V) : Prop where
  version : c1.version = c2.version
  lookup : ∀ k, c1.state.lookup k = c2.state.lookup k

omit [Inhabited V] in
theorem SameState.symm {c1 c2 : LocalCommit K V} (h : SameState c1 c2) : SameState c2 c1 :=
  ⟨h.version.symm, fun k => (h.lookup k).symm⟩

omit [Inhabited V] in
theorem SameState.trans {c1 c2 c3 : LocalCommit K V} (h₁ : SameState c1 c2) (h₂ : SameState c2 c3) :
    SameState c1 c3 :=
  ⟨h₁.version.trans h₂.version, fun k => (h₁.lookup k).trans (h₂.lookup k)⟩

/-- Two maps whose rolls hold the same states, one for one: `rollback` and `compact` then leave
them with the same states too. -/
def SameRoll (m1 m2 : Map K V) : Prop :=
  List.Forall₂ SameState m1.roll m2.roll

namespace SameRoll

variable {m1 m2 : Map K V}

omit [Inhabited V] in
theorem refl (m : Map K V) : SameRoll m m :=
  List.forall₂_same.mpr fun _ _ => ⟨rfl, fun _ => rfl⟩

omit [Inhabited V] in
theorem symm (h : SameRoll m1 m2) : SameRoll m2 m1 :=
  List.Forall₂.flip (h.imp fun _ _ hs => hs.symm)

omit [Inhabited V] in
theorem trans {m3 : Map K V} (h₁ : SameRoll m1 m2) (h₂ : SameRoll m2 m3) : SameRoll m1 m3 :=
  Versioned.forall₂_trans (R := SameState) (S := SameState) (fun _ _ _ => SameState.trans) h₁ h₂

omit [Inhabited V] in
theorem sameBack (h : SameRoll m1 m2) : SameBack m1 m2 :=
  have hl := Versioned.forall₂_getLast h m1.roll_ne m2.roll_ne
  ⟨hl.version, hl.lookup⟩

omit [Inhabited V] in
theorem push (h : SameRoll m1 m2) {c1 c2 : LocalCommit K V} (hc : SameState c1 c2) :
    SameRoll (m1.push c1) (m2.push c2) :=
  List.rel_append h (.cons hc .nil)

end SameRoll

/-- What a commit leaves of a map's roll depends only on the view's writes, key by key, its flag
of changes, and the map's roll. -/
theorem TxView.commit_sameRoll {view view' : TxView K V} {m m' : Map K V}
    (hw : ∀ k, view.writes.lookup k = view'.writes.lookup k) (hc : view.changes = view'.changes)
    (hm : SameRoll m m') (v : Version) : SameRoll (view.commit v m).2 (view'.commit v m').2 := by
  have hback := TxView.commit_sameBack hw hc hm.sameBack v
  rw [TxView.commit_snd, TxView.commit_snd, TxView.commit_pushes_congr hw hc hm.sameBack v] at hback ⊢
  split
  · next hpush =>
    rw [if_pos hpush, if_pos hpush] at hback
    -- both push a state at the commit's version, with the entries the current states agree on
    exact hm.push ⟨rfl, fun k => by simpa using hback.lookup k⟩
  · exact hm

theorem readBack_sameRoll {ws : Write K V} (hw : Packable ws) {mb m : Map K V} (h : SameRoll mb m)
    (v : Version) : SameRoll ((readBack mb v ws).commit v mb).2 ((readBack m v ws).commit v m).2 :=
  TxView.commit_sameRoll
    (fun k => (readBack_writes_lookup hw mb v k).trans (readBack_writes_lookup hw m v k).symm) rfl h v

end Equality

/-! ## What a commit ships is what it did -/

section Ships

/-- A commit that returns `OK` found the transaction open; it had no views, or
`Tx::commit(views, f)` returned and the transaction now holds what it returned. -/
theorem Tx.commit_ok_state {s : Store K V C} {tx : Tx K V}
    (h : (Tx.commit (s, tx)).value? = some .OK) :
    tx.committed = false ∧
      ((tx.viewList = [] ∧ (Tx.commit (s, tx)).state.2.viewList = []) ∨
        ∃ version s₁ views₁,
          Tx.commitViews s tx.viewList Store.nextVersion = some (version, s₁, views₁) ∧
          (Tx.commit (s, tx)).state =
            (s₁, { tx with committed := true, success := true, version := version, viewList := views₁ })) := by
  apply EStateM.state_of_value_eq (P := fun st : Store K V C × Tx K V =>
    tx.committed = false ∧ ((tx.viewList = [] ∧ st.2.viewList = []) ∨
      ∃ version s₁ views₁, Tx.commitViews s tx.viewList Store.nextVersion = some (version, s₁, views₁) ∧
        st = (s₁, { tx with committed := true, success := true, version := version, viewList := views₁ })))
    _ h
  simp only [Tx.commit, EStateM.wp_bind, EStateM.wp_getState, EStateM.wp_ite, EStateM.wp_throw,
    EStateM.wp_set, EStateM.wp_pure]
  split
  · trivial
  · next hc =>
    split
    · next he => exact fun _ => ⟨by simpa using hc, .inl ⟨List.isEmpty_iff.mp he, List.isEmpty_iff.mp he⟩⟩
    split
    · intro hcf
      cases hcf
    · next version s₁ views₁ hcv =>
      simp only [EStateM.wp_bind, EStateM.wp_set]
      split
      · trivial
      · exact fun _ => ⟨by simpa using hc, .inr ⟨version, s₁, views₁, hcv, rfl⟩⟩

/-- With a view that writes, `Tx::commit(views, f)` commits at the version `next_version` gives. -/
theorem Tx.commitViews_version {s s' : Store K V C} {views views' : List (String × TxView K V)}
    {version : Version} (h : Tx.commitViews s views Store.nextVersion = some (version, s', views'))
    (hw : views.any (·.2.hasWrites) = true) : version = s.nextVersion.1 := by
  unfold Tx.commitViews at h
  split at h
  · cases h
  split at h
  · next v₁ s₁ hn =>
    simp only [Option.some.injEq, Prod.mk.injEq] at h
    rw [hn]
    exact h.1.symm

omit [Inhabited V] in
/-- Views that all passed `prepare` are each of a map of the store. -/
theorem Tx.prepareAll_find {s : Store K V C} {views : List (String × TxView K V)}
    (hv : ViewsShape views) (h : Tx.prepareAll s views = true) {p : String × TxView K V}
    (hp : p ∈ views) : ∃ m, s.find p.1 = some m ∧ p.2.prepare m = true := by
  have hall := List.all_eq_true.mp h p hp
  cases hf : s.find p.1 with
  | none =>
      rw [hv.map p hp, hf] at hall
      cases hall
  | some m =>
      rw [hv.map p hp, hf] at hall
      exact ⟨m, rfl, hall⟩

/-- `Tx::commit` over views of distinct maps leaves, under each name, the view of that name
committed on its map, if the store has it. -/
theorem Tx.commitEach_lookup (v : Version) :
    ∀ (views : List (String × TxView K V)) (s : Store K V C), ViewsShape views →
      ∀ n, (Tx.commitEach v s views).2.lookup n =
        (views.lookup n).map fun view => ((s.find n).map fun m => (view.commit v m).1).getD view
  | [], _, _, _ => rfl
  | (n', view) :: rest, s, hv, n => by
      have hmap : view.map = n' := hv.map (n', view) List.mem_cons_self
      have hnot : rest.lookup n' = none := hv.not_mem
      by_cases hn : n = n'
      · subst hn
        cases hf : s.find view.map with
        | none => simp [Tx.commitEach, hf, ← hmap]
        | some m => simp [Tx.commitEach, hf, ← hmap]
      · -- another name: the rest is committed on a store that differs only in `n'`
        have hrest := Tx.commitEach_lookup v rest
        cases hf : s.find view.map with
        | none =>
            simp only [Tx.commitEach, hf]
            rw [List.lookup_cons, beq_false_of_ne hn, List.lookup_cons, beq_false_of_ne hn]
            exact hrest s hv.tail n
        | some m =>
            have hname : n ≠ (view.commit v m).2.name := by
              rw [(TxView.commit_grows view v m).name, (Store.find_spec hf).2, hmap]
              exact hn
            simp only [Tx.commitEach, hf]
            rw [List.lookup_cons, beq_false_of_ne hn, List.lookup_cons, beq_false_of_ne hn]
            rw [hrest _ hv.tail n, Store.find_setMap, if_neg hname]

/-- Each view `Tx::commit(views, f)` leaves is the commit of a view of the transaction on the map
of its name, which it passed `prepare` against, and the store then holds that commit's map. -/
theorem Tx.commitEach_pair {s : Store K V C} {vs : List (String × TxView K V)}
    (hshape : ViewsShape vs) (hprep : Tx.prepareAll s vs = true) (v : Version) :
    ∀ p ∈ (Tx.commitEach v s vs).2, ∃ view m, (p.1, view) ∈ vs ∧ s.find p.1 = some m ∧
      view.prepare m = true ∧ p.2 = (view.commit v m).1 ∧
      (Tx.commitEach v s vs).1.find p.1 = some (view.commit v m).2 := by
  have hshape' : ViewsShape (Tx.commitEach v s vs).2 :=
    hshape.of_frames (Tx.commitEach_grows v vs s).2
  intro p hp
  have hl : (Tx.commitEach v s vs).2.lookup p.1 = some p.2 :=
    (List.lookup_eq_some_iff_mem hshape'.nodup).mpr hp
  rw [Tx.commitEach_lookup v vs s hshape] at hl
  obtain ⟨view, hview, hpv⟩ := Option.map_eq_some_iff.mp hl
  obtain ⟨m, hm, hprep'⟩ := Tx.prepareAll_find hshape hprep (lookup_mem hview)
  refine ⟨view, m, lookup_mem hview, hm, hprep', ?_, ?_⟩
  · rw [← hpv, hm]
    rfl
  · rw [Tx.commitEach_find_getD v hshape s, hview, hm]
    rfl

theorem TxView.commit_writes (view : TxView K V) (v : Version) (m : Map K V) :
    (view.commit v m).1.writes = view.writes := by
  unfold TxView.commit
  split
  · rfl
  · dsimp only
    split <;> rfl

/-- A commit that changed nothing leaves the map. -/
theorem TxView.commit_of_unchanged {view : TxView K V} {v : Version} {m : Map K V}
    (h : (view.commit v m).1.changes = false) : (view.commit v m).2 = m := by
  unfold TxView.commit at h ⊢
  split
  · rfl
  · next he =>
    rw [if_neg he] at h
    dsimp only at h ⊢
    split at h <;> simp_all

/-- The writes of a view a transaction can hold are values stamped `0` and removals with the
default value. -/
theorem ViewOk.packable {view : TxView K V} (h : ViewOk view) : Packable view.writes :=
  fun k w hk => (h.writes k w hk).imp_right fun h => h.1

/-- A write of a view that passes `prepare` with the map it tracks is a value stamped `0`, or the
removal of a key the map's current state has: the snapshot had it, and the map has counted no
rollback since the view. -/
theorem TxView.removal_mem_back {s : Store K V C} {view : TxView K V} {m : Map K V}
    (hok : ViewOk view) (htr : Tracks s view) (hm : s.find view.map = some m)
    (hp : view.prepare m = true) {k : K} {w : VersionV V} (hk : view.writes.lookup k = some w)
    (h0 : w.version ≠ 0) : k ∈ m.back.state := by
  have hsnap : k ∈ view.state := by
    rcases hok.writes k w hk with h0' | ⟨-, hk'⟩
    · exact absurd h0' h0
    · exact hk'
  obtain ⟨hc, -, -⟩ := TxView.prepare_spec hp (List.ne_nil_of_mem (AList.mem_lookup_iff.mp hk))
  exact (htr.current m hm hc).2.keeps _ hsnap

/-- A view that passes `prepare` with the map it tracks removes only keys the map's current state
has, so after its commit the map has each key it removed, as a tombstone. -/
theorem TxView.commit_removalsIn {s : Store K V C} {view : TxView K V} {m : Map K V}
    (hok : ViewOk view) (htr : Tracks s view) (hm : s.find view.map = some m)
    (hp : view.prepare m = true) (v : Version) : RemovalsIn (view.commit v m).1 (view.commit v m).2 := by
  intro w hw
  rw [TxView.commit_writes] at hw
  obtain ⟨hw', hrem⟩ := List.mem_filter.mp hw
  have hlk : view.writes.lookup w.1 = some w.2 := AList.mem_lookup_iff.mpr hw'
  have hcur : w.1 ∈ m.back.state := TxView.removal_mem_back hok htr hm hp hlk fun h0 => by
    simp [TxView.isRemove, h0, NoVersion] at hrem
  -- a write on a key the state has leaves an entry there
  obtain ⟨e, he⟩ := Option.isSome_iff_exists.mp (AList.lookup_isSome.mpr hcur)
  rw [← AList.lookup_isSome, TxView.commit_back]
  unfold applyLookup applyOne
  simp only [hlk, he]
  split <;> rfl

omit [Inhabited V] in
/-- What `Tx::commit` handed the consensus is what `serialise` returned. -/
theorem serialise_of_replicated {sys : Sys K V C} {t : Nat} {data : RawTx K V C}
    (h : replicated sys t = some data) : (sys.txs t).serialise sys.store false = .ok (some data) := by
  unfold replicated at h
  split at h
  · next raw hraw =>
    rw [hraw, h]
  · cases h

variable {sys : Sys K V C}

/-- **What a commit ships is what it did.** In a state where the invariants hold, when
`Tx::commit` of transaction `t` returns `OK` and `serialise` gives data, the data packs, at the
version after the store's, the public maps then the private ones, each name once, with writes a
backup can load; and the store the commit leaves is the one before, moved to that version, with
each map holding, key by key, the writes packed under its name applied at that version to what it
held. -/
theorem Tx.commit_ships (hi : Inv sys) (hS : Serial sys) (hU : (sys.txs t).Unapplied)
    (hok : (Tx.commit (sys.store, sys.txs t)).value? = some .OK) {data : RawTx K V C}
    (hser : (Tx.commit (sys.store, sys.txs t)).state.2.serialise
      (Tx.commit (sys.store, sys.txs t)).state.1 false = .ok (some data)) :
    ∃ (ser : Serialiser K V C) (pubs privs : List (String × Write K V)),
      data = ser.getRawData ∧
      ser.publicWriter = .version (sys.store.version + 1) :: pubs.flatMap (fun p => packMap p.1 p.2) ∧
      ser.privateWriter = privs.flatMap (fun p => packMap p.1 p.2) ∧
      ser.version = sys.store.version + 1 ∧ ser.cryptoUtil = sys.store.encryptor ∧
      (sys.store.encryptor = none → privs = []) ∧ ((pubs ++ privs).map (·.1)).Nodup ∧
      (∀ n ws, (pubs ++ privs).lookup n = some ws → Packable ws ∧ (sys.store.find n).isSome) ∧
      (Tx.commit (sys.store, sys.txs t)).state.1.version = sys.store.version + 1 ∧
      (Tx.commit (sys.store, sys.txs t)).state.1.encryptor = sys.store.encryptor ∧
      (Tx.commit (sys.store, sys.txs t)).state.1.compacted = sys.store.compacted ∧
      (∀ n, ((Tx.commit (sys.store, sys.txs t)).state.1.find n).isSome = (sys.store.find n).isSome) ∧
      ∀ n m', (Tx.commit (sys.store, sys.txs t)).state.1.find n = some m' →
        ∃ m, sys.store.find n = some m ∧ SameRoll m' ((((pubs ++ privs).lookup n).map fun ws =>
          ((readBack m (sys.store.version + 1) ws).commit (sys.store.version + 1) m).2).getD m) := by
  obtain ⟨hopen, hcases⟩ := Tx.commit_ok_state hok
  rcases hcases with ⟨-, hnil⟩ | ⟨version, s', views', hcv, hst⟩
  · -- without views, nothing is sent
    obtain ⟨⟨p, hp, -⟩, -⟩ := Tx.serialise_ok_some hser
    rw [hnil] at hp
    cases hp
  rw [hst] at hser ⊢
  obtain ⟨hprep, hbranch⟩ := Tx.commitViews_spec hcv
  rcases hbranch with ⟨-, rfl, rfl⟩ | ⟨hw, rfl, rfl⟩
  · -- without writes, the views are those of the open transaction, which changed no map
    obtain ⟨⟨p, hp, hc⟩, -⟩ := Tx.serialise_ok_some hser
    rw [(hU hopen p hp).1] at hc
    cases hc
  -- with writes: the views committed at the version after the store's
  have hnext := Store.nextVersion_of_nonneg (hi.compacted_nonneg.trans hi.compacted_le)
  have hver : version = sys.store.version + 1 := by rw [Tx.commitViews_version hcv hw, hnext]
  rw [hnext] at hser ⊢
  dsimp only at hser ⊢
  set vs := (sys.txs t).viewList
  set v₁ := sys.store.version + 1
  set s₁ : Store K V C := { sys.store with version := v₁ }
  have hshape : ViewsShape vs := (hS.txs t).shape
  have hs₁ : ∀ n, s₁.find n = sys.store.find n := fun _ => rfl
  have hfind' := Tx.commitEach_find_getD v₁ hshape s₁
  have hlook' := Tx.commitEach_lookup v₁ vs s₁ hshape
  simp only [hs₁] at hfind' hlook'
  have hgrow := Tx.commitEach_grows v₁ vs s₁
  have hshape' : ViewsShape (Tx.commitEach v₁ s₁ vs).2 := hshape.of_frames hgrow.2
  -- each view committed is a view of the transaction, committed on its map
  have hpair := Tx.commitEach_pair (s := s₁) hshape hprep v₁
  have hfindv : ∀ p ∈ (Tx.commitEach v₁ s₁ vs).2, ((Tx.commitEach v₁ s₁ vs).1.find p.1).isSome := by
    intro p hp
    obtain ⟨view, m, -, -, -, -, hfm⟩ := hpair p hp
    rw [hfm]
    rfl
  have hrm : ∀ p ∈ (Tx.commitEach v₁ s₁ vs).2, ∀ m', (Tx.commitEach v₁ s₁ vs).1.find p.1 = some m' →
      RemovalsIn p.2 m' := by
    intro p hp m' hm'
    obtain ⟨view, m, hmem, hm, hprep', hp2, hfm⟩ := hpair p hp
    rw [hfm] at hm'
    cases hm'
    rw [hp2]
    obtain ⟨hok', htr⟩ := (hS.txs t).views _ hmem
    have hmap : sys.store.find view.map = some m := by
      rw [hshape.map _ hmem]
      exact hm
    exact TxView.commit_removalsIn hok' htr hmap hprep' v₁
  obtain ⟨ser, pubs, privs, rfl, hpub, hpriv, hsv, hcu, hnone, hnd, hlk⟩ :=
    Tx.serialise_packed hshape' hfindv hrm hser
  have henc : (Tx.commitEach v₁ s₁ vs).1.encryptor = sys.store.encryptor :=
    Tx.commitEach_encryptor v₁ vs s₁
  refine ⟨ser, pubs, privs, rfl, hver ▸ hpub, hpriv, hver ▸ hsv, hcu.trans henc,
    fun h => hnone (henc.trans h), hnd, fun n ws h => ?_, hgrow.1.2.1, henc, hgrow.1.2.2,
    fun n => by rw [hfind', Option.isSome_map], fun n m' hm' => ?_⟩
  · -- a map shipped is one the transaction's view of it changed
    rw [hlk n] at h
    obtain ⟨view', hv', rfl⟩ := Option.map_eq_some_iff.mp h
    obtain ⟨hl', -⟩ := Option.filter_eq_some_iff.mp hv'
    obtain ⟨view, m, hmem, hm, -, hp2, -⟩ := hpair (n, view') (lookup_mem hl')
    have hm' : sys.store.find n = some m := hm
    refine ⟨?_, by rw [hm']; rfl⟩
    rw [show view' = (view.commit v₁ m).1 from hp2, TxView.commit_writes]
    exact ((hS.txs t).views _ hmem).1.packable
  · -- each map holds what committing the writes shipped under its name, read back, leaves
    rw [hfind' n] at hm'
    obtain ⟨m, hm, rfl⟩ := Option.map_eq_some_iff.mp hm'
    refine ⟨m, hm, ?_⟩
    rw [hlk n, hlook' n, hm]
    cases hl : vs.lookup n with
    | none => exact SameRoll.refl m
    | some view =>
        have hmem := lookup_mem hl
        by_cases hc : (view.commit v₁ m).1.changes = true
        · -- the view read back has the same writes and, like the open view, no changes yet
          simp only [Option.map_some, hc, Option.filter_some, if_true, TxView.commit_writes,
            Option.getD_some]
          exact TxView.commit_sameRoll
            (fun k => (readBack_writes_lookup ((hS.txs t).views _ hmem).1.packable m v₁ k).symm)
            (hU hopen _ hmem).1 (SameRoll.refl m) v₁
        · simp [hc, Option.filter_some, TxView.commit_of_unchanged (Bool.eq_false_iff.mpr hc)]
          exact SameRoll.refl m

end Ships

/-! ## A backup that keeps up -/

section Mirror

/-- A backup mirrors a store: the same version and encryptor, maps of the same names, and each map
holding the current state of the store's map of its name. -/
structure Mirrors (b s : Store K V C) : Prop where
  version : b.version = s.version
  encryptor : b.encryptor = s.encryptor
  names : ∀ n, (b.find n).isSome = (s.find n).isSome
  contents : ∀ n mb m, b.find n = some mb → s.find n = some m → SameBack mb m

omit [Inhabited V] in
theorem Mirrors.refl (s : Store K V C) : Mirrors s s :=
  ⟨rfl, rfl, fun _ => rfl, fun _ _ _ h h' => by rw [h'] at h; cases h; exact SameBack.refl _⟩

/-- A backup that mirrors a store still does after both apply the same writes per map at one
version: the backup by committing the views read back, the store by any means that leave each map
with the current state such a commit leaves. -/
theorem Mirrors.after {b s b' s' : Store K V C} (hb : Mirrors b s) {v : Version}
    {W : String → Option (Write K V)} (hW : ∀ n ws, W n = some ws → Packable ws)
    (hb' : ∀ n, b'.find n =
      (b.find n).map fun mb => ((W n).map fun ws => ((readBack mb v ws).commit v mb).2).getD mb)
    (hnames : ∀ n, (s'.find n).isSome = (s.find n).isSome)
    (hs' : ∀ n m', s'.find n = some m' → ∃ m, s.find n = some m ∧
      SameBack m' (((W n).map fun ws => ((readBack m v ws).commit v m).2).getD m))
    (hver : b'.version = s'.version) (henc : b'.encryptor = s'.encryptor) : Mirrors b' s' := by
  refine ⟨hver, henc, fun n => by rw [hb' n, Option.isSome_map, hnames n, hb.names n],
    fun n mb' m' hmb' hm' => ?_⟩
  obtain ⟨m, hm, hk⟩ := hs' n m' hm'
  rw [hb' n] at hmb'
  obtain ⟨mb, hmb, rfl⟩ := Option.map_eq_some_iff.mp hmb'
  have hsame := hb.contents n mb m hmb hm
  refine SameBack.trans ?_ hk.symm
  cases hw : W n with
  | none => exact hsame
  | some ws => exact readBack_sameBack (hW n ws hw) hsame v

variable [DecidableEq V]

omit [Inhabited V] in
/-- The loop of `Map::operator==` runs through a list whose entries the second state all has, and
counts them. -/
theorem Map.beqLoop_of_forall (state2 : State K V) :
    ∀ {l : List (Σ _ : K, VersionV V)}, (∀ e ∈ l, state2.lookup e.1 = some e.2) → ∀ i,
      Map.beqLoop state2 l i = (true, i + l.length)
  | [], _, _ => rfl
  | e :: rest, h, i => by
      have hrest := Map.beqLoop_of_forall state2 (fun e' he' => h e' (List.mem_cons_of_mem _ he'))
      simp only [Map.beqLoop, h e List.mem_cons_self, ne_eq, not_true_eq_false, if_false, hrest,
        List.length_cons]
      rw [Nat.add_assoc, Nat.add_comm 1]

omit [Inhabited V] in
/-- The loop fails when an entry of the list is not in the second state as it is. -/
theorem Map.beqLoop_fst_of_not (state2 : State K V) :
    ∀ {l : List (Σ _ : K, VersionV V)}, ¬(∀ e ∈ l, state2.lookup e.1 = some e.2) → ∀ i,
      (Map.beqLoop state2 l i).1 = false
  | [], h, _ => absurd (fun e he => by cases he) h
  | ⟨k, ⟨ver, val⟩⟩ :: rest, h, i => by
      simp only [Map.beqLoop]
      split
      · rfl
      · next found hf =>
        split
        · rfl
        split
        · rfl
        next hv hval =>
        -- the head is there as it is, so an entry of the rest is not
        refine Map.beqLoop_fst_of_not state2 (fun hrest => h fun e he => ?_) (i + 1)
        rcases List.mem_cons.mp he with rfl | he
        · rw [hf]
          cases found
          simp_all
        · exact hrest e he

omit [Inhabited V] in
/-- `Map::operator==` holds exactly when the maps have one name and the same current state. -/
theorem Map.beq_iff {m1 m2 : Map K V} : m1.beq m2 = true ↔ m1.name = m2.name ∧ SameBack m1 m2 := by
  unfold Map.beq
  by_cases hn : m1.name = m2.name
  swap
  · simp [hn]
  by_cases hv : m1.back.version = m2.back.version
  swap
  · have hne : ¬SameBack m1 m2 := fun h => hv h.version
    simp [hn, hv, hne]
  -- with the versions equal, the states are the same when the loop passes and the counts agree
  have hsame : SameBack m1 m2 ↔ ∀ k, m1.back.state.lookup k = m2.back.state.lookup k :=
    ⟨fun h => h.lookup, fun h => ⟨hv, h⟩⟩
  simp only [hn, hv, ne_eq, not_true_eq_false, if_false, true_and, hsame, AList.lookup_eq_iff]
  by_cases hall : ∀ e ∈ m1.back.state.entries, m2.back.state.lookup e.1 = some e.2
  · rw [Map.beqLoop_of_forall _ hall 0]
    simp only [Nat.zero_add, Bool.true_and, beq_iff_eq]
    exact ⟨fun h => ⟨hall, h⟩, fun h => h.2⟩
  · simp [Map.beqLoop_fst_of_not _ hall 0, hall]

omit [DecidableEq K] [Inhabited V] [DecidableEq V] in
theorem Store.find_isSome_iff (s : Store K V C) (n : String) :
    (s.find n).isSome = true ↔ n ∈ s.maps.map (·.name) := by
  simp [Store.find, List.find?_isSome]

omit [Inhabited V] in
/-- `Store::operator==` holds exactly when the stores are at one version, have maps of the same
names, and each map of the first has the current state of the second's map of its name. -/
theorem Store.beq_iff {s1 s2 : Store K V C} :
    s1.beq s2 = true ↔ s1.version = s2.version ∧ (∀ n, (s1.find n).isSome = (s2.find n).isSome) ∧
      ∀ n m1 m2, s1.find n = some m1 → s2.find n = some m2 → SameBack m1 m2 := by
  constructor
  · intro h
    unfold Store.beq at h
    split at h
    · cases h
    next hv =>
    split at h
    · cases h
    next hlen =>
    rw [List.all_eq_true] at h
    -- each map of the first has a map of its name in the second, equal to it
    have hmap : ∀ m ∈ s1.maps, ∃ m2, s2.find m.name = some m2 ∧ m.beq m2 = true := by
      intro m hm
      have hm' := h m hm
      split at hm'
      · cases hm'
      · next m2 hm2 => exact ⟨m2, hm2, hm'⟩
    have hsub : s1.maps.map (·.name) ⊆ s2.maps.map (·.name) := by
      intro n hn
      obtain ⟨m, hm, rfl⟩ := List.mem_map.mp hn
      obtain ⟨m2, hm2, -⟩ := hmap m hm
      exact (Store.find_isSome_iff s2 _).mp (by rw [hm2]; rfl)
    -- as many names in each, each once: the same names
    have hperm : (s1.maps.map (·.name)).Perm (s2.maps.map (·.name)) :=
      (List.subperm_of_subset s1.maps_nodup hsub).perm_of_length_le (by simp_all)
    refine ⟨by simpa using hv, fun n => ?_, fun n m1 m2 h1 h2 => ?_⟩
    · rw [Bool.eq_iff_iff, Store.find_isSome_iff, Store.find_isSome_iff]
      exact hperm.mem_iff
    · obtain ⟨hm1, rfl⟩ := Store.find_spec h1
      obtain ⟨m2', hm2', hb⟩ := hmap m1 hm1
      rw [h2] at hm2'
      cases hm2'
      exact (Map.beq_iff.mp hb).2
  · rintro ⟨hv, hnames, hsame⟩
    have hperm : (s1.maps.map (·.name)).Perm (s2.maps.map (·.name)) :=
      (List.perm_ext_iff_of_nodup s1.maps_nodup s2.maps_nodup).mpr fun n => by
        rw [← Store.find_isSome_iff, ← Store.find_isSome_iff, hnames n]
    have hlen : s1.maps.length = s2.maps.length := by simpa using hperm.length_eq
    unfold Store.beq
    rw [if_neg (not_not.mpr hv), if_neg (not_not.mpr hlen), List.all_eq_true]
    intro m hm
    have h1 := Store.find_of_mem hm
    obtain ⟨m2, h2⟩ : ∃ m2, s2.find m.name = some m2 :=
      Option.isSome_iff_exists.mp (by rw [← hnames, h1]; rfl)
    rw [h2]
    exact Map.beq_iff.mpr ⟨(Store.find_spec h2).2.symm, hsame _ _ _ h1 h2⟩

omit [Inhabited V] in
theorem Mirrors.of_beq {b s : Store K V C} (h : b.beq s = true) (henc : b.encryptor = s.encryptor) :
    Mirrors b s :=
  have ⟨hv, hnames, hsame⟩ := Store.beq_iff.mp h
  ⟨hv, henc, hnames, hsame⟩

omit [Inhabited V] in
theorem Mirrors.beq_eq_true {b s : Store K V C} (h : Mirrors b s) : b.beq s = true :=
  Store.beq_iff.mpr ⟨h.version, h.names, h.contents⟩

/-- **A backup that applies what the primary replicates keeps up with it.** Anywhere in a run from
a fresh store whose maps have no global hook and start as one line of history, when `Tx::commit`
of transaction `t` returns `OK` and hands the consensus data, a backup without a history, equal to
the store before the commit by `Store::operator==` and with its encryptor, one that decrypts what
it encrypts, passes `Store::deserialise` of that data and is then equal by `Store::operator==` to
the store after the commit, with its encryptor. -/
theorem backup_mirrors_commit {s₀ : Store K V C} (h₀ : Fresh s₀)
    (hh : ∀ m ∈ s₀.maps, m.globalHook = false) (hr₀ : ∀ m ∈ s₀.maps, RollOk m)
    {sys : Sys K V C} (hr : Sys.Reachable s₀ sys) (t : Nat)
    (hok : (Tx.commit (sys.store, sys.txs t)).value? = some .OK) {data : RawTx K V C}
    (hdata : replicated (sys.apply (.commit t)) t = some data) {b : Store K V C}
    (hb : b.beq sys.store = true) (hbe : b.encryptor = sys.store.encryptor)
    (hinv : ∀ e ∈ sys.store.encryptor, e.Inverts) (hbh : b.history = none) :
    ∃ b', Store.deserialise data false b = .ok (.PASS, 0) b' ∧
      b'.beq (sys.apply (.commit t)).store = true ∧
      b'.encryptor = (sys.apply (.commit t)).store.encryptor := by
  have hm := Mirrors.of_beq hb hbe
  have hser := serialise_of_replicated hdata
  simp only [Sys.apply, Sys.update, Function.update_self] at hser
  obtain ⟨ser, pubs, privs, rfl, hpub, hpriv, hsv, hcu, hnone, hnd, hship, hver, henc, -, hnames,
    hcontents⟩ := Tx.commit_ships (Inv.reachable h₀ hh hr) (Serial.reachable h₀ hh hr₀ hr)
      (Unapplied.reachable hr t) hok hser
  -- every map shipped is one the backup has
  have hfind : ∀ p ∈ pubs ++ privs, (b.find p.1).isSome := by
    intro p hp
    rw [hm.names p.1]
    exact (hship p.1 p.2 ((List.lookup_eq_some_iff_mem hnd).mpr hp)).2
  obtain ⟨b', hdes, hbv, hbe', -, -, hbf⟩ := Store.deserialise_packed hpub hpriv hsv
    (hbe.trans hcu.symm) (hcu ▸ hinv) (fun h => hnone (hcu ▸ h)) hnd hfind
    (by simp [Store.currentVersion, hm.version]) hbh
  have hm' := hm.after (fun n ws h => (hship n ws h).1) hbf hnames
    (fun n m' h => (hcontents n m' h).imp fun _ hm => ⟨hm.1, hm.2.sameBack⟩)
    (hbv.trans hver.symm) (hbe'.trans (hbe.trans henc.symm))
  exact ⟨b', hdes, hm'.beq_eq_true, hm'.encryptor⟩

/-- A backup copied from the store before transaction 1 of `readThenWrite` commits applies what
the commit replicates, and is then equal to the store after it. -/
theorem backup_mirrors_commit_readThenWrite :
    ∃ data, replicated (((Sys.init twoMaps).afterOps readThenWrite).apply (.commit 1)) 1 = some data ∧
      ∃ b', Store.deserialise data false ((Sys.init twoMaps).afterOps readThenWrite).store =
          .ok (.PASS, 0) b' ∧
        b'.beq (((Sys.init twoMaps).afterOps readThenWrite).apply (.commit 1)).store = true ∧
        b'.encryptor = (((Sys.init twoMaps).afterOps readThenWrite).apply (.commit 1)).store.encryptor := by
  have hf : Fresh twoMaps := ⟨by decide, rfl, le_rfl⟩
  have hh : ∀ m ∈ twoMaps.maps, m.globalHook = false := by decide
  have hr₀ : ∀ m ∈ twoMaps.maps, RollOk m := by
    intro m hm
    simp only [twoMaps, List.mem_cons, List.not_mem_nil, or_false] at hm
    rcases hm with rfl | rfl <;> exact RollOk.new _ _ _
  have hr : Sys.Reachable twoMaps ((Sys.init twoMaps).afterOps readThenWrite) :=
    Sys.Reachable.afterOps (Run.Reachable.of_init rfl) ⟨trivial, trivial, trivial, trivial⟩
  have hok : (Tx.commit (((Sys.init twoMaps).afterOps readThenWrite).store,
      ((Sys.init twoMaps).afterOps readThenWrite).txs 1)).value? = some .OK := by decide
  have hsome : (replicated (((Sys.init twoMaps).afterOps readThenWrite).apply (.commit 1)) 1).isSome =
      true := by decide
  obtain ⟨data, hdata⟩ := Option.isSome_iff_exists.mp hsome
  -- the store has no encryptor and no history
  have hnone : ((Sys.init twoMaps).afterOps readThenWrite).store.encryptor = none := rfl
  have hinv : ∀ e ∈ ((Sys.init twoMaps).afterOps readThenWrite).store.encryptor, e.Inverts := by
    intro e he
    rw [hnone] at he
    cases he
  exact ⟨data, hdata, backup_mirrors_commit hf hh hr₀ hr 1 hok hdata (Mirrors.refl _).beq_eq_true rfl
    hinv rfl⟩

end Mirror

end Ccf.Kv
