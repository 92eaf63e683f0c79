import Ccf.Kv.Proof.Mirror

/-!
# A backup follows the primary through a whole run

`backup_mirrors_commit` carries a backup equal to the primary over one commit. Over a whole run
the backup must also go back where the primary goes back: consensus rolls a backup back when it
discards entries, and compacts it when entries commit globally, as it does the primary.
`backupStep` is what the backup does at each call into the primary: it applies with
`Store::deserialise` what a commit that returned `OK` replicated, compacts and rolls back at the
same versions, and has nothing to do for the other calls. From a fresh store with an encryptor,
over any sequence of calls, every `deserialise` passes and the backup is equal to the primary by
`Store::operator==` after each (`backup_follows_run`).

Equal current states do not survive a rollback, which brings older states back, so the relation
carried along the run is `Follows`: the same versions, encryptor and map names, and each map with
the same states in its roll, one for one (`SameRoll`). Without global hooks `compact` and
`rollback` look only at the versions in a roll, so they keep it (`SameRoll.compact`,
`SameRoll.rollback`); a commit keeps it because the backup commits the same writes on the same
states (`TxView.commit_sameRoll`).

The primary must ship whatever changed its store. A commit with writes changes its maps, since a
write of an open view is a value or the removal of a key the map still has
(`TxView.commit_changes_of_writes`), so `serialise` has something to send; with an encryptor it
cannot throw (`TxView.serialise_ok`). Any other commit leaves the store as it was
(`Tx.commit_keeps_store`). Without an encryptor, a commit writing a private map throws in
`serialise` after its writes were applied, and nothing is replicated.
-/

namespace Ccf.Kv

variable {K V C : Type} [DecidableEq K] [Inhabited V]

/-! ## Compaction and rollback read only versions -/

section Rolls

omit [DecidableEq K] [Inhabited V] in
/-- Without a global hook, `compact`'s loop drops states by their versions alone. -/
theorem compactRoll_sameState [DecidableEq K] (v : Version) {l l' : List (LocalCommit K V)}
    (h : List.Forall₂ SameState l l') :
    List.Forall₂ SameState (Map.compactRoll false v l).1 (Map.compactRoll false v l').1 := by
  -- the loop looks at two states at a time: the second is taken apart under the induction
  induction h with
  | nil => exact .nil
  | cons hr h' ih =>
      cases h' with
      | nil =>
          simp only [Map.compactRoll, Bool.false_and, Bool.false_eq_true, if_false]
          exact .cons hr .nil
      | cons hn hrest =>
          simp only [Map.compactRoll, Bool.false_and, Bool.false_eq_true, if_false, hr.version,
            hn.version]
          split_ifs
          · exact .cons hr (.cons hn hrest)
          · exact .cons hr (.cons hn hrest)
          · exact ih

omit [Inhabited V] in
theorem SameRoll.compact {m m' : Map K V} (h : SameRoll m m') (hg : m.globalHook = false)
    (hg' : m'.globalHook = false) (v : Version) : SameRoll (m.compact v) (m'.compact v) := by
  show List.Forall₂ SameState (Map.compactRoll m.globalHook v m.roll).1
    (Map.compactRoll m'.globalHook v m'.roll).1
  rw [hg, hg']
  exact compactRoll_sameState v h

omit [DecidableEq K] [Inhabited V] in
/-- `rollback`'s loop drops states from the back by their versions alone. -/
theorem popAfter_sameState [DecidableEq K] (v : Version) {l l' : List (LocalCommit K V)}
    (h : List.Forall₂ SameState l l') :
    List.Forall₂ SameState (Map.popAfter v l).1 (Map.popAfter v l').1 := by
  induction h with
  | nil => exact .nil
  | cons hr h' ih =>
      cases h' with
      | nil => exact .cons hr .nil
      | cons hn hrest =>
          simp only [Map.popAfter, hr.version]
          split
          · exact .cons hr (.cons hn hrest)
          · exact ih

omit [Inhabited V] in
theorem SameRoll.rollback {m m' : Map K V} (h : SameRoll m m') (v : Version) :
    SameRoll (m.rollback v) (m'.rollback v) :=
  List.forall₂_reverse_iff.mpr (popAfter_sameState v (List.forall₂_reverse_iff.mpr h))

end Rolls

/-! ## A commit that changed the store ships data -/

section Ships

omit [Inhabited V] in
/-- With an encryptor, `serialise` of a view whose removals are of keys its map has cannot throw,
and keeps the encryptor. -/
theorem TxView.serialise_ok {view : TxView K V} {m : Map K V} (hrm : RemovalsIn view m)
    {ser : Serialiser K V C} (he : ser.cryptoUtil.isSome) :
    ∃ ser', view.serialise ser false m = .ok ser' ∧ ser'.cryptoUtil = ser.cryptoUtil := by
  cases hc : view.changes with
  | false => exact ⟨ser, TxView.serialise_unchanged ser m hc, rfl⟩
  | true =>
      have hnone : ¬(m.securityDomain = .PRIVATE ∧ ser.cryptoUtil.isNone) := by
        rintro ⟨-, hn⟩
        simp_all
      rw [TxView.serialise_changed ser hc hrm, if_neg hnone]
      exact ⟨_, rfl, (Serialiser.emit_writers _ _).2.2.2.2⟩

omit [Inhabited V] in
/-- With an encryptor, `serialise` of a transaction committed with success, a view of which changed
its map and each view of which removes only keys its map has, sends data. -/
theorem Tx.serialise_some {tx : Tx K V} {s : Store K V C} (hc : tx.committed = true)
    (hs : tx.success = true) (hch : ∃ p ∈ tx.viewList, p.2.changes = true)
    (he : s.encryptor.isSome)
    (hrm : ∀ p ∈ tx.viewList, ∀ m, s.find p.2.map = some m → RemovalsIn p.2 m) :
    ∃ data, tx.serialise s false = .ok (some data) := by
  obtain ⟨p, hp, hpc⟩ := hch
  rw [Tx.serialise_of_changes hc hs (List.any_eq_true.mpr ⟨p, hp, hpc⟩)]
  -- every step of the fold returns, the encryptor staying
  obtain ⟨ser, hfold, -⟩ := Except.foldlM_ok_of (P := fun ser : Serialiser K V C => ser.cryptoUtil.isSome)
    _ (Serialiser.init s.encryptor tx.version) (fun ser vm hvm hP => by
      obtain ⟨q, hq, hv, hm⟩ := mem_shipped_append hvm
      have hrmq : RemovalsIn vm.1 vm.2 := by
        rw [hv]
        exact hrm q hq _ hm
      obtain ⟨ser', hser', hcu⟩ := TxView.serialise_ok hrmq hP
      exact ⟨ser', hser', hcu ▸ hP⟩) he
  rw [hfold]
  exact ⟨_, rfl⟩

/-- A view with writes that passes `prepare` with the map it tracks changes that map when it
commits: its first write is a value, or the removal of a key the map has. -/
theorem TxView.commit_changes_of_writes {s : Store K V C} {view : TxView K V} {m : Map K V}
    (hok : ViewOk view) (htr : Tracks s view) (hm : s.find view.map = some m)
    (hp : view.prepare m = true) (hw : view.writes.entries ≠ []) (v : Version) :
    (view.commit v m).1.changes = true := by
  obtain ⟨w, hw'⟩ := List.exists_mem_of_ne_nil _ hw
  have hlk : view.writes.lookup w.1 = some w.2 := AList.mem_lookup_iff.mpr hw'
  have hchange : (decide (w.2.version ≥ 0) || decide (w.1 ∈ m.back.state)) = true := by
    by_cases h0 : w.2.version = 0
    · simp [h0]
    · simp [TxView.removal_mem_back hok htr hm hp hlk h0]
  have hany : (view.writes.entries.any fun w => decide (w.2.version ≥ 0) ||
      decide (w.1 ∈ m.back.state)) = true := List.any_eq_true.mpr ⟨w, hw', hchange⟩
  unfold TxView.commit
  rw [if_neg (by simpa [List.isEmpty_iff] using hw)]
  dsimp only
  split <;>
  · rw [applyWrites_changes v _ _ _ view.writes.nodupKeys, hany, Bool.or_true]

variable {sys : Sys K V C} {t : Nat}

/-- With an encryptor, `Tx::commit(views, f)` of an open transaction whose views write leaves a
transaction that `serialise` sends. -/
theorem Tx.commit_serialises (hi : Inv sys) (hS : Serial sys) (hU : (sys.txs t).Unapplied)
    (ho : (sys.txs t).committed = false) (he : sys.store.encryptor.isSome) {version : Version}
    {s₁ : Store K V C} {views₁ : List (String × TxView K V)}
    (hcv : Tx.commitViews sys.store (sys.txs t).viewList Store.nextVersion = some (version, s₁, views₁))
    (hw : (sys.txs t).viewList.any (·.2.hasWrites) = true) :
    ∃ data, Tx.serialise
      { sys.txs t with committed := true, success := true, version := version,
                       viewList := views₁ } s₁ false = .ok (some data) := by
  obtain ⟨hprep, hbranch⟩ := Tx.commitViews_spec hcv
  rcases hbranch with ⟨hnw, -, -⟩ | ⟨-, rfl, rfl⟩
  · rw [hw] at hnw
    cases hnw
  have hnext := Store.nextVersion_of_nonneg (hi.compacted_nonneg.trans hi.compacted_le)
  rw [hnext]
  set vs := (sys.txs t).viewList
  set v₁ := sys.store.version + 1
  set s₁ : Store K V C := { sys.store with version := v₁ }
  have hshape : ViewsShape vs := (hS.txs t).shape
  have hshape' : ViewsShape (Tx.commitEach v₁ s₁ vs).2 :=
    hshape.of_frames (Tx.commitEach_grows v₁ vs s₁).2
  have hpair := Tx.commitEach_pair (s := s₁) hshape hprep v₁
  refine Tx.serialise_some rfl rfl ?_ ?_ ?_
  · -- a view with writes changes its map: the open view has committed nothing yet
    obtain ⟨p, hp, hpw⟩ := List.any_eq_true.mp hw
    have hne : p.2.writes.entries ≠ [] := by
      have hcw := (hU ho p hp).2
      simpa [TxView.hasWrites, hcw, List.isEmpty_iff] using hpw
    obtain ⟨m, hm, hprep'⟩ := Tx.prepareAll_find hshape hprep hp
    obtain ⟨hok, htr⟩ := (hS.txs t).views p hp
    have hmap : sys.store.find p.2.map = some m := by
      rw [hshape.map p hp]
      exact hm
    refine ⟨(p.1, (p.2.commit v₁ m).1), ?_, TxView.commit_changes_of_writes hok htr hmap hprep' hne v₁⟩
    have hl := Tx.commitEach_lookup v₁ vs s₁ hshape p.1
    have hm₁ : s₁.find p.1 = some m := hm
    rw [(List.lookup_eq_some_iff_mem hshape.nodup).mpr hp] at hl
    simp only [Option.map_some, hm₁, Option.getD_some] at hl
    exact (List.lookup_eq_some_iff_mem hshape'.nodup).mp hl
  · rw [Tx.commitEach_encryptor]
    exact he
  · -- each view committed removes only keys its map has
    intro p hp m' hm'
    obtain ⟨view, m, hmem, hm, hprep', hp2, hfm⟩ := hpair p hp
    rw [hshape'.map p hp, hfm] at hm'
    cases hm'
    rw [hp2]
    obtain ⟨hok, htr⟩ := (hS.txs t).views _ hmem
    have hmap : sys.store.find view.map = some m := by
      rw [hshape.map _ hmem]
      exact hm
    exact TxView.commit_removalsIn hok htr hmap hprep' v₁

/-- With an encryptor, a commit leaves the store as it was unless it returns `OK` and replicates
data. -/
theorem Tx.commit_keeps_store (hi : Inv sys) (hS : Serial sys) (hU : (sys.txs t).Unapplied)
    (he : sys.store.encryptor.isSome)
    (h : (Tx.commit (sys.store, sys.txs t)).value? = some .OK →
      replicated (sys.apply (.commit t)) t = none) :
    (Tx.commit (sys.store, sys.txs t)).state.1 = sys.store := by
  -- the run ends with the store as it was, or returns `OK` with data to send
  have hwp : EStateM.wp Tx.commit (fun a st => st.1 = sys.store ∨
      (a = .OK ∧ ∃ data, st.2.serialise st.1 false = .ok (some data)))
      (fun st => st.1 = sys.store) (sys.store, sys.txs t) := by
    simp only [Tx.commit, EStateM.wp_bind, EStateM.wp_getState, EStateM.wp_ite, EStateM.wp_throw,
      EStateM.wp_set, EStateM.wp_pure]
    split
    · trivial
    next hc =>
    split
    · exact .inl trivial
    split
    · exact .inl rfl
    next version s₁ views₁ hcv =>
    by_cases hw : (sys.txs t).viewList.any (·.2.hasWrites) = true
    · obtain ⟨data, hdata⟩ := Tx.commit_serialises hi hS hU (by simpa using hc) he hcv hw
      split
      · next e hse =>
        rw [hdata] at hse
        cases hse
      · exact .inr ⟨rfl, data, hdata⟩
    · -- without writes the store is left as it was
      obtain ⟨-, ⟨-, rfl, -⟩ | ⟨hw', -, -⟩⟩ := Tx.commitViews_spec hcv
      · split
        · rfl
        · exact .inl rfl
      · exact absurd hw' hw
  rcases EStateM.wp_cases hwp with hst | ⟨a, ha, rfl, data, hdata⟩
  · exact hst
  · -- a commit that returned `OK` with data replicates it
    have hrep := h ha
    simp only [replicated, Sys.apply, Sys.update, Function.update_self] at hrep
    simp [hdata] at hrep

end Ships

/-! ## The relation a backup keeps with the primary -/

section Follows

/-- A backup follows a store: the same versions, encryptor and map names, no history of its own,
and each map with the same states in its roll as the store's map of its name, and no global
hook. -/
structure Follows (b s : Store K V C) : Prop where
  version : b.version = s.version
  compacted : b.compacted = s.compacted
  encryptor : b.encryptor = s.encryptor
  history : b.history = none
  names : ∀ n, (b.find n).isSome = (s.find n).isSome
  rolls : ∀ n mb m, b.find n = some mb → s.find n = some m → SameRoll mb m
  noHook : ∀ n mb, b.find n = some mb → mb.globalHook = false

variable {b s : Store K V C}

omit [Inhabited V] in
/-- A copy of a store without its history follows it. -/
theorem Follows.init (h : ∀ m ∈ s.maps, m.globalHook = false) : Follows { s with history := none } s :=
  ⟨rfl, rfl, rfl, rfl, fun _ => rfl, fun _ _ _ hb hs => by
    change s.find _ = _ at hb
    rw [hb] at hs
    cases hs
    exact SameRoll.refl _, fun _ _ hb => h _ (Store.find_spec hb).1⟩

omit [Inhabited V] in
/-- A backup that follows a store is equal to it by `Store::operator==`. -/
theorem Follows.mirrors (h : Follows b s) : Mirrors b s :=
  ⟨h.version, h.encryptor, h.names, fun n mb m hb hs => (h.rolls n mb m hb hs).sameBack⟩

omit [Inhabited V] in
/-- Both stores apply to every map one function that keeps names and hooks and keeps rolls with
the same states without hooks. -/
theorem Follows.mapMaps (h : Follows b s) {f : Map K V → Map K V} (hn : ∀ m, (f m).name = m.name)
    (hhook : ∀ m, (f m).globalHook = m.globalHook)
    (hroll : ∀ {mb m}, mb.globalHook = false → m.globalHook = false → SameRoll mb m →
      SameRoll (f mb) (f m))
    (hs : ∀ n m, s.find n = some m → m.globalHook = false) :
    Follows (b.mapMaps f hn) (s.mapMaps f hn) := by
  have hfb : ∀ n, (b.mapMaps f hn).find n = (b.find n).map f := fun _ => Store.find_of_maps hn rfl
  have hfs : ∀ n, (s.mapMaps f hn).find n = (s.find n).map f := fun _ => Store.find_of_maps hn rfl
  refine ⟨h.version, h.compacted, h.encryptor, h.history, fun n => ?_, fun n mb' m' hmb' hm' => ?_,
    fun n mb' hmb' => ?_⟩
  · rw [hfb, hfs, Option.isSome_map, Option.isSome_map, h.names]
  · rw [hfb] at hmb'
    rw [hfs] at hm'
    obtain ⟨mb, hmb, rfl⟩ := Option.map_eq_some_iff.mp hmb'
    obtain ⟨m, hm, rfl⟩ := Option.map_eq_some_iff.mp hm'
    exact hroll (h.noHook n mb hmb) (hs n m hm) (h.rolls n mb m hmb hm)
  · rw [hfb] at hmb'
    obtain ⟨mb, hmb, rfl⟩ := Option.map_eq_some_iff.mp hmb'
    rw [hhook]
    exact h.noHook n mb hmb

omit [Inhabited V] in
/-- Compacting both at one version keeps the relation: the guard reads only the version. -/
theorem Follows.compact (h : Follows b s) (hs : ∀ n m, s.find n = some m → m.globalHook = false)
    (v : Version) : Follows (b.compact v) (s.compact v) := by
  have hm := h.mapMaps (f := (·.compact v)) (fun _ => rfl) (fun _ => rfl)
    (fun hg hg' hr => hr.compact hg hg' v) hs
  unfold Store.compact
  rw [show b.currentVersion = s.currentVersion from h.version]
  split_ifs
  · exact h
  · exact ⟨hm.version, rfl, hm.encryptor, hm.history, hm.names, hm.rolls, hm.noHook⟩

omit [Inhabited V] in
/-- Rolling both back to one version keeps the relation: the guards read only the versions. -/
theorem Follows.rollback (h : Follows b s) (hs : ∀ n m, s.find n = some m → m.globalHook = false)
    (v : Version) : Follows (b.rollback v) (s.rollback v) := by
  have hm := h.mapMaps (f := (·.rollback v)) (fun _ => rfl) (fun _ => rfl)
    (fun _ _ hr => hr.rollback v) hs
  unfold Store.rollback
  rw [show b.currentVersion = s.currentVersion from h.version,
    show b.commitVersion = s.commitVersion from h.compacted]
  split_ifs
  · exact h
  · exact h
  · exact ⟨rfl, hm.compacted, hm.encryptor, hm.history, hm.names, hm.rolls, hm.noHook⟩

theorem TxView.commit_globalHook (view : TxView K V) (v : Version) (m : Map K V) :
    (view.commit v m).2.globalHook = m.globalHook := by
  rw [TxView.commit_snd]
  split <;> rfl

variable {sys : Sys K V C} {t : Nat}

/-- A backup that follows the store passes `Store::deserialise` of what a commit that returned
`OK` replicated, and then follows the store the commit left. -/
theorem Follows.commit (h : Follows b sys.store) (hi : Inv sys) (hS : Serial sys)
    (hU : (sys.txs t).Unapplied) (hinv : ∀ e ∈ sys.store.encryptor, e.Inverts)
    (hok : (Tx.commit (sys.store, sys.txs t)).value? = some .OK) {data : RawTx K V C}
    (hdata : replicated (sys.apply (.commit t)) t = some data) :
    ∃ b', Store.deserialise data false b = .ok (.PASS, 0) b' ∧
      Follows b' (sys.apply (.commit t)).store := by
  have hser := serialise_of_replicated hdata
  simp only [Sys.apply, Sys.update, Function.update_self] at hser ⊢
  obtain ⟨ser, pubs, privs, rfl, hpub, hpriv, hsv, hcu, hnone, hnd, hship, hver, henc, hcomp,
    hnames, hrolls⟩ := Tx.commit_ships hi hS hU hok hser
  -- every map shipped is one the backup has
  have hfind : ∀ p ∈ pubs ++ privs, (b.find p.1).isSome := by
    intro p hp
    rw [h.names p.1]
    exact (hship p.1 p.2 ((List.lookup_eq_some_iff_mem hnd).mpr hp)).2
  obtain ⟨b', hdes, hbv, hbe, hbh, hbc, hbf⟩ := Store.deserialise_packed hpub hpriv hsv
    (h.encryptor.trans hcu.symm) (hcu ▸ hinv) (fun h => hnone (hcu ▸ h)) hnd hfind
    (by simp [Store.currentVersion, h.version]) h.history
  refine ⟨b', hdes, hbv.trans hver.symm, hbc.trans (h.compacted.trans hcomp.symm),
    hbe.trans (h.encryptor.trans henc.symm), hbh.trans h.history, fun n => ?_,
    fun n mb' m' hmb' hm' => ?_, fun n mb' hmb' => ?_⟩
  · rw [hbf n, Option.isSome_map, hnames n, h.names n]
  · -- the backup commits on its map the writes the store committed on its own
    obtain ⟨m, hm, hk⟩ := hrolls n m' hm'
    rw [hbf n] at hmb'
    obtain ⟨mb, hmb, rfl⟩ := Option.map_eq_some_iff.mp hmb'
    refine SameRoll.trans ?_ hk.symm
    cases hw : (pubs ++ privs).lookup n with
    | none => exact h.rolls n mb m hmb hm
    | some ws => exact readBack_sameRoll (hship n ws hw).1 (h.rolls n mb m hmb hm) _
  · rw [hbf n] at hmb'
    obtain ⟨mb, hmb, rfl⟩ := Option.map_eq_some_iff.mp hmb'
    cases (pubs ++ privs).lookup n with
    | none => exact h.noHook n mb hmb
    | some ws => exact (TxView.commit_globalHook _ _ _).trans (h.noHook n mb hmb)

end Follows

/-! ## A backup beside the primary, over whole runs -/

section Backup

/-- What a backup does at a call into the primary `sys`: it applies with `Store::deserialise` what
a commit that returned `OK` replicated, and compacts and rolls back at the versions the primary
does; the other calls touch no store. `none` when a `deserialise` does not pass. -/
def backupStep (sys : Sys K V C) (b : Store K V C) : Op K V → Option (Store K V C)
  | .commit t =>
      if (Tx.commit (sys.store, sys.txs t)).value? = some .OK then
        match replicated (sys.apply (.commit t)) t with
        | none => some b
        | some data =>
            match Store.deserialise data false b with
            | .ok (.PASS, _) b' => some b'
            | _ => none
      else some b
  | .compact v => some (b.compact v)
  | .rollback v => some (b.rollback v)
  | _ => some b

/-- The backup over a sequence of calls into the primary, stopping at the first failure. -/
def backupRun : Sys K V C → Store K V C → List (Op K V) → Option (Store K V C)
  | _, b, [] => some b
  | sys, b, op :: ops => (backupStep sys b op).bind fun b' => backupRun (sys.apply op) b' ops

-- Made here once: the equation lemmas that the proofs below unfold.
section
attribute [local simp] backupStep backupRun
end

/-- No call changes the store's encryptor. -/
theorem Sys.apply_encryptor (sys : Sys K V C) (op : Op K V) :
    (sys.apply op).store.encryptor = sys.store.encryptor := by
  cases op with
  | getView t name =>
      simp only [Sys.apply]
      split <;> rfl
  | commit t =>
      rcases Tx.commit_cases sys.store (sys.txs t) with ⟨hs, -⟩ | ⟨hs, -⟩
      · exact congrArg Store.encryptor hs
      · exact (congrArg Store.encryptor hs).trans (Tx.commitEach_keeps _ _ _).1
  | compact v =>
      simp only [Sys.apply, Store.compact]
      split <;> rfl
  | rollback v =>
      simp only [Sys.apply, Store.rollback]
      split_ifs <;> rfl
  | get | put | remove | foreach => rfl

variable {sys : Sys K V C} {b : Store K V C}

/-- **One call.** In a state where the invariants hold, with an encryptor that decrypts what it
encrypts, a backup that follows the store gets through what it does at any call, and follows the
store after it. -/
theorem backupStep_follows (hi : Inv sys) (hS : Serial sys) (hU : ∀ t, (sys.txs t).Unapplied)
    (he : sys.store.encryptor.isSome) (hinv : ∀ e ∈ sys.store.encryptor, e.Inverts)
    (h : Follows b sys.store) (op : Op K V) :
    ∃ b', backupStep sys b op = some b' ∧ Follows b' (sys.apply op).store := by
  have hs : ∀ n m, sys.store.find n = some m → m.globalHook = false :=
    fun _ m hm => (hi.maps m (Store.find_spec hm).1).noHook
  cases op with
  | getView t name =>
      refine ⟨b, rfl, ?_⟩
      simp only [Sys.apply]
      split <;> exact h
  | commit t =>
      -- a commit that replicates nothing leaves the store as it was
      have hkept : ((Tx.commit (sys.store, sys.txs t)).value? = some .OK →
          replicated (sys.apply (.commit t)) t = none) → Follows b (sys.apply (.commit t)).store := by
        intro hn
        show Follows b (Tx.commit (sys.store, sys.txs t)).state.1
        rw [Tx.commit_keeps_store hi hS (hU t) he hn]
        exact h
      by_cases hok : (Tx.commit (sys.store, sys.txs t)).value? = some .OK
      · cases hrep : replicated (sys.apply (.commit t)) t with
        | none => exact ⟨b, by simp only [backupStep, hok, hrep, if_true], hkept fun _ => hrep⟩
        | some data =>
            obtain ⟨b', hdes, hb'⟩ := h.commit hi hS (hU t) hinv hok hrep
            exact ⟨b', by simp only [backupStep, hok, hrep, hdes, if_true], hb'⟩
      · exact ⟨b, by simp only [backupStep, hok, if_false], hkept fun h => absurd h hok⟩
  | compact v => exact ⟨_, rfl, h.compact hs v⟩
  | rollback v => exact ⟨_, rfl, h.rollback hs v⟩
  | get | put | remove | foreach => exact ⟨b, rfl, h⟩

variable {s₀ : Store K V C} (h₀ : Fresh s₀) (hh : ∀ m ∈ s₀.maps, m.globalHook = false)
  (hr₀ : ∀ m ∈ s₀.maps, RollOk m) (he : s₀.encryptor.isSome)
  (hinv : ∀ e ∈ s₀.encryptor, e.Inverts)
include h₀ hh hr₀ he hinv

/-- **Every run.** From any state reachable from a fresh store with an encryptor that decrypts what
it encrypts, a backup that follows the store gets through any sequence of enabled calls, and then
follows the store. The induction is on the calls; the invariants of the reachable states carry
each step. -/
theorem backupRun_follows {ops : List (Op K V)} :
    ∀ {sys : Sys K V C} {b : Store K V C}, Sys.Reachable s₀ sys →
      sys.store.encryptor = s₀.encryptor → Follows b sys.store → Sys.AllEnabled sys ops →
      ∃ b', backupRun sys b ops = some b' ∧ Follows b' (sys.afterOps ops).store := by
  induction ops with
  | nil => exact fun _ _ h _ => ⟨_, rfl, h⟩
  | cons op ops ih =>
      intro sys b hr hse h hen
      obtain ⟨b₁, hb₁, h₁⟩ := backupStep_follows (Inv.reachable h₀ hh hr)
        (Serial.reachable h₀ hh hr₀ hr) (Unapplied.reachable hr) (hse ▸ he) (hse ▸ hinv) h op
      obtain ⟨b', hb', h'⟩ := ih (Run.Reachable.tail hr ⟨op, hen.1, rfl⟩)
        ((Sys.apply_encryptor sys op).trans hse) h₁ hen.2
      exact ⟨b', by rw [backupRun, hb₁, Option.bind_some, hb'], h'⟩

variable [DecidableEq V]

/-- **A backup follows the primary through any run.** From a fresh store whose maps have no
global hook and start as one line of history, with an encryptor that decrypts what it encrypts, a
backup that starts as a copy of the store without its history, applies with `Store::deserialise`
what each commit returning `OK` replicates, and compacts and rolls back where the primary does,
gets through every `deserialise` of any sequence of calls, and is then equal to the primary by
`Store::operator==`. -/
theorem backup_follows_run {ops : List (Op K V)} (hen : Sys.AllEnabled (Sys.init s₀) ops) :
    ∃ b, backupRun (Sys.init s₀) { s₀ with history := none } ops = some b ∧
      b.beq ((Sys.init s₀).afterOps ops).store = true := by
  obtain ⟨b, hb, h⟩ := backupRun_follows h₀ hh hr₀ he hinv (Run.Reachable.of_init rfl) rfl
    (Follows.init hh) hen
  exact ⟨b, hb, h.mirrors.beq_eq_true⟩

end Backup

/-- An encryptor that leaves the private domain as it is, and so decrypts what it encrypts. -/
def clearEncryptor : TxEncryptor Nat Nat (List (Token Nat Nat)) :=
  ⟨fun priv _ _ => priv, fun c _ _ => some c⟩

/-- A public map `A` and a private map `P`, both empty, at version 0, with `clearEncryptor`. -/
def publicAndPrivate : Store Nat Nat (List (Token Nat Nat)) :=
  ⟨[Map.new "A" .PUBLIC false, Map.new "P" .PRIVATE false], by decide, none, some clearEncryptor,
    0, 0, 0, 0⟩

/-- Transaction 1 writes `A` and `P` and commits; transaction 2 removes the key of `A` and
commits; the store then compacts at version 1 and rolls back to it. -/
def writeRemoveRollback : List (Op Nat Nat) :=
  [.getView 1 "A", .put 1 "A" 0 1, .getView 1 "P", .put 1 "P" 0 2, .commit 1,
    .getView 2 "A", .remove 2 "A" 0, .commit 2, .compact 1, .rollback 1]

-- Made here once: the equation lemmas that the proofs below unfold.
section
attribute [local simp] publicAndPrivate
end

/-- A backup of `publicAndPrivate` follows it through `writeRemoveRollback`. -/
theorem backup_follows_run_writeRemoveRollback :
    ∃ b, backupRun (Sys.init publicAndPrivate) { publicAndPrivate with history := none }
        writeRemoveRollback = some b ∧
      b.beq ((Sys.init publicAndPrivate).afterOps writeRemoveRollback).store = true := by
  have hf : Fresh publicAndPrivate := ⟨by decide, rfl, le_rfl⟩
  have hh : ∀ m ∈ publicAndPrivate.maps, m.globalHook = false := by decide
  have hr₀ : ∀ m ∈ publicAndPrivate.maps, RollOk m := by
    intro m hm
    simp only [publicAndPrivate, List.mem_cons, List.not_mem_nil, or_false] at hm
    rcases hm with rfl | rfl <;> exact RollOk.new _ _ _
  have hinv : ∀ e ∈ publicAndPrivate.encryptor, e.Inverts := by
    intro e he priv pub v
    simp only [publicAndPrivate, Option.mem_def, Option.some.injEq] at he
    subst he
    rfl
  -- only the compaction has a condition: nothing was compacted before it
  have hen : Sys.AllEnabled (Sys.init publicAndPrivate) writeRemoveRollback :=
    ⟨trivial, trivial, trivial, trivial, trivial, trivial, trivial, trivial,
      show Store.commitVersion _ ≤ 1 by decide, trivial, trivial⟩
  exact backup_follows_run hf hh hr₀ rfl hinv hen

end Ccf.Kv
