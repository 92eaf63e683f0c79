import Ccf.Kv.Map
import Mathlib.Data.List.Sort

/-!
# `kv::Store` (`kv/kv.h`)

The store owns the maps, by name, and the version counters: `version` is the
version of the last local commit, `compacted` the version below which it will never
roll back (`commit_version()`).

What the store does with a consensus, `Store::commit`, which batches pending transactions
for `replicate`, is modelled in `Ccf/Kv/Commit.lean` over the fields it adds; `Tx::commit`
here stops where it would call it, which is what the source does when `get_consensus()` is
null. The Raft side of replication is modelled in `Ccf/Raft`, where the store only receives
entries (`deserialise`) and is rolled back and compacted. Of the transaction history,
`deserialise` asks only `verify` (`TxHistory`); the leaves and results `Store::commit` hands
it are `History`.
-/

namespace Ccf.Kv

/-- `kv::TxHistory`, as `Store::deserialise` uses it: `verify(&term)` on the
signature just applied, with the term it reports, or `none` when it does not verify. -/
structure TxHistory where
  verify : Option Term

variable {K V C : Type}

/-- `kv::Store`. The maps are kept in name order, each name once, as in
`std::map<std::string, …>`. -/
structure Store (K V C : Type) where
  maps : List (Map K V)
  maps_nodup : (maps.map (·.name)).Nodup
  history : Option TxHistory
  encryptor : Option (TxEncryptor K V C)
  version : Version
  compacted : Version
  lastReplicated : Version
  rollbackCount : Nat

namespace Store

/-- A store with no maps at version 0. -/
def empty (history : Option TxHistory) (encryptor : Option (TxEncryptor K V C)) :
    Store K V C :=
  ⟨[], List.nodup_nil, history, encryptor, 0, 0, 0, 0⟩

/-- `maps.find(name)`. -/
def find (s : Store K V C) (name : String) : Option (Map K V) :=
  s.maps.find? fun m => m.name = name

/-- Apply `f` to every map, when it keeps their names. -/
def mapMaps (s : Store K V C) (f : Map K V → Map K V) (hf : ∀ m, (f m).name = m.name) :
    Store K V C :=
  { s with
    maps := s.maps.map f
    maps_nodup := by
      rw [List.map_map]
      have h : ((·.name) ∘ f) = (·.name : Map K V → String) := funext hf
      rw [h]
      exact s.maps_nodup }

/-- Replace the map named like `m` by `m`. -/
def setMap (s : Store K V C) (m : Map K V) : Store K V C :=
  s.mapMaps (fun m' => if m'.name = m.name then m else m') (by intro m'; split <;> simp_all)

/-- `current_version()`. -/
def currentVersion (s : Store K V C) : Version := s.version

/-- `commit_version()`. -/
def commitVersion (s : Store K V C) : Version := s.compacted

/-- `create`: a new empty map, unless one of that name exists. -/
def create (s : Store K V C) (name : String) (securityDomain : SecurityDomain)
    (globalHook : Bool) : Except String (Store K V C) :=
  if h : name ∈ s.maps.map (·.name) then .error "Map already exists"
  else
    .ok { s with
      maps := s.maps.orderedInsert (fun a b => a.name ≤ b.name)
        (Map.new name securityDomain globalHook)
      maps_nodup := by
        have hp := List.perm_orderedInsert (fun a b : Map K V => a.name ≤ b.name)
          (Map.new name securityDomain globalHook) s.maps
        rw [(hp.map _).nodup_iff]
        exact List.nodup_cons.mpr ⟨h, s.maps_nodup⟩ }

/-- `next_version`: the next version, wrapping to 0 rather than going negative. -/
def nextVersion (s : Store K V C) : Version × Store K V C :=
  let v := if s.version + 1 < 0 then 0 else s.version + 1
  (v, { s with version := v })

/-- `compact`: forget every state before `v`, unless `v` is beyond the current
version. -/
def compact (s : Store K V C) (v : Version) : Store K V C :=
  if v > s.currentVersion then s
  else { s.mapMaps (·.compact v) (fun _ => rfl) with compacted := v }

/-- The calls `compact` makes to the global hooks, map by map in name order: each map's
`post_compact` calls its hook on what its `compact` added to `commit_deltas`. -/
def compactHookCalls (s : Store K V C) (v : Version) : List (String × LocalCommit K V) :=
  if v > s.currentVersion then []
  else s.maps.flatMap fun m => if m.globalHook then (m.commitDeltas v).map (m.name, ·) else []

/-- `rollback`: roll every map back to `v`, unless `v` is not before the current
version or is before the compacted one. -/
def rollback (s : Store K V C) (v : Version) : Store K V C :=
  if v ≥ s.currentVersion then s
  else if v < s.commitVersion then s
  else { s.mapMaps (·.rollback v) (fun _ => rfl) with
    version := v, lastReplicated := v, rollbackCount := s.rollbackCount + 1 }

/-- `operator==`, which the source uses for debugging: the same version and number of maps, and
each map equal to the other store's map of its name. -/
def beq [DecidableEq K] [DecidableEq V] (s1 s2 : Store K V C) : Bool :=
  if s1.version ≠ s2.version then false
  else if s1.maps.length ≠ s2.maps.length then false
  else s1.maps.all fun m =>
    match s2.find m.name with
    | none => false
    | some m2 => m.beq m2

-- Made here once: the equation lemmas that the proofs below unfold.
section
attribute [local simp] find mapMaps setMap currentVersion nextVersion compact rollback beq
end

end Store

end Ccf.Kv
