import Ccf.Kv.Serialiser
import Mathlib.Data.List.AList

/-!
# `kv::Map` and its transaction views (`kv/kv.h`)

A map keeps its history as a list of local commits, `roll`: the oldest state still
needed first, the current state last. The list is never empty (`Map.roll_ne`):
the constructor starts it with the empty state at version 0, rolling back and
compacting keep at least one entry, and committing only appends.

A `TxView` is a transaction's view of one map: a snapshot of the map's state at the
transaction's read version, the keys it read with the version it saw (`reads`), and
its pending writes (`writes`: a value stamped `0`, or `NoVersion` for a removal).
`prepare` checks the reads against the map's current state and `commit` applies the
writes to it, stamping each with the commit version, or `-v` for a removal.

`champ::Map` (the states) and `std::unordered_map` (read and write sets) are
association lists; their iteration order, which the source leaves to the hash
functions, is the list order. A view names its map rather than pointing at it; the
methods that touch the map take it as an argument and return it updated.

A map may have a global hook, which `compact` feeds: the write sets it discards go to
`commit_deltas`, and `post_compact` hands each to the hook. It moves them with
`std::move`, which leaves an entry that stays in the roll with an emptied write set, or,
where the whole entry is moved, with a moved-from state as well (`LocalCommit.movedFrom`).
`commit_deltas` is filled only by `compact` and emptied by the `post_compact` that
`Store::compact` runs right after, so it is not kept: `compact` returns what it adds to
it. The spin lock and the local hook are left out: neither changes a state, a version
or a counter.
-/

namespace Ccf.Kv

/-- `Map::deleted`: a negative stamp is a tombstone. -/
def deleted (version : Version) : Bool := decide (version < 0)

-- Made here once: the equation lemmas that the proofs below unfold.
section
attribute [local simp] deleted
end

/-- `Map::VersionV`: a value with the version that wrote it. -/
structure VersionV (V : Type) where
  version : Version
  value : V
  deriving DecidableEq, Repr

/-- `Map::State`: `champ::Map<K, VersionV>`. -/
abbrev State (K V : Type) := AList fun _ : K => VersionV V

/-- `Map::Read`: the version each key was read at. -/
abbrev Read (K : Type) := AList fun _ : K => Version

/-- `Map::Write`: the pending writes. -/
abbrev Write (K V : Type) := AList fun _ : K => VersionV V

/-- `Map::LocalCommit`: a state with the version and writes that produced it. -/
structure LocalCommit (K V : Type) where
  version : Version
  state : State K V
  writes : Write K V

/-- `kv::Map`: the fields that commits, rollbacks and compactions read and write. -/
structure Map (K V : Type) where
  name : String
  rollbackCounter : Nat
  roll : List (LocalCommit K V)
  roll_ne : roll ≠ []
  securityDomain : SecurityDomain
  /-- Whether `global_hook` is set. -/
  globalHook : Bool

/-- `Map::TxView`. -/
structure TxView (K V : Type) where
  /-- The map the view is over, by name. -/
  map : String
  state : State K V
  /-- The globally committed state when the view was created. -/
  committed : State K V
  reads : Read K
  writes : Write K V
  startVersion : Version
  rollbackCounter : Nat
  readVersion : Version
  commitVersion : Version
  changes : Bool
  committedWrites : Bool

variable {K V C : Type}

/-- An entry after `std::move`: the `unordered_map` moved from is empty, and the
`champ::Map` moved from has a null root, which the model reads as the empty state (in the
source, reading it dereferences the null root). -/
def LocalCommit.movedFrom (c : LocalCommit K V) : LocalCommit K V := ⟨c.version, ∅, ∅⟩

-- Made here once: the equation lemmas that the proofs below unfold.
section
attribute [local simp] LocalCommit.movedFrom
end

namespace Map

/-- The constructor: the empty state at version 0. -/
def new (name : String) (securityDomain : SecurityDomain) (globalHook : Bool) : Map K V :=
  ⟨name, 0, [⟨0, ∅, ∅⟩], List.cons_ne_nil _ _, securityDomain, globalHook⟩

/-- `roll->back()`: the current state. -/
def back (m : Map K V) : LocalCommit K V := m.roll.getLast m.roll_ne

/-- `roll->front()`: the oldest state kept. -/
def front (m : Map K V) : LocalCommit K V := m.roll.head m.roll_ne

/-- `roll->push_back`. -/
def push (m : Map K V) (c : LocalCommit K V) : Map K V :=
  { m with roll := m.roll ++ [c], roll_ne := by simp }

-- Made here once: the equation lemmas that the proofs below unfold.
section
attribute [local simp] new back front push
end

@[simp] theorem back_push (m : Map K V) (c : LocalCommit K V) : (m.push c).back = c := by
  simp [back, push]

/-- `create_view`: the last state committed at or before `version`, or the oldest
one kept when all are later. -/
def createView (m : Map K V) (version : Version) : TxView K V :=
  let c := (m.roll.reverse.find? fun c => decide (c.version ≤ version)).getD m.front
  { map := m.name, state := c.state, committed := m.front.state, reads := ∅, writes := ∅,
    startVersion := c.version, rollbackCounter := m.rollbackCounter,
    readVersion := NoVersion, commitVersion := NoVersion, changes := false,
    committedWrites := false }

/-- The loop of `compact`, from the front: drop a state while the next one is already at
or before `v`, stopping at a state committed exactly at `v`. With a global hook it also
fills `commit_deltas`: the state committed at `v` is copied there with its write set moved
out; a discardable state with writes is moved there whole, and stays moved-from in the roll
if the loop stops at it; the one state left at the end has its write set moved out. The
roll, and what was added to `commit_deltas`. -/
def compactRoll (hook : Bool) (v : Version) :
    List (LocalCommit K V) → List (LocalCommit K V) × List (LocalCommit K V)
  | r :: n :: rest =>
      if r.version = v then
        -- globally committed but not discardable
        if hook then ({ r with writes := ∅ } :: n :: rest, [r]) else (r :: n :: rest, [])
      else
        let moved := hook && !r.writes.entries.isEmpty
        let deltas := if moved then [r] else []
        -- stop if the next state may be rolled back
        if n.version > v then ((if moved then r.movedFrom else r) :: n :: rest, deltas)
        else
          let p := compactRoll hook v (n :: rest)
          (p.1, deltas ++ p.2)
  | [r] => if hook && !r.writes.entries.isEmpty then ([{ r with writes := ∅ }], [r]) else ([r], [])
  | [] => ([], [])

-- Made here once: the equation lemmas that the proofs below unfold.
section
attribute [local simp] createView compactRoll
end

theorem compactRoll_ne (hook : Bool) (v : Version) :
    ∀ l : List (LocalCommit K V), l ≠ [] → (compactRoll hook v l).1 ≠ []
  | [], h => h
  | [_], _ => by
      simp only [compactRoll]
      split <;> simp
  | r :: n :: rest, _ => by
      unfold compactRoll
      split
      · split <;> simp
      dsimp only
      split
      · simp
      exact compactRoll_ne hook v (n :: rest) (List.cons_ne_nil _ _)

/-- `compact`: discard the states the store will never roll back to. -/
def compact (m : Map K V) (v : Version) : Map K V :=
  { m with
    roll := (compactRoll m.globalHook v m.roll).1
    roll_ne := compactRoll_ne m.globalHook v _ m.roll_ne }

/-- What `compact` adds to `commit_deltas`; `post_compact` calls the global hook on each,
in order. -/
def commitDeltas (m : Map K V) (v : Version) : List (LocalCommit K V) :=
  (compactRoll m.globalHook v m.roll).2

/-- The loop of `rollback`, on the roll read from the back: drop the last state while
it is later than `v` and not the only one. Also says whether anything was dropped. -/
def popAfter (v : Version) : List (LocalCommit K V) → List (LocalCommit K V) × Bool
  | r :: n :: rest =>
      if r.version ≤ v then (r :: n :: rest, false)
      else ((popAfter v (n :: rest)).1, true)
  | l => (l, false)

-- Made here once: the equation lemmas that the proofs below unfold.
section
attribute [local simp] compact popAfter
end

theorem popAfter_ne (v : Version) :
    ∀ l : List (LocalCommit K V), l ≠ [] → (popAfter v l).1 ≠ []
  | [], h => h
  | [_], _ => by simp [popAfter]
  | r :: n :: rest, _ => by
      unfold popAfter
      split
      · simp
      exact popAfter_ne v (n :: rest) (List.cons_ne_nil _ _)

/-- `rollback`: return to the state at `v`; a map that lost a state counts a
rollback, which fails the views created before it. -/
def rollback (m : Map K V) (v : Version) : Map K V :=
  let p := popAfter v m.roll.reverse
  { m with
    roll := p.1.reverse
    roll_ne := by simpa using popAfter_ne v _ (by simpa using m.roll_ne)
    rollbackCounter := if p.2 then m.rollbackCounter + 1 else m.rollbackCounter }

/-- `clear`: back to the empty state at version 0, with the counter reset. -/
def clear (m : Map K V) : Map K V :=
  { m with roll := [⟨0, ∅, ∅⟩], roll_ne := List.cons_ne_nil _ _, rollbackCounter := 0 }

-- Made here once: the equation lemmas that the proofs below unfold.
section
attribute [local simp] rollback clear
end

end Map

variable [DecidableEq K]

namespace TxView

/-- `reads.insert(make_pair(key, version))`: an `unordered_map` keeps the first
version recorded for a key. -/
def recordRead (reads : Read K) (key : K) (version : Version) : Read K :=
  if key ∈ reads then reads else reads.insert key version

/-- `get`: a pending write of the transaction wins, and is not a read dependency;
otherwise the snapshot is read and the version seen, or its absence, recorded. -/
def get (view : TxView K V) (key : K) : Option V × TxView K V :=
  if view.commitVersion ≠ NoVersion then (none, view)
  else
    match view.writes.lookup key with
    | some w => (if deleted w.version then none else some w.value, view)
    | none =>
        match view.state.lookup key with
        | none => (none, { view with reads := recordRead view.reads key NoVersion })
        | some found =>
            (if deleted found.version then none else some found.value,
              { view with reads := recordRead view.reads key found.version })

/-- `get_globally_committed`. -/
def getGloballyCommitted (view : TxView K V) (key : K) : Option V :=
  if view.commitVersion ≠ NoVersion then none
  else
    match view.committed.lookup key with
    | none => none
    | some found => if deleted found.version then none else some found.value

/-- `put`. -/
def put (view : TxView K V) (key : K) (value : V) : Bool × TxView K V :=
  if view.commitVersion ≠ NoVersion then (false, view)
  else (true, { view with writes := view.writes.insert key ⟨0, value⟩ })

/-- `remove`: a key written only by this transaction is forgotten; otherwise the
removal is recorded, if the snapshot has the key. -/
def remove [Inhabited V] (view : TxView K V) (key : K) : Bool × TxView K V :=
  if view.commitVersion ≠ NoVersion then (false, view)
  else
    let search := (view.state.lookup key).isSome
    if key ∈ view.writes then
      if !search then (true, { view with writes := view.writes.erase key })
      else (true, { view with writes := view.writes.replace key ⟨NoVersion, default⟩ })
    else if !search then (false, view)
    else (true, { view with writes := view.writes.insert key ⟨NoVersion, default⟩ })

/-- Call `f` on each entry until it answers `false`: the entries it was called on, and
whether it ran to the end. -/
def visitUntil (f : K → V → Bool) : List (K × V) → List (K × V) × Bool
  | [] => ([], true)
  | (k, v) :: rest =>
      if f k v then ((k, v) :: (visitUntil f rest).1, (visitUntil f rest).2)
      else ([(k, v)], false)

/-- `foreach`: the snapshot's live entries not overwritten by the transaction, then
the transaction's own live writes. Stopping early in the first loop does not stop
the second: `state.foreach`'s result is dropped. The view now depends on the whole
map (`read_version`). Returns the result and the entries `f` was called on. -/
def foreach (view : TxView K V) (f : K → V → Bool) : Bool × List (K × V) × TxView K V :=
  if view.commitVersion ≠ NoVersion then (false, [], view)
  else
    let view' := { view with readVersion := view.startVersion }
    let fromState := view.state.entries.filterMap fun e =>
      if e.1 ∉ view.writes ∧ !deleted e.2.version then some (e.1, e.2.value) else none
    let fromWrites := view.writes.entries.filterMap fun e =>
      if !deleted e.2.version then some (e.1, e.2.value) else none
    let first := visitUntil f fromState
    let second := visitUntil f fromWrites
    (second.2, first.1 ++ second.1, view')

/-- `has_writes`. -/
def hasWrites (view : TxView K V) : Bool := view.committedWrites || !view.writes.entries.isEmpty

/-- One read of `prepare`'s loop: a key read as absent must still be absent; a key
read at a version must still be there at that version. -/
def readValid (current : State K V) (key : K) (version : Version) : Bool :=
  match current.lookup key with
  | none => version = NoVersion
  | some found => version ≠ NoVersion && version = found.version

/-- `prepare`: a view without writes always passes; otherwise the map must not have
rolled back since the view was created, an iteration needs the map unchanged, and
every read must still hold in the current state. -/
def prepare (view : TxView K V) (m : Map K V) : Bool :=
  if view.writes.entries.isEmpty then true
  else if view.rollbackCounter ≠ m.rollbackCounter then false
  else
    let current := m.back
    if view.readVersion ≠ NoVersion ∧ view.readVersion ≠ current.version then false
    else view.reads.entries.all fun e => readValid current.state e.1 e.2

/-- The loop of `commit` over the write set: a write is stamped with `v`; a removal
leaves a tombstone `-v`, but only for a key the state has. Also says whether the
state changed. -/
def applyWrites [Inhabited V] (v : Version) :
    List (Σ _ : K, VersionV V) → State K V → Bool → State K V × Bool
  | [], state, changes => (state, changes)
  | w :: rest, state, changes =>
      if w.2.version ≥ 0 then applyWrites v rest (state.insert w.1 ⟨v, w.2.value⟩) true
      else if w.1 ∈ state then applyWrites v rest (state.insert w.1 ⟨-v, default⟩) true
      else applyWrites v rest state changes

/-- `commit`: apply the writes to the map's current state at version `v`; the map
records a new state only if something changed. -/
def commit [Inhabited V] (view : TxView K V) (v : Version) (m : Map K V) :
    TxView K V × Map K V :=
  if view.writes.entries.isEmpty then ({ view with commitVersion := view.startVersion }, m)
  else
    let r := applyWrites v view.writes.entries m.back.state view.changes
    let view' := { view with commitVersion := v, committedWrites := true, changes := r.2 }
    if r.2 then (view', m.push ⟨v, r.1, view.writes⟩) else (view', m)

/-- Whether a removal counts: `serialise` counts the removals of keys the map has. -/
def isRemove (v : Version) : Bool := v = NoVersion

/-- `serialise`: a map that changed is written as its name, its read set (or an
empty one), its writes and its removals, each list behind a count. -/
def serialise (view : TxView K V) (s : Serialiser K V C) (includeReads : Bool) (m : Map K V) :
    Except String (Serialiser K V C) :=
  if !view.changes then .ok s
  else do
    let s ← s.startMap m.name m.securityDomain
    let s :=
      if includeReads then
        view.reads.entries.foldl (fun s r => s.serialiseRead r.1 r.2)
          ((s.serialiseReadVersion view.readVersion).serialiseCountHeader view.reads.entries.length)
      else (s.serialiseReadVersion NoVersion).serialiseCountHeader 0
    let writes := view.writes.entries.filter fun w => !isRemove w.2.version
    let removes := view.writes.entries.filter fun w => isRemove w.2.version
    let removeCtr := (removes.filter fun w => w.1 ∈ m.back.state).length
    let s := writes.foldl (fun s w => s.serialiseWrite w.1 w.2.value)
      (s.serialiseCountHeader writes.length)
    let s := removes.foldl (fun s w => s.serialiseRemove w.1) (s.serialiseCountHeader removeCtr)
    pure s

/-- `for (i = 0; i < ctr; ++i)` over a step of the deserialiser. -/
def readN {α : Type} (step : DeserialiserM K V C α) : Nat → DeserialiserM K V C (List α)
  | 0 => pure []
  | n + 1 => do
      let a ← step
      let as ← readN step n
      pure (a :: as)

/-- `deserialise`: read a map's reads, writes and removals into the view, which
is then committed at `version`. -/
def deserialise [Inhabited V] (view : TxView K V) (version : Version) :
    DeserialiserM K V C (TxView K V) := do
  let view := { view with commitVersion := version }
  let rv ← Deserialiser.deserialiseReadVersion
  let view := if rv ≠ NoVersion then { view with readVersion := rv } else view
  let ctr ← Deserialiser.deserialiseReadHeader
  let rs ← readN Deserialiser.deserialiseRead ctr
  let view := { view with
    reads := rs.foldl (fun (r : Read K) (p : K × Version) => r.insert p.1 p.2) view.reads }
  let ctr ← Deserialiser.deserialiseWriteHeader
  let ws ← readN Deserialiser.deserialiseWrite ctr
  let view := { view with
    writes := ws.foldl (fun (w : Write K V) (p : K × V) => w.insert p.1 ⟨0, p.2⟩) view.writes }
  let ctr ← Deserialiser.deserialiseRemoveHeader
  let rms ← readN Deserialiser.deserialiseRemove ctr
  pure { view with
    writes := rms.foldl (fun (w : Write K V) k => w.insert k ⟨NoVersion, default⟩) view.writes }

-- Made here once: the equation lemmas that the proofs below unfold.
section
attribute [local simp] recordRead get put remove visitUntil foreach hasWrites readValid prepare applyWrites commit isRemove serialise readN deserialise
end

end TxView

namespace Map

variable [DecidableEq V]

/-- The loop of `operator==` over the current state of the first map: each entry must be in the
second map's current state with the same version and value (`Check::ne`, for a value type with
`operator!=`). It stops at the first entry that is not, and counts the entries it passed. -/
def beqLoop (state2 : State K V) : List (Σ _ : K, VersionV V) → Nat → Bool × Nat
  | [], i => (true, i)
  | e :: rest, i =>
      match state2.lookup e.1 with
      | none => (false, i)
      | some found =>
          if found.version ≠ e.2.version then (false, i)
          else if found.value ≠ e.2.value then (false, i)
          else beqLoop state2 rest (i + 1)

/-- `operator==`: the same name, and current states at the same version with the same entries;
the entries of the second state are counted, so that it has no others. -/
def beq (m1 m2 : Map K V) : Bool :=
  if m1.name ≠ m2.name then false
  else if m1.back.version ≠ m2.back.version then false
  else
    let count := m2.back.state.entries.length
    let r := beqLoop m2.back.state m1.back.state.entries 0
    r.1 && r.2 == count

-- Made here once: the equation lemmas that the proofs below unfold.
section
attribute [local simp] beqLoop beq
end

end Map

end Ccf.Kv
