import Ccf.Kv.Store

/-!
# `kv::Tx`, and `Store::deserialise` (`kv/kv.h`)

A transaction holds one view per map it has touched, in name order
(`OrderedViews`). The first view fixes the read version every later view is created
at: the store's current version, or its compacted one after `set_read_committed`.

`Tx::commit(views, f)` is the store's only way to apply writes: it prepares every
view, and when all pass and some have writes, takes a version from `f` and commits
each view at it. A local transaction gets its version from `next_version`; a
replicated one, in `Store::deserialise`, the version it was serialised at. The whole
call runs under the maps' locks, so it is one step here.

A view is reached through its transaction by the name of its map (`Tx.get`,
`Tx.put`, …); `TxView` has the operations themselves.
-/

namespace Ccf.Kv

variable {K V C : Type}

/-- `kv::Tx`. -/
structure Tx (K V : Type) where
  viewList : List (String × TxView K V)
  committed : Bool
  success : Bool
  readVersion : Version
  version : Version
  readGloballyCommitted : Bool

/-- Add a view to `OrderedViews`, keeping name order. -/
def insertView (name : String) (view : TxView K V) (views : List (String × TxView K V)) :
    List (String × TxView K V) :=
  views.orderedInsert (fun a b => a.1 ≤ b.1) (name, view)

/-- Replace the view of the map `name`. -/
def setView (name : String) (view : TxView K V) (views : List (String × TxView K V)) :
    List (String × TxView K V) :=
  views.map fun p => if p.1 = name then (name, view) else p

-- Made here once: the equation lemmas that the proofs below unfold.
section
attribute [local simp] insertView setView
end

namespace Tx

/-- The constructor. -/
def new : Tx K V := ⟨[], false, false, NoVersion, NoVersion, false⟩

/-- The view of the map `name`, if the transaction has one. -/
def view? (tx : Tx K V) (name : String) : Option (TxView K V) := tx.viewList.lookup name

/-- `get_view` (`get_tuple`): the view of `m`, created at the transaction's read
version, which the first view fixes. -/
def getView (tx : Tx K V) (s : Store K V C) (m : Map K V) : Tx K V :=
  match tx.view? m.name with
  | some _ => tx
  | none =>
      let rv :=
        if tx.viewList.isEmpty ∧ tx.readVersion = NoVersion then
          if tx.readGloballyCommitted then s.commitVersion else s.currentVersion
        else tx.readVersion
      { tx with readVersion := rv, viewList := insertView m.name (m.createView rv) tx.viewList }

/-- `set_read_committed`. -/
def setReadCommitted (tx : Tx K V) : Except String (Tx K V) :=
  if tx.readVersion = NoVersion then .ok { tx with readGloballyCommitted := true }
  else .error "Cannot set_read_committed, read_version is already set"

/-- Run an operation of the view of `name`; without a view nothing happens. -/
def onView {α : Type} (tx : Tx K V) (name : String) (none_ : α)
    (op : TxView K V → α × TxView K V) : α × Tx K V :=
  match tx.view? name with
  | none => (none_, tx)
  | some view =>
      let r := op view
      (r.1, { tx with viewList := setView name r.2 tx.viewList })

-- Made here once: the equation lemmas that the proofs below unfold.
section
attribute [local simp] new getView onView
end

variable [DecidableEq K]

def get (tx : Tx K V) (name : String) (key : K) : Option V × Tx K V :=
  tx.onView name none fun v => v.get key

def put (tx : Tx K V) (name : String) (key : K) (value : V) : Bool × Tx K V :=
  tx.onView name false fun v => v.put key value

def remove [Inhabited V] (tx : Tx K V) (name : String) (key : K) : Bool × Tx K V :=
  tx.onView name false fun v => v.remove key

def foreach (tx : Tx K V) (name : String) (f : K → V → Bool) :
    (Bool × List (K × V)) × Tx K V :=
  tx.onView name (false, []) fun v =>
    let r := v.foreach f
    ((r.1, r.2.1), r.2.2)

/-- `prepare` of every view, against its map in the store. -/
def prepareAll (s : Store K V C) (views : List (String × TxView K V)) : Bool :=
  views.all fun p =>
    match s.find p.2.map with
    | some m => p.2.prepare m
    | none => false

/-- `commit(version)` of each view in turn, on its map in the store. -/
def commitEach [Inhabited V] (version : Version) :
    Store K V C → List (String × TxView K V) → Store K V C × List (String × TxView K V)
  | s, [] => (s, [])
  | s, (n, view) :: rest =>
      match s.find view.map with
      | none => let r := commitEach version s rest; (r.1, (n, view) :: r.2)
      | some m =>
          let c := view.commit version m
          let r := commitEach version (s.setMap c.2) rest
          (r.1, (n, c.1) :: r.2)

/-- `Tx::commit(views, f)`: `none` if a view fails `prepare`; otherwise the version
used (0 when no view has writes), the store and the committed views. -/
def commitViews [Inhabited V] (s : Store K V C) (views : List (String × TxView K V))
    (f : Store K V C → Version × Store K V C) :
    Option (Version × Store K V C × List (String × TxView K V)) :=
  if !prepareAll s views then none
  else if views.any (·.2.hasWrites) then
    let (version, s) := f s
    let r := commitEach version s views
    some (version, r.1, r.2)
  else some (0, s, views)

-- Made here once: the equation lemmas that the proofs below unfold.
section
attribute [local simp] get put remove foreach prepareAll commitEach commitViews
end

/-- `serialise`: nothing when no map changed; otherwise the public maps then the
private ones, each group in name order. -/
def serialise (tx : Tx K V) (s : Store K V C) (includeReads : Bool) :
    Except String (Option (RawTx K V C)) := do
  if !tx.committed then throw "Transaction not yet committed"
  if !tx.success then throw "Transaction aborted"
  if !tx.viewList.any (·.2.changes) then return none
  let inDomain (d : SecurityDomain) := tx.viewList.filterMap fun p =>
    match s.find p.2.map with
    | some m => if m.securityDomain = d then some (p.2, m) else none
    | none => none
  let ser ← (inDomain .PUBLIC ++ inDomain .PRIVATE).foldlM
    (fun ser vm => vm.1.serialise ser includeReads vm.2) (Serialiser.init s.encryptor tx.version)
  pure (some ser.getRawData)

/-- `commit`: conflicts leave the store as it was; a successful commit is serialised
for replication, and with no consensus is then `OK`. The serialiser may throw after
the writes were applied: the store keeps them, as the C++ store does. -/
def commit [Inhabited V] : EStateM String (Store K V C × Tx K V) CommitSuccess := do
  let (s, tx) ← EStateM.get
  if tx.committed then throw "Transaction already committed"
  let tx := { tx with committed := true }
  if tx.viewList.isEmpty then
    set (s, { tx with success := true })
    return .OK
  match commitViews s tx.viewList Store.nextVersion with
  | none =>
      set (s, { tx with success := false })
      pure .CONFLICT
  | some (version, s, views) =>
      let tx := { tx with success := true, version := version, viewList := views }
      set (s, tx)
      match tx.serialise s false with
      | .error e => throw e
      | .ok _ => pure .OK

-- Made here once: the equation lemmas that the proofs below unfold.
section
attribute [local simp] serialise commit
end

end Tx

/-- The map loop of `Store::deserialise`: each map named in the data must exist and
appear once; its view, created at `v`, reads its writes. `none` is a `FAILED`
return. Each round reads a map header, so the number of values left bounds the
rounds. -/
def deserialiseMaps [DecidableEq K] [Inhabited V] (s : Store K V C) (v : Version) :
    Nat → List (String × TxView K V) → DeserialiserM K V C (Option (List (String × TxView K V)))
  | 0, views => pure (some views)
  | fuel + 1, views => do
      match ← Deserialiser.startMap with
      | none => pure (some views)
      | some name =>
          match s.find name with
          | none => pure none
          | some m =>
              if (views.lookup name).isSome then pure none
              else do
                let view ← (m.createView v).deserialise v
                deserialiseMaps s v fuel (insertView name view views)

/-- Run a step of the deserialiser from the store's side: its exceptions escape. -/
def liftDeserialiser {α : Type} (x : DeserialiserM K V C α) (d : Deserialiser K V C) :
    EStateM String (Store K V C) (α × Deserialiser K V C) := fun s =>
  match x d with
  | .ok a d' => .ok (a, d') s
  | .error e _ => .error e s

/-- The name of the map holding ledger signatures. -/
def signaturesMap : String := "ccf.signatures"

/-- `Store::deserialise`: apply a replicated transaction. The store first rolls back
to just before it; a transaction out of order, naming an unknown map twice or at
all, with content left over, or conflicting, is `FAILED`. With a history, a
transaction writing the signatures map must write nothing else and verify. -/
def Store.deserialise [DecidableEq K] [Inhabited V] (data : RawTx K V C) (publicOnly : Bool) :
    EStateM String (Store K V C) (DeserialiseSuccess × Term) := do
  let s ← get
  let d := Deserialiser.new s.encryptor (if publicOnly then some .PUBLIC else none)
  let (ok, d) := d.init data
  if !ok then return (.FAILED, 0)
  let (v, d) ← liftDeserialiser Deserialiser.deserialiseVersion d
  -- throw away local commits that replication did not confirm
  modify (·.rollback (v - 1))
  let s ← get
  if s.currentVersion ≠ v - 1 then return (.FAILED, 0)
  let fuel := d.publicReader.length + d.privateReader.length + 1
  let (views, d) ← liftDeserialiser (deserialiseMaps s v fuel []) d
  match views with
  | none => return (.FAILED, 0)
  | some views =>
      if !d.end then return (.FAILED, 0)
      match Tx.commitViews s views (fun s => (v, s)) with
      | none => return (.FAILED, 0)
      | some (_, s', _) =>
          set { s' with version := v, lastReplicated := v }
          match s.history with
          | none => pure (.PASS, 0)
          | some h =>
              if (views.lookup signaturesMap).isSome then
                if views.length > 1 then return (.FAILED, 0)
                match h.verify with
                | none => pure (.FAILED, 0)
                | some term => pure (.PASS_SIGNATURE, term)
              else pure (.PASS, 0)

-- Made here once: the equation lemmas that the proofs below unfold.
section
attribute [local simp] deserialiseMaps liftDeserialiser Store.deserialise
end

end Ccf.Kv
