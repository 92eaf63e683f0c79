import Ccf.Kv.Tx
import Ccf.Lib.Run

/-!
# Transactions in flight over one store

Application threads run transactions on one store; the consensus compacts it as
entries commit and rolls it back when an election discards local commits. Every
`TxView` operation and every `Tx::commit` is one atomic step (`commit` holds the
maps' locks throughout), so a run of the store is an interleaving of the calls of
`Op`, on transactions numbered by `Nat`.

Compaction comes from `Raft::commit(idx)`, which returns early unless `idx` is
past the commit index it compacted at last, so its versions never decrease; a step
compacts at a version no lower than the store's `commit_version()`.

`past` is ghost state, read by nothing: for each version the store has been at, the
maps' current states when it was last at that version. A rollback to `v` forgets
what was recorded after `v`, since those versions will be reused.
-/

namespace Ccf.Kv

variable {K V C : Type} [DecidableEq K] [Inhabited V]

/-- Every map's current state, by name. -/
def snapshot (s : Store K V C) : List (String × State K V) :=
  s.maps.map fun m => (m.name, m.back.state)

/-- What the ghost keeps after a step: the states recorded before the current
version, and the current states at the current version. -/
def record (past : List (Version × List (String × State K V))) (s : Store K V C) :
    List (Version × List (String × State K V)) :=
  past.filter (fun p => decide (p.1 < s.version)) ++ [(s.version, snapshot s)]

/-- The state map `name` had when the store was at version `u`. -/
def stateAt (past : List (Version × List (String × State K V))) (name : String) (u : Version) :
    Option (State K V) :=
  (past.find? fun p => decide (p.1 = u)).bind fun p => p.2.lookup name

-- Made here once: the equation lemmas that the proofs below unfold.
section
attribute [local simp] record stateAt
end

/-- The store, the transactions, and the ghost record of past states. -/
structure Sys (K V C : Type) [DecidableEq K] where
  store : Store K V C
  txs : Nat → Tx K V
  past : List (Version × List (String × State K V))

/-- A call into the store. -/
inductive Op (K V : Type) where
  | getView (t : Nat) (name : String)
  | get (t : Nat) (name : String) (key : K)
  | put (t : Nat) (name : String) (key : K) (value : V)
  | remove (t : Nat) (name : String) (key : K)
  | foreach (t : Nat) (name : String) (f : K → V → Bool)
  | commit (t : Nat)
  | compact (v : Version)
  | rollback (v : Version)

namespace Sys

/-- No transaction has started. -/
def init (s : Store K V C) : Sys K V C := ⟨s, fun _ => Tx.new, [(s.version, snapshot s)]⟩

/-- The system after the store becomes `s` and transaction `t` becomes `tx`. -/
def update (sys : Sys K V C) (s : Store K V C) (t : Nat) (tx : Tx K V) : Sys K V C :=
  ⟨s, Function.update sys.txs t tx, record sys.past s⟩

/-- The system after a call. -/
def apply (sys : Sys K V C) : Op K V → Sys K V C
  | .getView t name =>
      match sys.store.find name with
      | none => sys
      | some m => sys.update sys.store t ((sys.txs t).getView sys.store m)
  | .get t name key => sys.update sys.store t ((sys.txs t).get name key).2
  | .put t name key value => sys.update sys.store t ((sys.txs t).put name key value).2
  | .remove t name key => sys.update sys.store t ((sys.txs t).remove name key).2
  | .foreach t name f => sys.update sys.store t ((sys.txs t).foreach name f).2
  | .commit t =>
      let r := Tx.commit (sys.store, sys.txs t)
      sys.update r.state.1 t r.state.2
  | .compact v => ⟨sys.store.compact v, sys.txs, record sys.past (sys.store.compact v)⟩
  | .rollback v => ⟨sys.store.rollback v, sys.txs, record sys.past (sys.store.rollback v)⟩

/-- Whether a call may be made: compaction never goes back. -/
def Enabled (sys : Sys K V C) : Op K V → Prop
  | .compact v => sys.store.commitVersion ≤ v
  | _ => True

/-- One call. -/
def Step (sys sys' : Sys K V C) : Prop := ∃ op, sys.Enabled op ∧ sys' = sys.apply op

/-- The states reachable from a store none of whose transactions has started. -/
def Reachable (s₀ : Store K V C) : Sys K V C → Prop := Run.Reachable (· = init s₀) Step

/-- The system after a sequence of calls. -/
def afterOps (sys : Sys K V C) (ops : List (Op K V)) : Sys K V C := ops.foldl apply sys

/-- Each call of the sequence is enabled where it is made. -/
def AllEnabled : Sys K V C → List (Op K V) → Prop
  | _, [] => True
  | sys, op :: ops => sys.Enabled op ∧ AllEnabled (sys.apply op) ops

-- Made here once: the equation lemmas that the proofs below unfold.
section
attribute [local simp] init update apply Enabled
end

theorem Reachable.afterOps {s₀ : Store K V C} {sys : Sys K V C} (h : Reachable s₀ sys) :
    ∀ {ops : List (Op K V)}, AllEnabled sys ops → Reachable s₀ (sys.afterOps ops) := by
  intro ops
  induction ops generalizing sys with
  | nil => exact fun _ => h
  | cons op ops ih =>
      intro he
      exact ih (Run.Reachable.tail h ⟨op, he.1, rfl⟩) he.2

end Sys

end Ccf.Kv
