import Ccf.Kv.Proof.Apply
import Ccf.Kv.Proof.Isolation

/-!
# Replicating a transaction (`Store::deserialise`)

A transaction committed on the primary is serialised by `Tx::commit` and handed to the
consensus (`replicated`); a backup applies it with `Store::deserialise`.

`deserialise` checks what it can before it touches a map: the version, each map named,
the content left over, the reads. But the checks a store with a history makes of a
signature transaction come after `Tx::commit` has applied the writes and the version has
been set: a signature transaction that also writes another map, or whose signature does
not verify, is answered `FAILED` with the transaction applied (`failed_yet_applied`).
-/

namespace Ccf.Kv

variable {K V C : Type} [DecidableEq K]

/-- What `Tx::commit` hands the consensus for transaction `t`: `serialise()` of the
committed transaction, over the store it committed to. -/
def replicated (sys : Sys K V C) (t : Nat) : Option (RawTx K V C) :=
  match (sys.txs t).serialise sys.store false with
  | .ok raw => raw
  | .error _ => none

/-- A store with a public map `A` and the signatures map, both empty, at version 0. -/
def withSignatures (history : Option TxHistory) : Store Nat Nat Unit :=
  ⟨[Map.new "A" .PUBLIC false, Map.new signaturesMap .PUBLIC false], by decide, history, none,
    0, 0, 0, 0⟩

/-- Transaction 1 writes a signature and key 0 of `A`, and commits. -/
def signatureWithA : List (Op Nat Nat) :=
  [.getView 1 "A", .put 1 "A" 0 1, .getView 1 signaturesMap, .put 1 signaturesMap 0 7, .commit 1]

/-- Transaction 1 writes a signature only, and commits. -/
def signatureAlone : List (Op Nat Nat) :=
  [.getView 1 signaturesMap, .put 1 signaturesMap 0 7, .commit 1]

/-- What `deserialise` does on a backup to what transaction `t` replicated. -/
def deserialiseReplicated [Inhabited V] (sys : Sys K V C) (t : Nat) (backup : Store K V C) :
    Option (EStateM.Result String (Store K V C) (DeserialiseSuccess × Term)) :=
  (replicated sys t).map fun raw => Store.deserialise raw false backup

-- Made here once: the equation lemmas that the proofs below unfold.
section
attribute [local simp] replicated
end

/-- A backup with a history applies the first transaction, whose signature verifies, and
the second, whose signature does not: each is answered `FAILED`, and each has been applied
at version 1, past the rollback to 0. -/
theorem failed_yet_applied :
    (deserialiseReplicated ((Sys.init (withSignatures none)).afterOps signatureWithA) 1
        (withSignatures (some ⟨some 5⟩))).map (fun r =>
      (r.value?, r.state.currentVersion)) = some (some (.FAILED, 0), 1) ∧
    (deserialiseReplicated ((Sys.init (withSignatures none)).afterOps signatureWithA) 1
        (withSignatures (some ⟨some 5⟩))).map (fun r =>
      ((r.state.find "A").map (·.back.state.lookup 0),
        (r.state.find signaturesMap).map (·.back.state.lookup 0))) =
      some (some (some ⟨1, 1⟩), some (some ⟨1, 7⟩)) ∧
    (deserialiseReplicated ((Sys.init (withSignatures none)).afterOps signatureAlone) 1
        (withSignatures (some ⟨none⟩))).map (fun r =>
      (r.value?, r.state.currentVersion)) = some (some (.FAILED, 0), 1) ∧
    (deserialiseReplicated ((Sys.init (withSignatures none)).afterOps signatureAlone) 1
        (withSignatures (some ⟨none⟩))).map (fun r =>
      (r.state.find signaturesMap).map (·.back.state.lookup 0)) = some (some (some ⟨1, 7⟩)) := by
  decide

end Ccf.Kv
