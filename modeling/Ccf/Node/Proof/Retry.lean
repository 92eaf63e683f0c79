import Ccf.Node.Rpc.Frontend

/-!
# A conflict in `process_json` is never retried

`Tx::commit` marks the transaction committed before it checks anything, and throws on a
transaction already marked (`Tx.commit_committed`, `Tx.commit_of_committed`). A handler
cannot clear the mark: `Store::Tx` has no method that does (`KeepsCommitted`). So once a
commit of the request's transaction has conflicted, every later round of the loop either
ends in the handler's own error or exception, or commits again and is answered
`INTERNAL_ERROR`, "Transaction already committed" (`commitLoop_of_committed`). The retry
the loop is there for never commits (`conflict_answered_internal_error`).
-/

namespace Ccf.Rpc

open Kv

variable {K V C J : Type} [DecidableEq K] [Inhabited V]

/-- Every commit, whatever it answers, leaves the transaction marked committed. -/
theorem Tx.commit_committed (s : Store K V C) (tx : Tx K V) :
    (Tx.commit (s, tx)).state.2.committed = true := by
  apply EStateM.wp_state (P := fun st : Store K V C × Tx K V => st.2.committed = true)
  simp only [Tx.commit, EStateM.wp_bind, EStateM.wp_getState, EStateM.wp_ite, EStateM.wp_throw,
    EStateM.wp_set, EStateM.wp_pure]
  split
  · -- already committed: the commit throws on the transaction as it was
    assumption
  split
  · trivial
  split
  · trivial
  · simp only [EStateM.wp_bind, EStateM.wp_set]
    split <;> trivial

/-- A commit of a transaction already committed throws and changes nothing. -/
theorem Tx.commit_of_committed {s : Store K V C} {tx : Tx K V} (h : tx.committed = true) :
    Tx.commit (s, tx) = .error "Transaction already committed" (s, tx) := by
  simp only [Tx.commit, bind, EStateM.bind]
  -- unfold the read of the state without generating equation lemmas for it
  delta EStateM.get
  simp only [h, if_true]
  rfl

/-- A handler keeps a committed transaction committed: it can only call the methods of
`Store::Tx`, and none of them clears the mark. -/
def KeepsCommitted (func : Handler K V C J) : Prop :=
  ∀ s tx, tx.committed = true → (func s tx).state.committed = true

/-- The answer to a round on a committed transaction: the handler's error or exception,
or, when it succeeds, `INTERNAL_ERROR` from the commit. -/
def committedAnswer : EStateM.Result HandlerException (Tx K V) (Bool × J) →
    Except String (Response J)
  | .error e _ => catchException e
  | .ok (false, result) _ => .ok (.handlerError result)
  | .ok (true, _) _ => .ok (.error INTERNAL_ERROR "Transaction already committed")

-- Made here once: the equation lemmas that the proofs below unfold.
section
attribute [local simp] committedAnswer
end

/-- On a committed transaction the loop ends in its first round, with `committedAnswer`,
and leaves the store to what the other transactions did. -/
theorem commitLoop_of_committed (func : Handler K V C J) (others : Nat → Store K V C → Store K V C)
    (fuel n : Nat) (s : Store K V C) {tx : Tx K V} (htx : tx.committed = true)
    (hfunc : KeepsCommitted func) :
    (commitLoop func others (fuel + 1) n s tx).1 = some (committedAnswer (func s tx)) := by
  have hkeep := hfunc s tx htx
  unfold commitLoop
  cases hr : func s tx with
  | error e tx' => rfl
  | ok a tx' =>
      obtain ⟨ok, result⟩ := a
      rw [hr] at hkeep
      cases ok with
      | false => rfl
      | true =>
          -- the handler succeeded: the commit throws on the transaction it left committed
          have hc : tx'.committed = true := hkeep
          simp only [Bool.not_true, Bool.false_eq_true, if_false]
          rw [Tx.commit_of_committed hc]
          simp [committedAnswer, hc]

/-- Once the commit of round `n` conflicts, the next round answers `committedAnswer` of
the handler run again on the transaction the conflict left: `INTERNAL_ERROR` whenever the
handler succeeds. -/
theorem conflict_answered_internal_error (func : Handler K V C J)
    (others : Nat → Store K V C → Store K V C) (hfunc : KeepsCommitted func) (fuel n : Nat)
    {s : Store K V C} {tx tx₁ : Tx K V} {result : J} (hrun : func s tx = .ok (true, result) tx₁)
    (hconf : (Tx.commit (others n s, tx₁)).value? = some .CONFLICT) :
    (commitLoop func others (fuel + 2) n s tx).1 =
      some (committedAnswer (func (Tx.commit (others n s, tx₁)).state.1
        (Tx.commit (others n s, tx₁)).state.2)) := by
  have hcommitted := Tx.commit_committed (others n s) tx₁
  cases hc : Tx.commit (others n s, tx₁) with
  | error e st => simp [hc, EStateM.Result.value?] at hconf
  | ok a st =>
      have ha : a = .CONFLICT := by simpa [hc, EStateM.Result.value?] using hconf
      subst ha
      have hst : st.2.committed = true := by
        rw [hc] at hcommitted
        exact hcommitted
      -- the first round conflicts and hands the loop on to the next
      have hstep : (commitLoop func others (fuel + 2) n s tx) =
          commitLoop func others (fuel + 1) (n + 1) st.1 st.2 := by
        conv_lhs => unfold commitLoop
        simp only [hrun, Bool.not_true, Bool.false_eq_true, if_false, hc]
      rw [hstep, commitLoop_of_committed func others fuel (n + 1) st.1 hst hfunc]
      rfl

omit [DecidableEq K] [Inhabited V] in
/-- The calls a handler makes on its transaction leave the committed mark as it is. -/
theorem Tx.onView_committed {α : Type} (tx : Tx K V) (name : String) (none_ : α)
    (op : TxView K V → α × TxView K V) : (tx.onView name none_ op).2.committed = tx.committed := by
  unfold Tx.onView
  split <;> rfl

omit [DecidableEq K] [Inhabited V] in
theorem Tx.getView_committed (tx : Tx K V) (s : Store K V C) (m : Map K V) :
    (tx.getView s m).committed = tx.committed := by
  unfold Tx.getView
  split <;> rfl

/-- A store with one public map `A`, empty, at version 0. -/
def oneMap : Store Nat Nat Unit :=
  ⟨[Map.new "A" .PUBLIC false], by decide, none, none, 0, 0, 0, 0⟩

/-- A handler that reads key 0 of `A` and writes it back incremented. -/
def incrementA : Handler Nat Nat Unit Nat := fun s => do
  match s.find "A" with
  | none => throw (.logicError "No such map")
  | some m =>
      modify fun tx => tx.getView s m
      let v := ((← EStateM.get).get "A" 0).1.getD 0
      modify fun tx => (tx.get "A" 0).2
      modify fun tx => (tx.put "A" 0 (v + 1)).2
      pure (true, v + 1)

-- Made here once: the equation lemmas that the proofs below unfold.
section
attribute [local simp] incrementA
end

theorem incrementA_keepsCommitted : KeepsCommitted incrementA := by
  intro s tx htx
  unfold incrementA
  cases s.find "A" with
  | none => exact htx
  | some m =>
      show ((((tx.getView s m).get "A" 0).2.put "A" 0
        ((((tx.getView s m).get "A" 0).1.getD 0) + 1)).2).committed = true
      simp only [Tx.get, Tx.put, Tx.onView_committed, Tx.getView_committed, htx]

/-- Another transaction writes 5 at key 0 of `A` and commits. -/
def writeA5 (_ : Nat) (s : Store Nat Nat Unit) : Store Nat Nat Unit :=
  match s.find "A" with
  | none => s
  | some m => (Tx.commit (s, ((Tx.new.getView s m).put "A" 0 5).2)).state.1

/-- While `incrementA` runs, another transaction commits a write of the key it read: the
commit conflicts, and the request is answered `INTERNAL_ERROR`. -/
theorem conflict_answered_internal_error_incrementA :
    KeepsCommitted incrementA ∧
      (commitLoop incrementA writeA5 2 0 oneMap Tx.new).1 =
        some (.ok (.error INTERNAL_ERROR "Transaction already committed")) := by
  refine ⟨incrementA_keepsCommitted, ?_⟩
  rw [conflict_answered_internal_error incrementA writeA5 incrementA_keepsCommitted 0 0 rfl
    (by decide)]
  decide

end Ccf.Rpc
