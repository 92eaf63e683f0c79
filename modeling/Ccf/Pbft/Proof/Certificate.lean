import Ccf.Pbft.Certificate
import Ccf.Lib.Quorum
import Ccf.Lib.Run
import Mathlib.Algebra.Order.BigOperators.Group.List
import Mathlib.Algebra.Order.Group.Nat

/-!
# Every counted message has a distinct sender

A certificate decides on its correct value by counting: `f + 1` matching messages make
a value correct, and `complete` make the certificate complete. That counting means
something only if each count stands for distinct replicas, and the certificate never
remembers which message it counted for which value: it keeps a count per value and one
bitmap of senders, and `add_mine` and `mark_stale` rewrite the counts in place.

`Certificate.Inv` names the messages behind the counts, as a ghost list `acc`: messages
handed to `add`, from distinct replicas other than the local one. Each operation keeps
it (`Inv.add`, `Inv.addMine`, `Inv.markStale`, `Inv.clear`), so it holds of every
certificate a replica can reach (`Recorded.Reachable.inv`), and the quorum facts
follow from it at the end of this module. Two hypotheses carry the argument:
`match` is an equivalence, so the values in use match disjoint sets of messages, and
`f ≥ 1`, since with `f = 0` `add` takes any message as the correct value, counted twice.
-/

namespace Ccf.Pbft

namespace Certificate

variable {T : Type}

section Vals

variable {s : Certificate T} {i j lo hi : Nat} {v : MessageVal T}

@[simp] theorem setVal_vals_length : (s.setVal i v).vals.length = s.vals.length := by
  simp [setVal]

@[simp] theorem val_setVal (h : i < s.vals.length) (j : Nat) :
    (s.setVal i v).val j = if j = i then v else s.val j := by
  unfold val setVal
  by_cases hj : j = i
  · subst hj
    simp [List.getD_eq_getElem?_getD, h]
  · simp [List.getD_eq_getElem?_getD, List.getElem?_set_ne (Ne.symm hj), hj]

@[simp] theorem setVal_bmap : (s.setVal i v).bmap = s.bmap := rfl
@[simp] theorem setVal_maxSize : (s.setVal i v).maxSize = s.maxSize := rfl
@[simp] theorem setVal_curSize : (s.setVal i v).curSize = s.curSize := rfl
@[simp] theorem setVal_correct : (s.setVal i v).correct = s.correct := rfl
@[simp] theorem setVal_c : (s.setVal i v).c = s.c := rfl
@[simp] theorem setVal_complete : (s.setVal i v).complete = s.complete := rfl
@[simp] theorem setVal_mym : (s.setVal i v).mym = s.mym := rfl
@[simp] theorem setVal_f : (s.setVal i v).f = s.f := rfl

@[simp] theorem clearVals_vals_length : (s.clearVals lo hi).vals.length = s.vals.length := by
  simp [clearVals]

@[simp] theorem val_clearVals (j : Nat) :
    (s.clearVals lo hi).val j = if lo ≤ j ∧ j < hi then MessageVal.empty else s.val j := by
  unfold val clearVals
  by_cases hj : j < s.vals.length
  · simp [List.getD_eq_getElem?_getD, hj]
  · have : s.vals.length ≤ j := Nat.le_of_not_lt hj
    simp [List.getD_eq_getElem?_getD, List.getElem?_eq_none this]

theorem cvalue_eq_some {x : T} (h : s.cvalue = some x) :
    ∃ i, s.c = some i ∧ (s.val i).m = some x := by
  simpa [cvalue, Option.bind_eq_some_iff] using h

end Vals

variable [CertMessage T]

open CertMessage (full matchMsg)

section Match

variable (hmatch : Equivalence fun a b : T => matchMsg a b = true)
include hmatch

theorem matchesVal_of_match {v : MessageVal T} {m a : T} (hv : matchesVal v a = true)
    (hm : matchMsg m a = true) : matchesVal v m = true := by
  cases hx : v.m with
  | none => simp [matchesVal, hx] at hv
  | some x =>
      have hxa : matchMsg x a = true := by simpa [matchesVal, hx] using hv
      simpa [matchesVal, hx] using hmatch.trans hxa (hmatch.symm hm)

/-- `m` as a value matches what the value `m` matches matches. -/
theorem matchesVal_some {v : MessageVal T} {m : T} (h : matchesVal v m = true) (n : Nat) :
    matchesVal ⟨some m, n⟩ = matchesVal v := by
  funext a
  cases hx : v.m with
  | none => simp [matchesVal, hx] at h
  | some x =>
      have hxm : matchMsg x m = true := by simpa [matchesVal, hx] using h
      simp only [matchesVal, hx, Option.any_some]
      apply Bool.eq_iff_iff.mpr
      exact ⟨fun hma => hmatch.trans hxm hma, fun hxa => hmatch.trans (hmatch.symm hxm) hxa⟩

/-- Counting `m` for a value it matches leaves which messages match the value alone. -/
theorem matchesVal_countFor {v : MessageVal T} {m : T} (h : matchesVal v m) :
    matchesVal (countFor v m) = matchesVal v := by
  unfold countFor
  split
  · exact matchesVal_some hmatch h _
  · rfl

end Match

section Run

variable {node : Node} {m : T} {s s' : Certificate T} {i : Nat}

theorem addNew_self (hloc : CertMessage.id m = node.id) : (addNew node m s s').state = s' := by
  simp only [addNew, if_pos hloc]
  rfl

theorem addNew_correct (hloc : CertMessage.id m ≠ node.id) (hc : s.c = some i) :
    (addNew node m s s').state =
      ({ s with bmap := CertMessage.id m :: s.bmap } : Certificate T).setVal i
        (countFor (s.val i) m) := by
  simp only [addNew, if_neg hloc, hc]
  rfl

theorem addNew_match (hloc : CertMessage.id m ≠ node.id) (hc : s.c = none)
    (hfm : s.findMatch m = some i) :
    (addNew node m s s').state =
      let s₁ := ({ s with bmap := CertMessage.id m :: s.bmap } : Certificate T).setVal i
        (countFor (s.val i) m)
      if (countFor (s.val i) m).count ≥ s.correct then { s₁ with c := some i } else s₁ := by
  simp only [addNew, if_neg hloc, hc]
  simp only [findMatch, val] at hfm ⊢
  simp only [hfm]
  rfl

theorem addNew_newValue (hloc : CertMessage.id m ≠ node.id) (hc : s.c = none)
    (hfm : s.findMatch m = none) (hlt : s.curSize < s.maxSize) :
    (addNew node m s s').state =
      { ({ s with bmap := CertMessage.id m :: s.bmap } : Certificate T).setVal s.curSize
          ⟨some m, 1⟩ with curSize := s.curSize + 1 } := by
  simp only [addNew, if_neg hloc, hc]
  simp only [findMatch, val] at hfm ⊢
  simp only [hfm, if_pos hlt]
  rfl

theorem addNew_overflow (hloc : CertMessage.id m ≠ node.id) (hc : s.c = none)
    (hfm : s.findMatch m = none) (hlt : ¬ s.curSize < s.maxSize) :
    (addNew node m s s').state = ({ s with bmap := CertMessage.id m :: s.bmap } : Certificate T).clear := by
  simp only [addNew, if_neg hloc, hc]
  simp only [findMatch, val] at hfm ⊢
  simp only [hfm, if_neg hlt]
  rfl

/-- `add_mine` on a certificate whose correct value the message matches. -/
theorem addMine_correct (hloc : CertMessage.id m = node.id) (hfull : full m = true)
    (hr : s.refresh node = s) (hc : s.c = some i) (hm : matchesVal (s.val i) m = true)
    (hfill : (s.val i).m.isSome) :
    (addMine node m s).state =
      { ({ s with c := some i } : Certificate T).setVal i ⟨some m, (s.val i).count + 1⟩ with
        mym := some m } := by
  have hnn : (s.val i).m ≠ none := Option.isSome_iff_ne_none.mp hfill
  simp only [addMine, hloc, hfull, ne_eq, not_true_eq_false, Bool.not_true, Bool.false_eq_true,
    ↓reduceIte]
  rw [EStateM.get_bind_apply, hr, EStateM.set_bind_apply]
  -- with `c` a literal `some i`, the value read and the one written are the same record's
  obtain ⟨b, vs, ms, cs, co, c, cp, cm, my, f⟩ := s
  cases hc
  simp only [Option.any_some, hm, Bool.not_true, Bool.false_eq_true, ↓reduceIte,
    Option.getD_some, hnn, false_and]
  rfl

/-- `add_mine` with no correct value, on a value the message matches. -/
theorem addMine_match (hloc : CertMessage.id m = node.id) (hfull : full m = true)
    (hr : s.refresh node = s) (hc : s.c = none) (hfm : s.findMatch m = some i)
    (hfill : (s.val i).m.isSome) :
    (addMine node m s).state =
      { ({ s with c := some i } : Certificate T).setVal i ⟨some m, (s.val i).count + 1⟩ with
        mym := some m } := by
  have hnn : (s.val i).m ≠ none := Option.isSome_iff_ne_none.mp hfill
  simp only [addMine, hloc, hfull, ne_eq, not_true_eq_false, Bool.not_true, Bool.false_eq_true,
    ↓reduceIte]
  rw [EStateM.get_bind_apply, hr, EStateM.set_bind_apply]
  obtain ⟨b, vs, ms, cs, co, c, cp, cm, my, f⟩ := s
  cases hc
  simp only [Option.any_none, Bool.false_eq_true, ↓reduceIte, hfm, Option.getD_some]
  simp only [val] at hnn ⊢
  simp only [hnn, false_and, ↓reduceIte]
  rfl

/-- `add_mine` with no correct value and no value the message matches: the first value
is overwritten. -/
theorem addMine_first (hloc : CertMessage.id m = node.id) (hfull : full m = true)
    (hr : s.refresh node = s) (hc : s.c = none) (hfm : s.findMatch m = none)
    (hlen : 0 < s.vals.length) (hsize : (s.val 0).m = none ↔ s.curSize = 0) :
    (addMine node m s).state =
      { s.setVal 0 ⟨some m, 1⟩ with c := some 0, curSize := max s.curSize 1, mym := some m } := by
  simp only [addMine, hloc, hfull, ne_eq, not_true_eq_false, Bool.not_true, Bool.false_eq_true,
    ↓reduceIte]
  rw [EStateM.get_bind_apply, hr, EStateM.set_bind_apply]
  obtain ⟨b, vs, ms, cs, co, c, cp, cm, my, f⟩ := s
  cases hc
  simp only [Option.any_none, Bool.false_eq_true, ↓reduceIte, hfm, Option.getD_some]
  simp only [val, setVal] at hlen hsize ⊢
  simp only [List.getD_eq_getElem?_getD, List.getElem?_set_self hlen, Option.getD_some] at hsize ⊢
  by_cases hcs : cs = 0
  · -- no value in use: the local message is the first
    have hm0 := hsize.mpr hcs
    simp [hm0, hcs, List.getElem?_set_self hlen, List.set_set]
    rfl
  · have hm0 : ¬ (vs[0]?.getD MessageVal.empty).m = none := fun h => hcs (hsize.mp h)
    simp [hm0, hcs, List.getElem?_set_self hlen, List.set_set, Nat.max_eq_left (Nat.one_le_iff_ne_zero.mpr hcs)]
    rfl

/-- `add_mine` refuses a message that is not the local replica's or not full. -/
theorem addMine_invalid (h : ¬ (CertMessage.id m = node.id ∧ full m = true)) :
    (addMine node m s).state = s := by
  by_cases hloc : CertMessage.id m = node.id
  · have hfull : full m = false := by simpa [hloc] using h
    simp only [addMine, hloc, hfull, ne_eq, not_true_eq_false, Bool.not_false, ↓reduceIte]
    rfl
  · simp only [addMine, hloc, ne_eq, not_false_eq_true, ↓reduceIte]
    rfl

/-- `add_mine` on a certificate whose correct value the message does not match. -/
theorem addMine_faulty (hloc : CertMessage.id m = node.id) (hfull : full m = true)
    (hr : s.refresh node = s) (hc : s.c = some i) (hm : matchesVal (s.val i) m = false) :
    (addMine node m s).state = s := by
  simp only [addMine, hloc, hfull, ne_eq, not_true_eq_false, Bool.not_true, Bool.false_eq_true,
    ↓reduceIte]
  rw [EStateM.get_bind_apply, hr, EStateM.set_bind_apply]
  simp only [hc, Option.any_some, hm, Bool.not_false, ↓reduceIte]
  rfl

section Stale

variable [DecidableEq T]

omit [CertMessage T] in
theorem markStale_complete (hcomp : s.isComplete = true) : (markStale s).state = s := by
  simp only [markStale, EStateM.get_bind_apply, hcomp, Bool.not_true, Bool.false_eq_true,
    ↓reduceIte]
  rfl

omit [CertMessage T] in
/-- `mark_stale()` keeps the local message alone. -/
theorem markStale_mine {my : T} (hcomp : s.isComplete = false) (hmy : s.mym = some my)
    (hc : s.c = some i) (hcv : s.cvalue = some my) :
    (markStale s).state =
      let s₁ := s.setVal i MessageVal.empty
      let s₂ := { s₁.setVal 0 ⟨some my, 1⟩ with c := some 0 }
      { s₂.clearVals 1 s₂.curSize with curSize := 1, bmap := [] } := by
  simp only [markStale, EStateM.get_bind_apply, hcomp, Bool.not_false, ↓reduceIte, hmy, hcv,
    ne_eq, not_true_eq_false, hc, Option.getD_some]
  rfl

omit [CertMessage T] in
/-- `mark_stale()` with no local message forgets every message. -/
theorem markStale_none (hcomp : s.isComplete = false) (hmy : s.mym = none) :
    (markStale s).state = { s.clearVals 0 s.curSize with c := none, curSize := 0, bmap := [] } := by
  simp only [markStale, EStateM.get_bind_apply, hcomp, Bool.not_false, ↓reduceIte, hmy]
  rfl

end Stale

end Run

/-- What the counts of a certificate rest on. `acc` are the replicas' messages counted
since the certificate last forgot its messages: from distinct replicas other than the
local one, all handed to `add` (they are in `sent`) and all in `bmap`. Each value is
counted at most once for each message of `acc` that matches it, and once more if the
local message matches it. Beside that, the shape of the state: the values in use are
`[0, cur_size)`, no message matches two of them, the correct value is one of them, the
local message is the correct value and full, and a correct value without it has been
counted `correct` times. -/
structure Inv (node : Node) (sent acc : List T) (s : Certificate T) : Prop where
  f_eq : s.f = node.f
  maxSize_eq : s.maxSize = node.f + 1
  length_vals : s.vals.length = node.f + 1
  correct_eq : s.correct = node.f + 1
  curSize_le : s.curSize ≤ node.f + 1
  c_lt : ∀ i, s.c = some i → i < s.curSize
  filled : ∀ i < s.curSize, (s.val i).m.isSome
  empty : ∀ i, s.curSize ≤ i → (s.val i).m = none
  apart : ∀ i j, i < j → j < s.curSize → ∀ a,
    ¬ (matchesVal (s.val i) a = true ∧ matchesVal (s.val j) a = true)
  mine : ∀ w, s.mym = some w → full w = true ∧ ∃ i, s.c = some i ∧ (s.val i).m = some w
  quorum : ∀ i, s.c = some i → s.mym = none → s.correct ≤ (s.val i).count
  sent : acc ⊆ sent
  nodup : (acc.map CertMessage.id).Nodup
  not_local : node.id ∉ acc.map CertMessage.id
  bmap : ∀ a ∈ acc, CertMessage.id a ∈ s.bmap
  counts : ∀ i < s.curSize, (s.val i).count ≤
    acc.countP (matchesVal (s.val i)) + s.mym.toList.countP (matchesVal (s.val i))

section Inv

variable {node : Node} {sent acc : List T} {s : Certificate T}

theorem Inv.new (node : Node) (comp : Nat) : Inv node [] [] (new node comp : Certificate T) where
  f_eq := rfl
  maxSize_eq := rfl
  length_vals := List.length_replicate ..
  correct_eq := rfl
  curSize_le := Nat.zero_le _
  c_lt := fun _ h => by cases h
  filled := fun _ h => absurd h (Nat.not_lt_zero _)
  empty := fun i _ => by
    simp [Certificate.new, val, List.getD_eq_getElem?_getD, List.getElem?_replicate]
    split <;> rfl
  apart := fun _ _ _ h => absurd h (Nat.not_lt_zero _)
  mine := fun _ h => by cases h
  quorum := fun _ h => by cases h
  sent := List.nil_subset _
  nodup := List.nodup_nil
  not_local := List.not_mem_nil
  bmap := fun _ h => by cases h
  counts := fun _ h => absurd h (Nat.not_lt_zero _)

/-- More messages handed to `add` leave every count accounted for. -/
theorem Inv.sent_cons (h : Inv node sent acc s) (m : T) : Inv node (m :: sent) acc s :=
  { h with sent := fun _ ha => List.mem_cons_of_mem _ (h.sent ha) }

/-- Marking a replica in `bmap` leaves every count accounted for. -/
theorem Inv.addBmap (h : Inv node sent acc s) (r : Nat) :
    Inv node sent acc { s with bmap := r :: s.bmap } :=
  { h with bmap := fun a ha => List.mem_cons_of_mem _ (h.bmap a ha) }

theorem countFor_count (v : MessageVal T) (m : T) : (countFor v m).count = v.count + 1 := by
  unfold countFor
  split <;> rfl

theorem countFor_m_isSome {v : MessageVal T} (m : T) (h : v.m.isSome) :
    (countFor v m).m.isSome := by
  unfold countFor
  split
  · rfl
  · exact h

/-- A full value is kept: `m` only adds to its count. -/
theorem countFor_m_of_full {v : MessageVal T} (m : T) (h : fullVal v = true) :
    (countFor v m).m = v.m := by
  simp [countFor, h]

/-- **Counting a fresh replica's message for a value it matches.** The message joins
`acc`: it is new to `acc`, not the local replica's, and in `bmap`. -/
theorem Inv.countFresh (hmatch : Equivalence fun a b : T => matchMsg a b = true)
    (h : Inv node sent acc s) {i : Nat} {m : T} (hi : i < s.curSize)
    (hm : matchesVal (s.val i) m = true) (hms : m ∈ sent)
    (hfresh : CertMessage.id m ∉ acc.map CertMessage.id) (hbm : CertMessage.id m ∈ s.bmap)
    (hloc : CertMessage.id m ≠ node.id) (hkeep : s.mym.isSome → fullVal (s.val i) = true) :
    Inv node sent (m :: acc) (s.setVal i (countFor (s.val i) m)) := by
  have hlen : i < s.vals.length := by have := h.length_vals; have := h.curSize_le; omega
  have hval : ∀ j, (s.setVal i (countFor (s.val i) m)).val j =
      if j = i then countFor (s.val i) m else s.val j := val_setVal hlen
  -- the value counted for keeps what it matches, so matching is as before everywhere
  have hmv : ∀ j, matchesVal ((s.setVal i (countFor (s.val i) m)).val j) = matchesVal (s.val j) := by
    intro j
    rw [hval]
    split
    · next hj => subst hj; exact matchesVal_countFor hmatch hm
    · rfl
  refine
    { f_eq := h.f_eq, maxSize_eq := h.maxSize_eq, correct_eq := h.correct_eq
      length_vals := by rw [setVal_vals_length]; exact h.length_vals
      curSize_le := h.curSize_le, c_lt := h.c_lt
      filled := ?_, empty := ?_, apart := ?_, mine := ?_, quorum := ?_
      sent := List.cons_subset.mpr ⟨hms, h.sent⟩
      nodup := List.nodup_cons.mpr ⟨hfresh, h.nodup⟩
      not_local := ?_, bmap := ?_, counts := ?_ }
  · intro j (hj : j < s.curSize)
    rw [hval]
    split
    · next hji => subst hji; exact countFor_m_isSome m (h.filled j hj)
    · exact h.filled j hj
  · intro j (hj : s.curSize ≤ j)
    rw [hval, if_neg (by omega)]
    exact h.empty j hj
  · intro j k hjk hk a
    rw [hmv, hmv]
    exact h.apart j k hjk hk a
  · -- the local message is the correct value, which is full and so kept
    intro w (hw : s.mym = some w)
    obtain ⟨hfull, k, hc, hk⟩ := h.mine w hw
    refine ⟨hfull, k, hc, ?_⟩
    rw [hval]
    split
    · next hki =>
        subst hki
        rw [countFor_m_of_full m (hkeep (by rw [hw]; rfl))]
        exact hk
    · exact hk
  · intro k (hc : s.c = some k) (hmine : s.mym = none)
    rw [hval, setVal_correct]
    have hq := h.quorum k hc hmine
    split
    · next hki => subst hki; rw [countFor_count]; omega
    · exact hq
  · intro hl
    rcases List.mem_cons.mp (List.map_cons .. ▸ hl) with he | he
    · exact hloc he.symm
    · exact h.not_local he
  · intro a ha
    rcases List.mem_cons.mp ha with rfl | ha
    · exact hbm
    · exact h.bmap a ha
  · intro j (hj : j < s.curSize)
    rw [hmv, List.countP_cons, setVal_mym]
    have hc := h.counts j hj
    rw [hval]
    split
    · next hji => subst hji; rw [countFor_count, if_pos hm]; omega
    · split <;> omega

/-- A value counted `correct` times becomes the correct one. -/
theorem Inv.setCorrect (h : Inv node sent acc s) {i : Nat} (hi : i < s.curSize)
    (hc : s.c = none) (hq : s.correct ≤ (s.val i).count) :
    Inv node sent acc { s with c := some i } := by
  -- with no correct value there is no local message
  have hmym : s.mym = none := by
    cases hw : s.mym with
    | none => rfl
    | some w => obtain ⟨-, k, hk, -⟩ := h.mine w hw; simp [hc] at hk
  refine { h with c_lt := ?_, mine := ?_, quorum := ?_ }
  · intro k (hk : some i = some k)
    cases hk
    exact hi
  · intro w (hw : s.mym = some w)
    simp [hmym] at hw
  · intro k (hk : some i = some k) _
    cases hk
    exact hq

/-- **A message that matches no value starts a new one**, counted once. -/
theorem Inv.newValue (hmatch : Equivalence fun a b : T => matchMsg a b = true)
    (h : Inv node sent acc s) {m : T} (hc : s.c = none)
    (hnone : ∀ i < s.curSize, matchesVal (s.val i) m = false) (hlt : s.curSize < s.maxSize)
    (hms : m ∈ sent) (hfresh : CertMessage.id m ∉ acc.map CertMessage.id)
    (hbm : CertMessage.id m ∈ s.bmap) (hloc : CertMessage.id m ≠ node.id) :
    Inv node sent (m :: acc) { s.setVal s.curSize ⟨some m, 1⟩ with curSize := s.curSize + 1 } := by
  have hlen : s.curSize < s.vals.length := by rw [h.length_vals, ← h.maxSize_eq]; exact hlt
  have hval : ∀ j, (s.setVal s.curSize ⟨some m, 1⟩).val j =
      if j = s.curSize then ⟨some m, 1⟩ else s.val j := val_setVal hlen
  have hmym : s.mym = none := by
    cases hw : s.mym with
    | none => rfl
    | some w => obtain ⟨-, k, hk, -⟩ := h.mine w hw; simp [hc] at hk
  refine
    { f_eq := h.f_eq, maxSize_eq := h.maxSize_eq, correct_eq := h.correct_eq
      length_vals := by rw [setVal_vals_length]; exact h.length_vals
      curSize_le := by have := h.maxSize_eq; show s.curSize + 1 ≤ _; omega
      c_lt := fun k (hk : s.c = some k) => by simp [hc] at hk
      filled := ?_, empty := ?_, apart := ?_
      mine := fun w (hw : s.mym = some w) => by simp [hmym] at hw
      quorum := fun k (hk : s.c = some k) => by simp [hc] at hk
      sent := List.cons_subset.mpr ⟨hms, h.sent⟩
      nodup := List.nodup_cons.mpr ⟨hfresh, h.nodup⟩
      not_local := ?_, bmap := ?_, counts := ?_ }
  · intro j (hj : j < s.curSize + 1)
    show ((s.setVal s.curSize ⟨some m, 1⟩).val j).m.isSome
    rw [hval]
    split
    · rfl
    · exact h.filled j (by omega)
  · intro j (hj : s.curSize + 1 ≤ j)
    show ((s.setVal s.curSize ⟨some m, 1⟩).val j).m = none
    rw [hval, if_neg (by omega)]
    exact h.empty j (by omega)
  · -- the new value against an old one: a message matching both would match `m`
    intro j k hjk (hk : k < s.curSize + 1) a
      (hboth : matchesVal ((s.setVal s.curSize ⟨some m, 1⟩).val j) a = true ∧
        matchesVal ((s.setVal s.curSize ⟨some m, 1⟩).val k) a = true)
    rw [hval, hval, if_neg (by omega)] at hboth
    split at hboth
    · next hks =>
        have hjm := matchesVal_of_match hmatch hboth.1 (by simpa [matchesVal] using hboth.2)
        rw [hnone j (by omega)] at hjm
        exact Bool.false_ne_true hjm
    · exact h.apart j k hjk (by omega) a hboth
  · intro hl
    rcases List.mem_cons.mp (List.map_cons .. ▸ hl) with he | he
    · exact hloc he.symm
    · exact h.not_local he
  · intro a ha
    rcases List.mem_cons.mp ha with rfl | ha
    · exact hbm
    · exact h.bmap a ha
  · intro j (hj : j < s.curSize + 1)
    show ((s.setVal s.curSize ⟨some m, 1⟩).val j).count ≤
      (m :: acc).countP (matchesVal ((s.setVal s.curSize ⟨some m, 1⟩).val j)) +
        s.mym.toList.countP (matchesVal ((s.setVal s.curSize ⟨some m, 1⟩).val j))
    rw [hval, hmym]
    split
    · -- the new value is counted once, for `m`, which matches itself
      have hmm : matchesVal ⟨some m, 1⟩ m = true := by simpa [matchesVal] using hmatch.refl m
      simp [hmm]
    · have hc := h.counts j (by omega)
      rw [hmym] at hc
      rw [List.countP_cons]
      split <;> omega

/-- What is left once the values `[0, cur_size)` are cleared: no value at all. -/
theorem Inv.clearVals_m (h : Inv node sent acc s) (j : Nat) :
    ((s.clearVals 0 s.curSize).val j).m = none := by
  rw [val_clearVals]
  split
  · rfl
  · exact h.empty j (by omega)

/-- **Forgetting every message**, as `clear()` does and `mark_stale()` without a local
message: no value is left in use, and nothing is counted. -/
theorem Inv.forget (h : Inv node sent acc s) {s' : Certificate T}
    (hvals : s'.vals = (s.clearVals 0 s.curSize).vals) (hcur : s'.curSize = 0)
    (hc : s'.c = none) (hmym : s'.mym = none) (hf : s'.f = s.f) (hmax : s'.maxSize = s.maxSize)
    (hcorr : s'.correct = s.correct) : Inv node sent [] s' where
  f_eq := hf.trans h.f_eq
  maxSize_eq := hmax.trans h.maxSize_eq
  length_vals := by rw [hvals, clearVals_vals_length]; exact h.length_vals
  correct_eq := hcorr.trans h.correct_eq
  curSize_le := by rw [hcur]; exact Nat.zero_le _
  c_lt := fun _ hi => by simp [hc] at hi
  filled := fun _ hi => absurd (hcur ▸ hi) (Nat.not_lt_zero _)
  empty := fun j _ => by
    show (s'.vals.getD j MessageVal.empty).m = none
    rw [hvals]
    exact h.clearVals_m j
  apart := fun _ _ _ hj => absurd (hcur ▸ hj) (Nat.not_lt_zero _)
  mine := fun _ hw => by simp [hmym] at hw
  quorum := fun _ hi => by simp [hc] at hi
  sent := List.nil_subset _
  nodup := List.nodup_nil
  not_local := List.not_mem_nil
  bmap := fun _ h => by cases h
  counts := fun _ hi => absurd (hcur ▸ hi) (Nat.not_lt_zero _)

theorem Inv.clear (h : Inv node sent acc s) : Inv node sent [] s.clear :=
  h.forget rfl rfl rfl rfl rfl rfl rfl

/-- **`mark_stale()` with a local message**: the local message alone is left, as the
one value, counted once. -/
theorem Inv.keepMine (hmatch : Equivalence fun a b : T => matchMsg a b = true)
    (h : Inv node sent acc s) {my : T} {i₀ : Nat} (hmy : s.mym = some my) (hc : s.c = some i₀) :
    Inv node sent [] (let s₁ := s.setVal i₀ MessageVal.empty
      let s₂ := { s₁.setVal 0 ⟨some my, 1⟩ with c := some 0 }
      { s₂.clearVals 1 s₂.curSize with curSize := 1, bmap := [] }) := by
  have hi₀ : i₀ < s.vals.length := by
    have := h.c_lt i₀ hc; have := h.length_vals; have := h.curSize_le; omega
  have h0 : 0 < s.vals.length := by rw [h.length_vals]; exact Nat.succ_pos _
  -- the value in slot `j` afterwards
  have hval : ∀ j, ((s.setVal i₀ MessageVal.empty).setVal 0 ⟨some my, 1⟩ |>.clearVals 1 s.curSize).val j =
      if 1 ≤ j ∧ j < s.curSize then MessageVal.empty
      else if j = 0 then ⟨some my, 1⟩ else if j = i₀ then MessageVal.empty else s.val j := by
    intro j
    rw [val_clearVals, val_setVal (by simpa using h0), val_setVal hi₀]
  have hfull := (h.mine my hmy).1
  refine
    { f_eq := h.f_eq, maxSize_eq := h.maxSize_eq, correct_eq := h.correct_eq
      length_vals := by simpa using h.length_vals
      curSize_le := Nat.succ_le_succ (Nat.zero_le _)
      c_lt := fun k (hk : some 0 = some k) => by cases hk; exact Nat.zero_lt_one
      filled := ?_, empty := ?_
      apart := fun j k hjk (hk : k < 1) => absurd hjk (by omega)
      mine := ?_
      quorum := fun k _ (hm : s.mym = none) => by simp [hmy] at hm
      sent := List.nil_subset _
      nodup := List.nodup_nil
      not_local := List.not_mem_nil
      bmap := fun _ h => by cases h
      counts := ?_ }
  · intro j (hj : j < 1)
    show (((s.setVal i₀ MessageVal.empty).setVal 0 ⟨some my, 1⟩ |>.clearVals 1 s.curSize).val j).m.isSome
    rw [hval, if_neg (by omega), if_pos (by omega)]
    rfl
  · intro j (hj : 1 ≤ j)
    show (((s.setVal i₀ MessageVal.empty).setVal 0 ⟨some my, 1⟩ |>.clearVals 1 s.curSize).val j).m = none
    rw [hval, if_neg (show j ≠ 0 by omega)]
    split
    · rfl
    · next hout =>
        split
        · rfl
        · -- beyond the values in use, nothing was ever written
          exact h.empty j (by omega)
  · intro w (hw : s.mym = some w)
    rw [hmy] at hw
    cases hw
    refine ⟨hfull, 0, rfl, ?_⟩
    show (((s.setVal i₀ MessageVal.empty).setVal 0 ⟨some my, 1⟩ |>.clearVals 1 s.curSize).val 0).m = _
    rw [hval]
    rfl
  · intro j (hj : j < 1)
    obtain rfl : j = 0 := by omega
    show (((s.setVal i₀ MessageVal.empty).setVal 0 ⟨some my, 1⟩ |>.clearVals 1 s.curSize).val 0).count ≤
      [].countP (matchesVal (((s.setVal i₀ MessageVal.empty).setVal 0 ⟨some my, 1⟩ |>.clearVals 1
        s.curSize).val 0)) + s.mym.toList.countP (matchesVal (((s.setVal i₀ MessageVal.empty).setVal 0
          ⟨some my, 1⟩ |>.clearVals 1 s.curSize).val 0))
    rw [hval, if_neg (by omega), if_pos rfl, hmy]
    have hmm : matchesVal ⟨some my, 1⟩ my = true := by simpa [matchesVal] using hmatch.refl my
    simp [hmm]

/-- **`add_mine()` on a value the local message matches**: that value becomes the
correct one, taking the local message as its value and counting it once more. -/
theorem Inv.mineAt (hmatch : Equivalence fun a b : T => matchMsg a b = true)
    (h : Inv node sent acc s) {i : Nat} {m : T} (hi : i < s.curSize)
    (hm : matchesVal (s.val i) m = true) (hmym : s.mym = none) (hfull : full m = true) :
    Inv node sent acc { ({ s with c := some i } : Certificate T).setVal i ⟨some m, (s.val i).count + 1⟩ with
      mym := some m } := by
  have hlen : i < s.vals.length := by have := h.length_vals; have := h.curSize_le; omega
  have hval : ∀ j, (s.setVal i ⟨some m, (s.val i).count + 1⟩).val j =
      if j = i then ⟨some m, (s.val i).count + 1⟩ else s.val j := val_setVal hlen
  have hmv : ∀ j, matchesVal ((s.setVal i ⟨some m, (s.val i).count + 1⟩).val j) = matchesVal (s.val j) := by
    intro j
    rw [hval]
    split
    · next hj => subst hj; exact matchesVal_some hmatch hm _
    · rfl
  refine
    { f_eq := h.f_eq, maxSize_eq := h.maxSize_eq, correct_eq := h.correct_eq
      length_vals := by simpa using h.length_vals
      curSize_le := h.curSize_le
      c_lt := fun k (hk : some i = some k) => by cases hk; exact hi
      filled := ?_, empty := ?_, apart := ?_, mine := ?_
      quorum := fun k _ (hn : some m = none) => by cases hn
      sent := h.sent, nodup := h.nodup, not_local := h.not_local, bmap := h.bmap
      counts := ?_ }
  · intro j (hj : j < s.curSize)
    show ((s.setVal i ⟨some m, (s.val i).count + 1⟩).val j).m.isSome
    rw [hval]
    split
    · rfl
    · exact h.filled j hj
  · intro j (hj : s.curSize ≤ j)
    show ((s.setVal i ⟨some m, (s.val i).count + 1⟩).val j).m = none
    rw [hval, if_neg (by omega)]
    exact h.empty j hj
  · intro j k hjk (hk : k < s.curSize) a
    show ¬ (matchesVal ((s.setVal i ⟨some m, (s.val i).count + 1⟩).val j) a = true ∧
      matchesVal ((s.setVal i ⟨some m, (s.val i).count + 1⟩).val k) a = true)
    rw [hmv, hmv]
    exact h.apart j k hjk hk a
  · intro w (hw : some m = some w)
    cases hw
    refine ⟨hfull, i, rfl, ?_⟩
    show ((s.setVal i ⟨some m, (s.val i).count + 1⟩).val i).m = some m
    rw [hval, if_pos rfl]
  · -- without a local message before, each count had nothing from it; now the correct
    -- value has the local message once
    intro j (hj : j < s.curSize)
    show ((s.setVal i ⟨some m, (s.val i).count + 1⟩).val j).count ≤
      acc.countP (matchesVal ((s.setVal i ⟨some m, (s.val i).count + 1⟩).val j)) +
        [m].countP (matchesVal ((s.setVal i ⟨some m, (s.val i).count + 1⟩).val j))
    have hcj := h.counts j hj
    rw [hmym, Option.toList_none, List.countP_nil, Nat.add_zero] at hcj
    rw [hmv, hval]
    split
    · next hji =>
        subst hji
        simp only [List.countP_singleton, hm, if_true]
        omega
    · simp only [List.countP_singleton]
      split <;> omega

/-- **`add_mine()` on a value nothing matches**: the local message takes the first
value's place, as the correct value, counted once. -/
theorem Inv.mineFirst (hmatch : Equivalence fun a b : T => matchMsg a b = true)
    (h : Inv node sent acc s) {m : T} (hnone : ∀ i < s.curSize, matchesVal (s.val i) m = false)
    (hmym : s.mym = none) (hfull : full m = true) :
    Inv node sent acc
      { s.setVal 0 ⟨some m, 1⟩ with c := some 0, curSize := max s.curSize 1, mym := some m } := by
  have h0 : 0 < s.vals.length := by rw [h.length_vals]; exact Nat.succ_pos _
  have hval : ∀ j, (s.setVal 0 ⟨some m, 1⟩).val j = if j = 0 then ⟨some m, 1⟩ else s.val j :=
    val_setVal h0
  have hmm : matchesVal ⟨some m, 1⟩ m = true := by simpa [matchesVal] using hmatch.refl m
  refine
    { f_eq := h.f_eq, maxSize_eq := h.maxSize_eq, correct_eq := h.correct_eq
      length_vals := by simpa using h.length_vals
      curSize_le := by have := h.curSize_le; show max s.curSize 1 ≤ _; omega
      c_lt := fun k (hk : some 0 = some k) => by cases hk; show 0 < max s.curSize 1; omega
      filled := ?_, empty := ?_, apart := ?_, mine := ?_
      quorum := fun k _ (hn : some m = none) => by cases hn
      sent := h.sent, nodup := h.nodup, not_local := h.not_local, bmap := h.bmap
      counts := ?_ }
  · intro j (hj : j < max s.curSize 1)
    show ((s.setVal 0 ⟨some m, 1⟩).val j).m.isSome
    rw [hval]
    split
    · rfl
    · exact h.filled j (by omega)
  · intro j (hj : max s.curSize 1 ≤ j)
    show ((s.setVal 0 ⟨some m, 1⟩).val j).m = none
    rw [hval, if_neg (by omega)]
    exact h.empty j (by omega)
  · -- the local message against another value: a message matching both would match it
    intro j k hjk (hk : k < max s.curSize 1) a
      (hboth : matchesVal ((s.setVal 0 ⟨some m, 1⟩).val j) a = true ∧
        matchesVal ((s.setVal 0 ⟨some m, 1⟩).val k) a = true)
    rw [hval, hval, if_neg (show k ≠ 0 by omega)] at hboth
    split at hboth
    · have hkm := matchesVal_of_match hmatch hboth.2 (by simpa [matchesVal] using hboth.1)
      rw [hnone k (by omega)] at hkm
      exact Bool.false_ne_true hkm
    · exact h.apart j k hjk (by omega) a hboth
  · intro w (hw : some m = some w)
    cases hw
    refine ⟨hfull, 0, rfl, ?_⟩
    show ((s.setVal 0 ⟨some m, 1⟩).val 0).m = some m
    rw [hval, if_pos rfl]
  · intro j (hj : j < max s.curSize 1)
    show ((s.setVal 0 ⟨some m, 1⟩).val j).count ≤
      acc.countP (matchesVal ((s.setVal 0 ⟨some m, 1⟩).val j)) +
        [m].countP (matchesVal ((s.setVal 0 ⟨some m, 1⟩).val j))
    rw [hval]
    split
    · simp [hmm]
    · have hcj := h.counts j (by omega)
      rw [hmym, Option.toList_none, List.countP_nil, Nat.add_zero] at hcj
      omega

theorem findMatch_some {s : Certificate T} {m : T} {i : Nat} (h : s.findMatch m = some i) :
    i < s.curSize ∧ matchesVal (s.val i) m = true := by
  unfold findMatch at h
  have hp := List.find?_some h
  exact ⟨List.mem_range.mp (List.mem_of_find?_eq_some h), hp⟩

theorem findMatch_none {s : Certificate T} {m : T} (h : s.findMatch m = none) :
    ∀ i < s.curSize, matchesVal (s.val i) m = false := by
  unfold findMatch at h
  intro i hi
  simpa using List.find?_eq_none.mp h i (List.mem_range.mpr hi)

/-- **`add` taking a message**, from a replica with no message here, when the
certificate has no correct value or the message matches it. -/
theorem Inv.addNew (hmatch : Equivalence fun a b : T => matchMsg a b = true)
    (h : Inv node sent acc s) {m : T} (hms : m ∈ sent) (hnotin : CertMessage.id m ∉ s.bmap)
    (htakes : ∀ i, s.c = some i → matchesVal (s.val i) m = true) :
    ∃ acc', Inv node sent acc' (Certificate.addNew node m s s).state := by
  -- the sender is fresh to `acc`, whose senders are all in `bmap`
  have hfresh : CertMessage.id m ∉ acc.map CertMessage.id := by
    intro hin
    obtain ⟨a, ha, hid⟩ := List.mem_map.mp hin
    exact hnotin (hid ▸ h.bmap a ha)
  have hb := h.addBmap (CertMessage.id m)
  have hbm : CertMessage.id m ∈ CertMessage.id m :: s.bmap := List.mem_cons_self
  by_cases hloc : CertMessage.id m = node.id
  · -- a message claiming to be the local replica's: the assertion throws
    rw [addNew_self hloc]
    exact ⟨acc, h⟩
  cases hc : s.c with
  | some i =>
      -- counted for the correct value, which keeps its (full) local message
      rw [addNew_correct hloc hc]
      refine ⟨_, hb.countFresh hmatch (h.c_lt i hc) (htakes i hc) hms hfresh hbm hloc ?_⟩
      intro (hsome : s.mym.isSome)
      obtain ⟨w, hw⟩ := Option.isSome_iff_exists.mp hsome
      obtain ⟨hfull, k, hk, hkw⟩ := h.mine w hw
      rw [hc] at hk
      cases hk
      show fullVal (s.val i) = true
      simp [fullVal, hkw, hfull]
  | none =>
      -- with no correct value there is no local message
      have hmym : ∀ w, s.mym = some w → False := fun w hw => by
        obtain ⟨-, k, hk, -⟩ := h.mine w hw
        simp [hc] at hk
      cases hfm : s.findMatch m with
      | some i =>
          obtain ⟨hi, hm⟩ := findMatch_some hfm
          have hcount := hb.countFresh hmatch hi hm hms hfresh hbm hloc
            (fun hsome => (hmym _ (Option.get_mem hsome)).elim)
          rw [addNew_match hloc hc hfm]
          split
          · -- reaching `correct`, the value becomes the correct one
            next hq =>
              have hlen : i < ({ s with bmap := CertMessage.id m :: s.bmap } : Certificate T).vals.length := by
                have := h.length_vals; have := h.curSize_le; show i < s.vals.length; omega
              refine ⟨_, hcount.setCorrect hi hc ?_⟩
              rw [setVal_correct, val_setVal hlen, if_pos rfl]
              exact hq
          · exact ⟨_, hcount⟩
      | none =>
          by_cases hlt : s.curSize < s.maxSize
          · rw [addNew_newValue hloc hc hfm hlt]
            exact ⟨_, hb.newValue hmatch hc (findMatch_none hfm) hlt hms hfresh hbm hloc⟩
          · -- more than `f + 1` distinct values: the certificate is cleared
            rw [addNew_overflow hloc hc hfm hlt]
            exact ⟨_, hb.clear⟩

open EStateM in
/-- **`add` keeps every count accounted for**, the message joining what was handed to
`add`, for a certificate of a node with `f ≥ 1`. -/
theorem Inv.add (hmatch : Equivalence fun a b : T => matchMsg a b = true) (hf : 1 ≤ node.f)
    (h : Inv node sent acc s) (m : T) :
    ∃ acc', Inv node (m :: sent) acc' (Certificate.add node m s).state := by
  have hr : s.refresh node = s := by simp [refresh, h.f_eq]
  have hf0 : ¬ s.f = 0 := by rw [h.f_eq]; omega
  have h' := h.sent_cons m
  unfold Certificate.add
  rw [get_bind_apply]
  dsimp only
  rw [hr, set_bind_apply, if_neg hf0]
  split_ifs with hnew htakes
  · -- taken: the message comes from a replica with no message here
    refine h'.addNew hmatch List.mem_cons_self hnew.2 fun i hc => ?_
    rw [hc] at htakes
    simp only [Bool.and_eq_true] at htakes
    exact htakes.2
  · -- refused, though its sender is now marked
    exact ⟨acc, h'.addBmap _⟩
  · exact ⟨acc, h'⟩

/-- **`add_mine` keeps every count accounted for**, called as its contract requires, with
no local message yet. -/
theorem Inv.addMine (hmatch : Equivalence fun a b : T => matchMsg a b = true)
    (h : Inv node sent acc s) (hmym : s.mym = none) (m : T) :
    ∃ acc', Inv node sent acc' (Certificate.addMine node m s).state := by
  by_cases hok : CertMessage.id m = node.id ∧ full m = true
  swap
  · rw [addMine_invalid hok]
    exact ⟨acc, h⟩
  obtain ⟨hloc, hfull⟩ := hok
  have hr : s.refresh node = s := by simp [refresh, h.f_eq]
  cases hc : s.c with
  | some i =>
      cases hm : matchesVal (s.val i) m
      · -- the correct value does not match: the assertion throws
        rw [addMine_faulty hloc hfull hr hc hm]
        exact ⟨acc, h⟩
      · have hi := h.c_lt i hc
        rw [addMine_correct hloc hfull hr hc hm (h.filled i hi)]
        exact ⟨acc, h.mineAt hmatch hi hm hmym hfull⟩
  | none =>
      cases hfm : s.findMatch m with
      | some i =>
          obtain ⟨hi, hm⟩ := findMatch_some hfm
          rw [addMine_match hloc hfull hr hc hfm (h.filled i hi)]
          exact ⟨acc, h.mineAt hmatch hi hm hmym hfull⟩
      | none =>
          have hlen : 0 < s.vals.length := by rw [h.length_vals]; exact Nat.succ_pos _
          -- the first value is in use exactly when some value is
          have hsize : (s.val 0).m = none ↔ s.curSize = 0 := by
            constructor
            · intro h0
              by_contra hne
              have := h.filled 0 (Nat.pos_of_ne_zero hne)
              simp [h0] at this
            · intro h0
              exact h.empty 0 (by omega)
          rw [addMine_first hloc hfull hr hc hfm hlen hsize]
          exact ⟨acc, h.mineFirst hmatch (findMatch_none hfm) hmym hfull⟩

/-- **`mark_stale` keeps every count accounted for.** -/
theorem Inv.markStale [DecidableEq T] (hmatch : Equivalence fun a b : T => matchMsg a b = true)
    (h : Inv node sent acc s) : ∃ acc', Inv node sent acc' (Certificate.markStale s).state := by
  cases hcomp : s.isComplete
  · cases hmy : s.mym with
    | some my =>
        -- the local message is the correct value
        obtain ⟨-, i, hc, hci⟩ := h.mine my hmy
        have hcv : s.cvalue = some my := by simp [cvalue, hc, hci]
        rw [markStale_mine hcomp hmy hc hcv]
        exact ⟨[], h.keepMine hmatch hmy hc⟩
    | none =>
        rw [markStale_none hcomp hmy]
        exact ⟨[], h.forget rfl rfl rfl hmy rfl rfl rfl⟩
  · rw [markStale_complete hcomp]
    exact ⟨acc, h⟩

/-- The values in use exclude one another: no message matches two of them. -/
theorem Inv.exclusive (h : Inv node sent acc s) :
    Quorum.Exclusive ((List.range s.curSize).map fun i => matchesVal (s.val i)) := by
  unfold Quorum.Exclusive
  rw [List.pairwise_map]
  refine (List.pairwise_lt_range).imp_of_mem ?_
  intro i j hi hj hij a
  exact h.apart i j hij (List.mem_range.mp hj) a

/-- **No replica is counted twice**: the counts of all values together are at most the
messages counted, one per replica, and the local message. -/
theorem Inv.sum_counts_le (h : Inv node sent acc s) :
    ((List.range s.curSize).map fun i => (s.val i).count).sum ≤ acc.length + s.mym.toList.length := by
  have hps := h.exclusive
  have hle : ((List.range s.curSize).map fun i => (s.val i).count).sum ≤
      ((List.range s.curSize).map fun i =>
        acc.countP (matchesVal (s.val i)) + s.mym.toList.countP (matchesVal (s.val i))).sum :=
    List.sum_le_sum fun i hi => h.counts i (List.mem_range.mp hi)
  rw [List.sum_map_add] at hle
  have hacc := hps.sum_countP_le_length acc
  have hmine := hps.sum_countP_le_length s.mym.toList
  simp only [List.map_map, Function.comp_def] at hacc hmine
  omega

/-- A value holding `x` matches what `x` matches. -/
theorem matchesVal_of_m {v : MessageVal T} {x : T} (h : v.m = some x) :
    matchesVal v = matchMsg x := by
  funext a
  simp [matchesVal, h]

/-- The local message, once there is one, is the correct value. -/
theorem Inv.cvalue_of_mym (h : Inv node sent acc s) {w : T} (hw : s.mym = some w) :
    s.cvalue = some w := by
  obtain ⟨_, i, hc, hm⟩ := h.mine w hw
  simp [cvalue, hc, hm]

/-- The correct value's count is made of distinct senders of matching messages and the
local message. -/
theorem Inv.count_cvalue (h : Inv node sent acc s) {v : T} {i : Nat} (hc : s.c = some i)
    (hm : (s.val i).m = some v) :
    (s.val i).count ≤ acc.countP (matchMsg v) + s.mym.toList.countP (matchMsg v) := by
  rw [← matchesVal_of_m hm]
  exact h.counts i (h.c_lt i hc)

end Inv

end Certificate

/-- A certificate with every message handed to `add` so far. -/
structure Recorded (T : Type) where
  sent : List T
  cert : Certificate T

namespace Recorded

variable {T : Type} [CertMessage T] [DecidableEq T]

/-- A fresh certificate, `Certificate(comp)`, with nothing handed to it yet. -/
def Init (node : Node) (comp : Nat) (r : Recorded T) : Prop :=
  r = ⟨[], Certificate.new node comp⟩

/-- The calls a replica makes on a certificate: `add` of any message, from any sender,
`add_mine` as its contract requires (with no local message in the certificate yet),
`mark_stale` and `clear`. -/
inductive Step (node : Node) : Recorded T → Recorded T → Prop
  | add (sent : List T) (s : Certificate T) (m : T) :
      Step node ⟨sent, s⟩ ⟨m :: sent, (Certificate.add node m s).state⟩
  | addMine (sent : List T) (s : Certificate T) (m : T) (h : s.mine = none) :
      Step node ⟨sent, s⟩ ⟨sent, (Certificate.addMine node m s).state⟩
  | markStale (sent : List T) (s : Certificate T) :
      Step node ⟨sent, s⟩ ⟨sent, (Certificate.markStale s).state⟩
  | clear (sent : List T) (s : Certificate T) : Step node ⟨sent, s⟩ ⟨sent, s.clear⟩

open CertMessage (matchMsg)

variable {node : Node} {comp : Nat}

/-- **Every step keeps every count accounted for.** -/
theorem Step.inv (hmatch : Equivalence fun a b : T => matchMsg a b = true) (hf : 1 ≤ node.f)
    {r r' : Recorded T} (hs : Step node r r') (h : ∃ acc, Certificate.Inv node r.sent acc r.cert) :
    ∃ acc, Certificate.Inv node r'.sent acc r'.cert := by
  obtain ⟨acc, hi⟩ := h
  cases hs with
  | add sent s m => exact hi.add hmatch hf m
  | addMine sent s m hmine => exact hi.addMine hmatch hmine m
  | markStale sent s => exact hi.markStale hmatch
  | clear sent s => exact ⟨[], hi.clear⟩

/-- The invariant of every reachable certificate. -/
theorem Reachable.inv (hmatch : Equivalence fun a b : T => matchMsg a b = true)
    (hf : 1 ≤ node.f) {r : Recorded T} (h : Run.Reachable (Init node comp) (Step node) r) :
    ∃ acc, Certificate.Inv node r.sent acc r.cert := by
  refine Run.Reachable.invariant (fun r => ∃ acc, Certificate.Inv node r.sent acc r.cert)
    ?_ (fun _ _ _ hi hs => Step.inv hmatch hf hs hi) h
  rintro r rfl
  exact ⟨[], Certificate.Inv.new node comp⟩


/-- **The quorum behind a certificate.** In every certificate reachable by `add`,
`add_mine`, `mark_stale` and `clear`, on a node with `f ≥ 1` and a `match` that is an
equivalence, there are messages `acc` handed to `add`, from distinct replicas other than
the local one, such that every counted message is one of them or the local message; a
correct value that is not the local message is matched by `f + 1` of them; and a
complete certificate's correct value is matched by `complete` of them and the local
message. -/
theorem certificate_quorum (hmatch : Equivalence fun a b : T => matchMsg a b = true)
    (hf : 1 ≤ node.f) {r : Recorded T} (h : Run.Reachable (Init node comp) (Step node) r) :
    ∃ acc, acc ⊆ r.sent ∧ (acc.map CertMessage.id).Nodup ∧ node.id ∉ acc.map CertMessage.id ∧
      ((List.range r.cert.curSize).map fun i => (r.cert.val i).count).sum ≤
        acc.length + r.cert.mine.toList.length ∧
      (∀ v, r.cert.cvalue = some v → r.cert.mine ≠ some v →
        node.f + 1 ≤ acc.countP (matchMsg v)) ∧
      (r.cert.isComplete = true → ∀ v, r.cert.cvalue = some v →
        r.cert.complete ≤ acc.countP (matchMsg v) + r.cert.mine.toList.countP (matchMsg v)) := by
  obtain ⟨acc, hi⟩ := Reachable.inv hmatch hf h
  refine ⟨acc, hi.sent, hi.nodup, hi.not_local, hi.sum_counts_le, ?quorum, ?complete⟩
  case quorum =>
    intro v hv hne
    obtain ⟨i, hc, hm⟩ := Certificate.cvalue_eq_some hv
    -- a local message would be the correct value itself
    have hmym : r.cert.mym = none := by
      cases hw : r.cert.mym with
      | none => rfl
      | some w =>
          have hvw : v = w := Option.some.inj (hv.symm.trans (hi.cvalue_of_mym hw))
          subst hvw
          exact absurd hw hne
    calc node.f + 1 = r.cert.correct := hi.correct_eq.symm
      _ ≤ (r.cert.val i).count := hi.quorum i hc hmym
      _ ≤ acc.countP (matchMsg v) + r.cert.mym.toList.countP (matchMsg v) := hi.count_cvalue hc hm
      _ = acc.countP (matchMsg v) := by simp [hmym]
  case complete =>
    intro hcomp v hv
    obtain ⟨i, hc, hm⟩ := Certificate.cvalue_eq_some hv
    have hnum : r.cert.complete ≤ (r.cert.val i).count := by
      simpa [Certificate.isComplete, Certificate.numCorrect, hc] using hcomp
    exact hnum.trans (hi.count_cvalue hc hm)

end Recorded


/-- A vote for `value` from replica `sender`; every vote is full, and votes match when
their values agree. -/
structure Vote where
  sender : Nat
  value : Nat
  deriving DecidableEq

instance : CertMessage Vote := ⟨Vote.sender, fun _ => true, fun a b => a.value == b.value⟩

theorem vote_match_equivalence :
    Equivalence fun a b : Vote => CertMessage.matchMsg a b = true where
  refl a := by simp [CertMessage.matchMsg]
  symm h := by
    simp only [CertMessage.matchMsg, beq_iff_eq] at h ⊢
    exact h.symm
  trans h₁ h₂ := by
    simp only [CertMessage.matchMsg, beq_iff_eq] at h₁ h₂ ⊢
    exact h₁.trans h₂

/-- Replica 0 of four, with `f = 1`. -/
def fourReplicas : Node := ⟨0, 1, 3, fun i => decide (i < 4)⟩

/-- Replicas 1 and 2 vote for 7 on replica 0. -/
def twoVotes : Recorded Vote :=
  ⟨[⟨2, 7⟩, ⟨1, 7⟩], (Certificate.add fourReplicas ⟨2, 7⟩
    (Certificate.add fourReplicas ⟨1, 7⟩ (Certificate.new fourReplicas 0)).state).state⟩

theorem twoVotes_reachable :
    Run.Reachable (Recorded.Init fourReplicas 0) (Recorded.Step fourReplicas) twoVotes := by
  have h0 : Run.Reachable (Recorded.Init fourReplicas 0) (Recorded.Step fourReplicas)
      (⟨[], Certificate.new fourReplicas 0⟩ : Recorded Vote) := .of_init rfl
  exact (h0.tail (Recorded.Step.add _ _ _)).tail (Recorded.Step.add _ _ _)

theorem certificate_quorum_twoVotes :
    ∃ acc, acc ⊆ twoVotes.sent ∧ (acc.map CertMessage.id).Nodup ∧
      fourReplicas.id ∉ acc.map CertMessage.id ∧
      ((List.range twoVotes.cert.curSize).map fun i => (twoVotes.cert.val i).count).sum ≤
        acc.length + twoVotes.cert.mine.toList.length ∧
      (∀ v, twoVotes.cert.cvalue = some v → twoVotes.cert.mine ≠ some v →
        fourReplicas.f + 1 ≤ acc.countP (CertMessage.matchMsg v)) ∧
      (twoVotes.cert.isComplete = true → ∀ v, twoVotes.cert.cvalue = some v →
        twoVotes.cert.complete ≤ acc.countP (CertMessage.matchMsg v) +
          twoVotes.cert.mine.toList.countP (CertMessage.matchMsg v)) :=
  Recorded.certificate_quorum vote_match_equivalence (by decide) twoVotes_reachable

/-- The two matching votes make 7 the correct value, not yet complete. -/
example : twoVotes.cert.cvalue = some ⟨1, 7⟩ ∧ twoVotes.cert.isComplete = false := by decide

end Ccf.Pbft
