import Ccf.Ds.Proof.Oversized
import Ccf.Ds.Proof.Serializer
import Ccf.Lib.Interleave

/-!
# What the reconstructor dispatches

A `FragmentReconstructor` given the fragments of a message, in order, dispatches the message once,
whole, at its last fragment (`run_fragments`). The handler works on the entry of
`partial_messages` at the fragment's identifier and on no other. So the fragments of other
messages, with other identifiers, may come in between, in any interleaving: each message still
gets what it gets alone (`reconstruct_interleaved`).

With the writer's side, `oversized_round_trip` is the whole path: a message written through an
`oversized::Writer`, with a first section longer than the room the first fragment has after its
header, comes out of the reconstructor once, whole, among the other messages of the ring.
-/

namespace Ccf.Oversized

open Ringbuffer (Message Const)
open EStateM List

/-! ## Reading the header -/

/-- `serialized::read` of `size` bytes at the front of the data reads the number they hold. -/
theorem readScalar_le (size v : Nat) (rest : List UInt8) :
    Serializer.readScalar size (Codec.le size v ++ rest) =
      .ok (⟨v % 256 ^ size, Nat.mod_lt _ (Nat.pow_pos (by decide))⟩, rest) := by
  rw [← Codec.le_mod]
  exact Serializer.readScalar_le_append size ⟨v % 256 ^ size, _⟩ rest

theorem readValue_apply {σ : Type} (size : Nat) (data : List UInt8) (s : σ) :
    readValue size data s = match Serializer.readScalar size data with
      | .ok r => .ok r s
      | .error e => .error (.read e) s := by
  unfold readValue
  cases Serializer.readScalar size data <;> rfl

/-- What `serialized::read` returns is the number the front bytes hold. -/
theorem readScalar_val {size : Nat} {data : List UInt8} {r : Fin (256 ^ size) × List UInt8}
    (h : Serializer.readScalar size data = .ok r) : r.1.val = Codec.ofLe (data.take size) := by
  unfold Serializer.readScalar at h
  split at h
  · cases h
  · cases h
    rfl

/-- A fragment whose bytes start with an identifier is handled at that identifier's entry. -/
theorem handleFragment_le (id : Nat) (rest : List UInt8) :
    handleFragment (Codec.le 8 id ++ rest) =
      atKey (id % 256 ^ 8) (handleEntry (id % 256 ^ 8) rest) := by
  funext p
  unfold handleFragment
  rw [bind_of_ok (by rw [readValue_apply, readScalar_le])]

/-! ## One message -/

/-- A fragment of a message already begun, with no more bytes than it still needs: the bytes are
added, and the message dispatched and forgotten if it is then whole. -/
theorem handleEntry_some (k : Nat) (pm : PartialMessage) (data : List UInt8)
    (h : data.length + pm.data.length ≤ pm.totalSize) :
    handleEntry k data (some pm) =
      if (pm.data ++ data).length = pm.totalSize then .ok (some (pm.m, pm.data ++ data)) none
      else .ok none (some { pm with data := pm.data ++ data }) := by
  unfold handleEntry
  rw [get_bind_apply]
  dsimp only
  rw [pure_bind_apply]
  dsimp only
  rw [if_neg (Nat.not_lt.mpr h)]
  split <;> rfl

/-- The first fragment of a message, with its type and total size: after them, its bytes are added
as to a message begun with none. -/
theorem handleEntry_none (k : Nat) (m : Message) {T : Nat} (hT : T < 256 ^ 8)
    (data : List UInt8) :
    handleEntry k (Codec.le 4 m.toNat ++ Codec.le 8 T ++ data) none =
      handleEntry k data (some ⟨m, T, []⟩) := by
  have hm : UInt32.ofNat (m.toNat % 256 ^ 4) = m := by
    rw [show (256 : Nat) ^ 4 = 2 ^ 32 by rfl, Nat.mod_eq_of_lt m.toNat_lt, UInt32.ofNat_toNat]
  unfold handleEntry
  rw [get_bind_apply, get_bind_apply]
  dsimp only
  rw [List.append_assoc, bind_of_ok (by rw [readValue_apply, readScalar_le])]
  dsimp only
  rw [bind_of_ok (by rw [readValue_apply, readScalar_le])]
  dsimp only
  rw [set_bind_apply, pure_bind_apply, pure_bind_apply, Nat.mod_eq_of_lt hT, hm]

/-- A fragment message, as the entry at `k` handles it: past the identifier. -/
def entryStep (k : Nat) (x : Message × List UInt8) :
    EStateM Error (Option PartialMessage) (Option (Message × List UInt8)) :=
  handleEntry k (x.2.drop 8)

-- Made here once: the equation lemmas that the proofs below unfold.
section
attribute [local simp] entryStep
end

/-- The rest of a message's fragments, each with the identifier and at least one byte, once the
bytes `acc` have come: every fragment but the last dispatches nothing, and the last the whole
message. -/
theorem run_rest (k id : Nat) (m : Message) (T : Nat) :
    ∀ (ps : List (List UInt8)) (acc : List UInt8), ps ≠ [] → (∀ q ∈ ps, q ≠ []) →
      (acc ++ ps.flatten).length = T →
      ((ps.map (Codec.le 8 id ++ ·)).map fun d => (fragment, d)).mapM
          (entryStep k) (some ⟨m, T, acc⟩) =
        .ok (List.replicate (ps.length - 1) none ++ [some (m, acc ++ ps.flatten)]) none
  | [], _, hne, _, _ => absurd rfl hne
  | [q], acc, _, _, hlen => by
      simp only [List.flatten_cons, List.flatten_nil, List.append_nil] at hlen
      have hstep : entryStep k (fragment, Codec.le 8 id ++ q) (some ⟨m, T, acc⟩) =
          .ok (some (m, acc ++ q)) none := by
        rw [entryStep, List.drop_left' (Codec.length_le 8 id),
          handleEntry_some k _ q (by simp at hlen ⊢; omega), if_pos hlen]
      simp only [List.map_cons, List.map_nil, List.length_singleton, Nat.sub_self,
        List.replicate_zero, List.nil_append, List.flatten_cons, List.flatten_nil,
        List.append_nil]
      exact mapM_cons_ok hstep rfl
  | q :: q' :: ps, acc, _, hps, hlen => by
      -- a later fragment has at least one byte, so this one does not complete the message
      have hq' : 0 < q'.length := List.length_pos_iff.mpr (hps q' (by simp))
      have hlt : (acc ++ q).length < T := by
        rw [← hlen]
        simp only [List.flatten_cons, List.length_append]
        omega
      have hstep : entryStep k (fragment, Codec.le 8 id ++ q) (some ⟨m, T, acc⟩) =
          .ok none (some ⟨m, T, acc ++ q⟩) := by
        rw [entryStep, List.drop_left' (Codec.length_le 8 id),
          handleEntry_some k _ q (by simp at hlt ⊢; omega), if_neg (Nat.ne_of_lt hlt)]
      have hrest := run_rest k id m T (q' :: ps) (acc ++ q) (List.cons_ne_nil _ _)
        (fun r hr => hps r (List.mem_cons_of_mem q hr))
        (by rw [← hlen]; simp only [List.flatten_cons, List.append_assoc])
      rw [List.map_cons, List.map_cons, mapM_cons_ok hstep hrest]
      simp only [List.length_cons, List.flatten_cons, List.append_assoc, Nat.add_sub_cancel,
        List.replicate_succ, List.cons_append]

/-- A message's fragments, in order, from no entry for its identifier: every fragment but the
last dispatches nothing, the last dispatches the message whole, and the entry is gone again. -/
theorem run_fragments {id : Nat} {m : Message} {payload : List UInt8} {frags : List (List UInt8)}
    (hf : Fragments id m payload frags) (hT : payload.length < 256 ^ 8) :
    (frags.map fun d => (fragment, d)).mapM
        (entryStep (id % 256 ^ 8)) none =
      .ok (List.replicate (frags.length - 1) none ++ [some (m, payload)]) none := by
  obtain ⟨p, ps, rfl, hpay, hps⟩ := hf
  -- the first fragment: its header read, then its bytes
  have hfirst : entryStep (id % 256 ^ 8) (fragment, initialFragmentHeader id m payload.length ++ p)
      none = handleEntry (id % 256 ^ 8) p (some ⟨m, payload.length, []⟩) := by
    rw [entryStep, initialFragmentHeader, List.append_assoc, List.append_assoc,
      List.drop_left' (Codec.length_le 8 id), ← List.append_assoc, handleEntry_none _ _ hT]
  rw [List.map_cons]
  cases ps with
  | nil =>
      -- one fragment: it holds the whole payload
      have hall : p = payload := by simpa using hpay
      subst hall
      have hstep := hfirst
      rw [handleEntry_some _ _ p (by simp), if_pos (by simp)] at hstep
      exact mapM_cons_ok hstep rfl
  | cons q qs =>
      have hlt : p.length < payload.length := by
        have hq := List.length_pos_iff.mpr (hps q (List.mem_cons_self ..))
        rw [← hpay, List.flatten_cons, List.length_append, List.length_append]
        omega
      have hstep := hfirst
      rw [handleEntry_some _ _ p (by simp; omega), if_neg (by simp; omega)] at hstep
      have hrest := run_rest (id % 256 ^ 8) id m payload.length (q :: qs) p
        (List.cons_ne_nil _ _) hps (by rw [hpay])
      rw [mapM_cons_ok hstep hrest, hpay]
      simp only [List.length_cons, List.length_map, Nat.add_sub_cancel, List.replicate_succ,
        List.cons_append]

/-! ## Among other messages -/

/-- Every fragment of a message starts with its identifier. -/
theorem Fragments.le_prefix {id : Nat} {m : Message} {payload : List UInt8}
    {frags : List (List UInt8)} (hf : Fragments id m payload frags) :
    ∀ d ∈ frags, ∃ rest, d = Codec.le 8 id ++ rest := by
  obtain ⟨p, ps, rfl, -, -⟩ := hf
  intro d hd
  rcases List.mem_cons.mp hd with rfl | hd
  · exact ⟨Codec.le 4 m.toNat ++ Codec.le 8 payload.length ++ p,
      by simp only [initialFragmentHeader, List.append_assoc]⟩
  · obtain ⟨q, -, rfl⟩ := List.mem_map.mp hd
    exact ⟨q, rfl⟩

/-- A fragment goes to the entry at its identifier. -/
theorem dispatch_fragment (id : Nat) (rest : List UInt8) :
    dispatch (fragment, Codec.le 8 id ++ rest) =
      atKey (id % 256 ^ 8) (entryStep (id % 256 ^ 8) (fragment, Codec.le 8 id ++ rest)) := by
  rw [dispatch, if_pos rfl, handleFragment_le, entryStep, List.drop_left' (Codec.length_le 8 id)]

/-- Any other message, one that is no fragment or a fragment with another identifier, leaves the
entry at `k` alone. -/
theorem dispatch_update_of_ne {o : Message × List UInt8} {k : Nat}
    (ho : o.1 = fragment → Codec.ofLe (o.2.take 8) ≠ k) (p : PartialMessages)
    (v : Option PartialMessage) :
    dispatch o (Function.update p k v) = (dispatch o p).mapState (Function.update · k v) := by
  unfold dispatch
  split
  case isFalse => rfl
  case isTrue hf =>
    unfold handleFragment
    -- an identifier that cannot be read throws before any entry is touched
    cases hr : Serializer.readScalar 8 o.2 with
    | error e =>
        rw [bind_of_error (by rw [readValue_apply, hr]),
          bind_of_error (by rw [readValue_apply, hr])]
        rfl
    | ok r =>
        obtain ⟨i, rest⟩ := r
        rw [bind_of_ok (by rw [readValue_apply, hr]), bind_of_ok (by rw [readValue_apply, hr])]
        exact atKey_update_of_ne (by rw [readScalar_val hr]; exact ho hf) _ p v

/-- A message's fragments, in order, interleaved with other messages that hold no fragment of its
identifier, from a reconstructor with no entry for it: each of the other messages is dispatched as
it is without the fragments, the message is dispatched once, whole, at its last fragment, and the
reconstructor ends as it does without the fragments. -/
theorem reconstruct_interleaved {id : Nat} {m : Message} {payload : List UInt8}
    {frags : List (List UInt8)} (hf : Fragments id m payload frags)
    (hT : payload.length < 256 ^ 8) {others l : List (Message × List UInt8)}
    (hl : Interleaving l (frags.map fun d => (fragment, d)) others)
    (ho : ∀ o ∈ others, o.1 = fragment → Codec.ofLe (o.2.take 8) ≠ id % 256 ^ 8)
    {q q' : PartialMessages} {cs : List (Option (Message × List UInt8))}
    (hq : q (id % 256 ^ 8) = none) (hys : others.mapM dispatch q = .ok cs q') :
    ∃ ds, l.mapM dispatch q = .ok ds q' ∧
      Interleaving (l.zip ds)
        ((frags.map fun d => (fragment, d)).zip
          (List.replicate (frags.length - 1) none ++ [some (m, payload)]))
        (others.zip cs) := by
  have hx : ∀ x ∈ frags.map (fun d => (fragment, d)),
      dispatch x = atKey (id % 256 ^ 8) (entryStep (id % 256 ^ 8) x) := by
    intro x hx
    obtain ⟨d, hd, rfl⟩ := List.mem_map.mp hx
    obtain ⟨rest, rfl⟩ := hf.le_prefix d hd
    exact dispatch_fragment id rest
  have hy : ∀ y ∈ others, ∀ p v, dispatch y (Function.update p (id % 256 ^ 8) v) =
      (dispatch y p).mapState (Function.update · (id % 256 ^ 8) v) :=
    fun y hy => dispatch_update_of_ne (ho y hy)
  -- the others leave the entry empty, so setting it back to `none` changes nothing
  have hq' : q' (id % 256 ^ 8) = none := (mapM_away_at hy hys).trans hq
  obtain ⟨ds, hds, hzip⟩ := mapM_interleaving hl hx hy (run_fragments hf hT) hys
  rw [Function.update_eq_self_iff.mpr hq.symm, Function.update_eq_self_iff.mpr hq'.symm] at hds
  exact ⟨ds, hds, hzip⟩

/-! ## The whole path -/

variable {c : Const} {cfg : WriterConfig}

/-- A message written by `write_multiple` in sections whose first is longer than the room the
first fragment has after its header: the write succeeds and puts the message's fragments in the
ring after what it held, and a reconstructor fed those fragments in order, in any interleaving with
other messages that hold no fragment of the same identifier, dispatches the others as it does
without the fragments and the message once, with exactly the bytes written, at its last
fragment. -/
theorem oversized_round_trip (hfit : Fits c cfg) {w : Writer} (hw : w.fragmentProgress = none)
    (hidle : ∀ r ∈ w.base.reservations, r.pending = false ∧ r.index + r.size ≤ w.base.tail)
    (m : Message) (s : List UInt8) (ss : List (List UInt8))
    (hT : cfg.maxFragmentSize < Ringbuffer.totalSize (s :: ss))
    (ht : Ringbuffer.totalSize (s :: ss) ≤ cfg.maxTotalSize)
    (hs : cfg.maxFragmentSize - initialFragmentHeaderSize < s.length) :
    ∃ (w' : Writer) (frags : List (List UInt8)),
      Writer.writeMultiple c cfg m true (s :: ss) w = .ok true w' ∧
      Base.read w'.base = Base.read w.base ++ frags.map (fun d => (fragment, d)) ∧
      ∀ (others l : List (Message × List UInt8)) (q q' : PartialMessages)
        (cs : List (Option (Message × List UInt8))),
        Interleaving l (frags.map fun d => (fragment, d)) others →
        (∀ o ∈ others, o.1 = fragment → Codec.ofLe (o.2.take 8) ≠ w.base.tail % 256 ^ 8) →
        q (w.base.tail % 256 ^ 8) = none → others.mapM dispatch q = .ok cs q' →
        ∃ ds, l.mapM dispatch q = .ok ds q' ∧
          Interleaving (l.zip ds)
            ((frags.map fun d => (fragment, d)).zip
              (List.replicate (frags.length - 1) none ++ [some (m, (s :: ss).flatten)]))
            (others.zip cs) := by
  obtain ⟨w', frags, hrun, -, hread, hf⟩ :=
    Writer.writeMultiple_fragments hfit hw hidle m s ss hT ht hs
  -- the total size, at most `max_total_size`, fits the header's eight bytes
  have hlen : (s :: ss).flatten.length < 256 ^ 8 := by
    have := cfg.total_lt
    rw [← totalSize_eq]
    omega
  exact ⟨w', frags, hrun, hread, fun others l q q' cs hl ho hq hys =>
    reconstruct_interleaved hf hlen hl ho hq hys⟩

/-- A message of 70 bytes in one section, from an idle writer on an empty buffer: two
fragments. -/
theorem oversized_round_trip_seventy :
    ∃ (w' : Writer) (frags : List (List UInt8)),
      Writer.writeMultiple size256 smallFragments 5 true [List.replicate 70 0] idleWriter =
        .ok true w' ∧
      Base.read w'.base = Base.read idleWriter.base ++ frags.map (fun d => (fragment, d)) ∧
      ∀ (others l : List (Message × List UInt8)) (q q' : PartialMessages)
        (cs : List (Option (Message × List UInt8))),
        Interleaving l (frags.map fun d => (fragment, d)) others →
        (∀ o ∈ others,
          o.1 = fragment → Codec.ofLe (o.2.take 8) ≠ idleWriter.base.tail % 256 ^ 8) →
        q (idleWriter.base.tail % 256 ^ 8) = none → others.mapM dispatch q = .ok cs q' →
        ∃ ds, l.mapM dispatch q = .ok ds q' ∧
          Interleaving (l.zip ds)
            ((frags.map fun d => (fragment, d)).zip
              (List.replicate (frags.length - 1) none ++ [some (5, [List.replicate 70 0].flatten)]))
            (others.zip cs) :=
  oversized_round_trip (by decide) rfl (by decide) 5 _ [] (by decide) (by decide) (by decide)

end Ccf.Oversized
