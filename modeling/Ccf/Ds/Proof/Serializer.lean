import Ccf.Ds.Serializer

/-!
# What the serializers read back

`CommonSerializer::deserialize` reads back what `serialize` wrote, for every list of kinds in
which a byte vector (or `ByteRange`), which takes all the bytes left, comes only last
(`deserialize_serialize`). Each kind reads its own sections off the front of the buffer and
leaves the rest (`deserializeValue_serializeValue`); the induction over the kinds does the rest.

`TupleSerializer` serializes a tuple through `details::tuple_apply`, which gives the sections of
the elements in order (`tupleApply_eq_serialize`), except for a tuple of one element, for which
its first test returns the empty tuple: nothing is serialized at all
(`tuple_of_one_serializes_nothing`).
-/

namespace Ccf.Serializer

/-- A byte vector, which takes all the bytes left, comes only last. -/
def BytesLast : List Kind → Prop
  | [] => True
  | [_] => True
  | k :: k' :: ks => k ≠ .bytes ∧ BytesLast (k' :: ks)

instance decBytesLast : (ks : List Kind) → Decidable (BytesLast ks)
  | [] => isTrue trivial
  | [_] => isTrue trivial
  | _ :: k' :: ks =>
      have := decBytesLast (k' :: ks)
      inferInstanceAs (Decidable (_ ∧ _))

/-! ## One value -/

theorem readScalar_le_append (size : Nat) (v : Fin (256 ^ size)) (rest : List UInt8) :
    readScalar size (Codec.le size v.val ++ rest) = .ok (v, rest) := by
  have hlen : (Codec.le size v.val ++ rest).length = size + rest.length := by simp
  have hval : Codec.ofLe ((Codec.le size v.val ++ rest).take size) = v.val := by
    rw [Codec.ofLe_take_le_append, Nat.mod_eq_of_lt v.isLt]
  unfold readScalar
  rw [if_neg (by omega)]
  exact congrArg Except.ok (Prod.ext (Fin.ext hval) (List.drop_left' (Codec.length_le _ _)))

theorem readString_le_append (s : { s : List UInt8 // s.length < 256 ^ sizeOfSizeT })
    (rest : List UInt8) :
    readString (Codec.le sizeOfSizeT s.val.length ++ (s.val ++ rest)) = .ok (s, rest) := by
  unfold readString
  -- the length comes back, and the bytes after it start with the string
  rw [readScalar_le_append sizeOfSizeT ⟨s.val.length, s.property⟩]
  show (if s.val.length ≤ (s.val ++ rest).length then _ else _) = _
  rw [if_pos (by simp)]
  exact congrArg Except.ok (Prod.ext (Subtype.ext (List.take_left' rfl)) (List.drop_left' rfl))

/-- Every kind but a byte vector reads its own sections off the front of the buffer and leaves
the rest. -/
theorem deserializeValue_serializeValue {k : Kind} (hk : k ≠ .bytes) (v : k.Val)
    (rest : List UInt8) :
    deserializeValue k ((serializeValue k v).flatten ++ rest) = .ok (v, rest) := by
  cases k with
  | scalar size pos =>
      simp only [serializeValue, List.flatten_cons, List.flatten_nil, List.append_nil]
      exact readScalar_le_append size v rest
  | string =>
      simp only [serializeValue, List.flatten_cons, List.flatten_nil, List.append_nil,
        List.append_assoc]
      exact readString_le_append v rest
  | bytes => exact absurd rfl hk

/-- A byte vector reads back everything. -/
theorem deserializeValue_bytes (b : Kind.bytes.Val) :
    deserializeValue .bytes ((serializeValue .bytes b).flatten) = .ok (b, []) := by
  simp [serializeValue, deserializeValue]

/-! ## The round trip -/

theorem deserializeImpl_serialize (k : Kind) (ks : List Kind) (h : BytesLast (k :: ks))
    (vs : Vals (k :: ks)) : deserializeImpl k ks (serialize (k :: ks) vs).flatten = .ok vs := by
  induction ks generalizing k with
  | nil =>
      cases vs with
      | cons v vs =>
          cases vs
          simp only [serialize, List.append_nil, deserializeImpl]
          -- the last value may be a byte vector, which takes what is left
          by_cases hk : k = .bytes
          · subst hk
            rw [deserializeValue_bytes v]
            rfl
          · have hv := deserializeValue_serializeValue hk v []
            rw [List.append_nil] at hv
            rw [hv]
            rfl
  | cons k' ks ih =>
      obtain ⟨hk, hrest⟩ := h
      cases vs with
      | cons v vs =>
          simp only [serialize, List.flatten_append, deserializeImpl]
          rw [deserializeValue_serializeValue hk v]
          show (deserializeImpl k' ks (serialize (k' :: ks) vs).flatten >>= fun vs' =>
            pure (Vals.cons v vs')) = _
          rw [ih k' hrest vs]
          rfl

/-- `CommonSerializer::deserialize<Ts...>` reads back the concatenation of the sections of
`CommonSerializer::serialize(values...)`, for every list of kinds with a byte vector only last. -/
theorem deserialize_serialize (ks : List Kind) (h : BytesLast ks) (vs : Vals ks) :
    deserialize ks (serialize ks vs).flatten = .ok vs := by
  cases ks with
  | nil =>
      cases vs
      rfl
  | cons k ks => exact deserializeImpl_serialize k ks h vs

/-- A `uint32_t`, a string and a byte vector. -/
theorem deserialize_serialize_message :
    BytesLast [.scalar 4 (by decide), .string, .bytes] ∧
      deserialize [.scalar 4 (by decide), .string, .bytes]
          (serialize [.scalar 4 (by decide), .string, .bytes]
            (.cons (⟨7, by decide⟩ : Fin (256 ^ 4)) (.cons ⟨[104, 105], by decide⟩
              (.cons ([1, 2, 3] : List UInt8) .nil)))).flatten =
        .ok (.cons (⟨7, by decide⟩ : Fin (256 ^ 4)) (.cons ⟨[104, 105], by decide⟩
          (.cons ([1, 2, 3] : List UInt8) .nil))) :=
  ⟨by decide, deserialize_serialize _ (by decide) _⟩

/-! ## Tuples -/

theorem tupleApplyFrom_eq_serialize : ∀ (ks : List Kind) (vs : Vals ks),
    tupleApplyFrom ks vs = serialize ks vs
  | [], .nil => rfl
  | [_], .cons _ .nil => rfl
  | k :: k' :: ks, .cons v vs => by
      rw [tupleApplyFrom, tupleApplyFrom_eq_serialize (k' :: ks) vs]
      simp [serialize]

/-- For a tuple of any size but one, `TupleSerializer::serialize(tuple)` gives the sections
`CommonSerializer::serialize` gives for its elements, so `deserialize` reads the tuple back. -/
theorem tuple_round_trip (ks : List Kind) (hsize : ks.length ≠ 1) (h : BytesLast ks)
    (vs : Vals ks) :
    tupleApply ks vs = serialize ks vs ∧ deserialize ks (tupleApply ks vs).flatten = .ok vs := by
  have heq : tupleApply ks vs = serialize ks vs := by
    rw [tupleApply, if_neg hsize, tupleApplyFrom_eq_serialize]
  exact ⟨heq, by rw [heq]; exact deserialize_serialize ks h vs⟩

/-- A pair of a `uint64_t` and a string. -/
theorem tuple_round_trip_pair :
    [Kind.scalar 8 (by decide), .string].length ≠ 1 ∧ BytesLast [.scalar 8 (by decide), .string] ∧
      tupleApply [.scalar 8 (by decide), .string]
          (.cons (⟨5, by decide⟩ : Fin (256 ^ 8)) (.cons ⟨[0], by decide⟩ .nil)) =
        serialize [.scalar 8 (by decide), .string]
          (.cons (⟨5, by decide⟩ : Fin (256 ^ 8)) (.cons ⟨[0], by decide⟩ .nil)) ∧
      deserialize [.scalar 8 (by decide), .string]
          (tupleApply [.scalar 8 (by decide), .string]
            (.cons (⟨5, by decide⟩ : Fin (256 ^ 8)) (.cons ⟨[0], by decide⟩ .nil))).flatten =
        .ok (.cons (⟨5, by decide⟩ : Fin (256 ^ 8)) (.cons ⟨[0], by decide⟩ .nil)) :=
  ⟨by decide, by decide, tuple_round_trip _ (by decide) (by decide) _⟩

/-- Every kind but a byte vector serializes to some bytes. -/
theorem serializeValue_ne_nil {k : Kind} (hk : k ≠ .bytes) (v : k.Val) :
    (serializeValue k v).flatten ≠ [] := by
  cases k with
  | scalar size pos =>
      simp only [serializeValue, List.flatten_cons, List.flatten_nil, List.append_nil]
      exact List.ne_nil_of_length_pos (by simpa using pos)
  | string =>
      simp only [serializeValue, List.flatten_cons, List.flatten_nil, List.append_nil]
      refine List.ne_nil_of_length_pos ?_
      simp only [List.length_append, Codec.length_le, sizeOfSizeT]
      omega
  | bytes => exact absurd rfl hk

/-- `TupleSerializer::serialize` of a tuple of one element serializes nothing, where
`CommonSerializer::serialize` of the element gives its sections, which hold at least one byte
unless the element is an empty byte vector. -/
theorem tuple_of_one_serializes_nothing (k : Kind) (v : k.Val) :
    tupleApply [k] (.cons v .nil) = [] ∧
      serialize [k] (.cons v .nil) = serializeValue k v ∧
      (k ≠ .bytes → (serialize [k] (.cons v .nil)).flatten ≠ []) := by
  have hone : serialize [k] (.cons v .nil) = serializeValue k v := by
    rw [serialize, serialize, List.append_nil]
  refine ⟨if_pos rfl, hone, fun hk => ?_⟩
  rw [hone]
  exact serializeValue_ne_nil hk v

end Ccf.Serializer
