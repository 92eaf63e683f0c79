import Ccf.Lib.Codec

/-!
# Message serializers (`ds/serializer.h`, `ds/serialized.h`)

A serializer turns the arguments of a ring-buffer message into a tuple of sections, each a run of
bytes, which the writer copies out one after the other; `deserialize` reads the values back from
the bytes. `CommonSerializer` handles three kinds of argument:

* a value of a type copied as its raw bytes (`RawSection`, read back by `serialized::read<T>`):
  `sizeof(T)` bytes, which for the integer types of the messages are little-endian;
* a `std::string`: its length as a `size_t` (`CopiedSection<size_t>`), then its bytes;
* a `std::vector<uint8_t>` or a `ByteRange`: its bytes, with no length, read back as everything
  left in the buffer.

The types of the values are template arguments in the source; here they are a list of `Kind`s and
the values a `Vals` over it. `TupleSerializer` serializes a `std::tuple` through
`details::tuple_apply`.
-/

namespace Ccf.Serializer

/-- The kinds of argument `CommonSerializer` handles: a type of `size = sizeof(T) > 0` bytes
copied raw, a `std::string`, and a byte vector or `ByteRange`, which serialize and deserialize to
the same bytes. -/
inductive Kind
  | scalar (size : Nat) (pos : 0 < size)
  | string
  | bytes
  deriving DecidableEq

/-- `sizeof(size_t)`. -/
def sizeOfSizeT : Nat := 8

/-- The values of a kind: a number of `size` bytes, a string of at most `SIZE_MAX` bytes, or any
bytes. It unfolds for instances, so that a value of a kind is used as what it is. -/
@[reducible] def Kind.Val : Kind → Type
  | .scalar size _ => Fin (256 ^ size)
  | .string => { s : List UInt8 // s.length < 256 ^ sizeOfSizeT }
  | .bytes => List UInt8

-- Made here once: the equation lemmas that the proofs below unfold.
section
attribute [local simp] sizeOfSizeT
end

/-- One value of each kind of a list: the arguments of `serialize`, or what `deserialize`
returns. -/
inductive Vals : List Kind → Type
  | nil : Vals []
  | cons {k : Kind} {ks : List Kind} : k.Val → Vals ks → Vals (k :: ks)

/-- The bytes of an `AbstractSerializedSection`. -/
abbrev Section := List UInt8

/-- `serialize_value`: the sections of one argument. -/
def serializeValue : (k : Kind) → k.Val → List Section
  | .scalar size _, v => [Codec.le size v.val]
  | .string, s => [Codec.le sizeOfSizeT s.val.length, s.val]
  | .bytes, b => [b]

/-- `CommonSerializer::serialize`: the sections of each argument, in order. -/
def serialize : (ks : List Kind) → Vals ks → List Section
  | [], .nil => []
  | k :: ks, .cons v vs => serializeValue k v ++ serialize ks vs

-- Made here once: the equation lemmas that the proofs below unfold.
section
attribute [local simp] serializeValue serialize
end

/-- What a read fails with: the `logic_error` of `serialized::read`, or a string whose length runs
past the end of the buffer, which `read<std::string>` does not check: it then reads outside the
buffer. -/
inductive ReadError
  | logicError (msg : String)
  | pastEnd
  deriving DecidableEq, Repr

/-- `serialized::read<T>` of a type of `size` bytes: the value, and the bytes after it. -/
def readScalar (size : Nat) (data : List UInt8) : Except ReadError (Fin (256 ^ size) × List UInt8) :=
  if data.length < size then
    .error (.logicError ("Insufficient space (read<T>: " ++ toString data.length ++ " < " ++
      toString size ++ ")"))
  else .ok (⟨Codec.ofLe (data.take size), Codec.ofLe_take_lt size data⟩, data.drop size)

/-- `serialized::read<std::string>`: a `size_t` length, then that many bytes. -/
def readString (data : List UInt8) :
    Except ReadError ({ s : List UInt8 // s.length < 256 ^ sizeOfSizeT } × List UInt8) := do
  let (len, data) ← readScalar sizeOfSizeT data
  if len.val ≤ data.length then
    pure (⟨data.take len.val, Nat.lt_of_le_of_lt (List.length_take_le _ _) len.isLt⟩,
      data.drop len.val)
  else throw .pastEnd

/-- `deserialize_value`. A byte vector (`read(data, size, size)`) or a `ByteRange` takes all the
bytes left. -/
def deserializeValue : (k : Kind) → List UInt8 → Except ReadError (k.Val × List UInt8)
  | .scalar size _, data => readScalar size data
  | .string, data => readString data
  | .bytes, data => .ok (data, [])

/-- `deserialize_impl<T, Ts...>`: read the values in order. Nothing checks that the last one used
up the buffer. -/
def deserializeImpl : (k : Kind) → (ks : List Kind) → List UInt8 → Except ReadError (Vals (k :: ks))
  | k, [], data => do
      let (v, _) ← deserializeValue k data
      pure (.cons v .nil)
  | k, k' :: ks, data => do
      let (v, data) ← deserializeValue k data
      let vs ← deserializeImpl k' ks data
      pure (.cons v vs)

/-- `CommonSerializer::deserialize<Ts...>`: with no types, `EmptySerializer::deserialize`, which
wants an empty buffer. -/
def deserialize : (ks : List Kind) → List UInt8 → Except ReadError (Vals ks)
  | [], data =>
      if data.length > 0 then
        .error (.logicError ("EmptySerializer asked to deserialize buffer of size " ++
          toString data.length ++ ", should be empty"))
      else .ok .nil
  | k :: ks, data => deserializeImpl k ks data

/-- The recursion of `details::tuple_apply` with `f = CommonSerializer::serialize`, from element
`I` on: the last element gives its own sections, each other one its sections and then the rest.
-/
def tupleApplyFrom : (ks : List Kind) → Vals ks → List Section
  | [], .nil => []
  | [k], .cons v .nil => serialize [k] (.cons v .nil)
  | k :: k' :: ks, .cons v vs => serialize [k] (.cons v .nil) ++ tupleApplyFrom (k' :: ks) vs

/-- `TupleSerializer::serialize(std::tuple<Ts...>&&)`, that is `details::tuple_apply`. Its first
test, `sizeof...(Ts) == 1`, is the same at every step of the recursion, and returns
`std::make_tuple()`. -/
def tupleApply (ks : List Kind) (vs : Vals ks) : List Section :=
  if ks.length = 1 then [] else tupleApplyFrom ks vs

-- Made here once: the equation lemmas that the proofs below unfold.
section
attribute [local simp] readScalar readString deserializeValue deserializeImpl tupleApplyFrom tupleApply
end

end Ccf.Serializer
