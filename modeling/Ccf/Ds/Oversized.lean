import Ccf.Ds.Ringbuffer
import Ccf.Ds.Serializer
import Ccf.Lib.Exec

/-!
# Oversized messages (`ds/oversized.h`)

A message longer than `max_fragment_size` does not go into the ring buffer whole. An
`oversized::Writer` sends it as `fragment` messages: a first one that starts with an
`InitialFragmentHeader` (an identifier, the type of the message and its total size), then as many
as it takes that start with the identifier, each with the next bytes of the payload. On the
reading side a `FragmentReconstructor`, the handler of `fragment`, gathers the bytes of each
identifier and dispatches the whole message once `total_size` bytes are there.

The writer overrides the three methods through which `write_multiple` sends a message: `prepare`
reserves the first fragment and writes its header, `write_bytes` fills the fragment in progress
and opens new ones while bytes are left, and `finish` finishes the last one.

Under it is a `ringbuffer::Writer`. It is taken here as the only writer of a ring that never
wraps and has room whenever a writer waits, with a reader that keeps up. Its state is the memory
from address 0, the tail, and a record of each reservation: its type, its size and whether it is
still pending. The record stands for the reservation's header. The header is written when the
reservation is made, which is after anything else that lands where it is, and it is changed only
by `finish`. The reader hands on the finished reservations in order, up to the first pending one.
-/

namespace Ccf.Oversized

open Ringbuffer (Message Const)

/-- `ds::fnv_1a<uint32_t>` of a name: what `DEFINE_RINGBUFFER_MSG_TYPE` makes a message type. -/
def fnv1a (name : List Char) : UInt32 :=
  name.foldl (fun hash c => (hash ^^^ c.toNat.toUInt32) * 16777619) 0x811c9dc5

/-- `OversizedMessage::fragment`. -/
def fragment : Message := fnv1a "fragment".toList

/-- `sizeof(InitialFragmentHeader)`, packed: a `size_t` identifier, the `Message` the fragments
make up, and its `size_t` total size. -/
def initialFragmentHeaderSize : Nat := 8 + 4 + 8

/-- The bytes of an `InitialFragmentHeader`. -/
def initialFragmentHeader (identifier : Nat) (contained : Message) (totalSize : Nat) :
    List UInt8 :=
  Codec.le 8 identifier ++ Codec.le 4 contained.toNat ++ Codec.le 8 totalSize

-- Made here once: the equation lemmas that the proofs below unfold.
section
attribute [local simp] initialFragmentHeaderSize initialFragmentHeader
end

/-! ## The ring writer under it -/

/-- A reservation: where its payload starts (the marker `prepare` returned), its type and size,
and whether its header still marks it pending. -/
structure Reservation where
  index : Nat
  m : Message
  size : Nat
  pending : Bool
  deriving DecidableEq, Repr

/-- A `ringbuffer::Writer` and its ring. -/
structure Base where
  buffer : Nat → UInt8
  tail : Nat
  reservations : List Reservation

abbrev BaseM := EStateM String Base

namespace Base

/-- `ringbuffer::Writer::prepare` of a writer that waits: the checks, then a reservation at the
tail with a pending header. It returns the marker, past the header, and the identifier of the
reservation, the tail it was made at. -/
def prepare (c : Const) (m : Message) (size : Nat) : BaseM (Nat × Nat) := do
  match Ringbuffer.checkPrepare c m size with
  | .error e => throw e
  | .ok rsize =>
      let b ← get
      let r : Reservation := ⟨b.tail + Const.headerSize, m, size, true⟩
      set { b with tail := b.tail + rsize, reservations := b.reservations ++ [r] }
      pure (r.index, b.tail)

/-- `ringbuffer::Writer::write_bytes`. -/
def writeBytes (marker : Option Nat) (bytes : List UInt8) : BaseM (Option Nat) :=
  match marker with
  | none => pure none
  | some index => do
      let b ← get
      let (buffer, next) := Ringbuffer.writeBytes b.buffer index bytes
      set { b with buffer }
      pure (some next)

/-- `ringbuffer::Writer::finish`: clear the pending bit of the header before the marker. -/
def finish (marker : Option Nat) : BaseM Unit :=
  match marker with
  | none => pure ()
  | some index => modify fun b => { b with
      reservations := b.reservations.map fun r =>
        if r.index = index then { r with pending := false } else r }

/-- What `Reader::read` hands on: the finished messages, up to the first pending one, each with
the bytes of its reservation. -/
def read (b : Base) : List (Message × List UInt8) :=
  (b.reservations.takeWhile (fun r => !r.pending)).map fun r =>
    (r.m, Bytes.read b.buffer r.index r.size)

-- Made here once: the equation lemmas that the proofs below unfold.
section
attribute [local simp] prepare writeBytes finish read
end

end Base

/-! ## The writer -/

/-- The limits of an `oversized::Writer` (`WriterConfig`), with what its constructor checks of
them, and the bound of their `size_t`. -/
structure WriterConfig where
  maxFragmentSize : Nat
  maxTotalSize : Nat
  fragment_lt_total : maxFragmentSize < maxTotalSize
  header_lt_fragment : initialFragmentHeaderSize < maxFragmentSize
  total_lt : maxTotalSize < 2 ^ 64

/-- The constructor `Writer(r, f, t)`: its two checks. -/
def WriterConfig.create (f t : UInt64) : Except String WriterConfig :=
  if h₁ : f.toNat ≥ t.toNat then
    .error ("Fragment sizes must be smaller than total max (" ++ toString f.toNat ++ " >= " ++
      toString t.toNat ++ ")")
  else if h₂ : f.toNat ≤ initialFragmentHeaderSize then
    .error ("Fragment size must be large enough to contain the header for the initial " ++
      "fragment, and some additional payload data (" ++ toString f.toNat ++ " <= " ++
      toString initialFragmentHeaderSize ++ ")")
  else .ok ⟨f.toNat, t.toNat, Nat.lt_of_not_le h₁, Nat.lt_of_not_le h₂, t.toNat_lt⟩

/-- `FragmentProgress`: the fragment in progress, the identifier of the oversized message, and
the room left in the fragment. -/
structure FragmentProgress where
  marker : Option Nat
  identifier : Nat
  remainder : Nat
  deriving DecidableEq, Repr

/-- An `oversized::Writer`: its base, and `fragment_progress`, set between the `prepare` and the
`finish` of an oversized message. -/
structure Writer where
  base : Base
  fragmentProgress : Option FragmentProgress

abbrev WriterM := EStateM String Writer

namespace Writer

/-- A call of the base's method. -/
def liftBase {α : Type} (x : BaseM α) : WriterM α := fun w =>
  match x w.base with
  | .ok a b => .ok a { w with base := b }
  | .error e b => .error e { w with base := b }

-- Made here once: the equation lemmas that the proofs below unfold.
section
attribute [local simp] liftBase
end

variable (c : Const) (cfg : WriterConfig)

/-- `Writer::prepare`: a message that fits in a fragment goes to the base as it is; a longer one
gets a first fragment of `max_fragment_size` bytes, which starts with the header. It returns the
marker past the header. -/
def prepare (m : Message) (totalSize : Nat) (wait : Bool) : WriterM (Option Nat) := do
  let w ← get
  -- ensure this is not called out of order
  if w.fragmentProgress.isSome then throw "This Writer is already preparing a message"
  if totalSize ≤ cfg.maxFragmentSize then
    let (marker, _) ← liftBase (Base.prepare c m totalSize)
    return some marker
  if totalSize > cfg.maxTotalSize then
    throw ("Requested a write of " ++ toString totalSize ++ " bytes, max allowed is " ++
      toString cfg.maxTotalSize)
  if !wait then
    throw ("Requested write of " ++ toString totalSize ++ " bytes will be split into " ++
      "multiple fragments: caller must be wait for these to complete")
  -- the reservation of the first fragment identifies all of them
  let (marker, outerId) ← liftBase (Base.prepare c fragment cfg.maxFragmentSize)
  let next ← liftBase
    (Base.writeBytes (some marker) (initialFragmentHeader outerId m totalSize))
  let fp : FragmentProgress :=
    ⟨some marker, outerId, cfg.maxFragmentSize - initialFragmentHeaderSize⟩
  modify fun w => { w with fragmentProgress := some fp }
  pure next

/-- The loop of `Writer::write_bytes`: while bytes are left, reserve a fragment of
`min(size + sizeof(id), max_fragment_size)` bytes, finish the one before it, and fill the new one
with the identifier and the next bytes. `fp` is `*fragment_progress`, which the loop keeps in the
writer as it changes it. -/
def writeLoop (fp : FragmentProgress) (bytes : List UInt8) (next : Option Nat) :
    WriterM (Option Nat) :=
  if bytes.length > 0 then do
    let id := fp.identifier
    let fragSize := min (bytes.length + 8) cfg.maxFragmentSize
    let (marker, _) ← liftBase (Base.prepare c fragment fragSize)
    -- finish the previous fragment
    liftBase (Base.finish fp.marker)
    let writeSize := fragSize - 8
    let fp := { fp with marker := some marker, remainder := writeSize }
    modify fun w => { w with fragmentProgress := some fp }
    let next ← liftBase (Base.writeBytes (some marker) (Codec.le 8 id))
    let next ← liftBase (Base.writeBytes next (bytes.take writeSize))
    let fp := { fp with remainder := fp.remainder - writeSize }
    modify fun w => { w with fragmentProgress := some fp }
    writeLoop fp (bytes.drop writeSize) next
  else pure next
termination_by bytes.length
decreasing_by
  have h := cfg.header_lt_fragment
  simp only [initialFragmentHeaderSize] at h
  simp only [List.length_drop]
  omega

/-- `Writer::write_bytes`: a small message goes to the base; a fragmented one fills what room the
fragment in progress has, then the loop takes the rest. -/
def writeBytes (marker : Option Nat) (bytes : List UInt8) : WriterM (Option Nat) :=
  match marker with
  | none => pure none
  | some _ => do
      let w ← get
      match w.fragmentProgress with
      | none => liftBase (Base.writeBytes marker bytes)
      | some fp =>
          -- append as much as possible into the current prepared buffer
          let writeSize := min bytes.length fp.remainder
          let next ← liftBase (Base.writeBytes marker (bytes.take writeSize))
          writeLoop c cfg fp (bytes.drop writeSize) next

/-- `Writer::finish`: of an oversized message, finish its last fragment, once no room is left in
it; of a small one, the base's `finish`. -/
def finish (marker : Option Nat) : WriterM Unit := do
  let w ← get
  match w.fragmentProgress with
  | some fp =>
      if fp.remainder ≠ 0 then
        throw ("Attempting to finish an oversized message before the entire requested " ++
          "payload has been written")
      liftBase (Base.finish fp.marker)
      modify fun w => { w with fragmentProgress := none }
  | none => liftBase (Base.finish marker)

/-- `AbstractWriter::write_multiple` on this writer, with the sections a serializer gave: prepare
for their total size, write each, finish. -/
def writeMultiple (m : Message) (wait : Bool) (sections : List (List UInt8)) : WriterM Bool := do
  let initialMarker ← prepare c cfg m (Ringbuffer.totalSize sections) wait
  if initialMarker.isNone then return false
  let next ← sections.foldlM (fun next s => writeBytes c cfg next s) initialMarker
  finish initialMarker
  pure next.isSome

-- Made here once: the equation lemmas that the proofs below unfold.
section
attribute [local simp] prepare writeLoop writeBytes finish writeMultiple
end

end Writer

/-! ## The reconstructor -/

/-- `PartialMessage`: a message being put back together, its type, its total size, and the bytes
received so far (`received` is their number). -/
structure PartialMessage where
  m : Message
  totalSize : Nat
  data : List UInt8
  deriving DecidableEq, Repr

/-- `partial_messages`, by the identifier of each oversized message. -/
abbrev PartialMessages := Nat → Option PartialMessage

/-- What the handler throws: the `logic_error` of a `serialized::read`, or the `message_error` of
a fragment that brings more bytes than its message asked for. -/
inductive Error
  | read (e : Serializer.ReadError)
  | messageError (m : Message) (msg : String)
  deriving DecidableEq, Repr

abbrev ReconstructorM := EStateM Error PartialMessages

/-- `serialized::read` of a value of `size` bytes, in the handler. -/
def readValue {σ : Type} (size : Nat) (data : List UInt8) :
    EStateM Error σ (Fin (256 ^ size) × List UInt8) :=
  match Serializer.readScalar size data with
  | .ok r => pure r
  | .error e => throw (.read e)

/-- The handler on the entry of `partial_messages` at the fragment's identifier, where `find`
looks: `none` where it finds nothing, and set back to `none` by `erase`. `data` is what follows
the identifier. It returns the message it dispatches, if the fragment completes one. -/
def handleEntry (messageId : Nat) (data : List UInt8) :
    EStateM Error (Option PartialMessage) (Option (Message × List UInt8)) := do
  let entry ← get
  let (pm, data) ← match entry with
    | some pm => pure (pm, data)
    | none => do
        -- the first reference to this message holds its type and size
        let (m, data) ← readValue 4 data
        let (totalSize, data) ← readValue 8 data
        let pm : PartialMessage := ⟨UInt32.ofNat m.val, totalSize.val, []⟩
        set (some pm)
        pure (pm, data)
  if data.length + pm.data.length > pm.totalSize then
    throw (.messageError (UInt32.ofNat messageId)
      ("Too much data for oversized fragmented message. Message " ++ toString messageId ++
        " asked for " ++ toString pm.totalSize ++ " bytes, has already written " ++
        toString pm.data.length ++ ", but has sent a further " ++ toString data.length))
  let pm := { pm with data := pm.data ++ data }
  set (some pm)
  if pm.data.length = pm.totalSize then
    -- the entire message: dispatch it, then forget it
    set (none : Option PartialMessage)
    pure (some (pm.m, pm.data))
  else pure none

/-- The handler `FragmentReconstructor` sets for `fragment`, on a fragment's bytes. -/
def handleFragment (data : List UInt8) : ReconstructorM (Option (Message × List UInt8)) := do
  let (messageId, data) ← readValue 8 data
  EStateM.atKey messageId.val (handleEntry messageId.val data)

/-- `RingbufferDispatcher::dispatch` of a message the reader hands on, with a
`FragmentReconstructor` set up: a fragment goes to its handler, any other message to the handler
of its type, here the output. A reconstructed message goes to the output as well. -/
def dispatch (msg : Message × List UInt8) : ReconstructorM (Option (Message × List UInt8)) :=
  if msg.1 = fragment then handleFragment msg.2 else pure (some msg)

-- Made here once: the equation lemmas that the proofs below unfold.
section
attribute [local simp] readValue handleEntry handleFragment dispatch
end

end Ccf.Oversized
