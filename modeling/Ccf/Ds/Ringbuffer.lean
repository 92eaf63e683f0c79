import Ccf.Lib.Bytes
import Ccf.Lib.Fifo

/-!
# The ring buffer (`ds/ringbuffer.h`)

A multiple-producer, single-consumer ring buffer. The reader owns a buffer whose size is a
power of two, and three counters: `head`, where it reads next; `tail`, where the next
reservation starts; and `head_cache`, a value of `head` that writers keep to save loads of it.
The counters count bytes from the start and are 64-bit: they are taken here never to wrap. A
counter's index in the buffer is the counter `& (size - 1)`.

A writer sends a message with `write_multiple`. `prepare` reserves room for a header and the
payload by moving `tail` with a compare-and-exchange, padding out the end of the buffer first
when the message does not fit there, and writes a header marking the message pending;
`write_bytes` copies each section of the payload; `finish` clears the pending bit. The reader
hands each message it meets from `head` on to its handler and skips padding. It stops at a
pending message, at an empty header, at the end of the buffer or after `limit` messages. It
then zeroes what it read and moves `head` past it.

Memory is a byte function from the buffer's start: the reader's vector is `[0, size)`, and a
read past it sees whatever is there. The system is a labelled transition system (`Step`) whose
steps are the atomic steps of the code:

* a round of the loop in `reserve`, whose compare-and-exchange succeeds or not;
* the write of the padding header, of the message header, each `write_bytes`, `finish`;
* one `Reader::read`.

A round loads `head_cache`, `tail` and `head` at different times. It is taken here at once,
with values for the loads that `head` may have had by then: `hd ≤ head₁ ≤ head₂ ≤ head`, as
`head` only grows and `head_cache` only receives values of `head`. The compare-and-exchange
succeeds when the tail the round holds is the tail now. A `read` is one step: it stops at the
first header that is not a finished message or padding, and the records before that one stay
as they are until it moves `head`, since only the reader changes a finished record.

A writer here is one call of `write_multiple` with `wait = false`: a thread that writes several
messages is one writer for each, whose steps come in the thread's order.
-/

namespace Ccf.Ringbuffer

/-- `Message`: a message's type. -/
abbrev Message := UInt32

/-- `std::numeric_limits<uint32_t>::max()`. -/
def UINT32_MAX : Nat := 2 ^ 32 - 1

/-- `~x` on `size_t`. -/
def sizeNot (x : Nat) : Nat := 2 ^ 64 - 1 - x

/-- The high bit of a header's length marks a message still being written. -/
def pendingWriteFlag : Nat := 1 <<< 31

/-- `~pending_write_flag`, on `uint32_t`. -/
def lengthMask : Nat := UINT32_MAX - pendingWriteFlag

-- Made here once: the equation lemmas that the proofs below unfold.
section
attribute [local simp] UINT32_MAX sizeNot pendingWriteFlag
end

/-- `Const`: the reader's buffer size. Its constructor throws unless the size is a power of
two (`is_power_of_2`, the test that `n & (~n + 1)`, the lowest set bit, is `n`). -/
structure Const where
  size : Nat
  powerOfTwo : ∃ k, size = 2 ^ k

namespace Const

def msgMax : Message := 0xFFFFFFFF - 1
def msgMin : Message := 1
def msgNone : Message := 0
def msgPad : Message := 0xFFFFFFFF

/-- A 32-bit length and a 32-bit message type. -/
def headerSize : Nat := 4 + 4

/-- `n` rounded up to a multiple of the header size. -/
def alignSize (n : Nat) : Nat := (n + (headerSize - 1)) &&& sizeNot (headerSize - 1)

/-- The room a message of `n` bytes takes, header included. -/
def entrySize (n : Nat) : Nat := alignSize (n + headerSize)

/-- The longest message: its length and header must fit in the header's length. -/
def maxSize : Nat := (2 ^ 31 - 1) - headerSize

/-- The largest reservation: in an empty buffer it always fits before or after the tail. -/
def maxReservationSize (bufferSize : Nat) : Nat := bufferSize / 2

-- Made here once: the equation lemmas that the proofs below unfold.
section
attribute [local simp] headerSize alignSize entrySize maxSize maxReservationSize
end

end Const

/-- Where a writer is in `write_multiple`. -/
inductive WriterPc where
  /-- About to `prepare` message `m`, whose payload is the sections in order. -/
  | start (m : Message) (sections : List (List UInt8))
  /-- `reserve` exchanged the tail past a padding of the end of the buffer: the padding header,
  of length `padding` at `tlIndex`, is still to be written. -/
  | padding (m : Message) (sections : List (List UInt8)) (tlIndex padding : Nat)
  /-- `reserve` returned `index`: the message header is still to be written. -/
  | reserved (m : Message) (sections : List (List UInt8)) (index : Nat)
  /-- `prepare` returned `marker`; `next` is where the sections still to write go. -/
  | writing (m : Message) (sections : List (List UInt8)) (marker next : Nat)
      (rest : List (List UInt8))
  /-- `finish` cleared the pending bit of the header before `marker`. -/
  | finished (m : Message) (sections : List (List UInt8)) (marker : Nat)
  /-- `prepare` threw, or returned no marker. -/
  | failed
  deriving DecidableEq

/-- The reader's buffer and counters, and where each writer is. -/
structure Ring (W : Type) where
  buffer : Nat → UInt8
  headCache : Nat
  tail : Nat
  head : Nat
  writers : W → WriterPc

/-! ## Headers -/

/-- `read64`: the header at `index`. -/
def read64 (buffer : Nat → UInt8) (index : Nat) : Nat := Bytes.load buffer index 8

/-- `read32`: the length half of the header at `index`. -/
def read32 (buffer : Nat → UInt8) (index : Nat) : Nat := Bytes.load buffer index 4

def write64 (buffer : Nat → UInt8) (index value : Nat) : Nat → UInt8 :=
  Bytes.store buffer index 8 value

def write32 (buffer : Nat → UInt8) (index value : Nat) : Nat → UInt8 :=
  Bytes.store buffer index 4 value

/-- `Reader::message`: the high half of a header. -/
def message (header : Nat) : Message := UInt32.ofNat (header >>> 32)

/-- `Reader::length`: the low half of a header. -/
def length (header : Nat) : Nat := header &&& UINT32_MAX

/-- `Writer::make_header`: the type above, the length below, and the pending bit. -/
def makeHeader (m : Message) (size : Nat) (pending : Bool) : Nat :=
  (m.toNat <<< 32) ||| ((size &&& lengthMask) ||| (if pending then pendingWriteFlag else 0))

/-! ## The reader -/

/-- The loop of `Reader::read` from `advance`, having handed `count` messages to the handler:
the messages it hands on, in order, and where it stops. The loop ends as soon as a record does
not move `advance`, so `fuel` bounds its rounds: `none` is a loop that does not end, at a
padding record of length 0. -/
def readLoop (buffer : Nat → UInt8) (hdIndex block limit : Nat) :
    Nat → Nat → Nat → Option (List (Message × List UInt8) × Nat)
  | 0, _, _ => none
  | fuel + 1, advance, count =>
      if advance < block ∧ count < limit then
        let msgIndex := hdIndex + advance
        let header := read64 buffer msgIndex
        let size := length header
        -- a pending write: done
        if size &&& pendingWriteFlag ≠ 0 then some ([], advance)
        else
          let m := message header
          -- no message here: done
          if m = Const.msgNone then some ([], advance)
          -- padding: skip it
          else if m = Const.msgPad then readLoop buffer hdIndex block limit fuel (advance + size) count
          else
            (readLoop buffer hdIndex block limit fuel (advance + Const.entrySize size)
                (count + 1)).map fun (out, advance) =>
              ((m, Bytes.read buffer (msgIndex + Const.headerSize) size) :: out, advance)
      else some ([], advance)

/-- `Reader::read(limit, f)`: the messages handed to `f`, in order, and the ring after. The
loop runs from `head` to the end of the buffer at most: it makes at most `block + 1` rounds
when each record moves it on. -/
def Ring.read {W : Type} (c : Const) (s : Ring W) (limit : Nat) :
    Option (List (Message × List UInt8) × Ring W) :=
  let mask := c.size - 1
  let hd := s.head
  let hdIndex := hd &&& mask
  let block := c.size - hdIndex
  (readLoop s.buffer hdIndex block limit (block + 1) 0 0).map fun (out, advance) =>
    -- zero the buffer and advance the head
    (out, if advance > 0 then
      { s with buffer := Bytes.fill s.buffer hdIndex advance 0, head := hd + advance } else s)

/-! ## The writers -/

/-- The checks `Writer::prepare` makes before it reserves: the room a message of `size` bytes
takes, or the text of the `message_error` it throws. -/
def checkPrepare (c : Const) (m : Message) (size : Nat) : Except String Nat :=
  -- make sure we aren't using a reserved message
  if m < Const.msgMin ∨ m > Const.msgMax then
    .error ("Cannot use a reserved message (" ++ toString m ++ ")")
  -- make sure the message fits
  else if size > Const.maxSize then
    .error ("Message (" ++ toString m ++ ") is too long for any writer (" ++ toString size ++
      " > " ++ toString Const.maxSize ++ ")")
  else
    let rsize := Const.entrySize size
    let rmax := Const.maxReservationSize c.size
    if rsize > rmax then
      .error ("Message (" ++ toString m ++ ") with header is too long for this writer (" ++
        toString rsize ++ " > " ++ toString rmax ++ ")")
    else .ok rsize

-- Made here once: the equation lemmas that the proofs below unfold.
section
attribute [local simp] read64 read32 write64 write32 message length makeHeader readLoop Ring.read checkPrepare
end

/-- How a round of the loop of `Writer::reserve` ends. -/
inductive Round where
  /-- There is no room: `reserve` returns nothing. -/
  | fail
  /-- `continue`: the head has passed the tail the round holds, so the tail has moved and the
  compare-and-exchange fails. -/
  | retry
  /-- Exchange the tail for the tail plus the size and the padding; the message goes at
  `tlIndex`, or at 0 after a padding. -/
  | exchange (padding tlIndex : Nat)
  deriving DecidableEq

/-- The second half of a round of `reserve`: whether the message fits before the end of the
buffer, or must go at its start after a padding of the end. `cache` is what the round stored in
`head_cache` so far; the result is the round's end and what it stored last. -/
def placeRound (c : Const) (size hd tl head₂ : Nat) (cache : Option Nat) : Round × Option Nat :=
  let mask := c.size - 1
  let tlIndex := tl &&& mask
  let block := c.size - tlIndex
  if size > block then
    -- the message doesn't fit in the back-space
    if size > (hd &&& mask) then
      -- nor in the front-space: see if the head has moved
      if size > (head₂ &&& mask) then (.fail, cache)
      else (.exchange block tlIndex, some head₂)
    else (.exchange block tlIndex, cache)
  else (.exchange 0 tlIndex, cache)

/-- A round of the loop of `Writer::reserve(size)`, holding `hd` from `head_cache` and `tl` from
`tail`; `head₁` and `head₂` are what its loads of `head` give. -/
def reserveRound (c : Const) (size hd tl head₁ head₂ : Nat) : Round × Option Nat :=
  let gap := tl - hd
  let avail := c.size - gap
  if gap > c.size ∨ size > avail then
    -- get an accurate head and try again
    let hd := head₁
    if hd > tl then (.retry, none)
    else if size > c.size - (tl - hd) then (.fail, none)
    else placeRound c size hd tl head₂ (some hd)
  else placeRound c size hd tl head₂ none

/-- The total size of the sections: what `write_multiple` asks `prepare` for. -/
def totalSize (sections : List (List UInt8)) : Nat := (sections.map List.length).sum

/-- `Writer::write_bytes`: copy the bytes at the marker, and return the marker past them. -/
def writeBytes (buffer : Nat → UInt8) (marker : Nat) (bytes : List UInt8) :
    (Nat → UInt8) × Nat :=
  (if bytes.length > 0 then Bytes.copy buffer marker bytes else buffer, marker + bytes.length)

/-- `Writer::finish`: clear the pending bit of the header before the marker. -/
def finish (buffer : Nat → UInt8) (marker : Nat) : Nat → UInt8 :=
  let index := marker - Const.headerSize
  let size := read32 buffer index
  write32 buffer index (size &&& lengthMask)

-- Made here once: the equation lemmas that the proofs below unfold.
section
attribute [local simp] placeRound reserveRound totalSize writeBytes finish
end

/-! ## The system -/

/-- What the steps show: a reservation made, a message finished with the bytes written, the
messages a read handed to its handler. -/
inductive Event (W : Type) where
  | reserve (w : W)
  | finish (w : W) (m : Message) (data : List UInt8)
  | read (out : List (Message × List UInt8))

variable {W : Type} [DecidableEq W]

/-- `s` with writer `w` at `pc`. -/
def Ring.setWriter (s : Ring W) (w : W) (pc : WriterPc) : Ring W :=
  { s with writers := Function.update s.writers w pc }

-- Made here once: the equation lemmas that the proofs below unfold.
section
attribute [local simp] Ring.setWriter
end

/-- The atomic steps of the reader and the writers, with what each shows. -/
inductive Step (c : Const) : Ring W → Option (Event W) → Ring W → Prop
  /-- `prepare` throws: a reserved type, or a message too long. -/
  | reject {s : Ring W} {w : W} {m : Message} {sections : List (List UInt8)} {e : String} :
      s.writers w = .start m sections → checkPrepare c m (totalSize sections) = .error e →
      Step c s none (s.setWriter w .failed)
  /-- A round of `reserve` that finds no room: `prepare` returns no marker. -/
  | fail {s : Ring W} {w : W} {m : Message} {sections : List (List UInt8)}
      {rsize hd tl head₁ head₂ : Nat} {cache : Option Nat} :
      s.writers w = .start m sections → checkPrepare c m (totalSize sections) = .ok rsize →
      hd ≤ head₁ → head₁ ≤ head₂ → head₂ ≤ s.head →
      reserveRound c rsize hd tl head₁ head₂ = (.fail, cache) →
      Step c s none { s.setWriter w .failed with headCache := cache.getD s.headCache }
  /-- A round of `reserve` that goes round again: it retries, or its compare-and-exchange fails
  on a tail that has moved. -/
  | retry {s : Ring W} {w : W} {m : Message} {sections : List (List UInt8)}
      {rsize hd tl head₁ head₂ : Nat} {r : Round} {cache : Option Nat} :
      s.writers w = .start m sections → checkPrepare c m (totalSize sections) = .ok rsize →
      hd ≤ head₁ → head₁ ≤ head₂ → head₂ ≤ s.head →
      reserveRound c rsize hd tl head₁ head₂ = (r, cache) →
      (r = .retry ∨ (∃ padding tlIndex, r = .exchange padding tlIndex) ∧ tl ≠ s.tail) →
      Step c s none { s with headCache := cache.getD s.headCache }
  /-- A round of `reserve` whose compare-and-exchange moves the tail. -/
  | exchange {s : Ring W} {w : W} {m : Message} {sections : List (List UInt8)}
      {rsize hd head₁ head₂ padding tlIndex : Nat} {cache : Option Nat} :
      s.writers w = .start m sections → checkPrepare c m (totalSize sections) = .ok rsize →
      hd ≤ head₁ → head₁ ≤ head₂ → head₂ ≤ s.head →
      reserveRound c rsize hd s.tail head₁ head₂ = (.exchange padding tlIndex, cache) →
      Step c s (some (.reserve w))
        { s.setWriter w (if padding ≠ 0 then .padding m sections tlIndex padding
            else .reserved m sections tlIndex) with
          headCache := cache.getD s.headCache
          tail := s.tail + rsize + padding }
  /-- `reserve` writes the padding header, and returns the start of the buffer. -/
  | pad {s : Ring W} {w : W} {m : Message} {sections : List (List UInt8)} {tlIndex padding : Nat} :
      s.writers w = .padding m sections tlIndex padding →
      Step c s none { s.setWriter w (.reserved m sections 0) with
        buffer := write64 s.buffer tlIndex (makeHeader Const.msgPad padding false) }
  /-- `prepare` writes the pending header, and returns the marker past it. -/
  | header {s : Ring W} {w : W} {m : Message} {sections : List (List UInt8)} {index : Nat} :
      s.writers w = .reserved m sections index →
      Step c s none
        { s.setWriter w (.writing m sections (index + Const.headerSize)
            (index + Const.headerSize) sections) with
          buffer := write64 s.buffer index (makeHeader m (totalSize sections) true) }
  /-- `write_bytes` of the next section. -/
  | write {s : Ring W} {w : W} {m : Message} {sections : List (List UInt8)}
      {marker next : Nat} {bytes : List UInt8} {rest : List (List UInt8)} :
      s.writers w = .writing m sections marker next (bytes :: rest) →
      Step c s none
        { s.setWriter w (.writing m sections marker (writeBytes s.buffer next bytes).2 rest) with
          buffer := (writeBytes s.buffer next bytes).1 }
  /-- `finish`, once every section is written. -/
  | finish {s : Ring W} {w : W} {m : Message} {sections : List (List UInt8)} {marker next : Nat} :
      s.writers w = .writing m sections marker next [] →
      Step c s (some (.finish w m sections.flatten))
        { s.setWriter w (.finished m sections marker) with buffer := finish s.buffer marker }
  /-- `Reader::read` with any limit. -/
  | read {s s' : Ring W} {limit : Nat} {out : List (Message × List UInt8)} :
      s.read c limit = some (out, s') → Step c s (some (.read out)) s'

/-- A ring as the reader's constructor leaves it: its vector zeroed, the counters at 0, and each
writer about to `prepare` its message. -/
structure Ring.Init (c : Const) (s : Ring W) : Prop where
  zeroed : ∀ i < c.size, s.buffer i = 0
  headCache : s.headCache = 0
  tail : s.tail = 0
  head : s.head = 0
  start : ∀ w, ∃ m sections, s.writers w = .start m sections

end Ccf.Ringbuffer
