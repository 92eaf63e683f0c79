import Ccf.Pbft.Types

/-!
# The PBFT message log (`consensus/pbft/libbyz/Log.h`)

`Log<T>` keeps the entries for the sequence numbers `[head, head + max_size)` in a
circular array of `max_size` slots, `max_size` a power of two: the entry for `s` sits
in slot `s & (max_size - 1)`. `Seqno` is `int64_t` and `max_size` an `int`; both keep
their widths here (`Int64`, `Int32`), since `truncate` walks the slots it clears with
loop variables declared `int`: `int i = head; int max = new_head;` converts the 64-bit
sequence numbers to 32 bits first, and that conversion is the two's-complement wrap
every supported compiler performs (`Int64.toInt32`).

`T` is any type with the `void clear()` the template requires (`Clear`). `fetch`
returns a reference into the array; the callers that write through it are `Log.modify`.
`PBFT_ASSERT` throws `std::logic_error` in debug builds, so a failed range check is an
`.error`.
-/

namespace Ccf.Pbft

/-- What `Log<T>` requires of `T`: `void clear()`. -/
class Clear (T : Type) where
  clear : T → T

variable {T : Type}

/-- `Log<T>`. -/
structure Log (T : Type) where
  head : Seqno
  maxSize : Int32
  elems : List T
  mask : Seqno

namespace Log

/-- The constructor `Log(sz, h)`: `sz` default-constructed entries, head `h`. -/
def new [Inhabited T] (sz : Int32) (h : Seqno) : Log T where
  head := h
  maxSize := sz
  elems := List.replicate sz.toInt.toNat default
  mask := (sz - 1).toInt64

/-- `mod`: `s & mask`, returned as `unsigned`. -/
def mod (l : Log T) (s : Seqno) : Nat := (s &&& l.mask).toUInt64.toUInt32.toNat

/-- `within_range`. -/
def withinRange (l : Log T) (seqno : Seqno) : Bool :=
  decide (seqno ≥ l.head) && decide (seqno < l.head + l.maxSize.toInt64)

/-- `max_seqno`. -/
def maxSeqno (l : Log T) : Seqno := l.head + l.maxSize.toInt64 - 1

/-- `fetch`: the entry for `seqno`, which must be within range. -/
def fetch [Inhabited T] (l : Log T) (seqno : Seqno) : Except String T :=
  if l.withinRange seqno then .ok (l.elems.getD (l.mod seqno) default)
  else .error "Invalid argument\n"

/-- A write through the reference `fetch(seqno)` returns. -/
def modify (l : Log T) (seqno : Seqno) (f : T → T) : Except String (Log T) :=
  if l.withinRange seqno then .ok { l with elems := l.elems.modify (l.mod seqno) f }
  else .error "Invalid argument\n"

/-- `clear(h)`: clear every entry and move the head to `h`. -/
def clear [Clear T] (l : Log T) (h : Seqno) : Log T :=
  { l with elems := l.elems.map Clear.clear, head := h }

/-- The loop of `truncate`, `for (; i < max; i++) elems[mod(i)].clear();`, over `int`s.
It runs `max - i` rounds, which is the fuel `truncate` gives it. -/
def clearSlots [Clear T] (l : Log T) : Nat → Int32 → Int32 → List T → List T
  | 0, _, _, es => es
  | fuel + 1, i, max, es =>
      if i < max then clearSlots l fuel (i + 1) max (es.modify (l.mod i.toInt64) Clear.clear)
      else es

/-- `truncate`: clear the entries below `new_head` and move the head there. -/
def truncate [Clear T] (l : Log T) (newHead : Seqno) : Log T :=
  if newHead ≤ l.head then l
  else
    -- `int i = head; int max = new_head;`, or the whole array when the gap is that large
    let bounds : Int32 × Int32 :=
      if newHead - l.head ≥ l.maxSize.toInt64 then (0, l.maxSize)
      else (l.head.toInt32, newHead.toInt32)
    { l with
      elems := l.clearSlots (bounds.2.toInt - bounds.1.toInt).toNat bounds.1 bounds.2 l.elems
      head := newHead }

-- Made here once: the equation lemmas that the proofs below unfold.
section
attribute [local simp] new clear truncate
end

end Log

end Ccf.Pbft
