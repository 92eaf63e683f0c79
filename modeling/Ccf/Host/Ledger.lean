import Ccf.Lib.Codec
import Ccf.Lib.Exec

/-!
# The host's ledger file (`host/ledger.h`)

`asynchost::Ledger` keeps the ledger in one file of frames, each a `uint32_t` length (four
bytes, little-endian) and then the entry, and in memory `positions`, where each frame starts,
and `total_len`, where the next one goes. `write_entry` appends a frame, `truncate` cuts the file
after an entry, `read_entry` and `read_framed_entries` read through `positions`, and the
constructor rebuilds `positions` and `total_len` by scanning the frames of an existing file.

The file is its bytes and the position of the `FILE*`. The C library calls are modelled as the
standard gives them: `fwrite(p, size, 1, f)` and `fread(p, size, 1, f)` return the number of whole
items they moved, so 0 when `size` is 0 or the file ends first; `fseeko` moves the position;
`ftruncate` cuts the file, or extends it with zeros. `fopen`, `fflush` and `ftruncate` are taken
to succeed: they fail only on errors of the file system. `strerror(errno)` is a parameter of the
constructor.
-/

namespace Ccf.Host

/-- `frame_header_size`: the `uint32_t` length in front of each entry. -/
def frameHeaderSize : Nat := 4

-- Made here once: the equation lemmas that the proofs below unfold.
section
attribute [local simp] frameHeaderSize
end

/-- A `FILE*` opened for update: the file's bytes and the stream's position. -/
structure File where
  bytes : List UInt8
  pos : Nat
  deriving DecidableEq, Repr

namespace File

/-- `fseeko(file, off, SEEK_SET)`. -/
def seek (f : File) (off : Nat) : File := { f with pos := off }

/-- `fwrite(data, size, 1, file)`: the bytes go at the position, over what is there, and the
position moves past them. It returns the number of items written: 0 when `size` is 0. -/
def write (f : File) (data : List UInt8) : File × Nat :=
  if data.length = 0 then (f, 0)
  else
    ({ bytes := f.bytes.take f.pos ++ List.replicate (f.pos - f.bytes.length) 0 ++ data ++
          f.bytes.drop (f.pos + data.length),
       pos := f.pos + data.length }, 1)

/-- `fread(p, size, 1, file)`: the `size` bytes from the position, or nothing when `size` is 0
or the file ends first; the position moves past what was read. -/
def read (f : File) (size : Nat) : File × Option (List UInt8) :=
  let got := (f.bytes.drop f.pos).take size
  ({ f with pos := f.pos + got.length }, if size ≠ 0 ∧ got.length = size then some got else none)

/-- `ftruncate(fileno(file), len)`. -/
def truncate (f : File) (len : Nat) : File :=
  { f with bytes := f.bytes.take len ++ List.replicate (len - f.bytes.length) 0 }

-- Made here once: the equation lemmas that the proofs below unfold.
section
attribute [local simp] seek write read truncate
end

end File

/-- `asynchost::Ledger`: the file, where each frame starts, and where the next one goes. -/
structure Ledger where
  file : File
  positions : List Nat
  totalLen : Nat
  deriving DecidableEq, Repr

/-- A method of `Ledger`. -/
abbrev LedgerM := EStateM String Ledger

/-- The loop of the constructor, with `len` bytes of the file not scanned yet and `pos` where
the next frame starts. Each round reads a length and seeks past the entry. -/
def scanFrames : Nat → File → Nat → Nat → List Nat → Except String (File × Nat × Nat × List Nat)
  | 0, f, len, pos, positions => .ok (f, len, pos, positions)
  | fuel + 1, f, len, pos, positions =>
      if len ≥ frameHeaderSize then
        match f.read frameHeaderSize with
        | (_, none) => .error "Failed to read from file"
        | (f, some header) =>
            let size := Codec.ofLe header
            let len := len - frameHeaderSize
            if len < size then .error "Malformed ledger file"
            else
              -- `fseeko(file, size, SEEK_CUR)`
              scanFrames fuel (f.seek (f.pos + size)) (len - size) (pos + (size + frameHeaderSize))
                (positions ++ [pos])
      else .ok (f, len, pos, positions)

/-- The constructor, on a file of `bytes` (an empty one when it is created). Every round of the
scan reads four bytes or stops, so `bytes.length + 1` rounds are enough. -/
def Ledger.open (bytes : List UInt8) (strerror : String) : Except String Ledger :=
  let len := bytes.length
  if len = 1 then .error ("Failed to tell file size: " ++ strerror)
  else
    match scanFrames (len + 1) ⟨bytes, 0⟩ len 0 [] with
    | .error e => .error e
    | .ok (f, len, pos, positions) =>
        if len ≠ 0 then .error "Malformed ledger file" else .ok ⟨f, positions, pos⟩

-- Made here once: the equation lemmas that the proofs below unfold.
section
attribute [local simp] scanFrames Ledger.open
end

namespace Ledger

/-- `get_last_idx`. -/
def getLastIdx (l : Ledger) : Nat := l.positions.length

/-- `framed_entries_size(from, to)`. The indices into `positions` are in range where they are
used, so `at` never throws. -/
def framedEntriesSize (l : Ledger) (fromIdx toIdx : Nat) : Nat :=
  if fromIdx = 0 ∨ toIdx < fromIdx ∨ toIdx > l.positions.length then 0
  else if toIdx = l.positions.length then l.totalLen - l.positions.getD (fromIdx - 1) 0
  else l.positions.getD toIdx 0 - l.positions.getD (fromIdx - 1) 0

/-- `entry_size(idx)`. -/
def entrySize (l : Ledger) (idx : Nat) : Nat :=
  let framedSize := l.framedEntriesSize idx idx
  if framedSize ≠ 0 then framedSize - frameHeaderSize else 0

/-- `fread` of `size` bytes from `off` into a buffer, throwing when it does not read them. -/
def readAt (off size : Nat) : LedgerM (List UInt8) := do
  let l ← get
  let (f, got) := (l.file.seek off).read size
  set { l with file := f }
  match got with
  | none => throw "Failed to read from file"
  | some bytes => pure bytes

/-- `read_entry(idx)`. -/
def readEntry (idx : Nat) : LedgerM (List UInt8) := do
  let l ← get
  if idx = 0 ∨ idx > l.positions.length then pure []
  else readAt (l.positions.getD (idx - 1) 0 + frameHeaderSize) (l.entrySize idx)

/-- `read_framed_entries(from, to)`. -/
def readFramedEntries (fromIdx toIdx : Nat) : LedgerM (List UInt8) := do
  let l ← get
  let framedSize := l.framedEntriesSize fromIdx toIdx
  if framedSize = 0 then pure []
  else readAt (l.positions.getD (fromIdx - 1) 0) framedSize

/-- `fwrite` of `data` at the position, throwing when it does not write one item. -/
def writeItem (data : List UInt8) : LedgerM Unit := do
  let l ← get
  let (f, n) := l.file.write data
  set { l with file := f }
  if n ≠ 1 then throw "Failed to write to file"

/-- `write_entry(data, size)`: the frame goes at `total_len`. The length is cast to
`uint32_t`. -/
def writeEntry (data : List UInt8) : LedgerM Unit := do
  modify fun l => { l with
    file := l.file.seek l.totalLen
    positions := l.positions ++ [l.totalLen]
    totalLen := l.totalLen + (data.length + frameHeaderSize) }
  writeItem (Codec.le frameHeaderSize data.length)
  writeItem data

/-- `truncate(last_idx)`: keep the entries up to `last_idx`. -/
def truncate (lastIdx : Nat) : LedgerM Unit := do
  let l ← get
  if lastIdx ≥ l.positions.length then pure ()
  else
    let totalLen := l.positions.getD lastIdx 0
    set { l with
      totalLen := totalLen
      positions := l.positions.take lastIdx
      file := (l.file.truncate totalLen).seek totalLen }

-- Made here once: the equation lemmas that the proofs below unfold.
section
attribute [local simp] getLastIdx framedEntriesSize entrySize readAt readEntry readFramedEntries writeItem writeEntry truncate
end

/-- The messages of `register_message_handlers`: `ledger_append` carries an entry,
`ledger_truncate` and `ledger_get` an index. -/
inductive Msg
  | ledgerAppend (data : List UInt8)
  | ledgerTruncate (idx : Nat)
  | ledgerGet (idx : Nat)
  deriving DecidableEq, Repr

/-- What the host writes back to the enclave for a `ledger_get`. -/
inductive Reply
  | ledgerEntry (entry : List UInt8)
  | ledgerNoEntry
  deriving DecidableEq, Repr

/-- The handler of each message, with the reply it writes to the enclave, if any. -/
def handle : Msg → LedgerM (Option Reply)
  | .ledgerAppend data => do
      writeEntry data
      pure none
  | .ledgerTruncate idx => do
      truncate idx
      pure none
  | .ledgerGet idx => do
      let entry ← readEntry idx
      if entry.length > 0 then pure (some (.ledgerEntry entry)) else pure (some .ledgerNoEntry)

-- Made here once: the equation lemmas that the proofs below unfold.
section
attribute [local simp] handle
end

end Ledger

end Ccf.Host
