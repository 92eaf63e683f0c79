import Ccf.Host.Ledger

/-!
# The host's ledger file keeps its entries

The invariant `Ledger.Holds l es` says that the ledger `l` is the one of the entries `es`: its
file is their frames, one after the other, `positions` is where each frame starts and `total_len`
where the last one ends. Each method is stated against it:

* `write_entry(e)` of an entry that is not empty and whose length fits the header's four bytes
  appends `e` (`Holds.writeEntry`); of an empty entry it throws, because `fwrite` of no bytes
  writes no item, but only after the header and the position are in place (`Holds.writeEntry_nil`);
* `truncate(k)` keeps the first `k` entries (`Holds.truncate`);
* `read_entry(i)` returns entry `i`, counted from 1, and nothing out of range (`Holds.readEntry`),
  except that for an empty entry `fread` of no bytes throws (`Holds.readEntry_nil`);
* `read_framed_entries(from, to)` returns the frames of entries `from` to `to`
  (`Holds.readFramedEntries`);
* the constructor scans a file of frames back into the same positions and total length
  (`open_frames`).

The message handlers then refine a list of entries, message by message (`Holds.handle`) and over
any run (`Holds.handleAll`); `ledger_round_trip` puts these together.
-/

namespace Ccf.Host

/-! ## The file a list of entries makes -/

/-- The frame of an entry: its length in four bytes, then the entry. -/
def frame (e : List UInt8) : List UInt8 := Codec.le frameHeaderSize e.length ++ e

/-- The file of a list of entries: their frames, in order. -/
def frames (es : List (List UInt8)) : List UInt8 := (es.map frame).flatten

/-- Where each frame of `es` starts, in a file whose first frame starts at `pos`. -/
def offsetsFrom : Nat → List (List UInt8) → List Nat
  | _, [] => []
  | pos, e :: es => pos :: offsetsFrom (pos + (frame e).length) es

-- Made here once: the equation lemmas that the proofs below unfold.
section
attribute [local simp] frame frames offsetsFrom
end

@[simp] theorem length_frame (e : List UInt8) : (frame e).length = e.length + frameHeaderSize := by
  simp [frame, Nat.add_comm]

@[simp] theorem frames_nil : frames [] = [] := rfl

@[simp] theorem frames_cons (e : List UInt8) (es : List (List UInt8)) :
    frames (e :: es) = frame e ++ frames es := rfl

@[simp] theorem frames_append (es es' : List (List UInt8)) :
    frames (es ++ es') = frames es ++ frames es' := by
  simp [frames]

theorem frames_take_drop (es : List (List UInt8)) (k : Nat) :
    frames es = frames (es.take k) ++ frames (es.drop k) := by
  rw [← frames_append, List.take_append_drop]

/-- The bytes of the frames before entry `k` are those frames. -/
theorem take_length_frames_take (es : List (List UInt8)) (k : Nat) :
    (frames es).take (frames (es.take k)).length = frames (es.take k) := by
  rw [frames_take_drop es k, List.take_left' rfl]

/-- Past the bytes of the frames before entry `k` come the frames from entry `k` on. -/
theorem drop_length_frames_take (es : List (List UInt8)) (k : Nat) :
    (frames es).drop (frames (es.take k)).length = frames (es.drop k) := by
  rw [frames_take_drop es k, List.drop_left' rfl]

/-- Every frame is at least its header. -/
theorem frameHeaderSize_mul_le (es : List (List UInt8)) :
    frameHeaderSize * es.length ≤ (frames es).length := by
  induction es with
  | nil => simp
  | cons e es ih =>
      simp only [frames_cons, List.length_append, length_frame, List.length_cons]
      rw [Nat.mul_succ]
      omega

@[simp] theorem length_offsetsFrom (pos : Nat) (es : List (List UInt8)) :
    (offsetsFrom pos es).length = es.length := by
  induction es generalizing pos with
  | nil => rfl
  | cons e es ih => simp [offsetsFrom, ih]

theorem offsetsFrom_append (pos : Nat) (es : List (List UInt8)) (e : List UInt8) :
    offsetsFrom pos (es ++ [e]) = offsetsFrom pos es ++ [pos + (frames es).length] := by
  induction es generalizing pos with
  | nil => rfl
  | cons e' es ih =>
      simp only [List.cons_append, offsetsFrom, ih, frames_cons, List.length_append]
      simp [Nat.add_assoc]

/-- The `i`-th offset is where the frames before entry `i` end. -/
theorem getD_offsetsFrom (pos : Nat) (es : List (List UInt8)) {i : Nat} (hi : i < es.length) :
    (offsetsFrom pos es).getD i 0 = pos + (frames (es.take i)).length := by
  induction es generalizing pos i with
  | nil => simp at hi
  | cons e es ih =>
      cases i with
      | zero => simp [offsetsFrom]
      | succ i =>
          simp only [offsetsFrom, List.getD_cons_succ, List.take_succ_cons, frames_cons,
            List.length_append]
          rw [ih _ (by simpa using hi)]
          omega

theorem offsetsFrom_take (pos : Nat) (es : List (List UInt8)) (k : Nat) :
    (offsetsFrom pos es).take k = offsetsFrom pos (es.take k) := by
  induction es generalizing pos k with
  | nil => simp [offsetsFrom]
  | cons e es ih =>
      cases k with
      | zero => rfl
      | succ k => simp [offsetsFrom, ih]

/-! ## The stream -/

namespace File

/-- A write at the end of the file appends. -/
theorem write_end {f : File} (hpos : f.pos = f.bytes.length) {data : List UInt8}
    (hd : data ≠ []) : f.write data = (⟨f.bytes ++ data, f.pos + data.length⟩, 1) := by
  have hlen : data.length ≠ 0 := by simpa using hd
  rw [write, if_neg hlen, hpos, List.take_length, Nat.sub_self, List.replicate_zero,
    List.append_nil, List.drop_eq_nil_of_le (by omega), List.append_nil]

theorem write_nil (f : File) : f.write [] = (f, 0) := rfl

/-- A read of `n > 0` bytes that lie in the file gets them. -/
theorem read_of_le {f : File} {n : Nat} (hn : n ≠ 0) (hle : f.pos + n ≤ f.bytes.length) :
    f.read n = (⟨f.bytes, f.pos + n⟩, some ((f.bytes.drop f.pos).take n)) := by
  have hlen : ((f.bytes.drop f.pos).take n).length = n := by simp; omega
  simp only [read, hlen, hn, ne_eq, not_false_eq_true, true_and, if_true]

theorem read_zero (f : File) : (f.read 0).2 = none := by
  simp [read]

end File

/-! ## The methods -/

namespace Ledger

open EStateM

/-- The ledger holds the entries `es`: the file is their frames, `positions` is where each
starts and `total_len` where they end. -/
structure Holds (l : Ledger) (es : List (List UInt8)) : Prop where
  bytes : l.file.bytes = frames es
  positions : l.positions = offsetsFrom 0 es
  totalLen : l.totalLen = (frames es).length

/-- An entry `write_entry` stores as it is: not empty, and short enough for its length to fit
the frame. -/
def Storable (e : List UInt8) : Prop := 0 < e.length ∧ e.length < 2 ^ 32

instance (e : List UInt8) : Decidable (Storable e) := inferInstanceAs (Decidable (_ ∧ _))

/-- The ledger positioned at the end of the file of `es`. -/
def ofEntries (es : List (List UInt8)) : Ledger :=
  ⟨⟨frames es, (frames es).length⟩, offsetsFrom 0 es, (frames es).length⟩

-- Made here once: the equation lemmas that the proofs below unfold.
section
attribute [local simp] ofEntries
end

theorem holds_ofEntries (es : List (List UInt8)) : Holds (ofEntries es) es := ⟨rfl, rfl, rfl⟩

theorem writeItem_ok {l : Ledger} (hpos : l.file.pos = l.file.bytes.length) {data : List UInt8}
    (hd : data ≠ []) :
    writeItem data l = .ok () { l with file := ⟨l.file.bytes ++ data, l.file.pos + data.length⟩ } := by
  unfold writeItem
  rw [get_bind_apply, File.write_end hpos hd]
  rfl

theorem writeItem_nil (l : Ledger) : writeItem [] l = .error "Failed to write to file" l := rfl

/-- `write_entry` seeks to the end, records the position, raises `total_len` and writes the
header; what is left is the write of the entry itself. -/
theorem Holds.writeEntry_eq {l : Ledger} {es : List (List UInt8)} (h : Holds l es)
    (e : List UInt8) :
    Ledger.writeEntry e l = writeItem e
      ⟨⟨frames es ++ Codec.le frameHeaderSize e.length, (frames es).length + frameHeaderSize⟩,
        offsetsFrom 0 es ++ [(frames es).length],
        (frames es).length + (e.length + frameHeaderSize)⟩ := by
  -- the frame goes at the end of the file
  have hend : l.totalLen = l.file.bytes.length := by rw [h.totalLen, h.bytes]
  unfold Ledger.writeEntry
  rw [modify_bind_apply, bind_of_ok (writeItem_ok (by simp [File.seek, hend])
    (List.ne_nil_of_length_pos (by simp [frameHeaderSize])))]
  simp only [File.seek, h.bytes, h.positions, h.totalLen, Codec.length_le]

/-- `write_entry` of a storable entry appends its frame and its position. -/
theorem Holds.writeEntry {l : Ledger} {es : List (List UInt8)} (h : Holds l es)
    {e : List UInt8} (he : Storable e) : Ledger.writeEntry e l = .ok () (ofEntries (es ++ [e])) := by
  rw [h.writeEntry_eq, writeItem_ok (by simp) (List.ne_nil_of_length_pos he.1)]
  simp only [ofEntries, frames_append, frames_cons, frames_nil, List.append_nil,
    offsetsFrom_append, frame, List.append_assoc, List.length_append, Codec.length_le,
    Nat.zero_add]
  rw [Nat.add_assoc, Nat.add_comm e.length frameHeaderSize]

/-- `write_entry` of an empty entry: `fwrite` of no bytes writes no item, so it throws, but only
after the header and the position are in place. The ledger is then the one of an empty entry
appended. -/
theorem Holds.writeEntry_nil {l : Ledger} {es : List (List UInt8)} (h : Holds l es) :
    Ledger.writeEntry [] l = .error "Failed to write to file" (ofEntries (es ++ [[]])) := by
  rw [h.writeEntry_eq, writeItem_nil]
  simp [ofEntries, offsetsFrom_append, frame]

/-- Entry `j` of `es` lies in their file between the frames before it and those after it. -/
theorem frames_split (es : List (List UInt8)) {j : Nat} (hj : j < es.length) :
    frames es = frames (es.take j) ++ (frame es[j] ++ frames (es.drop (j + 1))) := by
  calc frames es = frames (es.take j ++ es.drop j) := by rw [List.take_append_drop]
    _ = _ := by rw [frames_append, List.drop_eq_getElem_cons hj, frames_cons]

/-- The frames from entry `fromIdx` to entry `toIdx` (counted from 1) start at
`positions[fromIdx - 1]` and are `framed_entries_size(fromIdx, toIdx)` bytes long. -/
theorem Holds.framedEntriesSize {l : Ledger} {es : List (List UInt8)} (h : Holds l es)
    {fromIdx toIdx : Nat} (hfrom : 1 ≤ fromIdx) (hle : fromIdx ≤ toIdx) (hto : toIdx ≤ es.length) :
    l.positions.getD (fromIdx - 1) 0 = (frames (es.take (fromIdx - 1))).length ∧
      l.framedEntriesSize fromIdx toIdx =
        (frames ((es.drop (fromIdx - 1)).take (toIdx - fromIdx + 1))).length := by
  have hstart : l.positions.getD (fromIdx - 1) 0 = (frames (es.take (fromIdx - 1))).length := by
    rw [h.positions, getD_offsetsFrom _ _ (by omega), Nat.zero_add]
  -- the frames up to `toIdx` are those before `fromIdx` and those asked for
  have hsplit : (frames (es.take toIdx)).length = (frames (es.take (fromIdx - 1))).length +
      (frames ((es.drop (fromIdx - 1)).take (toIdx - fromIdx + 1))).length := by
    rw [← List.length_append, ← frames_append, ← List.take_add,
      show fromIdx - 1 + (toIdx - fromIdx + 1) = toIdx by omega]
  refine ⟨hstart, ?_⟩
  unfold Ledger.framedEntriesSize
  rw [if_neg (by rw [h.positions, length_offsetsFrom]; omega), hstart]
  split
  · rename_i hlast
    rw [h.positions, length_offsetsFrom] at hlast
    subst hlast
    rw [List.take_length] at hsplit
    rw [h.totalLen]
    omega
  · rename_i hlast
    rw [h.positions, length_offsetsFrom] at hlast
    rw [h.positions, getD_offsetsFrom _ _ (by omega), Nat.zero_add]
    omega

/-- Out of range, `framed_entries_size` is 0. -/
theorem Holds.framedEntriesSize_out {l : Ledger} {es : List (List UInt8)} (h : Holds l es)
    {fromIdx toIdx : Nat} (hout : ¬(1 ≤ fromIdx ∧ fromIdx ≤ toIdx ∧ toIdx ≤ es.length)) :
    l.framedEntriesSize fromIdx toIdx = 0 := by
  unfold Ledger.framedEntriesSize
  rw [if_pos (by rw [h.positions, length_offsetsFrom]; omega)]

/-- Entry `i` (counted from 1) starts after the frames before it, and `entry_size(i)` is its
length. -/
theorem Holds.entrySize {l : Ledger} {es : List (List UInt8)} (h : Holds l es) {i : Nat}
    (hi : 1 ≤ i) (hle : i ≤ es.length) :
    l.positions.getD (i - 1) 0 = (frames (es.take (i - 1))).length ∧
      l.entrySize i = (es.getD (i - 1) []).length := by
  have hj : i - 1 < es.length := by omega
  have hframe : l.positions.getD (i - 1) 0 = (frames (es.take (i - 1))).length ∧
      l.framedEntriesSize i i = (frames ((es.drop (i - 1)).take (i - i + 1))).length :=
    h.framedEntriesSize hi le_rfl hle
  obtain ⟨hstart, hsize⟩ := hframe
  -- the one frame asked for is entry `i - 1`'s
  have hone : (es.drop (i - 1)).take (i - i + 1) = [es[i - 1]] := by
    rw [Nat.sub_self, Nat.zero_add, List.drop_eq_getElem_cons hj]
    rfl
  refine ⟨hstart, ?_⟩
  unfold Ledger.entrySize
  rw [hsize, hone, List.getD_eq_getElem _ _ hj]
  simp [frames, frameHeaderSize]

theorem readAt_ok {l : Ledger} {off n : Nat} (hn : n ≠ 0) (hle : off + n ≤ l.file.bytes.length) :
    readAt off n l = .ok ((l.file.bytes.drop off).take n) { l with file := ⟨l.file.bytes, off + n⟩ } := by
  unfold readAt
  rw [get_bind_apply, File.read_of_le hn (by simpa [File.seek] using hle)]
  rfl

theorem readAt_zero (l : Ledger) (off : Nat) :
    readAt off 0 l = .error "Failed to read from file" { l with file := ⟨l.file.bytes, off⟩ } := by
  unfold readAt
  rw [get_bind_apply]
  simp [File.read, File.seek]
  rfl

/-- A read moves only the position of the stream. -/
theorem Holds.with_pos {l : Ledger} {es : List (List UInt8)} (h : Holds l es) (pos : Nat) :
    Holds { l with file := ⟨l.file.bytes, pos⟩ } es :=
  ⟨h.bytes, h.positions, h.totalLen⟩

/-- `read_entry(i)` returns entry `i`, counted from 1, when it is not empty, and nothing for an
index out of range. -/
theorem Holds.readEntry {l : Ledger} {es : List (List UInt8)} (h : Holds l es)
    (hes : ∀ e ∈ es, e ≠ []) (i : Nat) :
    ∃ l', Ledger.readEntry i l = .ok (if 1 ≤ i ∧ i ≤ es.length then es.getD (i - 1) [] else []) l' ∧
      Holds l' es := by
  unfold Ledger.readEntry
  rw [get_bind_apply]
  have hlen : l.positions.length = es.length := by rw [h.positions, length_offsetsFrom]
  split
  · rename_i hout
    rw [if_neg (by omega)]
    exact ⟨l, rfl, h⟩
  · rename_i hin
    rw [if_pos (by omega)]
    have hj : i - 1 < es.length := by omega
    obtain ⟨hstart, hentry⟩ := h.entrySize (i := i) (by omega) (by omega)
    rw [List.getD_eq_getElem _ _ hj] at hentry ⊢
    have hbytes := frames_split es hj
    have hne : es[i - 1].length ≠ 0 := by
      simpa using hes _ (List.getElem_mem hj)
    -- past the frames before it and its header, the file holds the entry
    have hread : (l.file.bytes.drop ((frames (es.take (i - 1))).length + frameHeaderSize)).take
        es[i - 1].length = es[i - 1] := by
      rw [h.bytes, hbytes, ← List.drop_drop, List.drop_left' rfl, frame, List.append_assoc,
        List.drop_left' (Codec.length_le _ _), List.take_left' rfl]
    rw [hentry, hstart, readAt_ok hne (by rw [h.bytes, hbytes]; simp [frame]; omega), hread]
    exact ⟨_, rfl, h.with_pos _⟩

/-- `read_entry(i)` of an empty entry asks `fread` for no bytes, which reads no item, so it
throws. -/
theorem Holds.readEntry_nil {l : Ledger} {es : List (List UInt8)} (h : Holds l es) {i : Nat}
    (hi : 1 ≤ i) (hle : i ≤ es.length) (he : es.getD (i - 1) [] = []) :
    ∃ l', Ledger.readEntry i l = .error "Failed to read from file" l' := by
  unfold Ledger.readEntry
  rw [get_bind_apply, if_neg (by rw [h.positions, length_offsetsFrom]; omega)]
  obtain ⟨-, hentry⟩ := h.entrySize hi hle
  rw [hentry, he, List.length_nil]
  exact ⟨_, readAt_zero l _⟩

/-- `read_framed_entries(from, to)` returns the frames of entries `from` to `to`, and nothing
when they are not a range of entries. -/
theorem Holds.readFramedEntries {l : Ledger} {es : List (List UInt8)} (h : Holds l es)
    (fromIdx toIdx : Nat) :
    ∃ l', Ledger.readFramedEntries fromIdx toIdx l =
        .ok (if 1 ≤ fromIdx ∧ fromIdx ≤ toIdx ∧ toIdx ≤ es.length then
          frames ((es.drop (fromIdx - 1)).take (toIdx - fromIdx + 1)) else []) l' ∧
      Holds l' es := by
  unfold Ledger.readFramedEntries
  rw [get_bind_apply]
  by_cases hin : 1 ≤ fromIdx ∧ fromIdx ≤ toIdx ∧ toIdx ≤ es.length
  · obtain ⟨hstart, hsize⟩ := h.framedEntriesSize hin.1 hin.2.1 hin.2.2
    rw [if_pos hin]
    -- the range is not empty, so neither are its frames
    have hne : (frames ((es.drop (fromIdx - 1)).take (toIdx - fromIdx + 1))).length ≠ 0 := by
      refine Nat.pos_iff_ne_zero.mp (Nat.lt_of_lt_of_le ?_ (frameHeaderSize_mul_le _))
      simp only [List.length_take, List.length_drop]
      exact Nat.mul_pos (by decide) (by omega)
    rw [hsize, if_neg hne, hstart, readAt_ok hne ?_]
    · rw [h.bytes, drop_length_frames_take, take_length_frames_take, ← h.bytes]
      exact ⟨_, rfl, h.with_pos _⟩
    · rw [h.bytes, frames_take_drop es (fromIdx - 1), List.length_append, Nat.add_le_add_iff_left,
        frames_take_drop (es.drop (fromIdx - 1)) (toIdx - fromIdx + 1), List.length_append]
      omega
  · rw [if_neg hin, h.framedEntriesSize_out hin]
    exact ⟨l, rfl, h⟩

/-- `truncate(k)` keeps the first `k` entries. -/
theorem Holds.truncate {l : Ledger} {es : List (List UInt8)} (h : Holds l es) (k : Nat) :
    ∃ l', Ledger.truncate k l = .ok () l' ∧ Holds l' (es.take k) := by
  unfold Ledger.truncate
  rw [get_bind_apply]
  have hlen : l.positions.length = es.length := by rw [h.positions, length_offsetsFrom]
  split
  · rename_i hge
    rw [List.take_of_length_le (by omega)]
    exact ⟨l, rfl, h⟩
  · rename_i hlt
    have hpos : l.positions.getD k 0 = (frames (es.take k)).length := by
      rw [h.positions, getD_offsetsFrom _ _ (by omega), Nat.zero_add]
    -- the cut is inside the file, so `ftruncate` adds no zeros
    have hcut : (frames (es.take k)).length ≤ (frames es).length := by
      rw [frames_take_drop es k, List.length_append]
      omega
    refine ⟨_, rfl, ⟨?_, ?_, hpos⟩⟩
    · simp only [File.seek, File.truncate, hpos, h.bytes, take_length_frames_take,
        Nat.sub_eq_zero_of_le hcut, List.replicate_zero, List.append_nil]
    · rw [h.positions, offsetsFrom_take]

/-! ## Reopening a file -/

/-- The header of an entry whose length fits four bytes reads back as that length. -/
theorem ofLe_header {e : List UInt8} (he : e.length < 2 ^ 32) :
    Codec.ofLe (Codec.le frameHeaderSize e.length) = e.length :=
  Codec.ofLe_le_of_lt he

/-- The constructor's scan over the frames of `es`, after a prefix `pre` of frames already
scanned: it records where each frame starts and stops at the end of the file. Each entry's
length must fit the four bytes of its header. -/
theorem scanFrames_frames (es : List (List UInt8)) (hes : ∀ e ∈ es, e.length < 2 ^ 32) :
    ∀ (pre : List UInt8) (fuel : Nat), es.length < fuel → ∀ positions : List Nat,
      scanFrames fuel ⟨pre ++ frames es, pre.length⟩ (frames es).length pre.length positions =
        .ok (⟨pre ++ frames es, (pre ++ frames es).length⟩, 0, (pre ++ frames es).length,
          positions ++ offsetsFrom pre.length es) := by
  induction es with
  | nil =>
      intro pre fuel hfuel positions
      obtain ⟨fuel, rfl⟩ : ∃ k, fuel = k + 1 := ⟨fuel - 1, by simp at hfuel; omega⟩
      simp [scanFrames, frameHeaderSize, offsetsFrom]
  | cons e es ih =>
      intro pre fuel hfuel positions
      obtain ⟨fuel, rfl⟩ : ∃ k, fuel = k + 1 := ⟨fuel - 1, by simp at hfuel; omega⟩
      have he : e.length < 2 ^ 32 := hes e (List.mem_cons_self ..)
      -- the four bytes at the position are the header of `e`
      have hread : File.read ⟨pre ++ frames (e :: es), pre.length⟩ frameHeaderSize =
          (⟨pre ++ frames (e :: es), pre.length + frameHeaderSize⟩,
            some (Codec.le frameHeaderSize e.length)) := by
        rw [File.read_of_le (by decide) (by simp; omega)]
        simp only [frames_cons, frame, List.drop_left' rfl, List.append_assoc,
          List.take_left' (Codec.length_le _ _)]
      have hnext := ih (fun e' he' => hes e' (List.mem_cons_of_mem e he')) (pre ++ frame e) fuel
        (by simp at hfuel; omega) (positions ++ [pre.length])
      rw [scanFrames, if_pos (by simp; omega), hread]
      dsimp only
      rw [ofLe_header he, if_neg (by simp; omega)]
      simp only [List.append_assoc, List.length_append, length_frame, List.singleton_append]
        at hnext
      simp only [File.seek, frames_cons, List.length_append, length_frame, offsetsFrom]
      -- the position past the entry, and the bytes left, are those of the rest of the frames
      rw [show pre.length + frameHeaderSize + e.length = pre.length + (e.length + frameHeaderSize)
          by omega,
        show e.length + frameHeaderSize + (frames es).length - frameHeaderSize - e.length =
          (frames es).length by omega, hnext]

/-- A file of frames is never one byte long, the length the constructor takes for an error. -/
theorem length_frames_ne_one (es : List (List UInt8)) : (frames es).length ≠ 1 := by
  cases es with
  | nil => simp
  | cons e es =>
      simp only [frames_cons, List.length_append, length_frame]
      simp [frameHeaderSize]
      omega

/-- Opening a file of frames rebuilds the ledger of their entries. -/
theorem open_frames (es : List (List UInt8)) (hes : ∀ e ∈ es, e.length < 2 ^ 32)
    (strerror : String) : Ledger.open (frames es) strerror = .ok (ofEntries es) := by
  have hfuel : es.length < (frames es).length + 1 := by
    have := frameHeaderSize_mul_le es
    simp [frameHeaderSize] at this
    omega
  have hscan := scanFrames_frames es hes [] _ hfuel []
  simp only [List.nil_append, List.length_nil] at hscan
  unfold Ledger.open
  rw [if_neg (length_frames_ne_one es), hscan]
  rfl

/-! ## The messages -/

/-- What the ledger is for: a list of entries, which `ledger_append` extends and
`ledger_truncate` cuts. -/
def Msg.apply : Msg → List (List UInt8) → List (List UInt8)
  | .ledgerAppend data, es => es ++ [data]
  | .ledgerTruncate idx, es => es.take idx
  | .ledgerGet _, es => es

/-- The reply a list of entries gives: entry `idx` (counted from 1) for a `ledger_get` in
range, no entry for one out of range, and nothing for the other messages. -/
def Msg.reply : Msg → List (List UInt8) → Option Reply
  | .ledgerGet idx, es =>
      some (if 1 ≤ idx ∧ idx ≤ es.length then .ledgerEntry (es.getD (idx - 1) []) else .ledgerNoEntry)
  | _, _ => none

/-- The entries after a run of messages. -/
def Msg.applyAll (ms : List Msg) (es : List (List UInt8)) : List (List UInt8) :=
  ms.foldl (fun es m => m.apply es) es

/-- The replies to a run of messages. -/
def Msg.replies : List Msg → List (List UInt8) → List (Option Reply)
  | [], _ => []
  | m :: ms, es => m.reply es :: Msg.replies ms (m.apply es)

/-- A message whose entry, if it carries one, `write_entry` stores. -/
def Msg.Storable : Msg → Prop
  | .ledgerAppend data => Ledger.Storable data
  | _ => True

-- Made here once: the equation lemmas that the proofs below unfold.
section
attribute [local simp] Msg.apply Msg.reply
end

instance Msg.decStorable : (m : Msg) → Decidable m.Storable
  | .ledgerAppend data => inferInstanceAs (Decidable (Ledger.Storable data))
  | .ledgerTruncate _ => isTrue trivial
  | .ledgerGet _ => isTrue trivial

/-- The messages keep every entry storable. -/
theorem Msg.storable_apply {m : Msg} (hm : m.Storable) {es : List (List UInt8)}
    (hes : ∀ e ∈ es, Ledger.Storable e) : ∀ e ∈ m.apply es, Ledger.Storable e := by
  cases m with
  | ledgerAppend data =>
      intro e he
      rcases List.mem_append.mp he with he | he
      · exact hes e he
      · rw [List.mem_singleton.mp he]
        exact hm
  | ledgerTruncate idx => exact fun e he => hes e (List.mem_of_mem_take he)
  | ledgerGet idx => exact hes

theorem Msg.storable_applyAll {ms : List Msg} (hms : ∀ m ∈ ms, m.Storable) :
    ∀ {es : List (List UInt8)}, (∀ e ∈ es, Ledger.Storable e) →
      ∀ e ∈ Msg.applyAll ms es, Ledger.Storable e := by
  induction ms with
  | nil => exact fun hes => hes
  | cons m ms ih =>
      intro es hes
      exact ih (fun m' hm' => hms m' (List.mem_cons_of_mem m hm'))
        (Msg.storable_apply (hms m (List.mem_cons_self ..)) hes)

/-- One message: the handler gives the reply of the entries and leaves the ledger holding the
entries the message makes. -/
theorem Holds.handle {l : Ledger} {es : List (List UInt8)} (h : Holds l es)
    (hes : ∀ e ∈ es, Storable e) {m : Msg} (hm : m.Storable) :
    ∃ l', Ledger.handle m l = .ok (m.reply es) l' ∧ Holds l' (m.apply es) := by
  cases m with
  | ledgerAppend data =>
      refine ⟨_, ?_, holds_ofEntries _⟩
      rw [Ledger.handle, bind_of_ok (h.writeEntry hm)]
      rfl
  | ledgerTruncate idx =>
      obtain ⟨l', ht, h'⟩ := h.truncate idx
      refine ⟨l', ?_, h'⟩
      rw [Ledger.handle, bind_of_ok ht]
      rfl
  | ledgerGet idx =>
      have hne : ∀ e ∈ es, e ≠ [] := fun e he => List.ne_nil_of_length_pos (hes e he).1
      obtain ⟨l', hr, h'⟩ := h.readEntry hne idx
      refine ⟨l', ?_, h'⟩
      rw [Ledger.handle, bind_of_ok hr]
      simp only [Msg.reply]
      split
      · rename_i hin
        -- an entry in range is not empty, so it is sent back
        have hj : idx - 1 < es.length := by omega
        have hpos : 0 < (es.getD (idx - 1) []).length := by
          rw [List.getD_eq_getElem _ _ hj]
          exact (hes _ (List.getElem_mem hj)).1
        rw [if_pos hpos]
        rfl
      · rw [if_neg (by simp)]
        rfl

/-- A run of messages: the handlers give the replies of the entries, message by message, and
leave the ledger holding the entries the run makes. -/
theorem Holds.handleAll {l : Ledger} {es : List (List UInt8)} (h : Holds l es)
    (hes : ∀ e ∈ es, Storable e) (ms : List Msg) (hms : ∀ m ∈ ms, m.Storable) :
    ∃ l', ms.mapM Ledger.handle l = .ok (Msg.replies ms es) l' ∧ Holds l' (Msg.applyAll ms es) := by
  induction ms generalizing l es with
  | nil => exact ⟨l, rfl, h⟩
  | cons m ms ih =>
      obtain ⟨l₁, h₁, hl₁⟩ := h.handle hes (hms m (List.mem_cons_self ..))
      obtain ⟨l₂, h₂, hl₂⟩ := ih hl₁ (Msg.storable_apply (hms m (List.mem_cons_self ..)) hes)
        (fun m' hm' => hms m' (List.mem_cons_of_mem m hm'))
      refine ⟨l₂, ?_, hl₂⟩
      rw [List.mapM_cons, bind_of_ok h₁, bind_of_ok h₂]
      rfl

/-! ## The round trip -/

/-- Over any run of messages whose entries are storable, from a file of storable entries: each
handler answers as the list of entries does, `read_entry` and `read_framed_entries` read the
entries and the frames the run leaves, and reopening the file rebuilds the same positions and
total length. -/
theorem ledger_round_trip (es : List (List UInt8)) (hes : ∀ e ∈ es, Storable e) (ms : List Msg)
    (hms : ∀ m ∈ ms, m.Storable) (strerror : String) :
    let es' := Msg.applyAll ms es
    ∃ l l', Ledger.open (frames es) strerror = .ok l ∧
      ms.mapM Ledger.handle l = .ok (Msg.replies ms es) l' ∧
      l'.getLastIdx = es'.length ∧
      (∀ i, ∃ l'', Ledger.readEntry i l' =
        .ok (if 1 ≤ i ∧ i ≤ es'.length then es'.getD (i - 1) [] else []) l'') ∧
      (∀ fromIdx toIdx, ∃ l'', Ledger.readFramedEntries fromIdx toIdx l' =
        .ok (if 1 ≤ fromIdx ∧ fromIdx ≤ toIdx ∧ toIdx ≤ es'.length then
          frames ((es'.drop (fromIdx - 1)).take (toIdx - fromIdx + 1)) else []) l'') ∧
      ∃ l₀, Ledger.open l'.file.bytes strerror = .ok l₀ ∧
        l₀.positions = l'.positions ∧ l₀.totalLen = l'.totalLen := by
  intro es'
  obtain ⟨l', hrun, hl'⟩ := (holds_ofEntries es).handleAll hes ms hms
  have hes' : ∀ e ∈ es', Storable e := Msg.storable_applyAll hms hes
  refine ⟨ofEntries es, l', open_frames es (fun e he => (hes e he).2) strerror, hrun, ?_, ?_, ?_, ?_⟩
  · rw [getLastIdx, hl'.positions, length_offsetsFrom]
  · intro i
    obtain ⟨l'', hr, -⟩ := hl'.readEntry (fun e he => List.ne_nil_of_length_pos (hes' e he).1) i
    exact ⟨l'', hr⟩
  · intro fromIdx toIdx
    obtain ⟨l'', hr, -⟩ := hl'.readFramedEntries fromIdx toIdx
    exact ⟨l'', hr⟩
  · -- the file is the frames of the entries left, which the constructor scans back
    refine ⟨ofEntries es', ?_, hl'.positions.symm, hl'.totalLen.symm⟩
    rw [hl'.bytes]
    exact open_frames es' (fun e he => (hes' e he).2) strerror

/-- Two entries stored, one got back, one cut and asked for again. -/
theorem ledger_round_trip_two :
    (∀ e ∈ [[1, 2]], Storable e) ∧
      (∀ m ∈ [Msg.ledgerAppend [3], .ledgerGet 2, .ledgerTruncate 1, .ledgerGet 2], m.Storable) ∧
      let es' := Msg.applyAll [.ledgerAppend [3], .ledgerGet 2, .ledgerTruncate 1, .ledgerGet 2] [[1, 2]]
      ∃ l l', Ledger.open (frames [[1, 2]]) "" = .ok l ∧
        [Msg.ledgerAppend [3], .ledgerGet 2, .ledgerTruncate 1, .ledgerGet 2].mapM Ledger.handle l =
          .ok (Msg.replies [.ledgerAppend [3], .ledgerGet 2, .ledgerTruncate 1, .ledgerGet 2] [[1, 2]]) l' ∧
        l'.getLastIdx = es'.length ∧
        (∀ i, ∃ l'', Ledger.readEntry i l' =
          .ok (if 1 ≤ i ∧ i ≤ es'.length then es'.getD (i - 1) [] else []) l'') ∧
        (∀ fromIdx toIdx, ∃ l'', Ledger.readFramedEntries fromIdx toIdx l' =
          .ok (if 1 ≤ fromIdx ∧ fromIdx ≤ toIdx ∧ toIdx ≤ es'.length then
            frames ((es'.drop (fromIdx - 1)).take (toIdx - fromIdx + 1)) else []) l'') ∧
        ∃ l₀, Ledger.open l'.file.bytes "" = .ok l₀ ∧
          l₀.positions = l'.positions ∧ l₀.totalLen = l'.totalLen :=
  ⟨by decide, by decide, ledger_round_trip [[1, 2]] (by decide) _ (by decide) ""⟩

/-- An empty entry is shorter than `2 ^ 32` bytes, but it does not round-trip: `write_entry`
throws once it has recorded the entry, and `read_entry` of it throws as well, both on the ledger
left behind and on the one the file reopens to. -/
theorem empty_entry_breaks_round_trip {l : Ledger} {es : List (List UInt8)} (h : Holds l es)
    (hes : ∀ e ∈ es, e.length < 2 ^ 32) (strerror : String) :
    Ledger.writeEntry [] l = .error "Failed to write to file" (ofEntries (es ++ [[]])) ∧
      Ledger.open (frames (es ++ [[]])) strerror = .ok (ofEntries (es ++ [[]])) ∧
      ∃ l', Ledger.readEntry (es.length + 1) (ofEntries (es ++ [[]])) =
        .error "Failed to read from file" l' := by
  have hall : ∀ e ∈ es ++ [[]], e.length < 2 ^ 32 := by
    intro e he
    rcases List.mem_append.mp he with he | he
    · exact hes e he
    · rw [List.mem_singleton.mp he]
      decide
  refine ⟨h.writeEntry_nil, open_frames _ hall strerror, ?_⟩
  -- the entry asked for is the empty one just appended
  have hlast : (es ++ [[]]).getD (es.length + 1 - 1) [] = [] := by
    rw [Nat.add_sub_cancel, List.getD_append_right _ _ _ _ le_rfl, Nat.sub_self]
    rfl
  exact (holds_ofEntries _).readEntry_nil (by omega) (by simp) hlast

/-- On a ledger holding one entry. -/
theorem empty_entry_breaks_round_trip_one :
    Holds (ofEntries [[5]]) [[5]] ∧ (∀ e ∈ [[(5 : UInt8)]], e.length < 2 ^ 32) ∧
      Ledger.writeEntry [] (ofEntries [[5]]) =
          .error "Failed to write to file" (ofEntries ([[5]] ++ [[]])) ∧
        Ledger.open (frames ([[5]] ++ [[]])) "" = .ok (ofEntries ([[5]] ++ [[]])) ∧
        ∃ l', Ledger.readEntry ([[(5 : UInt8)]].length + 1) (ofEntries ([[5]] ++ [[]])) =
          .error "Failed to read from file" l' :=
  ⟨holds_ofEntries _, by decide,
    empty_entry_breaks_round_trip (holds_ofEntries [[5]]) (by decide) ""⟩

end Ledger

end Ccf.Host
