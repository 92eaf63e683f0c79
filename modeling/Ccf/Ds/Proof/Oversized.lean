import Ccf.Ds.Oversized
import Ccf.Ds.Proof.Writers
import Mathlib.Data.List.TakeWhile

/-!
# What the oversized writer sends

`write_multiple` of a message longer than a fragment, through an `oversized::Writer`, gives the
reader a run of fragments that make up the message (`Fragments`), as long as the first section is
longer than the room the first fragment has after its header (`writeMultiple_fragments`).

`write_bytes` fills the fragment in progress with as much of the section as fits, but does not
count what it wrote: `remainder` goes down only in the loop that opens new fragments. While every
section fits in the room the first fragment has after its header, the loop never runs, `remainder`
stays at that room, and `finish` throws (`finish_throws_when_sections_fit`). The first fragment
is then never finished, so the reader, which stops at a pending message, never gets past it.

The proofs follow the writer state by state. After `prepare`, the fragment in progress is the last
reservation, pending, and every reservation before it is finished and lies below it
(`Sending`). `write_bytes` writes into it and then runs the loop, which finishes it and opens the
next one (`writeLoop_sending`).
-/

namespace Ccf.Oversized

open Ringbuffer (Message Const)
open EStateM

/-- The ring takes a fragment: `prepare` of `max_fragment_size` bytes passes the base's checks. -/
def Fits (c : Const) (cfg : WriterConfig) : Prop :=
  cfg.maxFragmentSize ≤ Const.maxSize ∧
    Const.entrySize cfg.maxFragmentSize ≤ Const.maxReservationSize c.size

instance (c : Const) (cfg : WriterConfig) : Decidable (Fits c cfg) :=
  inferInstanceAs (Decidable (_ ∧ _))

/-! ## The base -/

theorem fragment_valid : ¬(fragment < Const.msgMin ∨ fragment > Const.msgMax) := by decide

theorem entrySize_mono {a b : Nat} (hab : a ≤ b) (hb : b ≤ Const.maxSize) :
    Const.entrySize a ≤ Const.entrySize b := by
  rw [Ringbuffer.entrySize_eq (Nat.le_trans hab hb), Ringbuffer.entrySize_eq hb]
  exact Nat.mul_le_mul_right 8 (Nat.div_le_div_right (by omega))

/-- A fragment of at most `max_fragment_size` bytes passes the base's checks. -/
theorem checkPrepare_fragment {c : Const} {cfg : WriterConfig} (hfit : Fits c cfg) {n : Nat}
    (hn : n ≤ cfg.maxFragmentSize) :
    Ringbuffer.checkPrepare c fragment n = .ok (Const.entrySize n) := by
  have hmax : ¬n > Const.maxSize := Nat.not_lt.mpr (Nat.le_trans hn hfit.1)
  have hroom : ¬Const.entrySize n > Const.maxReservationSize c.size :=
    Nat.not_lt.mpr (Nat.le_trans (entrySize_mono hn hfit.1) hfit.2)
  unfold Ringbuffer.checkPrepare
  rw [if_neg fragment_valid, if_neg hmax, if_neg hroom]

namespace Base

theorem prepare_ok {c : Const} {m : Message} {n rsize : Nat}
    (h : Ringbuffer.checkPrepare c m n = .ok rsize) (b : Base) :
    prepare c m n b = .ok (b.tail + Const.headerSize, b.tail)
      { b with tail := b.tail + rsize,
               reservations := b.reservations ++ [⟨b.tail + Const.headerSize, m, n, true⟩] } := by
  unfold prepare
  rw [h]
  rfl

theorem writeBytes_some (i : Nat) (bytes : List UInt8) (b : Base) :
    writeBytes (some i) bytes b =
      .ok (some (i + bytes.length)) { b with buffer := (Ringbuffer.writeBytes b.buffer i bytes).1 } :=
  rfl

theorem finish_some (i : Nat) (b : Base) :
    finish (some i) b = .ok () { b with reservations := b.reservations.map fun r =>
      if r.index = i then { r with pending := false } else r } :=
  rfl

/-- Writing nothing leaves the memory as it was. -/
theorem writeBytes_nil (buffer : Nat → UInt8) (i : Nat) :
    (Ringbuffer.writeBytes buffer i []).1 = buffer :=
  rfl

/-- What the reader gets of the reservations `rs`, each with the bytes at its place in `b`. -/
def reads (b : Base) (rs : List Reservation) : List (Message × List UInt8) :=
  rs.map fun r => (r.m, Bytes.read b.buffer r.index r.size)

-- Made here once: the equation lemmas that the proofs below unfold.
section
attribute [local simp] reads
end

/-- A write from `i` on leaves what the reader gets of the reservations below `i`. -/
theorem reads_writeBytes {b : Base} {rs : List Reservation} {i : Nat}
    (h : ∀ r ∈ rs, r.index + r.size ≤ i) (bytes : List UInt8) :
    reads { b with buffer := (Ringbuffer.writeBytes b.buffer i bytes).1 } rs = reads b rs := by
  unfold reads
  refine List.map_congr_left fun r hr => ?_
  rw [Ringbuffer.writeBytes_eq]
  dsimp only
  rw [Bytes.read_copy_of_disjoint (Or.inl (h r hr))]

/-- With every reservation finished, the reader gets all of them. -/
theorem read_of_finished {b : Base} (h : ∀ r ∈ b.reservations, r.pending = false) :
    read b = reads b b.reservations := by
  unfold read reads
  rw [List.takeWhile_eq_self_iff.mpr fun r hr => by simp [h r hr]]

end Base

/-! ## The fragment in progress -/

/-- A base in the middle of an oversized message: the reservations `rs`, all finished and each
below `mk`, then the fragment in progress at `mk`, pending, with room for `size` bytes, of which
`cur` are written. -/
structure Sending (b : Base) (rs : List Reservation) (mk size : Nat) (cur : List UInt8) :
    Prop where
  reservations : b.reservations = rs ++ [⟨mk, fragment, size, true⟩]
  finished : ∀ r ∈ rs, r.pending = false
  below : ∀ r ∈ rs, r.index + r.size < mk
  written : Bytes.read b.buffer mk cur.length = cur
  fits : cur.length ≤ size
  room : mk + size ≤ b.tail

namespace Sending

variable {b : Base} {rs : List Reservation} {mk size : Nat} {cur : List UInt8}

/-- The reader gets the finished reservations and stops at the fragment in progress. -/
theorem read (h : Sending b rs mk size cur) : Base.read b = b.reads rs := by
  unfold Base.read Base.reads
  rw [h.reservations, List.takeWhile_append_of_pos fun r hr => by simp [h.finished r hr],
    List.takeWhile_cons_of_neg (by simp), List.append_nil]

/-- More bytes written into the fragment in progress, where the last ones stopped. -/
theorem write (h : Sending b rs mk size cur) (bytes : List UInt8)
    (hb : cur.length + bytes.length ≤ size) :
    Sending { b with buffer := (Ringbuffer.writeBytes b.buffer (mk + cur.length) bytes).1 }
        rs mk size (cur ++ bytes) ∧
      Base.reads { b with buffer := (Ringbuffer.writeBytes b.buffer (mk + cur.length) bytes).1 }
        rs = b.reads rs := by
  refine ⟨⟨h.reservations, h.finished, h.below, ?_, by simpa using hb, h.room⟩,
    Base.reads_writeBytes (fun r hr => by have := h.below r hr; omega) bytes⟩
  -- the bytes before stay, the new ones follow them
  dsimp only
  rw [Ringbuffer.writeBytes_eq, List.length_append, Bytes.read_add,
    Bytes.read_copy_of_disjoint (Or.inl le_rfl), h.written, Bytes.read_copy]

end Sending

/-- The fragments of an oversized message `(m, payload)` with identifier `id`: a first one with
the header and the first bytes of the payload, then ones with the identifier and the next bytes,
none empty, which together give the payload. -/
def Fragments (id : Nat) (m : Message) (payload : List UInt8) (frags : List (List UInt8)) :
    Prop :=
  ∃ (p : List UInt8) (ps : List (List UInt8)),
    frags = (initialFragmentHeader id m payload.length ++ p) :: ps.map (Codec.le 8 id ++ ·) ∧
      p ++ ps.flatten = payload ∧ ∀ q ∈ ps, q ≠ []

theorem totalSize_eq (sections : List (List UInt8)) :
    Ringbuffer.totalSize sections = sections.flatten.length := by
  rw [Ringbuffer.totalSize, List.length_flatten]

namespace Writer

theorem liftBase_ok {α : Type} {x : BaseM α} {w : Writer} {a : α} {b : Base}
    (h : x w.base = .ok a b) : liftBase x w = .ok a { w with base := b } := by
  unfold liftBase
  rw [h]

variable {c : Const} {cfg : WriterConfig}

/-- The writer once `prepare` of an oversized message has returned: the first fragment reserved
at the tail, with its header written, and the progress set with the room left after the header. -/
def prepared (cfg : WriterConfig) (w : Writer) (m : Message) (T : Nat) : Writer where
  base :=
    { buffer := (Ringbuffer.writeBytes w.base.buffer (w.base.tail + Const.headerSize)
        (initialFragmentHeader w.base.tail m T)).1
      tail := w.base.tail + Const.entrySize cfg.maxFragmentSize
      reservations := w.base.reservations ++
        [⟨w.base.tail + Const.headerSize, fragment, cfg.maxFragmentSize, true⟩] }
  fragmentProgress := some ⟨some (w.base.tail + Const.headerSize), w.base.tail,
    cfg.maxFragmentSize - initialFragmentHeaderSize⟩

-- Made here once: the equation lemmas that the proofs below unfold.
section
attribute [local simp] prepared
end

/-- `prepare` of a message longer than a fragment, from a writer with nothing in progress. It
returns the marker past the header. -/
theorem prepare_oversized (hfit : Fits c cfg) {w : Writer} (hw : w.fragmentProgress = none)
    {m : Message} {T : Nat} (hT : cfg.maxFragmentSize < T) (ht : T ≤ cfg.maxTotalSize) :
    prepare c cfg m T true w =
      .ok (some (w.base.tail + Const.headerSize + initialFragmentHeaderSize))
        (prepared cfg w m T) := by
  have hsmall : ¬T ≤ cfg.maxFragmentSize := Nat.not_le.mpr hT
  have hbig : ¬T > cfg.maxTotalSize := Nat.not_lt.mpr ht
  have hlen : (initialFragmentHeader w.base.tail m T).length = initialFragmentHeaderSize := by
    simp [initialFragmentHeader, initialFragmentHeaderSize]
  unfold prepare
  rw [get_bind_apply, hw]
  simp only [Option.isSome_none, Bool.false_eq_true, if_false, if_neg hsmall, if_neg hbig,
    Bool.not_true]
  -- the first fragment is reserved, then its header written
  rw [bind_of_ok (liftBase_ok (Base.prepare_ok (checkPrepare_fragment hfit le_rfl) _)),
    bind_of_ok (liftBase_ok (Base.writeBytes_some _ _ _)), modify_bind_apply]
  dsimp only
  rw [hlen]
  rfl

/-- `write_bytes` in an oversized message: the bytes that fit in the room `remainder` counts go
where the marker stands, and the loop takes the rest. -/
theorem writeBytes_fragmented {w : Writer} {fp : FragmentProgress}
    (hw : w.fragmentProgress = some fp) (i : Nat) (bytes : List UInt8) :
    writeBytes c cfg (some i) bytes w =
      writeLoop c cfg fp (bytes.drop (min bytes.length fp.remainder))
        (some (i + min bytes.length fp.remainder))
        { w with base := { w.base with buffer := (Ringbuffer.writeBytes w.base.buffer i
          (bytes.take (min bytes.length fp.remainder))).1 } } := by
  have hlen : (bytes.take (min bytes.length fp.remainder)).length =
      min bytes.length fp.remainder :=
    List.length_take_of_le (Nat.min_le_left _ _)
  unfold writeBytes
  dsimp only
  rw [get_bind_apply, hw]
  dsimp only
  rw [bind_of_ok (liftBase_ok (Base.writeBytes_some _ _ _)), hlen, hw]

theorem writeLoop_nil (fp : FragmentProgress) (next : Option Nat) :
    writeLoop c cfg fp [] next = pure next := by
  rw [writeLoop, if_neg (by simp)]

/-- The writer after a round of the loop of `write_bytes` on `bytes`, from the fragment in
progress at `mk`: a fragment of `min(size + 8, max_fragment_size)` bytes reserved at the tail, the
one at `mk` finished, and the new one filled with the identifier `id` and the next bytes. -/
def advanced (cfg : WriterConfig) (id mk : Nat) (bytes : List UInt8) (w : Writer) : Writer :=
  let fragSize := min (bytes.length + 8) cfg.maxFragmentSize
  let index := w.base.tail + Const.headerSize
  { base :=
      { buffer := (Ringbuffer.writeBytes (Ringbuffer.writeBytes w.base.buffer index
          (Codec.le 8 id)).1 (index + 8) (bytes.take (fragSize - 8))).1
        tail := w.base.tail + Const.entrySize fragSize
        reservations :=
          (w.base.reservations ++ [(⟨index, fragment, fragSize, true⟩ : Reservation)]).map
            fun r => if r.index = mk then { r with pending := false } else r }
    fragmentProgress := some ⟨some index, id, 0⟩ }

-- Made here once: the equation lemmas that the proofs below unfold.
section
attribute [local simp] advanced
end

/-- A round of the loop of `write_bytes`, which goes on with the bytes left. -/
theorem writeLoop_step (hfit : Fits c cfg) {fp : FragmentProgress} {mk : Nat}
    (hmk : fp.marker = some mk) {bytes : List UInt8} (hne : bytes ≠ []) (next : Option Nat)
    (w : Writer) :
    let writeSize := min (bytes.length + 8) cfg.maxFragmentSize - 8
    writeLoop c cfg fp bytes next w =
      writeLoop c cfg ⟨some (w.base.tail + Const.headerSize), fp.identifier, 0⟩
        (bytes.drop writeSize) (some (w.base.tail + Const.headerSize + 8 + writeSize))
        (advanced cfg fp.identifier mk bytes w) := by
  intro writeSize
  have hpos : bytes.length > 0 := List.length_pos_iff.mpr hne
  have hle : min (bytes.length + 8) cfg.maxFragmentSize - 8 ≤ bytes.length := by
    have := Nat.min_le_left (bytes.length + 8) cfg.maxFragmentSize
    omega
  rw [writeLoop, if_pos hpos]
  dsimp only
  -- reserve the new fragment, finish the one before
  rw [bind_of_ok (liftBase_ok (Base.prepare_ok
      (checkPrepare_fragment hfit (Nat.min_le_right _ _)) _))]
  dsimp only
  rw [hmk, bind_of_ok (liftBase_ok (Base.finish_some _ _)), modify_bind_apply]
  -- the identifier, then the bytes
  rw [bind_of_ok (liftBase_ok (Base.writeBytes_some _ _ _)),
    bind_of_ok (liftBase_ok (Base.writeBytes_some _ _ _)), modify_bind_apply]
  simp only [Codec.length_le, List.length_take_of_le hle, Nat.sub_self]
  rfl

/-! ## Rounds of the loop -/

/-- Finishing the reservation at `mk` changes none below it. -/
theorem finish_below {rs : List Reservation} {mk : Nat} (h : ∀ r ∈ rs, r.index < mk) :
    rs.map (fun r => if r.index = mk then { r with pending := false } else r) = rs := by
  conv => rhs; rw [← List.map_id rs]
  exact List.map_congr_left fun r hr => if_neg (Nat.ne_of_lt (h r hr))

/-- A round of the loop from a full fragment in progress: that fragment finished with its bytes,
and the new one full and in progress after it. -/
theorem Sending.advance (hfit : Fits c cfg) {w : Writer} {rs : List Reservation} {mk : Nat}
    {cur : List UInt8} (h : Sending w.base rs mk cur.length cur) (id : Nat) (bytes : List UInt8) :
    let piece := Codec.le 8 id ++ bytes.take (min (bytes.length + 8) cfg.maxFragmentSize - 8)
    Sending (advanced cfg id mk bytes w).base (rs ++ [⟨mk, fragment, cur.length, false⟩])
        (w.base.tail + Const.headerSize) piece.length piece ∧
      (advanced cfg id mk bytes w).base.reads (rs ++ [⟨mk, fragment, cur.length, false⟩]) =
        w.base.reads rs ++ [(fragment, cur)] := by
  intro piece
  have hfrag : 8 ≤ min (bytes.length + 8) cfg.maxFragmentSize := by
    have := cfg.header_lt_fragment
    simp only [initialFragmentHeaderSize] at this
    omega
  have hle : min (bytes.length + 8) cfg.maxFragmentSize - 8 ≤ bytes.length := by
    have := Nat.min_le_left (bytes.length + 8) cfg.maxFragmentSize
    omega
  have hlen : piece.length = min (bytes.length + 8) cfg.maxFragmentSize := by
    simp only [piece, List.length_append, Codec.length_le, List.length_take_of_le hle]
    omega
  -- everything before the new fragment lies below the tail, and the fragment at `mk` too
  have htail : mk + cur.length ≤ w.base.tail := h.room
  have hold : ∀ r ∈ rs ++ [⟨mk, fragment, cur.length, false⟩],
      r.index + r.size ≤ w.base.tail + Const.headerSize := by
    intro r hr
    rcases List.mem_append.mp hr with hr | hr
    · have := h.below r hr
      simp only [Const.headerSize]
      omega
    · rw [List.mem_singleton.mp hr]
      simp only [Const.headerSize]
      omega
  have hbuf : ∀ i n, i + n ≤ w.base.tail + Const.headerSize →
      Bytes.read (advanced cfg id mk bytes w).base.buffer i n = Bytes.read w.base.buffer i n := by
    intro i n hin
    simp only [advanced, Ringbuffer.writeBytes_eq]
    rw [Bytes.read_copy_of_disjoint (Or.inl (by omega)),
      Bytes.read_copy_of_disjoint (Or.inl hin)]
  rw [hlen]
  refine ⟨⟨?_, ?_, ?_, ?_, hlen.le, ?_⟩, ?_⟩
  · -- finishing the fragment at `mk` changes no other reservation
    have hnew : w.base.tail + Const.headerSize ≠ mk := by
      simp only [Const.headerSize]
      omega
    simp only [advanced, h.reservations, List.map_append, List.map_cons, List.map_nil]
    rw [finish_below fun r hr => Nat.lt_of_le_of_lt (Nat.le_add_right _ _) (h.below r hr),
      if_pos trivial, if_neg hnew]
  · intro r hr
    rcases List.mem_append.mp hr with hr | hr
    · exact h.finished r hr
    · rw [List.mem_singleton.mp hr]
  · intro r hr
    have := hold r hr
    rcases List.mem_append.mp hr with hr' | hr'
    · have := h.below r hr'
      simp only [Const.headerSize] at *
      omega
    · rw [List.mem_singleton.mp hr']
      simp only [Const.headerSize]
      omega
  · -- the identifier, then the bytes, each where it was copied
    simp only [advanced, Ringbuffer.writeBytes_eq, piece, List.length_append, Codec.length_le]
    rw [Bytes.read_add, Bytes.read_copy_of_disjoint (Or.inl le_rfl),
      Bytes.read_copy_of_length (Codec.length_le _ _), Bytes.read_copy]
  · have hsize := (Ringbuffer.entrySize_bounds
      (Nat.le_trans (Nat.min_le_right (bytes.length + 8) _) hfit.1)).1
    simp only [advanced, Const.headerSize] at hsize ⊢
    omega
  · unfold Base.reads
    rw [List.map_append, List.map_congr_left fun r hr => by
      rw [hbuf r.index r.size (hold r (List.mem_append_left _ hr))]]
    simp only [List.map_cons, List.map_nil]
    rw [hbuf mk cur.length (hold _ (List.mem_append_right _ (List.mem_singleton_self _))),
      h.written]

/-- The loop of `write_bytes` from a full fragment in progress: the bytes go out in fragments, each
the identifier and some of the bytes, none empty. The last fragment stays in progress, full, and
once a fragment has been opened `remainder` is 0. -/
theorem writeLoop_sending (hfit : Fits c cfg) (bytes : List UInt8) (w : Writer)
    (fp : FragmentProgress) (rs : List Reservation) (mk : Nat) (cur : List UInt8)
    (hw : w.fragmentProgress = some fp) (hmk : fp.marker = some mk)
    (h : Sending w.base rs mk cur.length cur) :
    ∃ (w' : Writer) (rs' : List Reservation) (mk' : Nat) (cur' : List UInt8)
      (ps : List (List UInt8)),
      writeLoop c cfg fp bytes (some (mk + cur.length)) w = .ok (some (mk' + cur'.length)) w' ∧
      Sending w'.base rs' mk' cur'.length cur' ∧
      w'.base.reads rs' ++ [(fragment, cur')] =
        w.base.reads rs ++ [(fragment, cur)] ++
          ps.map (fun p => (fragment, Codec.le 8 fp.identifier ++ p)) ∧
      ps.flatten = bytes ∧ (∀ p ∈ ps, p ≠ []) ∧
      w'.fragmentProgress =
        some ⟨some mk', fp.identifier, if bytes = [] then fp.remainder else 0⟩ := by
  by_cases hne : bytes = []
  · -- nothing left: the loop does not run
    subst hne
    refine ⟨w, rs, mk, cur, [], by rw [writeLoop_nil]; rfl, h, by simp, rfl, by simp, ?_⟩
    rw [hw, if_pos rfl, ← hmk]
  · -- a round, then the loop on what is left
    let writeSize := min (bytes.length + 8) cfg.maxFragmentSize - 8
    have hpos : 0 < writeSize := by
      have := cfg.header_lt_fragment
      have := List.length_pos_iff.mpr hne
      simp only [writeSize, initialFragmentHeaderSize] at *
      omega
    obtain ⟨hS, hreads⟩ := Sending.advance hfit h fp.identifier bytes
    obtain ⟨w', rs', mk', cur', ps, hrun, hS', hreads', hflat, hps, hfp⟩ :=
      writeLoop_sending hfit (bytes.drop writeSize) (advanced cfg fp.identifier mk bytes w)
        ⟨some (w.base.tail + Const.headerSize), fp.identifier, 0⟩ _ _ _ rfl rfl hS
    have hnext : w.base.tail + Const.headerSize + 8 + writeSize =
        w.base.tail + Const.headerSize +
          (Codec.le 8 fp.identifier ++ bytes.take writeSize).length := by
      rw [List.length_append, Codec.length_le, List.length_take_of_le (by omega)]
      omega
    refine ⟨w', rs', mk', cur', bytes.take writeSize :: ps, ?_, hS', ?_, ?_, ?_, ?_⟩
    · rw [writeLoop_step hfit hmk hne, hnext]
      exact hrun
    · rw [hreads', hreads]
      simp only [List.map_cons, List.append_assoc, List.cons_append, List.nil_append]
      rfl
    · rw [List.flatten_cons, hflat, List.take_append_drop]
    · intro p hp
      rcases List.mem_cons.mp hp with rfl | hp
      · exact fun hnil => by
          rcases List.take_eq_nil_iff.mp hnil with h0 | h0
          · omega
          · exact hne h0
      · exact hps p hp
    · rw [hfp, if_neg hne]
      split <;> rfl
termination_by bytes.length
decreasing_by
  simp only [List.length_drop]
  have := List.length_pos_iff.mpr hne
  omega

/-! ## Sections longer than the room left -/

/-- After `prepare`, the first fragment is in progress with its header written, after the
reservations made before, which are all finished and below the tail. -/
theorem Sending.of_prepared (hfit : Fits c cfg) {w : Writer}
    (hidle : ∀ r ∈ w.base.reservations, r.pending = false ∧ r.index + r.size ≤ w.base.tail)
    (m : Message) (T : Nat) :
    Sending (prepared cfg w m T).base w.base.reservations (w.base.tail + Const.headerSize)
        cfg.maxFragmentSize (initialFragmentHeader w.base.tail m T) ∧
      (prepared cfg w m T).base.reads w.base.reservations = w.base.reads w.base.reservations := by
  have hlen : (initialFragmentHeader w.base.tail m T).length = initialFragmentHeaderSize := by
    simp [initialFragmentHeader, initialFragmentHeaderSize]
  have hbelow : ∀ r ∈ w.base.reservations, r.index + r.size ≤ w.base.tail + Const.headerSize :=
    fun r hr => Nat.le_trans (hidle r hr).2 (Nat.le_add_right _ _)
  refine ⟨⟨rfl, fun r hr => (hidle r hr).1, fun r hr => ?_, ?_, ?_, ?_⟩,
    Base.reads_writeBytes hbelow _⟩
  · have := (hidle r hr).2
    simp only [Const.headerSize]
    omega
  · dsimp only [prepared]
    rw [Ringbuffer.writeBytes_eq]
    exact Bytes.read_copy _ _
  · rw [hlen]
    exact cfg.header_lt_fragment.le
  · have hsize := (Ringbuffer.entrySize_bounds hfit.1).1
    dsimp only [prepared]
    simp only [Const.headerSize] at hsize ⊢
    omega

/-- `write_bytes` once a fragment has been opened: `remainder` is 0, so all the bytes go to the
loop. -/
theorem writeBytes_opened {w : Writer} {fp : FragmentProgress} (hw : w.fragmentProgress = some fp)
    (h0 : fp.remainder = 0) (i : Nat) (bytes : List UInt8) :
    writeBytes c cfg (some i) bytes w = writeLoop c cfg fp bytes (some i) w := by
  rw [writeBytes_fragmented hw, h0, Nat.min_zero, List.drop_zero, List.take_zero,
    Base.writeBytes_nil, Nat.add_zero]

/-- The sections after a fragment has been opened each go out through the loop. -/
theorem foldlM_writeBytes_sending (hfit : Fits c cfg) (id : Nat) :
    ∀ (cs : List (List UInt8)) (w : Writer) (rs : List Reservation) (mk : Nat)
      (cur : List UInt8), w.fragmentProgress = some ⟨some mk, id, 0⟩ →
      Sending w.base rs mk cur.length cur →
      ∃ (w' : Writer) (rs' : List Reservation) (mk' : Nat) (cur' : List UInt8)
        (ps : List (List UInt8)),
        cs.foldlM (fun next s => writeBytes c cfg next s) (some (mk + cur.length)) w =
          .ok (some (mk' + cur'.length)) w' ∧
        Sending w'.base rs' mk' cur'.length cur' ∧
        w'.base.reads rs' ++ [(fragment, cur')] =
          w.base.reads rs ++ [(fragment, cur)] ++
            ps.map (fun p => (fragment, Codec.le 8 id ++ p)) ∧
        ps.flatten = cs.flatten ∧ (∀ p ∈ ps, p ≠ []) ∧
        w'.fragmentProgress = some ⟨some mk', id, 0⟩
  | [], w, rs, i, cur, hw, h => ⟨w, rs, i, cur, [], rfl, h, by simp, rfl, by simp, hw⟩
  | s :: cs, w, rs, i, cur, hw, h => by
      obtain ⟨w₁, rs₁, mk₁, cur₁, ps₁, hrun₁, hS₁, hreads₁, hflat₁, hps₁, hfp₁⟩ :=
        writeLoop_sending hfit s w _ rs i cur hw rfl h
      have hfp₁' : w₁.fragmentProgress = some ⟨some mk₁, id, 0⟩ := by
        rw [hfp₁]
        split <;> rfl
      obtain ⟨w₂, rs₂, mk₂, cur₂, ps₂, hrun₂, hS₂, hreads₂, hflat₂, hps₂, hfp₂⟩ :=
        foldlM_writeBytes_sending hfit id cs w₁ rs₁ mk₁ cur₁ hfp₁' hS₁
      refine ⟨w₂, rs₂, mk₂, cur₂, ps₁ ++ ps₂, ?_, hS₂, ?_, ?_, ?_, hfp₂⟩
      · have hfirst : writeBytes c cfg (some (i + cur.length)) s w =
            .ok (some (mk₁ + cur₁.length)) w₁ := by
          rw [writeBytes_opened hw rfl]
          exact hrun₁
        rw [List.foldlM_cons, bind_of_ok hfirst]
        exact hrun₂
      · rw [hreads₂, hreads₁, List.map_append, List.append_assoc]
      · rw [List.flatten_append, hflat₁, hflat₂, List.flatten_cons]
      · intro p hp
        rcases List.mem_append.mp hp with hp | hp
        · exact hps₁ p hp
        · exact hps₂ p hp

/-- `finish` once no room is left: the fragment in progress finished, and the progress cleared.
The reader then gets every reservation. -/
theorem finish_sending {w : Writer} {rs : List Reservation} {mk size id : Nat}
    {cur : List UInt8} (hw : w.fragmentProgress = some ⟨some mk, id, 0⟩)
    (h : Sending w.base rs mk size cur) (marker : Option Nat) :
    ∃ w', finish marker w = .ok () w' ∧ w'.fragmentProgress = none ∧
      Base.read w'.base = w.base.reads rs ++ [(fragment, Bytes.read w.base.buffer mk size)] := by
  let b : Base := { w.base with reservations := rs ++ [⟨mk, fragment, size, false⟩] }
  have hres : w.base.reservations.map
      (fun r => if r.index = mk then { r with pending := false } else r) = b.reservations := by
    rw [h.reservations, List.map_append,
      finish_below fun r hr => Nat.lt_of_le_of_lt (Nat.le_add_right _ _) (h.below r hr)]
    simp only [List.map_cons, List.map_nil, if_pos trivial]
    rfl
  refine ⟨{ base := b, fragmentProgress := none }, ?_, rfl, ?_⟩
  · unfold finish
    rw [get_bind_apply, hw]
    dsimp only
    rw [if_neg (by simp), bind_of_ok (liftBase_ok (Base.finish_some _ _)), hres]
    rfl
  · have hfin : ∀ r ∈ b.reservations, r.pending = false := by
      intro r hr
      rcases List.mem_append.mp hr with hr | hr
      · exact h.finished r hr
      · rw [List.mem_singleton.mp hr]
    rw [Base.read_of_finished hfin]
    simp only [Base.reads, b, List.map_append, List.map_cons, List.map_nil]

/-- The first section, longer than the room the first fragment has after its header: it fills
the first fragment, and the loop sends the rest of it. The reader would get what it got before,
then the first fragment, then those of the loop. -/
theorem writeBytes_first (hfit : Fits c cfg) {w : Writer}
    (hidle : ∀ r ∈ w.base.reservations, r.pending = false ∧ r.index + r.size ≤ w.base.tail)
    (m : Message) (T : Nat) {s : List UInt8}
    (hs : cfg.maxFragmentSize - initialFragmentHeaderSize < s.length) :
    let room := cfg.maxFragmentSize - initialFragmentHeaderSize
    let header := initialFragmentHeader w.base.tail m T
    ∃ (w' : Writer) (rs' : List Reservation) (mk' : Nat) (cur' : List UInt8)
      (ps : List (List UInt8)),
      writeBytes c cfg (some (w.base.tail + Const.headerSize + header.length)) s
          (prepared cfg w m T) = .ok (some (mk' + cur'.length)) w' ∧
      Sending w'.base rs' mk' cur'.length cur' ∧
      w'.base.reads rs' ++ [(fragment, cur')] =
        Base.read w.base ++ [(fragment, header ++ s.take room)] ++
          ps.map (fun p => (fragment, Codec.le 8 w.base.tail ++ p)) ∧
      s.take room ++ ps.flatten = s ∧ (∀ p ∈ ps, p ≠ []) ∧
      w'.fragmentProgress = some ⟨some mk', w.base.tail, 0⟩ := by
  intro room header
  let mk := w.base.tail + Const.headerSize
  have hroom : header.length + room = cfg.maxFragmentSize := by
    have := cfg.header_lt_fragment
    simp only [header, room, initialFragmentHeader, List.length_append, Codec.length_le,
      initialFragmentHeaderSize] at *
    omega
  -- the bytes that fit complete the first fragment
  obtain ⟨hS₀, hreads₀⟩ := Sending.of_prepared hfit hidle m T
  obtain ⟨hS₁, hreads₁⟩ := hS₀.write (s.take room)
    (by rw [List.length_take_of_le hs.le, hroom])
  have hfull : (header ++ s.take room).length = cfg.maxFragmentSize := by
    rw [List.length_append, List.length_take_of_le hs.le, hroom]
  rw [← hfull] at hS₁
  have hrest : s.drop room ≠ [] :=
    List.ne_nil_of_length_pos (by rw [List.length_drop]; omega)
  -- the loop sends the rest
  let w₁ : Writer := { prepared cfg w m T with
    base := { (prepared cfg w m T).base with
      buffer := (Ringbuffer.writeBytes (prepared cfg w m T).base.buffer (mk + header.length)
        (s.take room)).1 } }
  obtain ⟨w₂, rs₂, mk₂, cur₂, ps, hrun, hS₂, hreads₂, hflat, hps, hfp⟩ :=
    writeLoop_sending hfit (s.drop room) w₁ ⟨some mk, w.base.tail, room⟩ w.base.reservations mk
      (header ++ s.take room) rfl rfl hS₁
  refine ⟨w₂, rs₂, mk₂, cur₂, ps, ?_, hS₂, ?_, by rw [hflat, List.take_append_drop], hps, ?_⟩
  · rw [writeBytes_fragmented rfl, Nat.min_eq_right hs.le]
    rw [← hrun, List.length_append, List.length_take_of_le hs.le, Nat.add_assoc]
  · rw [hreads₂, hreads₁.trans hreads₀, Base.read_of_finished fun r hr => (hidle r hr).1]
  · rw [hfp, if_neg hrest]

/-- An oversized message written through `write_multiple`, with a first section longer than the
room the first fragment has after its header: the reader gets, after what it got before, the
fragments of the message, under the identifier of the first reservation. -/
theorem writeMultiple_fragments (hfit : Fits c cfg) {w : Writer} (hw : w.fragmentProgress = none)
    (hidle : ∀ r ∈ w.base.reservations, r.pending = false ∧ r.index + r.size ≤ w.base.tail)
    (m : Message) (s : List UInt8) (ss : List (List UInt8))
    (hT : cfg.maxFragmentSize < Ringbuffer.totalSize (s :: ss))
    (ht : Ringbuffer.totalSize (s :: ss) ≤ cfg.maxTotalSize)
    (hs : cfg.maxFragmentSize - initialFragmentHeaderSize < s.length) :
    ∃ w' frags, writeMultiple c cfg m true (s :: ss) w = .ok true w' ∧
      w'.fragmentProgress = none ∧
      Base.read w'.base = Base.read w.base ++ frags.map (fun d => (fragment, d)) ∧
      Fragments w.base.tail m (s :: ss).flatten frags := by
  let T := Ringbuffer.totalSize (s :: ss)
  let room := cfg.maxFragmentSize - initialFragmentHeaderSize
  let header := initialFragmentHeader w.base.tail m T
  have hlen : header.length = initialFragmentHeaderSize := by
    simp [header, initialFragmentHeader, initialFragmentHeaderSize]
  -- the first section, then the others, then `finish`
  obtain ⟨w₁, rs₁, mk₁, cur₁, ps₁, hrun₁, hS₁, hreads₁, hflat₁, hps₁, hfp₁⟩ :=
    writeBytes_first hfit hidle m T hs
  obtain ⟨w₂, rs₂, mk₂, cur₂, ps₂, hrun₂, hS₂, hreads₂, hflat₂, hps₂, hfp₂⟩ :=
    foldlM_writeBytes_sending hfit w.base.tail ss w₁ rs₁ mk₁ cur₁ hfp₁ hS₁
  obtain ⟨w₃, hrun₃, hfp₃, hread₃⟩ :=
    finish_sending hfp₂ hS₂ (some (w.base.tail + Const.headerSize + header.length))
  refine ⟨w₃, (header ++ s.take room) :: (ps₁ ++ ps₂).map (Codec.le 8 w.base.tail ++ ·),
    ?_, hfp₃, ?_, ⟨s.take room, ps₁ ++ ps₂, ?_, ?_, ?_⟩⟩
  · have hsecs : (s :: ss).foldlM (fun next s => writeBytes c cfg next s)
        (some (w.base.tail + Const.headerSize + header.length)) (prepared cfg w m T) =
          .ok (some (mk₂ + cur₂.length)) w₂ := by
      rw [List.foldlM_cons, bind_of_ok hrun₁]
      exact hrun₂
    unfold writeMultiple
    rw [bind_of_ok (prepare_oversized hfit hw hT ht)]
    simp only [Option.isNone_some, Bool.false_eq_true, if_false]
    rw [← hlen, bind_of_ok hsecs, bind_of_ok hrun₃]
    rfl
  · -- what the reader gets: what it got before, then the fragments in order
    rw [hread₃, hS₂.written, hreads₂, hreads₁]
    simp only [List.map_cons, List.map_map, List.map_append, List.append_assoc,
      Function.comp_def, List.cons_append, List.nil_append]
    rfl
  · rw [← totalSize_eq]
  · rw [List.flatten_append, ← List.append_assoc, hflat₁, hflat₂, List.flatten_cons]
  · intro q hq
    rcases List.mem_append.mp hq with hq | hq
    · exact hps₁ q hq
    · exact hps₂ q hq

/-! ## Sections that fit -/

/-- `write_bytes` of bytes that fit in the room `remainder` counts: they go where the marker
stands and nothing else changes. In particular `remainder` does not go down. -/
theorem writeBytes_fits {w : Writer} {fp : FragmentProgress} (hw : w.fragmentProgress = some fp)
    (i : Nat) {bytes : List UInt8} (hb : bytes.length ≤ fp.remainder) :
    writeBytes c cfg (some i) bytes w =
      .ok (some (i + bytes.length))
        { w with base := { w.base with buffer := (Ringbuffer.writeBytes w.base.buffer i bytes).1 } } := by
  rw [writeBytes_fragmented hw, Nat.min_eq_left hb, List.drop_length, List.take_length,
    writeLoop_nil]
  rfl

/-- Sections that each fit in the room `remainder` counts leave the progress and the
reservations as they were. -/
theorem foldlM_writeBytes_fits {fp : FragmentProgress} :
    ∀ (cs : List (List UInt8)) (w : Writer) (i : Nat), w.fragmentProgress = some fp →
      (∀ s ∈ cs, s.length ≤ fp.remainder) →
      ∃ w' i', cs.foldlM (fun next s => writeBytes c cfg next s) (some i) w = .ok (some i') w' ∧
        w'.fragmentProgress = some fp ∧ w'.base.reservations = w.base.reservations
  | [], w, i, hw, _ => ⟨w, i, rfl, hw, rfl⟩
  | s :: cs, w, i, hw, hcs => by
      rw [List.foldlM_cons, bind_of_ok (writeBytes_fits hw i (hcs s (List.mem_cons_self ..)))]
      exact foldlM_writeBytes_fits cs _ _ hw fun s' hs' => hcs s' (List.mem_cons_of_mem s hs')

/-- `finish` with room left in the fragment in progress throws, and changes nothing. -/
theorem finish_of_remainder {w : Writer} {fp : FragmentProgress}
    (hw : w.fragmentProgress = some fp) (hr : fp.remainder ≠ 0) (marker : Option Nat) :
    finish marker w = .error ("Attempting to finish an oversized message before the entire " ++
      "requested payload has been written") w := by
  unfold finish
  rw [get_bind_apply, hw]
  dsimp only
  rw [if_pos hr]
  rfl

/-- A message longer than a fragment, written in sections that each fit in the room the first
fragment has after its header: `write_bytes` never opens a second fragment, `remainder` stays at
that room, and `finish` throws. The first fragment stays pending, so the reader never gets past
it. -/
theorem finish_throws_when_sections_fit (hfit : Fits c cfg) {w : Writer}
    (hw : w.fragmentProgress = none) (m : Message) (cs : List (List UInt8))
    (hT : cfg.maxFragmentSize < Ringbuffer.totalSize cs)
    (ht : Ringbuffer.totalSize cs ≤ cfg.maxTotalSize)
    (hcs : ∀ s ∈ cs, s.length ≤ cfg.maxFragmentSize - initialFragmentHeaderSize) :
    ∃ w', writeMultiple c cfg m true cs w =
        .error ("Attempting to finish an oversized message before the entire " ++
          "requested payload has been written") w' ∧
      w'.base.reservations = w.base.reservations ++
        [⟨w.base.tail + Const.headerSize, fragment, cfg.maxFragmentSize, true⟩] := by
  have hroom : cfg.maxFragmentSize - initialFragmentHeaderSize ≠ 0 := by
    have := cfg.header_lt_fragment
    omega
  obtain ⟨w', i', hfold, hfp, hres⟩ :=
    foldlM_writeBytes_fits (c := c) cs (prepared cfg w m (Ringbuffer.totalSize cs)) _ rfl hcs
  refine ⟨w', ?_, hres⟩
  unfold writeMultiple
  rw [bind_of_ok (prepare_oversized hfit hw hT ht)]
  simp only [Option.isNone_some, Bool.false_eq_true, if_false]
  rw [bind_of_ok hfold, bind_of_error (finish_of_remainder hfp hroom _)]

end Writer

/-- A buffer of 256 bytes. -/
def size256 : Const := ⟨256, 8, rfl⟩

/-- Fragments of at most 64 bytes, messages of at most 1024. -/
def smallFragments : WriterConfig := ⟨64, 1024, by decide, by decide, by decide⟩

/-- A writer on an empty buffer, with nothing prepared. -/
def idleWriter : Writer := ⟨⟨fun _ => 0, 0, []⟩, none⟩

/-- A message of 70 bytes in two sections, of 44 and 26 bytes, each within the 44 bytes the first
fragment has after its header. -/
theorem finish_throws_when_sections_fit_split :
    ∃ w', Writer.writeMultiple size256 smallFragments 5 true
        [List.replicate 44 0, List.replicate 26 0] idleWriter =
        .error ("Attempting to finish an oversized message before the entire " ++
          "requested payload has been written") w' ∧
      w'.base.reservations = [⟨8, fragment, 64, true⟩] :=
  Writer.finish_throws_when_sections_fit (by decide) rfl 5 _ (by decide) (by decide) (by decide)

end Ccf.Oversized
