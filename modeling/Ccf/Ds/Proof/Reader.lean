import Ccf.Ds.Proof.Writers

/-!
# The reader takes the complete messages at the front

`Reader::read` walks the records from `head` to the end of the buffer. It passes a padding whose
header is written and a finished message, handing the message on, and stops at an empty header,
a pending one, the end of the buffer or the limit. Under the invariant the records it passes are
exactly a run of readable records at the front (`Inv.readLoop_spec`), so the messages it hands
on are the complete slots at the front of the channel, in order, with the bytes their writers
wrote; zeroing them and moving `head` leaves the invariant over the records behind
(`Inv.consume`, `Inv.read_step`).
-/

namespace Ccf.Ringbuffer

open Bytes Circular

variable {W : Type} {c : Const}

/-! ## The rounds of the loop -/

section Round

variable {buffer : Nat → UInt8} {hdIndex block limit fuel advance count : Nat}

theorem readLoop_stop (h : ¬ (advance < block ∧ count < limit)) :
    readLoop buffer hdIndex block limit (fuel + 1) advance count = some ([], advance) := by
  rw [readLoop, if_neg h]

/-- An empty header ends the loop. -/
theorem readLoop_empty (h : advance < block ∧ count < limit)
    (hh : read64 buffer (hdIndex + advance) = 0) :
    readLoop buffer hdIndex block limit (fuel + 1) advance count = some ([], advance) := by
  rw [readLoop, if_pos h]
  dsimp only
  rw [hh, length_zero, Nat.zero_and, if_neg (by decide), message_zero, if_pos rfl]

/-- A pending header ends the loop. -/
theorem readLoop_pending {m : Message} {size : Nat} (h : advance < block ∧ count < limit)
    (hh : read64 buffer (hdIndex + advance) = makeHeader m size true) (hs : size < 2 ^ 31) :
    readLoop buffer hdIndex block limit (fuel + 1) advance count = some ([], advance) := by
  rw [readLoop, if_pos h]
  dsimp only
  rw [hh, length_makeHeader m hs, if_pos ((lengthField_pending hs true).mpr rfl)]

/-- A padding is skipped. -/
theorem readLoop_pad {len : Nat} (h : advance < block ∧ count < limit)
    (hh : read64 buffer (hdIndex + advance) = makeHeader Const.msgPad len false)
    (hlen : len < 2 ^ 31) :
    readLoop buffer hdIndex block limit (fuel + 1) advance count =
      readLoop buffer hdIndex block limit fuel (advance + len) count := by
  rw [readLoop, if_pos h]
  dsimp only
  rw [hh, length_makeHeader _ hlen, lengthField_false, if_neg (not_pending hlen),
    message_makeHeader _ hlen, if_neg (by decide), if_pos rfl]

/-- A finished message is handed on, with the bytes after its header. -/
theorem readLoop_msg {m : Message} {size : Nat} (h : advance < block ∧ count < limit)
    (hh : read64 buffer (hdIndex + advance) = makeHeader m size false) (hs : size < 2 ^ 31)
    (hmin : Const.msgMin ≤ m) (hmax : m ≤ Const.msgMax) :
    readLoop buffer hdIndex block limit (fuel + 1) advance count =
      (readLoop buffer hdIndex block limit fuel (advance + Const.entrySize size) (count + 1)).map
        fun (out, next) =>
          ((m, read buffer (hdIndex + advance + Const.headerSize) size) :: out, next) := by
  -- the type is neither of the reserved ones
  have hnone : m ≠ Const.msgNone := by
    rintro rfl
    exact absurd hmin (by decide)
  have hpad : m ≠ Const.msgPad := by
    rintro rfl
    exact absurd hmax (by decide)
  rw [readLoop, if_pos h]
  dsimp only
  rw [hh, length_makeHeader _ hs, lengthField_false, if_neg (not_pending hs),
    message_makeHeader _ hs, if_neg hnone, if_neg hpad]

end Round

/-! ## The loop over the records -/

/-- A record the reader passes: a padding whose header is written, or a finished message. -/
def Readable (s : Ring W) : Entry W → Prop
  | .pad w _ => (s.writers w).Placed
  | .msg w _ => (s.writers w).value.isSome

-- Made here once: the equation lemmas that the proofs below unfold.
section
attribute [local simp] Readable
end

/-- A padding's header is empty until its writer writes it. -/
theorem PadAt.header {b : Nat → UInt8} {index len : Nat} {pc : WriterPc}
    (h : PadAt b index len pc) :
    ¬ pc.Placed ∧ read64 b index = 0 ∨
      pc.Placed ∧ read64 b index = makeHeader Const.msgPad len false := by
  cases pc with
  | padding => exact .inl ⟨id, h.2.2⟩
  | reserved | writing | finished => exact .inr ⟨trivial, h⟩
  | start | failed => exact h.elim

/-- A message's header is empty until its writer writes it, pending until it finishes, and
then the finished header before the bytes written. -/
theorem MsgAt.header {b : Nat → UInt8} {index len : Nat} {pc : WriterPc}
    (h : MsgAt b index len pc) :
    pc.value = none ∧ read64 b index = 0 ∨
      pc.value = none ∧ (∃ m size, size < 2 ^ 31 ∧ read64 b index = makeHeader m size true) ∨
      ∃ m sections marker, pc = .finished m sections marker ∧
        MsgAt b index len (.finished m sections marker) := by
  cases pc with
  | padding => exact .inl ⟨rfl, h.2.2⟩
  | reserved => exact .inl ⟨rfl, h.2.2⟩
  | writing m sections => exact .inr (.inl ⟨rfl, m, totalSize sections, h.2.1.size_lt, h.2.2.1⟩)
  | finished m sections marker => exact .inr (.inr ⟨m, sections, marker, rfl, h⟩)
  | start | failed => exact h.elim

/-- **The loop of `Reader::read`.** From a record boundary in the lap of `head`, with enough
fuel, the loop passes a run of readable records at the front, hands on their messages in
order, and stops where the run ends: it passes none only at a record it cannot pass, at the
end of the buffer or at the limit. -/
theorem Inv.readLoop_spec {s : Ring W} {es : List (Entry W)} (hinv : Inv c s es)
    (h8 : 8 ≤ c.size) (limit : Nat) :
    ∀ (todo : List (Entry W)) (fuel advance count : Nat),
      Laid Entry.len (EntryAt c s) (s.head + advance) todo →
      s.tail = s.head + advance + span Entry.len todo →
      s.head % c.size + advance ≤ c.size → advance % 8 = 0 →
      c.size - s.head % c.size - advance < fuel →
      ∃ pre rest out, todo = pre ++ rest ∧ (∀ e ∈ pre, Readable s e) ∧
        (slots s pre).map Prod.snd = out.map some ∧
        s.head % c.size + advance + span Entry.len pre ≤ c.size ∧
        readLoop s.buffer (s.head % c.size) (c.size - s.head % c.size) limit fuel advance count =
          some (out, advance + span Entry.len pre) ∧
        (pre = [] → (∀ e, todo.head? = some e → ¬ Readable s e) ∨
          ¬ (advance < c.size - s.head % c.size ∧ count < limit)) := by
  have hsize8 := c.size_mod_eight h8
  have hhead8 : s.head % c.size % 8 = 0 := by
    rw [Nat.mod_mod_of_dvd _ (Nat.dvd_of_mod_eq_zero hsize8)]
    exact hinv.aligned
  intro todo
  -- induction on the records still to pass, each round passing one
  induction todo with
  | nil =>
      intro fuel advance count _ ht hlap hal hfuel
      rw [span_nil, Nat.add_zero] at ht
      obtain ⟨fuel, rfl⟩ : ∃ f, fuel = f + 1 := ⟨fuel - 1, by omega⟩
      refine ⟨[], [], [], rfl, by simp, rfl, by simpa using hlap, ?_, fun _ => .inl (by simp)⟩
      by_cases hgo : advance < c.size - s.head % c.size ∧ count < limit
      · -- the tail: the header there is free
        have hidx : (s.head + advance) % c.size = s.head % c.size + advance :=
          mod_add_of_lt (by omega)
        have hfree := hinv.read64_free (q := s.head + advance) (by omega)
          (by unfold Const.headerSize; omega) (by unfold Const.headerSize; omega)
        rw [hidx] at hfree
        exact readLoop_empty hgo hfree
      · exact readLoop_stop hgo
  | cons e todo ih =>
      intro fuel advance count hl ht hlap hal hfuel
      obtain ⟨fuel, rfl⟩ : ∃ f, fuel = f + 1 := ⟨fuel - 1, by omega⟩
      -- the loop stops here: nothing passed
      have hstop : (¬ Readable s e ∨ ¬ (advance < c.size - s.head % c.size ∧ count < limit)) →
          readLoop s.buffer (s.head % c.size) (c.size - s.head % c.size) limit (fuel + 1)
            advance count = some ([], advance) →
          ∃ pre rest out, e :: todo = pre ++ rest ∧ (∀ e ∈ pre, Readable s e) ∧
            (slots s pre).map Prod.snd = out.map some ∧
            s.head % c.size + advance + span Entry.len pre ≤ c.size ∧
            readLoop s.buffer (s.head % c.size) (c.size - s.head % c.size) limit (fuel + 1)
              advance count = some (out, advance + span Entry.len pre) ∧
            (pre = [] → (∀ e', (e :: todo).head? = some e' → ¬ Readable s e') ∨
              ¬ (advance < c.size - s.head % c.size ∧ count < limit)) := by
        intro hwhy h
        refine ⟨[], e :: todo, [], rfl, by simp, rfl, by simpa using hlap, h, fun _ => ?_⟩
        rcases hwhy with hno | hgo
        · exact .inl fun e' he' => by cases he'; exact hno
        · exact .inr hgo
      by_cases hgo : advance < c.size - s.head % c.size ∧ count < limit
      swap
      · exact hstop (.inr hgo) (readLoop_stop hgo)
      obtain ⟨hat, hrest⟩ := hl
      have hidx : (s.head + advance) % c.size = s.head % c.size + advance :=
        mod_add_of_lt (by omega)
      have hbounds := hat.len_bounds
      unfold Const.headerSize at hbounds
      cases e with
      | pad w len =>
          obtain ⟨hend, hpos, hlt, -, hpad⟩ := hat
          rw [hidx] at hend hpad
          rcases hpad.header with ⟨hno, hzero⟩ | ⟨hplaced, hh⟩
          · exact hstop (.inl hno) (readLoop_empty hgo hzero)
          -- a written padding: skip it and go on
          simp only [span_cons, Entry.len] at hbounds hrest ht
          obtain ⟨pre, rest, out, rfl, hread, hslots, hend', hloop, -⟩ :=
            ih fuel (advance + len) count
              (by rw [← Nat.add_assoc]; exact hrest) (by omega) (by omega) (by omega) (by omega)
          refine ⟨.pad w len :: pre, rest, out, rfl, ?_, hslots, by simp [Entry.len]; omega, ?_,
            fun h => absurd h (List.cons_ne_nil _ _)⟩
          · intro e he
            rcases List.mem_cons.mp he with rfl | he
            · exact hplaced
            · exact hread e he
          · rw [readLoop_pad hgo hh hlt, hloop, span_cons, Entry.len, Nat.add_assoc]
      | msg w len =>
          obtain ⟨hend, -, hmsg⟩ := hat
          rw [hidx] at hend hmsg
          rcases hmsg.header with ⟨hnone, hzero⟩ | ⟨hnone, m, size, hs, hh⟩ |
              ⟨m, sections, marker, hw, hfin⟩
          · exact hstop (.inl (by simp [Readable, hnone])) (readLoop_empty hgo hzero)
          · exact hstop (.inl (by simp [Readable, hnone])) (readLoop_pending hgo hh hs)
          -- a finished message: hand it on and go on
          obtain ⟨hmk, hprep, hh, hpay⟩ := hfin
          simp only [span_cons, Entry.len] at hbounds hrest ht
          obtain ⟨pre, rest, out, rfl, hread, hslots, hend', hloop, -⟩ :=
            ih fuel (advance + len) (count + 1)
              (by rw [← Nat.add_assoc]; exact hrest) (by omega) (by omega) (by omega) (by omega)
          refine ⟨.msg w len :: pre, rest, (m, sections.flatten) :: out, rfl, ?_, ?_,
            by simp [Entry.len]; omega, ?_, fun h => absurd h (List.cons_ne_nil _ _)⟩
          · intro e he
            rcases List.mem_cons.mp he with rfl | he
            · show (s.writers w).value.isSome
              rw [hw]
              rfl
            · exact hread e he
          · show (w, (s.writers w).value).2 :: (slots s pre).map Prod.snd = _
            rw [hw, hslots]
            rfl
          · rw [readLoop_msg hgo hh hprep.size_lt hprep.min hprep.max, ← hprep.len, hloop, ← hmk, hpay,
              span_cons, Entry.len, Nat.add_assoc]
            rfl

/-! ## Zeroing what was read -/

/-- A record that the reader cannot pass stays when the records before it are read. -/
theorem mem_rest {s : Ring W} {pre rest : List (Entry W)} {e : Entry W}
    (hread : ∀ e ∈ pre, Readable s e) (he : e ∈ pre ++ rest) (hno : ¬ Readable s e) : e ∈ rest := by
  rcases List.mem_append.mp he with he | he
  · exact absurd (hread e he) hno
  · exact he

/-- **Zeroing what was read.** Once the reader has passed readable records at the front, inside
the lap of `head`, zeroing their bytes and moving `head` past them leaves the invariant over the
records behind them. -/
theorem Inv.consume {s : Ring W} {pre rest : List (Entry W)} (hinv : Inv c s (pre ++ rest))
    (hread : ∀ e ∈ pre, Readable s e) (hlap : s.head % c.size + span Entry.len pre ≤ c.size) :
    Inv c { s with
      buffer := fill s.buffer (s.head % c.size) (span Entry.len pre) 0
      head := s.head + span Entry.len pre } rest := by
  obtain ⟨hlpre, hlrest⟩ := laid_append.mp hinv.laid
  have htl := hinv.tail
  have hwin := hinv.window
  rw [span_append] at htl
  -- the bytes zeroed are those of the records read
  have hfill : ∀ j, j < s.head % c.size ∨ s.head % c.size + span Entry.len pre ≤ j →
      fill s.buffer (s.head % c.size) (span Entry.len pre) 0 j = s.buffer j :=
    fun j hj => fill_of_not_mem hj
  refine ⟨?_, by dsimp only; omega, by dsimp only; omega, ?_, ?_, by dsimp only; have := hinv.cache; omega,
    ?_, ?_, ?_⟩
  · dsimp only
    exact hlrest.imp fun q e _ hq hqe hat => hat.congr rfl
      (agree_outside hfill (a := s.head) le_rfl (by omega) hlap (by omega) (by omega) hat.lap
        (.inr hq))
  · have := span_aligned hlpre
    have := hinv.aligned
    dsimp only
    omega
  · -- a free byte past the old window has the index of a byte read
    intro q hq hq'
    dsimp only at hq hq' ⊢
    by_cases hin : s.head % c.size ≤ q % c.size ∧ q % c.size < s.head % c.size + span Entry.len pre
    · exact fill_of_mem hin
    rw [hfill _ (by omega)]
    apply hinv.free q hq
    by_contra hge
    have hmod : q % c.size = s.head % c.size + (q - c.size - s.head) := by
      rw [Nat.mod_eq_sub_mod (by omega), ← mod_add_of_lt (by omega)]
      congr 1
      omega
    omega
  · exact hinv.pads.sublist ((List.sublist_append_right pre rest).filterMap _)
  · exact hinv.msgs.sublist ((List.sublist_append_right pre rest).filterMap _)
  · -- a writer still to write has its records behind those read
    intro w
    have hcov := hinv.covered w
    dsimp only
    cases hw : s.writers w with
    | padding =>
        rw [hw] at hcov
        obtain ⟨⟨len, hp⟩, ⟨len', hm⟩⟩ := hcov
        refine ⟨⟨len, mem_rest hread hp ?_⟩, ⟨len', mem_rest hread hm ?_⟩⟩
        · simp only [Readable, hw, WriterPc.Placed, not_false_eq_true]
        · simp [Readable, hw, WriterPc.value]
    | reserved =>
        rw [hw] at hcov
        obtain ⟨len, hm⟩ := hcov
        exact ⟨len, mem_rest hread hm (by simp [Readable, hw, WriterPc.value])⟩
    | writing =>
        rw [hw] at hcov
        obtain ⟨len, hm⟩ := hcov
        exact ⟨len, mem_rest hread hm (by simp [Readable, hw, WriterPc.value])⟩
    | start | finished | failed => trivial

/-- Records the reader can pass are at least a header long, so passing none moves nothing. -/
theorem span_eq_zero {s : Ring W} {p : Nat} {pre : List (Entry W)}
    (hl : Laid Entry.len (EntryAt c s) p pre) (h : span Entry.len pre = 0) : pre = [] := by
  cases pre with
  | nil => rfl
  | cons e pre =>
      have := hl.1.len_bounds.2
      unfold Const.headerSize at this
      simp at h
      omega

/-- What `Reader::read` does under the invariant: it passes a run of readable records at the
front, inside the lap of `head`, hands on their messages, zeroes their bytes and moves `head`
past them. It passes none only at a record it cannot pass, or with a limit of 0. -/
theorem Inv.read_eq {s : Ring W} {es : List (Entry W)} (hinv : Inv c s es) (h8 : 8 ≤ c.size)
    (limit : Nat) :
    ∃ pre rest out, es = pre ++ rest ∧ (∀ e ∈ pre, Readable s e) ∧
      (slots s pre).map Prod.snd = out.map some ∧
      s.head % c.size + span Entry.len pre ≤ c.size ∧
      s.read c limit = some (out, if span Entry.len pre > 0 then
        { s with
          buffer := fill s.buffer (s.head % c.size) (span Entry.len pre) 0
          head := s.head + span Entry.len pre } else s) ∧
      (pre = [] → (∀ e, es.head? = some e → ¬ Readable s e) ∨ limit = 0) := by
  have hpos : 0 < c.size := by omega
  have hlt := Nat.mod_lt s.head hpos
  -- the loop from `head`, with the fuel `read` gives it
  obtain ⟨pre, rest, out, rfl, hread, hslots, hlap, hloop, hwhy⟩ := hinv.readLoop_spec h8 limit es
    (c.size - s.head % c.size + 1) 0 0 (by rw [Nat.add_zero]; exact hinv.laid)
    (by rw [Nat.add_zero]; exact hinv.tail) (by omega) rfl (by omega)
  refine ⟨pre, rest, out, rfl, hread, hslots, by simpa using hlap, ?_, fun hnil => ?_⟩
  · unfold Ring.read
    dsimp only
    rw [Const.and_mask, hloop, Nat.zero_add]
    rfl
  · rcases hwhy hnil with hno | hstop
    · exact .inl hno
    · exact .inr (by omega)

/-- **`Reader::read`.** The messages the reader hands on are the complete slots at the front of
the channel, in order, and the invariant holds of the records left. -/
theorem Inv.read_step {s s' : Ring W} {es : List (Entry W)} (hinv : Inv c s es) (h8 : 8 ≤ c.size)
    {limit : Nat} {out : List (Message × List UInt8)} (hr : s.read c limit = some (out, s')) :
    ∃ pre rest, es = pre ++ rest ∧ Inv c s' rest ∧
      Fifo.Step (slots s es) (.take out) (slots s' rest) ∧ s'.writers = s.writers ∧
      (pre = [] → (∀ e, es.head? = some e → ¬ Readable s e) ∨ limit = 0) := by
  obtain ⟨pre, rest, out', rfl, hread, hslots, hlap, hr', hwhy⟩ := hinv.read_eq h8 limit
  rw [hr'] at hr
  obtain ⟨rfl, rfl⟩ := Prod.mk.inj (Option.some.inj hr)
  -- the reader leaves every writer where it was
  have hwriters : (if span Entry.len pre > 0 then
      { s with
        buffer := fill s.buffer (s.head % c.size) (span Entry.len pre) 0
        head := s.head + span Entry.len pre } else s).writers = s.writers := by
    split <;> rfl
  refine ⟨pre, rest, rfl, ?_, ?_, hwriters, hwhy⟩
  · split
    · exact hinv.consume hread hlap
    · rename_i hzero
      rw [span_eq_zero (laid_append.mp hinv.laid).1 (by omega), List.nil_append] at hinv
      exact hinv
  · have hsame : slots (if span Entry.len pre > 0 then
        { s with
          buffer := fill s.buffer (s.head % c.size) (span Entry.len pre) 0
          head := s.head + span Entry.len pre } else s) rest = slots s rest :=
      slots_congr fun w _ _ => by rw [hwriters]
    rw [hsame, slots_append]
    exact Fifo.Step.take hslots

/-- Readability depends on the writers only. -/
theorem Readable.of_writers {s s' : Ring W} {e : Entry W} (hw : s'.writers = s.writers)
    (h : Readable s e) : Readable s' e := by
  cases e with
  | pad w len => exact (show (s'.writers w).Placed by rw [hw]; exact h)
  | msg w len => exact (show (s'.writers w).value.isSome by rw [hw]; exact h)

/-- **The reader drains what is written.** When the reader can pass every record, reads with a
positive limit take every message, oldest first: at most as many reads as there are records
empty the channel. -/
theorem Inv.drain [DecidableEq W] (h8 : 8 ≤ c.size) {limit : Nat} (hlim : 0 < limit) :
    ∀ (n : Nat) {s : Ring W} {es : List (Entry W)}, es.length ≤ n → Inv c s es →
      (∀ e ∈ es, Readable s e) →
      ∃ (outs : List (List (Message × List UInt8))) (s' : Ring W),
        Run.Trace (Step c) s (outs.map fun out => some (.read out)) s' ∧
        Inv c s' [] ∧ Run.Trace Fifo.Step (slots s es) (outs.map .take) [] := by
  intro n
  -- induction on a bound on the records left, each read passing one at least
  induction n with
  | zero =>
      intro s es hlen hinv _
      rw [List.length_eq_zero_iff.mp (Nat.le_zero.mp hlen)] at hinv ⊢
      exact ⟨[], s, .refl s, hinv, .refl _⟩
  | succ n ih =>
      intro s es hlen hinv hall
      cases es with
      | nil => exact ⟨[], s, .refl s, hinv, .refl _⟩
      | cons e es' =>
          obtain ⟨pre₀, rest₀, out, -, -, -, -, hr, -⟩ := hinv.read_eq h8 limit
          obtain ⟨pre, rest, hes, hinv₁, hstep, hwr, hwhy⟩ := hinv.read_step h8 hr
          -- the oldest record is readable, so the read passes it
          have hpre : pre ≠ [] := fun hnil => by
            rcases hwhy hnil with hno | hzero
            · exact hno e rfl (hall e (List.mem_cons_self ..))
            · omega
          have hshort : rest.length ≤ n := by
            obtain ⟨p, pre', rfl⟩ := List.exists_cons_of_ne_nil hpre
            have hlens := congrArg List.length hes
            simp only [List.length_cons, List.length_append] at hlens hlen
            omega
          obtain ⟨outs, s', hrun, hinv', hfifo⟩ := ih hshort hinv₁ fun e' he' =>
            (hall e' (by rw [hes]; exact List.mem_append_right pre he')).of_writers hwr
          exact ⟨out :: outs, s', (Run.Trace.single (Step.read hr)).append hrun, hinv',
            (Run.Trace.single hstep).append hfifo⟩

end Ccf.Ringbuffer
