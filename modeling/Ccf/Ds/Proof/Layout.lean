import Ccf.Ds.Proof.Records

/-!
# What the ring buffer holds

Between `head` and `tail` the buffer holds records laid end to end: paddings of the end of the
buffer, and messages, each made by one writer's reservation. The invariant (`Inv`) says what
the bytes of each record are, by where its writer is: an empty header until the header is
written, then a pending header and the sections written so far, then a finished header and the
whole payload; and that the rest of the buffer is zero. It also says that no record runs past
the end of the buffer, and that the records and the free bytes together are at most one
buffer's size: no reservation overlaps unread data.

This module states the invariant and what it is made of, and the frame rule that every step
uses: a record whose bytes and writer are as they were is as it was (`EntryAt.congr`).
-/

namespace Ccf.Ringbuffer

open Bytes Circular

variable {W : Type}

/-- A record between `head` and `tail`: the padding of the end of the buffer that writer `w`'s
reservation made, or writer `w`'s message; each with its length. -/
inductive Entry (W : Type) where
  | pad (w : W) (len : Nat)
  | msg (w : W) (len : Nat)
  deriving DecidableEq

namespace Entry

def len : Entry W → Nat
  | .pad _ len => len
  | .msg _ len => len

def writer : Entry W → W
  | .pad w _ => w
  | .msg w _ => w

/-- The writer whose padding this is. -/
def padWriter : Entry W → Option W
  | .pad w _ => some w
  | .msg _ _ => none

/-- The writer whose message this is. -/
def msgWriter : Entry W → Option W
  | .pad _ _ => none
  | .msg w _ => some w

-- Made here once: the equation lemmas that the proofs below unfold.
section
attribute [local simp] len writer padWriter msgWriter
end

end Entry

/-- A message as `prepare` let it through: a type that is not reserved, a payload that fits,
and the length of its record. -/
structure Prepared (m : Message) (sections : List (List UInt8)) (len : Nat) : Prop where
  min : Const.msgMin ≤ m
  max : m ≤ Const.msgMax
  size : totalSize sections ≤ Const.maxSize
  len : len = Const.entrySize (totalSize sections)

/-- The bytes of a message's record at `index`, of length `len`, by where its writer is. -/
def MsgAt (buffer : Nat → UInt8) (index len : Nat) : WriterPc → Prop
  | .start _ _ | .failed => False
  | .padding m sections _ _ => index = 0 ∧ Prepared m sections len ∧ read64 buffer index = 0
  | .reserved m sections i => i = index ∧ Prepared m sections len ∧ read64 buffer index = 0
  | .writing m sections marker next rest =>
      marker = index + Const.headerSize ∧ Prepared m sections len ∧
        read64 buffer index = makeHeader m (totalSize sections) true ∧
        ∃ done, sections = done ++ rest ∧ next = marker + totalSize done ∧
          read buffer marker (totalSize done) = done.flatten
  | .finished m sections marker =>
      marker = index + Const.headerSize ∧ Prepared m sections len ∧
        read64 buffer index = makeHeader m (totalSize sections) false ∧
        read buffer marker (totalSize sections) = sections.flatten

/-- The header of a padding at `index`, of length `len`: empty until its writer writes it. -/
def PadAt (buffer : Nat → UInt8) (index len : Nat) : WriterPc → Prop
  | .start _ _ | .failed => False
  | .padding _ _ tlIndex padding => tlIndex = index ∧ padding = len ∧ read64 buffer index = 0
  | _ => read64 buffer index = makeHeader Const.msgPad len false

/-- A record at position `p`: inside one lap of the buffer (a padding up to its end), a whole
number of headers long, and holding what its writer has written. -/
def EntryAt (c : Const) (s : Ring W) (p : Nat) : Entry W → Prop
  | .pad w len => p % c.size + len = c.size ∧ 0 < len ∧ len < 2 ^ 31 ∧ len % 8 = 0 ∧
      PadAt s.buffer (p % c.size) len (s.writers w)
  | .msg w len => p % c.size + len ≤ c.size ∧ len % 8 = 0 ∧
      MsgAt s.buffer (p % c.size) len (s.writers w)

/-- Where the writers stand that have a record between `head` and `tail`: one whose padding
header is still to be written has its padding and its message there; one that reserved and
has not finished has its message there. -/
def Covered (es : List (Entry W)) (w : W) : WriterPc → Prop
  | .padding _ _ _ _ => (∃ len, .pad w len ∈ es) ∧ ∃ len, .msg w len ∈ es
  | .reserved _ _ _ | .writing _ _ _ _ _ => ∃ len, .msg w len ∈ es
  | _ => True

-- Made here once: the equation lemmas that the proofs below unfold.
section
attribute [local simp] MsgAt PadAt
end

/-- **The invariant of the ring buffer.** The records `es` lie from `head` to `tail`, at most a
buffer's size; the bytes past `tail`, up to `head` one lap on, are zero; `head_cache` is a value
`head` had; and each writer has one padding and one message at most, there when it still has to
write them. -/
structure Inv (c : Const) (s : Ring W) (es : List (Entry W)) : Prop where
  laid : Laid Entry.len (EntryAt c s) s.head es
  tail : s.tail = s.head + span Entry.len es
  window : s.tail ≤ s.head + c.size
  aligned : s.head % 8 = 0
  free : ∀ q, s.tail ≤ q → q < s.head + c.size → s.buffer (q % c.size) = 0
  cache : s.headCache ≤ s.head
  pads : (es.filterMap Entry.padWriter).Nodup
  msgs : (es.filterMap Entry.msgWriter).Nodup
  covered : ∀ w, Covered es w (s.writers w)

/-! ## The frame rule -/

section Frame

variable {b b' : Nat → UInt8} {index len : Nat}

theorem Prepared.bounds {m : Message} {sections : List (List UInt8)} (h : Prepared m sections len) :
    totalSize sections + Const.headerSize ≤ len ∧ len % 8 = 0 := by
  obtain ⟨hle, hmod, -⟩ := entrySize_bounds h.size
  rw [h.len]
  exact ⟨hle, hmod⟩

/-- A payload that `prepare` let through fits below the pending bit. -/
theorem Prepared.size_lt {m : Message} {sections : List (List UInt8)}
    (h : Prepared m sections len) : totalSize sections < 2 ^ 31 := by
  have := h.size
  unfold Const.maxSize Const.headerSize at this
  omega

/-- The header of a record of 8 bytes or more loads from its first 8 bytes. -/
theorem read64_congr (hlen : Const.headerSize ≤ len)
    (h : ∀ j, index ≤ j → j < index + len → b' j = b j) : read64 b' index = read64 b index :=
  load_congr fun k hk => h _ (by omega) (by unfold Const.headerSize at hlen; omega)

theorem totalSize_append (xs ys : List (List UInt8)) :
    totalSize (xs ++ ys) = totalSize xs + totalSize ys := by
  simp [totalSize]

theorem MsgAt.congr {pc : WriterPc} (hm : MsgAt b index len pc)
    (h : ∀ j, index ≤ j → j < index + len → b' j = b j) : MsgAt b' index len pc := by
  cases pc with
  | start => exact hm.elim
  | failed => exact hm.elim
  | padding m sections _ _ =>
      obtain ⟨h0, hp, hh⟩ := hm
      exact ⟨h0, hp, by rw [read64_congr (by have := hp.bounds; omega) h, hh]⟩
  | reserved m sections i =>
      obtain ⟨hi, hp, hh⟩ := hm
      exact ⟨hi, hp, by rw [read64_congr (by have := hp.bounds; omega) h, hh]⟩
  | writing m sections marker next rest =>
      obtain ⟨hmk, hp, hh, done, hsec, hnext, hread⟩ := hm
      have hb := hp.bounds
      have hdone : totalSize done ≤ totalSize sections := by rw [hsec, totalSize_append]; omega
      refine ⟨hmk, hp, by rw [read64_congr (by omega) h, hh], done, hsec, hnext, ?_⟩
      rw [← hread]
      exact read_congr fun k hk => h _ (by omega) (by omega)
  | finished m sections marker =>
      obtain ⟨hmk, hp, hh, hread⟩ := hm
      have hb := hp.bounds
      refine ⟨hmk, hp, by rw [read64_congr (by omega) h, hh], ?_⟩
      rw [← hread]
      exact read_congr fun k hk => h _ (by omega) (by omega)

theorem PadAt.congr {pc : WriterPc} (hpad : PadAt b index len pc) (hlen : Const.headerSize ≤ len)
    (h : ∀ j, index ≤ j → j < index + len → b' j = b j) : PadAt b' index len pc := by
  cases pc with
  | start => exact hpad.elim
  | failed => exact hpad.elim
  | padding _ _ tlIndex padding =>
      obtain ⟨hi, hl, hh⟩ := hpad
      exact ⟨hi, hl, by rw [read64_congr hlen h, hh]⟩
  | reserved => exact (read64_congr hlen h).trans hpad
  | writing => exact (read64_congr hlen h).trans hpad
  | finished => exact (read64_congr hlen h).trans hpad

/-- **Frame rule.** A record whose writer is where it was, and whose bytes are as they were, is
as it was. -/
theorem EntryAt.congr {c : Const} {s s' : Ring W} {p : Nat} {e : Entry W}
    (he : EntryAt c s p e) (hw : s'.writers e.writer = s.writers e.writer)
    (hb : ∀ j, p % c.size ≤ j → j < p % c.size + e.len → s'.buffer j = s.buffer j) :
    EntryAt c s' p e := by
  cases e with
  | pad w len =>
      obtain ⟨hend, hpos, hlt, hmod, hpad⟩ := he
      simp only [Entry.writer] at hw
      refine ⟨hend, hpos, hlt, hmod, ?_⟩
      rw [hw]
      exact hpad.congr (by unfold Const.headerSize; omega) hb
  | msg w len =>
      obtain ⟨hend, hmod, hmsg⟩ := he
      simp only [Entry.writer] at hw
      exact ⟨hend, hmod, by rw [hw]; exact hmsg.congr hb⟩

end Frame

/-! ## Records in the window -/

section Window

variable {c : Const} {s : Ring W}

theorem MsgAt.prepared {b : Nat → UInt8} {index len : Nat} {pc : WriterPc}
    (h : MsgAt b index len pc) : ∃ m sections, Prepared m sections len := by
  cases pc with
  | start => exact h.elim
  | failed => exact h.elim
  | padding m sections => exact ⟨m, sections, h.2.1⟩
  | reserved m sections => exact ⟨m, sections, h.2.1⟩
  | writing m sections => exact ⟨m, sections, h.2.1⟩
  | finished m sections => exact ⟨m, sections, h.2.1⟩

theorem EntryAt.lap {p : Nat} {e : Entry W} (h : EntryAt c s p e) : p % c.size + e.len ≤ c.size := by
  cases e with
  | pad w len => exact h.1.le
  | msg w len => exact h.1

/-- A record is a whole number of headers, at least one. -/
theorem EntryAt.len_bounds {p : Nat} {e : Entry W} (h : EntryAt c s p e) :
    e.len % 8 = 0 ∧ Const.headerSize ≤ e.len := by
  cases e with
  | pad w len =>
      obtain ⟨-, hpos, -, hmod, -⟩ := h
      exact ⟨hmod, by unfold Const.headerSize; simp only [Entry.len]; omega⟩
  | msg w len =>
      obtain ⟨-, hmod, hmsg⟩ := h
      obtain ⟨m, sections, hp⟩ := hmsg.prepared
      exact ⟨hmod, by have := hp.bounds; simp only [Entry.len]; omega⟩

/-- A writer that has reserved: neither about to `prepare` nor failed. -/
def WriterPc.Reserved : WriterPc → Prop
  | .start _ _ | .failed => False
  | _ => True

-- Made here once: the equation lemmas that the proofs below unfold.
section
attribute [local simp] WriterPc.Reserved
end

/-- Only a writer that reserved has a record. -/
theorem EntryAt.reserved {p : Nat} {e : Entry W} (h : EntryAt c s p e) :
    (s.writers e.writer).Reserved := by
  cases e with
  | pad w len =>
      have hpad := h.2.2.2.2
      simp only [Entry.writer]
      cases hw : s.writers w <;> simp_all [PadAt, WriterPc.Reserved]
  | msg w len =>
      have hmsg := h.2.2
      simp only [Entry.writer]
      cases hw : s.writers w <;> simp_all [MsgAt, WriterPc.Reserved]

theorem Inv.reserved {es : List (Entry W)} (hinv : Inv c s es) {e : Entry W} (he : e ∈ es) :
    (s.writers e.writer).Reserved := by
  obtain ⟨_, _, _, hat⟩ := hinv.laid.mem he
  exact hat.reserved

/-- Records are whole numbers of headers, so the tail is aligned as the head is. -/
theorem span_aligned {p : Nat} {es : List (Entry W)} (h : Laid Entry.len (EntryAt c s) p es) :
    span Entry.len es % 8 = 0 := by
  induction es generalizing p with
  | nil => rfl
  | cons e es ih =>
      obtain ⟨he, hes⟩ := h
      have := he.len_bounds.1
      have := ih hes
      simp only [span_cons]
      omega

theorem Inv.tail_aligned {es : List (Entry W)} (hinv : Inv c s es) : s.tail % 8 = 0 := by
  have := span_aligned hinv.laid
  have := hinv.aligned
  rw [hinv.tail]
  omega

/-- A header past `tail`, in the window, is empty. -/
theorem Inv.read64_free {es : List (Entry W)} (hinv : Inv c s es) {q : Nat} (hq : s.tail ≤ q)
    (hq8 : q + Const.headerSize ≤ s.head + c.size) (hlap : q % c.size + Const.headerSize ≤ c.size) :
    read64 s.buffer (q % c.size) = 0 := by
  unfold Const.headerSize at hq8 hlap
  apply load_eq_zero
  intro k hk
  rw [← mod_add_of_lt (by omega)]
  exact hinv.free _ (by omega) (by omega)

end Window

theorem Covered.mono {es es' : List (Entry W)} {w : W} {pc : WriterPc} (h : es ⊆ es')
    (hc : Covered es w pc) : Covered es' w pc := by
  cases pc with
  | padding =>
      obtain ⟨⟨l, hl⟩, ⟨l', hl'⟩⟩ := hc
      exact ⟨⟨l, h hl⟩, ⟨l', h hl'⟩⟩
  | reserved =>
      obtain ⟨l, hl⟩ := hc
      exact ⟨l, h hl⟩
  | writing =>
      obtain ⟨l, hl⟩ := hc
      exact ⟨l, h hl⟩
  | start => trivial
  | finished => trivial
  | failed => trivial

/-! ## The channel the records stand for -/

/-- What a writer's slot of the channel holds: its message, once it finished. -/
def WriterPc.value : WriterPc → Option (Message × List UInt8)
  | .finished m sections _ => some (m, sections.flatten)
  | _ => none

/-- The channel's slots that the records stand for: one for each message, oldest first. -/
def slots (s : Ring W) (es : List (Entry W)) : List (W × Option (Message × List UInt8)) :=
  es.filterMap fun
    | .pad _ _ => none
    | .msg w _ => some (w, (s.writers w).value)

-- Made here once: the equation lemmas that the proofs below unfold.
section
attribute [local simp] WriterPc.value slots
end

@[simp] theorem slots_append (s : Ring W) (es es' : List (Entry W)) :
    slots s (es ++ es') = slots s es ++ slots s es' := by
  simp [slots]

/-- The slots of messages whose writers hold what they held. -/
theorem slots_congr {s s' : Ring W} {es : List (Entry W)}
    (h : ∀ w len, .msg w len ∈ es → (s'.writers w).value = (s.writers w).value) :
    slots s' es = slots s es := by
  unfold slots
  apply List.filterMap_congr
  intro e he
  cases e with
  | pad => rfl
  | msg w len => simp only [h w len he]

/-- The channel event a step of the ring buffer shows. -/
def Event.toFifo : Event W → Fifo.Event W (Message × List UInt8)
  | .reserve w => .reserve w
  | .finish w m data => .complete w (m, data)
  | .read out => .take out

-- Made here once: the equation lemmas that the proofs below unfold.
section
attribute [local simp] Event.toFifo
end

/-- The senders of the slots are the writers of the messages. -/
theorem slots_fst (s : Ring W) (es : List (Entry W)) :
    (slots s es).map Prod.fst = es.filterMap Entry.msgWriter := by
  induction es with
  | nil => rfl
  | cons e es ih =>
      cases e with
      | pad =>
          simp only [slots, List.filterMap_cons, Entry.msgWriter] at ih ⊢
          exact ih
      | msg w len =>
          simp only [slots, List.filterMap_cons, Entry.msgWriter, List.map_cons] at ih ⊢
          rw [ih]

variable {c : Const}

/-- **The invariant holds of the buffer the reader's constructor makes.** -/
theorem Inv.init {s : Ring W} (h8 : 8 ≤ c.size) (h : s.Init c) : Inv c s [] where
  laid := trivial
  tail := by simp [h.tail, h.head]
  window := by rw [h.tail]; omega
  aligned := by rw [h.head]
  free q _ _ := h.zeroed _ (Nat.mod_lt _ (by omega))
  cache := by rw [h.headCache, h.head]
  pads := List.nodup_nil
  msgs := List.nodup_nil
  covered w := by
    obtain ⟨m, sections, hw⟩ := h.start w
    rw [hw]
    trivial

end Ccf.Ringbuffer
