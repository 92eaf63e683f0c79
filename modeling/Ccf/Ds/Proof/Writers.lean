import Ccf.Ds.Proof.Layout

/-!
# The writers' steps keep the invariant

Each step of a writer keeps `Inv` and moves the channel the records stand for (`slots`) by the
channel step its label shows. The steps fall into three kinds:

* steps that change no byte and no counter but `head_cache` (`prepare` throwing, a round that
  fails or goes round again): nothing the records say changes (`Inv.quiet`);
* the exchange of the tail, which adds the writer's records past the old tail, where the bytes
  are zero (`Inv.exchange`);
* the writes into one record of the writer's own (the padding header, the message header, a
  section, `finish`): every other record and the free bytes lie outside it, so only that record
  changes (`Inv.local`), and it changes as its writer moved on.
-/

namespace Ccf.Ringbuffer

open Bytes Circular

variable {W : Type} [DecidableEq W] {c : Const}

namespace Ring

variable (s : Ring W) (w : W) (pc : WriterPc)

@[simp] theorem setWriter_same : (s.setWriter w pc).writers w = pc := by simp [setWriter]

theorem setWriter_other {v : W} (h : v ≠ w) : (s.setWriter w pc).writers v = s.writers v := by
  simp [setWriter, h]

/-- A ring whose writers are those of `s` with `w` moved to `pc`. -/
theorem writers_of_setWriter {s' : Ring W} (h : s'.writers = (s.setWriter w pc).writers) :
    s'.writers w = pc ∧ ∀ v, v ≠ w → s'.writers v = s.writers v :=
  ⟨by rw [h, setWriter_same], fun _ hv => by rw [h, setWriter_other _ _ _ hv]⟩

@[simp] theorem setWriter_buffer : (s.setWriter w pc).buffer = s.buffer := rfl
@[simp] theorem setWriter_tail : (s.setWriter w pc).tail = s.tail := rfl
@[simp] theorem setWriter_head : (s.setWriter w pc).head = s.head := rfl
@[simp] theorem setWriter_headCache : (s.setWriter w pc).headCache = s.headCache := rfl

end Ring

/-! ## Steps that write nothing -/

/-- A step that changes no byte, neither `head` nor `tail`, and moves only a writer that has
no record, keeps the invariant and the slots. -/
theorem Inv.quiet {s s' : Ring W} {es : List (Entry W)} (hinv : Inv c s es) {w : W}
    (hbuf : s'.buffer = s.buffer) (htail : s'.tail = s.tail) (hhead : s'.head = s.head)
    (hcache : s'.headCache ≤ s'.head) (hothers : ∀ v, v ≠ w → s'.writers v = s.writers v)
    (hnot : ∀ e ∈ es, e.writer ≠ w) (hcov : Covered es w (s'.writers w)) :
    Inv c s' es ∧ slots s' es = slots s es := by
  have hsame : ∀ e ∈ es, s'.writers e.writer = s.writers e.writer :=
    fun e he => hothers _ (hnot e he)
  refine ⟨⟨?_, by rw [htail, hhead]; exact hinv.tail, by rw [htail, hhead]; exact hinv.window,
    by rw [hhead]; exact hinv.aligned, ?_, hcache, hinv.pads, hinv.msgs, ?_⟩,
    slots_congr fun _ _ he => congrArg WriterPc.value (hsame _ he)⟩
  · rw [hhead]
    exact hinv.laid.imp fun q e he _ _ hat => hat.congr (hsame e he) (fun j _ _ => by rw [hbuf])
  · intro q hq hq'
    rw [hbuf]
    exact hinv.free q (by omega) (by omega)
  · intro v
    by_cases hv : v = w
    · subst hv
      exact hcov
    · rw [hothers v hv]
      exact hinv.covered v

omit [DecidableEq W] in
/-- A writer about to `prepare` has no record. -/
theorem Inv.not_mem_of_start {s : Ring W} {es : List (Entry W)} (hinv : Inv c s es) {w : W}
    {m : Message} {sections : List (List UInt8)} (hw : s.writers w = .start m sections) :
    ∀ e ∈ es, e.writer ≠ w := by
  intro e he hew
  have := hinv.reserved he
  rw [hew, hw] at this
  exact this

/-! ## Steps that write one record -/

/-- **A write into one record.** A step that writes only inside the record `x` of writer `w`,
and moves only `w`, keeps the invariant if `x` and `w`'s other records stay records, and `w`
stays covered. -/
theorem Inv.local {s s' : Ring W} {es₁ es₂ : List (Entry W)} {x : Entry W} {w : W}
    (hinv : Inv c s (es₁ ++ x :: es₂))
    (htail : s'.tail = s.tail) (hhead : s'.head = s.head) (hcache : s'.headCache = s.headCache)
    (hothers : ∀ v, v ≠ w → s'.writers v = s.writers v)
    (hbuf : ∀ j, j < (s.head + span Entry.len es₁) % c.size ∨
      (s.head + span Entry.len es₁) % c.size + x.len ≤ j → s'.buffer j = s.buffer j)
    (hx : EntryAt c s (s.head + span Entry.len es₁) x →
      EntryAt c s' (s.head + span Entry.len es₁) x)
    (hw : ∀ q e, e ∈ es₁ ∨ e ∈ es₂ → e.writer = w → EntryAt c s q e →
      (∀ j, q % c.size ≤ j → j < q % c.size + e.len → s'.buffer j = s.buffer j) →
      EntryAt c s' q e)
    (hcov : Covered (es₁ ++ x :: es₂) w (s'.writers w)) :
    Inv c s' (es₁ ++ x :: es₂) := by
  -- the record `x`, at `p`, and the records before and after it
  set p := s.head + span Entry.len es₁ with hp
  obtain ⟨hl₁, hx₀, hl₂⟩ : Laid Entry.len (EntryAt c s) s.head es₁ ∧ EntryAt c s p x ∧
      Laid Entry.len (EntryAt c s) (p + x.len) es₂ := by
    have := laid_append.mp hinv.laid
    exact ⟨this.1, this.2.1, this.2.2⟩
  have htl := hinv.tail
  have hwin := hinv.window
  simp only [span_append, span_cons] at htl
  have hxlap := hx₀.lap
  -- a record that does not meet `x` keeps its bytes, and so stays a record
  have hkeep : ∀ q e, e ∈ es₁ ∨ e ∈ es₂ → s.head ≤ q → q + e.len ≤ s.head + c.size →
      (q + e.len ≤ p ∨ p + x.len ≤ q) → EntryAt c s q e → EntryAt c s' q e := by
    intro q e hmem hq hql hdisj hat
    have hagree := agree_outside hbuf (a := s.head) (by omega) (by omega) hxlap hq hql hat.lap hdisj
    by_cases hew : e.writer = w
    · exact hw q e hmem hew hat hagree
    · exact hat.congr (hothers _ hew) hagree
  refine ⟨?_, by rw [htail, hhead]; exact hinv.tail, by rw [htail, hhead]; exact hinv.window,
    by rw [hhead]; exact hinv.aligned, ?_, by rw [hcache, hhead]; exact hinv.cache, hinv.pads,
    hinv.msgs, ?_⟩
  · rw [hhead]
    refine laid_append.mpr ⟨hl₁.imp fun q e he hq hqe hat => ?_, hx hx₀,
      hl₂.imp fun q e he hq hqe hat => ?_⟩
    · exact hkeep q e (.inl he) hq (by omega) (.inl (by omega)) hat
    · exact hkeep q e (.inr he) (by omega) (by omega) (.inr hq) hat
  · -- the free bytes lie outside `x`
    intro q hq hq'
    rw [htail, hhead] at *
    rw [hbuf _ (mod_not_mem (a := s.head) (by omega) (by omega) hxlap (by omega) hq' (by omega))]
    exact hinv.free q hq hq'
  · intro v
    by_cases hv : v = w
    · subst hv
      exact hcov
    · rw [hothers v hv]
      exact hinv.covered v

/-! ## The exchange of the tail -/

omit [DecidableEq W] in
theorem Entry.writer_of_padWriter {e : Entry W} {v : W} (h : e.padWriter = some v) :
    e.writer = v := by
  cases e with
  | pad w len => cases h; rfl
  | msg w len => cases h

omit [DecidableEq W] in
theorem Entry.writer_of_msgWriter {e : Entry W} {v : W} (h : e.msgWriter = some v) :
    e.writer = v := by
  cases e with
  | pad w len => cases h
  | msg w len => cases h; rfl

/-- Records added past the tail by a step that writes no byte and moves only their writer,
which had none: the invariant holds of the records with them, when they are records where they
lie and the tail stays in the window. -/
theorem Inv.append {s s' : Ring W} {es new : List (Entry W)} (hinv : Inv c s es) {w : W}
    (hbuf : s'.buffer = s.buffer) (hhead : s'.head = s.head)
    (htail : s'.tail = s.tail + span Entry.len new) (hwin : s'.tail ≤ s.head + c.size)
    (hcache : s'.headCache ≤ s.head) (hothers : ∀ v, v ≠ w → s'.writers v = s.writers v)
    (hnot : ∀ e ∈ es, e.writer ≠ w) (hnew : Laid Entry.len (EntryAt c s') s.tail new)
    (hpads : ∀ v ∈ new.filterMap Entry.padWriter, v = w)
    (hpads' : (new.filterMap Entry.padWriter).Nodup) (hmsgs : new.filterMap Entry.msgWriter = [w])
    (hcov : Covered (es ++ new) w (s'.writers w)) :
    Inv c s' (es ++ new) := by
  have hsame : ∀ e ∈ es, s'.writers e.writer = s.writers e.writer :=
    fun e he => hothers _ (hnot e he)
  -- no writer of the old records is `w`
  have hpadsNot : ∀ v ∈ es.filterMap Entry.padWriter, v ≠ w := by
    intro v hv
    obtain ⟨e, he, hev⟩ := List.mem_filterMap.mp hv
    rw [← Entry.writer_of_padWriter hev]
    exact hnot e he
  have hmsgsNot : ∀ v ∈ es.filterMap Entry.msgWriter, v ≠ w := by
    intro v hv
    obtain ⟨e, he, hev⟩ := List.mem_filterMap.mp hv
    rw [← Entry.writer_of_msgWriter hev]
    exact hnot e he
  have htl := hinv.tail
  refine ⟨?_, by rw [htail, hhead, htl, span_append, Nat.add_assoc], by rw [hhead]; exact hwin,
    by rw [hhead]; exact hinv.aligned,
    ?_, by rw [hhead]; exact hcache, ?_, ?_, ?_⟩
  · rw [hhead]
    refine laid_append.mpr ⟨?_, by rw [← htl]; exact hnew⟩
    exact hinv.laid.imp fun q e he _ _ hat => hat.congr (hsame e he) (fun j _ _ => by rw [hbuf])
  · intro q hq hq'
    rw [hbuf]
    rw [hhead] at hq'
    exact hinv.free q (by omega) hq'
  · rw [List.filterMap_append]
    exact List.nodup_append.mpr ⟨hinv.pads, hpads', fun a ha b hb hab =>
      hpadsNot a ha (hab ▸ hpads b hb)⟩
  · rw [List.filterMap_append, hmsgs]
    exact List.nodup_append.mpr ⟨hinv.msgs, by simp, fun a ha b hb hab =>
      hmsgsNot a ha (by rw [hab]; simpa using hb)⟩
  · intro v
    by_cases hv : v = w
    · subst hv
      exact hcov
    · rw [hothers v hv]
      exact Covered.mono (List.subset_append_left _ _) (hinv.covered v)

omit [DecidableEq W] in
/-- What a round of `reserve` leaves in `head_cache` is a value `head` had. -/
theorem Inv.cache_getD {s : Ring W} {es : List (Entry W)} (hinv : Inv c s es)
    {size hd tl head₁ head₂ : Nat} {r : Round} {cache : Option Nat} (h₁ : head₁ ≤ head₂)
    (h₂ : head₂ ≤ s.head) (hr : reserveRound c size hd tl head₁ head₂ = (r, cache)) :
    cache.getD s.headCache ≤ s.head := by
  cases hcc : cache with
  | none => exact hinv.cache
  | some h => exact reserveRound_cache h₁ h₂ hr h hcc

/-- **The exchange of the tail.** A round that exchanges the tail it holds for the tail now adds
the writer's records past the old tail, where the bytes are zero and inside the window: a
padding of the end of the buffer when the message does not fit before it, then the message. The
channel gains the writer's open slot. -/
theorem Inv.exchange {s s' : Ring W} {es : List (Entry W)} (hinv : Inv c s es) (h8 : 8 ≤ c.size)
    {w : W} {m : Message} {sections : List (List UInt8)}
    {rsize hd head₁ head₂ padding tlIndex : Nat} {cache : Option Nat}
    (hw : s.writers w = .start m sections) (hc : checkPrepare c m (totalSize sections) = .ok rsize)
    (h₀ : hd ≤ head₁) (h₁ : head₁ ≤ head₂) (h₂ : head₂ ≤ s.head)
    (hr : reserveRound c rsize hd s.tail head₁ head₂ = (.exchange padding tlIndex, cache))
    (hs' : s' = { s.setWriter w (if padding ≠ 0 then .padding m sections tlIndex padding
        else .reserved m sections tlIndex) with
      headCache := cache.getD s.headCache
      tail := s.tail + rsize + padding }) :
    ∃ new, Inv c s' (es ++ new) ∧ slots s' (es ++ new) = slots s es ++ [(w, none)] := by
  -- what the step changes
  have hbuf' : s'.buffer = s.buffer := by rw [hs']; rfl
  have hhead' : s'.head = s.head := by rw [hs']; rfl
  have htail' : s'.tail = s.tail + rsize + padding := by rw [hs']
  have hcache' : s'.headCache = cache.getD s.headCache := by rw [hs']
  obtain ⟨hww, hoth⟩ : s'.writers w = (if padding ≠ 0 then .padding m sections tlIndex padding
      else .reserved m sections tlIndex) ∧ ∀ v, v ≠ w → s'.writers v = s.writers v :=
    Ring.writers_of_setWriter _ _ _ (by rw [hs'])
  -- what `prepare` and the round guarantee
  obtain ⟨hmin, hmax, hsize, hrsize, hhalf⟩ := checkPrepare_ok hc
  have hprep : Prepared m sections rsize := ⟨hmin, hmax, hsize, hrsize⟩
  obtain ⟨hrlo, hrmod, hrhi⟩ := entrySize_bounds hsize
  rw [← hrsize] at hrlo hrmod hrhi
  unfold Const.headerSize at hrlo
  have htl := hinv.tail
  obtain ⟨hidx, hplace, hroom⟩ := reserveRound_exchange (by omega) h₀ h₁ h₂ (by omega) hr
  have hnot := hinv.not_mem_of_start hw
  have hcache : s'.headCache ≤ s.head := by
    rw [hcache']
    exact hinv.cache_getD h₁ h₂ hr
  have hslots : slots s' es = slots s es :=
    slots_congr fun _ _ he => congrArg WriterPc.value (hoth _ (hnot _ he))
  -- the tail, and so the index it holds, is a whole number of headers
  have hsize8 := c.size_mod_eight h8
  have htl8 := hinv.tail_aligned
  have hidx8 : tlIndex % 8 = 0 := by
    rw [hidx, Nat.mod_mod_of_dvd _ (Nat.dvd_of_mod_eq_zero hsize8)]
    exact htl8
  have hpos : 0 < c.size := by omega
  have hidxlt : tlIndex < c.size := hidx ▸ Nat.mod_lt _ hpos
  by_cases hpad : padding = 0
  · -- the message fits before the end of the buffer
    subst hpad
    have hfit : tlIndex + rsize ≤ c.size := by
      rcases hplace with h | h
      · exact h.2
      · omega
    rw [if_neg (by simp)] at hww
    have hnew : Laid Entry.len (EntryAt c s') s.tail [.msg w rsize] := by
      refine ⟨⟨by omega, hrmod, ?_⟩, trivial⟩
      rw [hww, hbuf']
      refine ⟨by rw [hidx], hprep, ?_⟩
      exact hinv.read64_free le_rfl (by unfold Const.headerSize; omega)
        (by unfold Const.headerSize; omega)
    have hpads : ∀ v ∈ ([.msg w rsize] : List (Entry W)).filterMap Entry.padWriter, v = w := by
      simp [Entry.padWriter]
    have hpads' : (([.msg w rsize] : List (Entry W)).filterMap Entry.padWriter).Nodup :=
      List.nodup_nil
    have hmsgs : ([.msg w rsize] : List (Entry W)).filterMap Entry.msgWriter = [w] := rfl
    have hcov : Covered (es ++ [.msg w rsize]) w (s'.writers w) := by
      rw [hww]
      exact ⟨rsize, by simp⟩
    refine ⟨[.msg w rsize], hinv.append hbuf' hhead' (by rw [htail']; simp [span, Entry.len])
      (by omega) hcache hoth hnot hnew hpads hpads' hmsgs hcov, ?_⟩
    rw [slots_append, hslots]
    simp [slots, hww, WriterPc.value]
  · -- the message goes at the start of the buffer, after a padding of its end
    obtain ⟨hpadlen, hpadpos, hpadlt⟩ : padding = c.size - tlIndex ∧ 0 < padding ∧
        padding < rsize := by
      rcases hplace with h | h
      · exact absurd h.1 hpad
      · exact h
    rw [if_pos hpad] at hww
    -- the padding runs to the end of the buffer, so the message starts a lap
    have hnext : (s.tail + padding) % c.size = 0 := by
      have hdm := Nat.div_add_mod s.tail c.size
      rw [show s.tail + padding = c.size * (s.tail / c.size + 1) by
        rw [Nat.mul_add, Nat.mul_one]; omega, Nat.mul_mod_right]
    have hnew : Laid Entry.len (EntryAt c s') s.tail [.pad w padding, .msg w rsize] := by
      refine ⟨⟨by omega, hpadpos, by omega, by omega, ?_⟩,
        ⟨by simp only [Entry.len]; rw [hnext]; omega, hrmod, ?_⟩, trivial⟩
      · rw [hww, hbuf']
        refine ⟨hidx, rfl, ?_⟩
        exact hinv.read64_free le_rfl (by unfold Const.headerSize; omega)
          (by rw [← hidx]; unfold Const.headerSize; omega)
      · rw [hww, hbuf']
        simp only [Entry.len]
        refine ⟨hnext, hprep, ?_⟩
        exact hinv.read64_free (by omega) (by unfold Const.headerSize; omega)
          (by rw [hnext]; unfold Const.headerSize; omega)
    have hpads : ∀ v ∈ ([.pad w padding, .msg w rsize] : List (Entry W)).filterMap
        Entry.padWriter, v = w := by
      simp [Entry.padWriter]
    have hpads' : (([.pad w padding, .msg w rsize] : List (Entry W)).filterMap
        Entry.padWriter).Nodup := List.pairwise_singleton _ w
    have hmsgs : ([.pad w padding, .msg w rsize] : List (Entry W)).filterMap Entry.msgWriter =
        [w] := rfl
    have hcov : Covered (es ++ [.pad w padding, .msg w rsize]) w (s'.writers w) := by
      rw [hww]
      exact ⟨⟨padding, by simp⟩, ⟨rsize, by simp⟩⟩
    refine ⟨[.pad w padding, .msg w rsize], hinv.append hbuf' hhead'
      (by rw [htail']; simp [span, Entry.len]; omega) (by omega) hcache hoth hnot hnew hpads
      hpads' hmsgs hcov, ?_⟩
    rw [slots_append, hslots]
    simp [slots, hww, WriterPc.value]

/-! ## Writes into a writer's own records -/

/-- A writer past its padding: the padding header of its reservation, if it has one, is
written. -/
def WriterPc.Placed : WriterPc → Prop
  | .reserved .. | .writing .. | .finished .. => True
  | _ => False

-- Made here once: the equation lemmas that the proofs below unfold.
section
attribute [local simp] WriterPc.Placed
end

/-- A written padding header reads the same wherever its placed writer goes. -/
theorem PadAt.of_placed {b : Nat → UInt8} {index len : Nat} {pc pc' : WriterPc}
    (hpc : pc.Placed) (hpc' : pc'.Placed) (h : PadAt b index len pc) : PadAt b index len pc' := by
  have hread : read64 b index = makeHeader Const.msgPad len false := by
    cases pc with
    | reserved | writing | finished => exact h
    | _ => exact hpc.elim
  cases pc' with
  | reserved | writing | finished => exact hread
  | _ => exact hpc'.elim

/-- In a list whose `f`-images are distinct, no element but `x` has the image of `x`. -/
theorem filterMap_ne_of_nodup {α β : Type} {f : α → Option β} {es₁ es₂ : List α} {x e : α}
    {v : β} (hnd : ((es₁ ++ x :: es₂).filterMap f).Nodup) (hx : f x = some v)
    (he : e ∈ es₁ ∨ e ∈ es₂) : f e ≠ some v := by
  intro hev
  rw [List.filterMap_append, List.filterMap_cons_some hx] at hnd
  obtain ⟨-, hnd₂, hdisj⟩ := List.nodup_append.mp hnd
  rcases he with he | he
  · exact hdisj v (List.mem_filterMap.mpr ⟨e, he, hev⟩) v (List.mem_cons_self ..) rfl
  · exact (List.nodup_cons.mp hnd₂).1 (List.mem_filterMap.mpr ⟨e, he, hev⟩)

/-- The slots stay when a writer moves between states of the same value. -/
theorem slots_of_writer {s s' : Ring W} {es : List (Entry W)} {w : W}
    (hw : (s'.writers w).value = (s.writers w).value)
    (hothers : ∀ v, v ≠ w → s'.writers v = s.writers v) : slots s' es = slots s es :=
  slots_congr fun v _ _ => by
    by_cases hv : v = w
    · rw [hv, hw]
    · rw [hothers v hv]

/-- **A write into a writer's message.** A placed writer that stays placed and writes only
inside its message's record keeps the invariant, when the record then holds what the writer's
new state says. Its padding, if it has one, lies outside the record and reads as before. -/
theorem Inv.msg_local {s s' : Ring W} {es : List (Entry W)} (hinv : Inv c s es) {w : W}
    {pc pc' : WriterPc} (hw : s.writers w = pc) (hw' : s'.writers w = pc')
    (hpc : pc.Placed) (hpc' : pc'.Placed)
    (htail : s'.tail = s.tail) (hhead : s'.head = s.head) (hcache : s'.headCache = s.headCache)
    (hothers : ∀ v, v ≠ w → s'.writers v = s.writers v)
    (hmsg : ∃ len, .msg w len ∈ es) (hcov : Covered es w pc')
    (hx : ∀ index len, index + len ≤ c.size → MsgAt s.buffer index len pc →
      (∀ j, j < index ∨ index + len ≤ j → s'.buffer j = s.buffer j) ∧
        MsgAt s'.buffer index len pc') :
    Inv c s' es := by
  obtain ⟨len, hmem⟩ := hmsg
  obtain ⟨es₁, es₂, rfl, hend, hmod, hat⟩ := hinv.laid.mem hmem
  rw [hw] at hat
  obtain ⟨hbuf, hnew⟩ := hx _ _ hend hat
  refine hinv.local htail hhead hcache hothers hbuf
    (fun _ => ⟨hend, hmod, by rw [hw']; exact hnew⟩) ?_ (hw' ▸ hcov)
  -- the writer's other record is its padding, for it has one message
  intro q e he hew hate hagree
  cases e with
  | msg v len' =>
      simp only [Entry.writer] at hew
      subst hew
      exact absurd rfl (filterMap_ne_of_nodup (f := Entry.msgWriter) hinv.msgs rfl he)
  | pad v len' =>
      simp only [Entry.writer] at hew
      subst hew
      obtain ⟨hend', hpos, hlt, hmod', hpad⟩ := hate
      refine ⟨hend', hpos, hlt, hmod', ?_⟩
      rw [hw] at hpad
      rw [hw']
      exact (hpad.congr (by unfold Const.headerSize; omega) hagree).of_placed hpc hpc'

/-- `reserve` writes the padding header of the end of the buffer: the padding reads as written,
and the writer's message, at the start of the buffer, is its reservation's. -/
theorem Inv.pad_step {s s' : Ring W} {es : List (Entry W)} (hinv : Inv c s es) {w : W}
    {m : Message} {sections : List (List UInt8)} {tlIndex padding : Nat}
    (hw : s.writers w = .padding m sections tlIndex padding)
    (hs' : s' = { s.setWriter w (.reserved m sections 0) with
        buffer := write64 s.buffer tlIndex (makeHeader Const.msgPad padding false) }) :
    Inv c s' es ∧ slots s' es = slots s es := by
  have hbuf' : s'.buffer = write64 s.buffer tlIndex (makeHeader Const.msgPad padding false) := by
    rw [hs']
  obtain ⟨hww, hoth⟩ : s'.writers w = .reserved m sections 0 ∧
      ∀ v, v ≠ w → s'.writers v = s.writers v :=
    Ring.writers_of_setWriter _ _ _ (by rw [hs'])
  have hcov := hinv.covered w
  rw [hw] at hcov
  obtain ⟨⟨len, hpadmem⟩, ⟨len', hmsgmem⟩⟩ := hcov
  refine ⟨?_, slots_of_writer (by rw [hww, hw]; rfl) hoth⟩
  obtain ⟨es₁, es₂, rfl, hend, hpos, hlt, hmod, hpad⟩ := hinv.laid.mem hpadmem
  rw [hw] at hpad
  obtain ⟨hidx, hlen, -⟩ := hpad
  subst hlen
  -- the header is the first 8 bytes of the padding
  refine hinv.local (by rw [hs']; rfl) (by rw [hs']; rfl) (by rw [hs']; rfl) hoth
    (fun j hj => by rw [hbuf']; exact store_of_not_mem (by simp only [Entry.len] at hj; omega))
    (fun _ => ⟨hend, hpos, hlt, hmod, ?_⟩) ?_ (by rw [hww]; exact ⟨len', hmsgmem⟩)
  · rw [hww, hbuf', ← hidx]
    exact read64_write64 (makeHeader_lt _ hlt false)
  -- the writer's other record is its message, for it has one padding
  intro q e he hew hate hagree
  cases e with
  | pad v len'' =>
      simp only [Entry.writer] at hew
      subst hew
      exact absurd rfl (filterMap_ne_of_nodup (f := Entry.padWriter) hinv.pads rfl he)
  | msg v len'' =>
      simp only [Entry.writer] at hew
      subst hew
      obtain ⟨hend', hmod', hmsg⟩ := hate
      rw [hw] at hmsg
      obtain ⟨hzero, hprep, hhd⟩ := hmsg
      refine ⟨hend', hmod', ?_⟩
      rw [hww]
      refine ⟨hzero.symm, hprep, ?_⟩
      have hlen : Const.headerSize ≤ len'' := by have := hprep.bounds; omega
      rw [read64_congr hlen hagree, hhd]

/-- `prepare` writes the pending header into the writer's message: no section is written
yet. -/
theorem Inv.header_step {s s' : Ring W} {es : List (Entry W)} (hinv : Inv c s es) {w : W}
    {m : Message} {sections : List (List UInt8)} {index : Nat}
    (hw : s.writers w = .reserved m sections index)
    (hs' : s' = { s.setWriter w (.writing m sections (index + Const.headerSize)
        (index + Const.headerSize) sections) with
      buffer := write64 s.buffer index (makeHeader m (totalSize sections) true) }) :
    Inv c s' es ∧ slots s' es = slots s es := by
  have hbuf' : s'.buffer = write64 s.buffer index (makeHeader m (totalSize sections) true) := by
    rw [hs']
  obtain ⟨hww, hoth⟩ : s'.writers w = .writing m sections (index + Const.headerSize)
      (index + Const.headerSize) sections ∧ ∀ v, v ≠ w → s'.writers v = s.writers v :=
    Ring.writers_of_setWriter _ _ _ (by rw [hs'])
  have hmsg := hinv.covered w
  rw [hw] at hmsg
  refine ⟨hinv.msg_local hw hww trivial trivial (by rw [hs']; rfl) (by rw [hs']; rfl) (by rw [hs']; rfl) hoth
    hmsg hmsg ?_, slots_of_writer (by rw [hww, hw]; rfl) hoth⟩
  intro index' len _ hat
  obtain ⟨rfl, hprep, -⟩ := hat
  have hb := hprep.bounds
  unfold Const.headerSize at hb
  refine ⟨fun j hj => by rw [hbuf']; exact store_of_not_mem (by omega), rfl, hprep, ?_,
    [], rfl, rfl, rfl⟩
  rw [hbuf']
  exact read64_write64 (makeHeader_lt m hprep.size_lt true)

/-- `write_bytes` copies the bytes where the marker stands. -/
theorem writeBytes_eq (buffer : Nat → UInt8) (marker : Nat) (bytes : List UInt8) :
    writeBytes buffer marker bytes = (copy buffer marker bytes, marker + bytes.length) := by
  unfold writeBytes
  split
  · rfl
  · -- an empty copy writes nothing
    congr 1
    funext j
    rw [copy_of_not_mem (by omega)]

/-- `write_bytes` writes the next section after those written: the payload grows by it. -/
theorem Inv.write_step {s s' : Ring W} {es : List (Entry W)} (hinv : Inv c s es) {w : W}
    {m : Message} {sections : List (List UInt8)} {marker next : Nat} {bytes : List UInt8}
    {rest : List (List UInt8)} (hw : s.writers w = .writing m sections marker next (bytes :: rest))
    (hs' : s' = { s.setWriter w (.writing m sections marker (writeBytes s.buffer next bytes).2 rest)
        with buffer := (writeBytes s.buffer next bytes).1 }) :
    Inv c s' es ∧ slots s' es = slots s es := by
  rw [writeBytes_eq] at hs'
  have hbuf' : s'.buffer = copy s.buffer next bytes := by rw [hs']
  obtain ⟨hww, hoth⟩ : s'.writers w = .writing m sections marker (next + bytes.length) rest ∧
      ∀ v, v ≠ w → s'.writers v = s.writers v :=
    Ring.writers_of_setWriter _ _ _ (by rw [hs'])
  have hmsg := hinv.covered w
  rw [hw] at hmsg
  refine ⟨hinv.msg_local hw hww trivial trivial (by rw [hs']; rfl) (by rw [hs']; rfl) (by rw [hs']; rfl) hoth
    hmsg hmsg ?_, slots_of_writer (by rw [hww, hw]; rfl) hoth⟩
  intro index len _ hat
  obtain ⟨hmk, hprep, hhd, done, hsec, hnext, hread⟩ := hat
  have hb := hprep.bounds
  -- the section goes between the sections written and the end of the payload
  have hsize : totalSize sections = totalSize done + bytes.length + totalSize rest := by
    rw [hsec, totalSize_append]
    simp [totalSize, Nat.add_assoc]
  unfold Const.headerSize at hmk hb
  refine ⟨fun j hj => by rw [hbuf']; exact copy_of_not_mem (by omega), hmk, hprep, ?_,
    done ++ [bytes], by rw [hsec]; simp, ?_, ?_⟩
  · -- the header lies before the marker
    have hkeep : ∀ j, index ≤ j → j < index + Const.headerSize →
        copy s.buffer next bytes j = s.buffer j :=
      fun j _ hj => copy_of_not_mem (by unfold Const.headerSize at hj; omega)
    rw [hbuf', ← hhd]
    exact read64_congr le_rfl hkeep
  · rw [hnext, totalSize_append]
    simp [totalSize, Nat.add_assoc]
  · have hlen : totalSize (done ++ [bytes]) = totalSize done + bytes.length := by
      rw [totalSize_append]
      simp [totalSize]
    rw [hlen, read_add, hbuf', read_copy_of_disjoint (by omega), hread, ← hnext, read_copy]
    simp

/-- `finish` clears the pending bit of the writer's header: its message is complete, and the
channel's slot holds the bytes written. -/
theorem Inv.finish_step {s s' : Ring W} {es : List (Entry W)} (hinv : Inv c s es) {w : W}
    {m : Message} {sections : List (List UInt8)} {marker next : Nat}
    (hw : s.writers w = .writing m sections marker next [])
    (hs' : s' = { s.setWriter w (.finished m sections marker) with
        buffer := finish s.buffer marker }) :
    Inv c s' es ∧ Fifo.Step (slots s es) (.complete w (m, sections.flatten)) (slots s' es) := by
  have hbuf' : s'.buffer = finish s.buffer marker := by rw [hs']
  obtain ⟨hww, hoth⟩ : s'.writers w = .finished m sections marker ∧
      ∀ v, v ≠ w → s'.writers v = s.writers v :=
    Ring.writers_of_setWriter _ _ _ (by rw [hs'])
  have hmsg := hinv.covered w
  rw [hw] at hmsg
  refine ⟨hinv.msg_local hw hww trivial trivial (by rw [hs']; rfl) (by rw [hs']; rfl) (by rw [hs']; rfl) hoth
    hmsg trivial ?_, ?_⟩
  · intro index len _ hat
    obtain ⟨rfl, hprep, hhd, done, hsec, -, hread⟩ := hat
    rw [List.append_nil] at hsec
    subst hsec
    have hb := hprep.bounds
    unfold Const.headerSize at hb
    refine ⟨fun j hj => by rw [hbuf']; exact finish_of_not_mem (by omega), rfl, hprep,
      by rw [hbuf']; exact read64_finish hprep.size_lt hhd, ?_⟩
    rw [hbuf', ← hread]
    exact read_congr fun k _ => finish_of_not_mem (by unfold Const.headerSize; omega)
  · -- the writer's message is the one slot that changes
    obtain ⟨len, hmem⟩ := hmsg
    obtain ⟨es₁, es₂, rfl, -⟩ := List.append_of_mem hmem
    have hkeep : ∀ es', (∀ e ∈ es', e ∈ es₁ ∨ e ∈ es₂) → slots s' es' = slots s es' :=
      fun es' hsub => slots_congr fun v _ hv => by
        have hvw : v ≠ w := fun hvw => filterMap_ne_of_nodup (f := Entry.msgWriter) hinv.msgs rfl
          (hsub _ hv) (by rw [hvw]; rfl)
        rw [hoth v hvw]
    have hslots : ∀ t : Ring W, slots t (es₁ ++ .msg w len :: es₂) =
        slots t es₁ ++ (w, (t.writers w).value) :: slots t es₂ := fun t => by
      rw [slots_append]
      rfl
    rw [hslots, hslots, hkeep es₁ fun e he => .inl he, hkeep es₂ fun e he => .inr he, hw, hww]
    exact Fifo.Step.complete

end Ccf.Ringbuffer
