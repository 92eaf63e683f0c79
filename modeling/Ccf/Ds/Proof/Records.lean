import Ccf.Ds.Ringbuffer
import Ccf.Lib.Circular

/-!
# Records of the ring buffer

What the arithmetic of `ringbuffer.h` comes to. A counter `& (size - 1)` is the counter mod the
size; `entry_size` rounds a message and its header up to a multiple of 8; a header is the type
above the length, with the pending bit at the top of the length; `finish` leaves the header as
`make_header` would have made it without the pending bit.

Then the argument behind `reserve`: a round that exchanges the tail leaves the new tail at
most a buffer's size past the head, and puts the message at consecutive indices, either before
the end of the buffer or at its start after a padding of the end. Last, why the limit is half
the buffer: once the head has caught up with the tail, a record of at most half the buffer fits
after the tail's index or before it, so the first round of `reserve` exchanges the tail
(`prepare_progress`).
-/

namespace Ccf.Ringbuffer

open Bytes

theorem Const.and_mask (c : Const) (x : Nat) : x &&& (c.size - 1) = x % c.size := by
  obtain ⟨k, hk⟩ := c.powerOfTwo
  rw [hk, Nat.and_two_pow_sub_one_eq_mod]

/-- A buffer of 8 bytes or more holds whole headers: its size is a multiple of 8. -/
theorem Const.size_mod_eight (c : Const) (h8 : 8 ≤ c.size) : c.size % 8 = 0 := by
  obtain ⟨k, hk⟩ := c.powerOfTwo
  have hk3 : 3 ≤ k := by
    by_contra hlt
    have : 2 ^ k ≤ 2 ^ 2 := Nat.pow_le_pow_right (by omega) (by omega)
    omega
  rw [hk, show k = 3 + (k - 3) by omega, Nat.pow_add, Nat.mul_mod_right]

/-! ## Sizes -/

theorem alignSize_eq {n : Nat} (hn : n + 7 < 2 ^ 64) : Const.alignSize n = (n + 7) / 8 * 8 := by
  unfold Const.alignSize sizeNot Const.headerSize
  rw [show 2 ^ 64 - 1 - (4 + 4 - 1) = 2 ^ 64 - 2 ^ 3 by norm_num]
  exact and_two_pow_sub_two_pow (by omega) hn

theorem entrySize_eq {n : Nat} (hn : n ≤ Const.maxSize) : Const.entrySize n = (n + 15) / 8 * 8 := by
  unfold Const.maxSize Const.headerSize at hn
  unfold Const.entrySize
  rw [alignSize_eq (by unfold Const.headerSize; omega)]
  rfl

/-- A message's record holds its header and its payload, and is a whole number of headers. -/
theorem entrySize_bounds {n : Nat} (hn : n ≤ Const.maxSize) :
    n + Const.headerSize ≤ Const.entrySize n ∧ Const.entrySize n % 8 = 0 ∧
      Const.entrySize n ≤ 2 ^ 31 := by
  rw [entrySize_eq hn]
  unfold Const.maxSize Const.headerSize at *
  omega

/-! ## Headers -/

theorem lengthMask_eq : lengthMask = 2 ^ 31 - 1 := by decide

theorem pendingWriteFlag_eq : pendingWriteFlag = 2 ^ 31 := by decide

/-- The length half of a header: the length, with the pending bit on top. -/
def lengthField (size : Nat) (pending : Bool) : Nat := size + if pending then 2 ^ 31 else 0

-- Made here once: the equation lemmas that the proofs below unfold.
section
attribute [local simp] lengthField
end

theorem lengthField_lt {size : Nat} (hs : size < 2 ^ 31) (p : Bool) : lengthField size p < 2 ^ 32 := by
  unfold lengthField
  split <;> omega

@[simp] theorem lengthField_false (size : Nat) : lengthField size false = size := by
  simp [lengthField]

theorem makeHeader_eq (m : Message) {size : Nat} (hs : size < 2 ^ 31) (p : Bool) :
    makeHeader m size p = m.toNat * 2 ^ 32 + lengthField size p := by
  have hlen : size &&& lengthMask = size := by
    rw [lengthMask_eq, Nat.and_two_pow_sub_one_eq_mod, Nat.mod_eq_of_lt hs]
  have hfield : (size ||| if p then pendingWriteFlag else 0) = lengthField size p := by
    cases p with
    | false => simp [lengthField]
    | true =>
        rw [if_pos rfl, Nat.lor_comm, pendingWriteFlag, shiftLeft_or_eq_add hs]
        simp [lengthField, Nat.add_comm]
  unfold makeHeader
  rw [hlen, hfield, shiftLeft_or_eq_add (lengthField_lt hs p)]

theorem makeHeader_lt (m : Message) {size : Nat} (hs : size < 2 ^ 31) (p : Bool) :
    makeHeader m size p < 2 ^ 64 := by
  rw [makeHeader_eq m hs]
  have := m.toNat_lt
  have := lengthField_lt hs p
  omega

/-- The parts of a header of type `m` above `field`. -/
theorem length_of_eq {m : Nat} {field : Nat} (hf : field < 2 ^ 32) :
    length (m * 2 ^ 32 + field) = field := by
  unfold length UINT32_MAX
  rw [Nat.and_two_pow_sub_one_eq_mod, Nat.add_comm, Nat.add_mul_mod_self_right,
    Nat.mod_eq_of_lt hf]

theorem message_of_eq {m : Message} {field : Nat} (hf : field < 2 ^ 32) :
    message (m.toNat * 2 ^ 32 + field) = m := by
  unfold message
  rw [Nat.shiftRight_eq_div_pow, Nat.add_comm, Nat.add_mul_div_right _ _ (by norm_num),
    Nat.div_eq_of_lt hf, Nat.zero_add, UInt32.ofNat_toNat]

@[simp] theorem length_makeHeader (m : Message) {size : Nat} (hs : size < 2 ^ 31) (p : Bool) :
    length (makeHeader m size p) = lengthField size p := by
  rw [makeHeader_eq m hs, length_of_eq (lengthField_lt hs p)]

@[simp] theorem message_makeHeader (m : Message) {size : Nat} (hs : size < 2 ^ 31) (p : Bool) :
    message (makeHeader m size p) = m := by
  rw [makeHeader_eq m hs, message_of_eq (lengthField_lt hs p)]

/-- The pending bit of a length field is the pending flag it was made with. -/
theorem lengthField_pending {size : Nat} (hs : size < 2 ^ 31) (p : Bool) :
    lengthField size p &&& pendingWriteFlag ≠ 0 ↔ p = true := by
  rw [pendingWriteFlag_eq, and_two_pow_ne_zero_iff]
  have hbit : size.testBit 31 = false := Nat.testBit_lt_two_pow hs
  cases p with
  | false => simp [lengthField, hbit]
  | true =>
      simp only [lengthField, if_true, Nat.add_comm size]
      rw [Nat.testBit_two_pow_add_eq, hbit]
      simp

/-- A length below the pending bit has it clear. -/
theorem not_pending {size : Nat} (hs : size < 2 ^ 31) : ¬ (size &&& pendingWriteFlag ≠ 0) := by
  have := lengthField_pending hs false
  rw [lengthField_false] at this
  exact fun hp => Bool.false_ne_true (this.mp hp)

/-- An empty header reads as no message. -/
theorem length_zero : length 0 = 0 := by decide

theorem message_zero : message 0 = Const.msgNone := by decide

/-- A header written whole reads back. -/
theorem read64_write64 {b : Nat → UInt8} {index v : Nat} (hv : v < 2 ^ 64) :
    read64 (write64 b index v) index = v := by
  unfold read64 write64
  rw [load_store, Nat.mod_eq_of_lt (by norm_num at hv ⊢; omega)]

/-- `finish` clears the pending bit of a header that `prepare` wrote, and touches nothing but
the header's length half. -/
theorem read64_finish {b : Nat → UInt8} {index : Nat} {m : Message} {size : Nat}
    (hs : size < 2 ^ 31) (hh : read64 b index = makeHeader m size true) :
    read64 (finish b (index + Const.headerSize)) index = makeHeader m size false := by
  -- the header is its two halves
  have hsplit : ∀ b' : Nat → UInt8, read64 b' index = load b' index 4 + 2 ^ 32 * load b' (index + 4) 4 :=
    fun b' => by unfold read64; exact load_add index 4 4
  have hlo := load_lt (m := b) index 4
  have hhi := load_lt (m := b) (index + 4) 4
  rw [hsplit, makeHeader_eq m hs, lengthField] at hh
  have hlow : load b index 4 = size + 2 ^ 31 := by simp at hh hlo hhi ⊢; omega
  have hhigh : load b (index + 4) 4 = m.toNat := by simp at hh hlo hhi ⊢; have := m.toNat_lt; omega
  unfold finish
  rw [Nat.add_sub_cancel, hsplit, write32, load_store, load_store_of_disjoint (by omega), read32,
    hlow, hhigh, makeHeader_eq m hs, lengthMask_eq, Nat.and_two_pow_sub_one_eq_mod]
  simp [lengthField]
  omega

theorem finish_of_not_mem {b : Nat → UInt8} {index j : Nat} (hj : j < index ∨ index + 4 ≤ j) :
    finish b (index + Const.headerSize) j = b j := by
  unfold finish write32
  rw [Nat.add_sub_cancel]
  exact store_of_not_mem hj

/-! ## Prepare -/

/-- What `prepare`'s checks let through: a type that is not reserved, and a message whose
record fits in half the buffer. -/
theorem checkPrepare_ok {c : Const} {m : Message} {size rsize : Nat}
    (h : checkPrepare c m size = .ok rsize) :
    Const.msgMin ≤ m ∧ m ≤ Const.msgMax ∧ size ≤ Const.maxSize ∧ rsize = Const.entrySize size ∧
      rsize ≤ c.size / 2 := by
  dsimp only [checkPrepare] at h
  split at h
  · cases h
  · rename_i hm
    split at h
    · cases h
    · rename_i hsize
      split at h
      · cases h
      · rename_i hroom
        cases h
        obtain ⟨hmin, hmax⟩ := not_or.mp hm
        exact ⟨UInt32.not_lt.mp hmin, UInt32.not_lt.mp hmax, by omega, rfl,
          by unfold Const.maxReservationSize at hroom; omega⟩

/-! ## Reserve -/

section Reserve

variable {c : Const} {size hd tl head₁ head₂ head padding tlIndex : Nat} {cache : Option Nat}

/-- The second half of a round, from a head `hd` at most a buffer's size behind the tail the
round holds, with room for the message between them: when it exchanges, the message goes
before the end of the buffer, or at its start after padding out the end, and the new tail is
at most a buffer's size past any later head. -/
theorem placeRound_exchange (hroom : tl + size ≤ hd + c.size)
    (hhd : hd ≤ tl) (h₂ : hd ≤ head₂) (hhead : head₂ ≤ head) (htl : head ≤ tl)
    {cache₀ : Option Nat}
    (hr : placeRound c size hd tl head₂ cache₀ = (.exchange padding tlIndex, cache)) :
    tlIndex = tl % c.size ∧
      (padding = 0 ∧ tlIndex + size ≤ c.size ∨
        padding = c.size - tlIndex ∧ 0 < padding ∧ padding < size) ∧
      tl + padding + size ≤ head + c.size := by
  dsimp only [placeRound] at hr
  simp only [Const.and_mask] at hr
  have hpos : 0 < c.size := by obtain ⟨k, hk⟩ := c.powerOfTwo; rw [hk]; exact Nat.two_pow_pos k
  have hlt := Nat.mod_lt tl hpos
  split at hr
  · -- padding: every head from `hd` on is in the lap of the tail, and far enough into it
    rename_i hback
    have hlap : ∀ h, hd ≤ h → h ≤ tl → h % c.size = h - (tl - tl % c.size) := fun h hlo hhi =>
      Circular.mod_of_same_lap (by omega) hhi
    split at hr
    · split at hr
      · cases hr
      · cases hr
        rename_i _ hfront
        have := hlap head₂ h₂ (by omega)
        exact ⟨rfl, .inr ⟨rfl, by omega, by omega⟩, by omega⟩
    · cases hr
      rename_i hfront
      have := hlap hd le_rfl hhd
      exact ⟨rfl, .inr ⟨rfl, by omega, by omega⟩, by omega⟩
  · cases hr
    exact ⟨rfl, .inl ⟨rfl, by omega⟩, by omega⟩

/-- **A round that exchanges the tail it holds for the tail now is safe.** From values of the
head in the order loaded, the record it reserves does not run past the end of the buffer, and
the new tail is at most a buffer's size past the head: it overlaps nothing unread. -/
theorem reserveRound_exchange (hsize : 0 < size) (h₀ : hd ≤ head₁) (h₁ : head₁ ≤ head₂)
    (h₂ : head₂ ≤ head) (htl : head ≤ tl)
    (hr : reserveRound c size hd tl head₁ head₂ = (.exchange padding tlIndex, cache)) :
    tlIndex = tl % c.size ∧
      (padding = 0 ∧ tlIndex + size ≤ c.size ∨
        padding = c.size - tlIndex ∧ 0 < padding ∧ padding < size) ∧
      tl + padding + size ≤ head + c.size := by
  dsimp only [reserveRound] at hr
  split at hr
  · -- an accurate head, `head₁`
    split at hr
    · cases hr
    · split at hr
      · cases hr
      · exact placeRound_exchange (by omega) (by omega) h₁ h₂ htl hr
  · exact placeRound_exchange (by omega) (by omega) (by omega) h₂ htl hr

/-- What a round stores in `head_cache` is a value of the head it loaded. -/
theorem reserveRound_cache {r : Round} (h₁ : head₁ ≤ head₂) (h₂ : head₂ ≤ head)
    (hr : reserveRound c size hd tl head₁ head₂ = (r, cache)) : ∀ h, cache = some h → h ≤ head := by
  have hplace : ∀ {hd' : Nat} {cache₀ : Option Nat}, (∀ h, cache₀ = some h → h ≤ head) →
      placeRound c size hd' tl head₂ cache₀ = (r, cache) → ∀ h, cache = some h → h ≤ head := by
    intro hd' cache₀ h₀' hp h hc
    dsimp only [placeRound] at hp
    split at hp
    · split at hp
      · split at hp
        · cases hp; exact h₀' h hc
        · cases hp; cases hc; omega
      · cases hp; exact h₀' h hc
    · cases hp; exact h₀' h hc
  dsimp only [reserveRound] at hr
  split at hr
  · split at hr
    · cases hr; simp
    · split at hr
      · cases hr; simp
      · exact hplace (fun h hh => by cases hh; omega) hr
  · exact hplace (by simp) hr

/-- A round that retries holds a tail the head has passed: its compare-and-exchange is bound
to fail, as the source's comment says. -/
theorem reserveRound_retry (h₁ : head₁ ≤ head₂) (h₂ : head₂ ≤ head)
    {tail : Nat} (htail : head ≤ tail)
    (hr : reserveRound c size hd tl head₁ head₂ = (.retry, cache)) : tl < tail := by
  dsimp only [reserveRound] at hr
  split at hr
  · split at hr
    · omega
    · split at hr
      · cases hr
      · dsimp only [placeRound] at hr
        split at hr
        · split at hr
          · split at hr <;> cases hr
          · cases hr
        · cases hr
  · dsimp only [placeRound] at hr
    split at hr
    · split at hr
      · split at hr <;> cases hr
      · cases hr
    · cases hr

end Reserve

/-! ## Progress -/

section Progress

variable {c : Const} {size hd tl : Nat}

/-- With the tail caught up by the head, a record of at most half the buffer fits before the
end of the buffer or, after padding the end, before the tail's index: the second half of a
round never fails. -/
theorem placeRound_caught_up (hhalf : 2 * size ≤ c.size) (cache₀ : Option Nat) :
    ∃ padding tlIndex cache, placeRound c size hd tl tl cache₀ = (.exchange padding tlIndex, cache) := by
  dsimp only [placeRound]
  simp only [Const.and_mask]
  split
  · split
    · -- the back-space and the front-space of the tail's lap together are the whole buffer
      rw [if_neg (by omega)]
      exact ⟨_, _, _, rfl⟩
    · exact ⟨_, _, _, rfl⟩
  · exact ⟨_, _, _, rfl⟩

/-- A round that loads a head equal to the tail it holds exchanges the tail, whatever the head
cache held. -/
theorem reserveRound_caught_up (hhalf : 2 * size ≤ c.size) :
    ∃ padding tlIndex cache, reserveRound c size hd tl tl tl = (.exchange padding tlIndex, cache) := by
  dsimp only [reserveRound]
  split
  · rw [if_neg (Nat.lt_irrefl tl), Nat.sub_self, if_neg (by omega)]
    exact placeRound_caught_up hhalf _
  · exact placeRound_caught_up hhalf _

/-- The checks of `prepare` pass a type that is not reserved and a message no longer than
`max_size` whose record fits in half the buffer. -/
theorem checkPrepare_of_fits {m : Message} {n : Nat} (hm : Const.msgMin ≤ m ∧ m ≤ Const.msgMax)
    (hn : n ≤ Const.maxSize) (hfit : Const.entrySize n ≤ Const.maxReservationSize c.size) :
    checkPrepare c m n = .ok (Const.entrySize n) := by
  have hok : ¬ (m < Const.msgMin ∨ m > Const.msgMax) := by
    rintro (h | h)
    · exact UInt32.not_lt.mpr hm.1 h
    · exact UInt32.not_lt.mpr hm.2 h
  unfold checkPrepare
  rw [if_neg hok, if_neg (by omega)]
  dsimp only
  rw [if_neg (by omega)]

variable {W : Type} [DecidableEq W]

theorem prepare_progress {s : Ring W} (hread : s.head = s.tail) {w : W} {m : Message}
    {sections : List (List UInt8)} (hw : s.writers w = .start m sections)
    (hm : Const.msgMin ≤ m ∧ m ≤ Const.msgMax) (hn : totalSize sections ≤ Const.maxSize)
    (hfit : Const.entrySize (totalSize sections) ≤ Const.maxReservationSize c.size) :
    checkPrepare c m (totalSize sections) = .ok (Const.entrySize (totalSize sections)) ∧
      ∀ hd ≤ s.head, ∃ padding tlIndex cache s',
        reserveRound c (Const.entrySize (totalSize sections)) hd s.tail s.head s.head =
          (.exchange padding tlIndex, cache) ∧ Step c s (some (.reserve w)) s' := by
  have hok := checkPrepare_of_fits hm hn hfit
  refine ⟨hok, fun hd hhd => ?_⟩
  have hhalf : 2 * Const.entrySize (totalSize sections) ≤ c.size := by
    unfold Const.maxReservationSize at hfit
    omega
  have hcaught : ∃ padding tlIndex cache, reserveRound c (Const.entrySize (totalSize sections)) hd
      s.tail s.tail s.tail = (.exchange padding tlIndex, cache) := reserveRound_caught_up hhalf
  obtain ⟨padding, tlIndex, cache, hr⟩ := hcaught
  -- the loads of the head give the tail itself: the round holds the tail now and exchanges it
  have hround : reserveRound c (Const.entrySize (totalSize sections)) hd s.tail s.head s.head =
      (.exchange padding tlIndex, cache) := by
    rw [hread]
    exact hr
  exact ⟨padding, tlIndex, cache, _, hround, .exchange hw hok hhd le_rfl le_rfl hround⟩

end Progress

/-- The test's reader: a buffer of 32 bytes. -/
def size32 : Const := ⟨32, 5, rfl⟩

/-- Everything written to the test's buffer has been read, at tail 40; one writer is about to
send a message of three bytes. -/
def caughtUp32 : Ring Unit where
  buffer _ := 0
  headCache := 40
  tail := 40
  head := 40
  writers _ := .start 1 [[1, 2, 3]]

theorem prepare_progress_caughtUp32 :
    checkPrepare size32 1 (totalSize [[1, 2, 3]]) = .ok (Const.entrySize (totalSize [[1, 2, 3]])) ∧
      ∀ hd ≤ caughtUp32.head, ∃ padding tlIndex cache s',
        reserveRound size32 (Const.entrySize (totalSize [[1, 2, 3]])) hd caughtUp32.tail
            caughtUp32.head caughtUp32.head = (.exchange padding tlIndex, cache) ∧
          Step size32 caughtUp32 (some (.reserve ())) s' :=
  prepare_progress rfl rfl (by decide) (by decide) (by decide)

/-- A reader's buffer of `2 ^ 33` bytes. -/
def bigBuffer : Const := ⟨2 ^ 33, 33, rfl⟩

theorem prepare_rejects_long_message :
    Const.entrySize (2 ^ 31 - 8) ≤ Const.maxReservationSize bigBuffer.size ∧
      ∃ e, checkPrepare bigBuffer Const.msgMin (2 ^ 31 - 8) = .error e :=
  ⟨by decide, _, rfl⟩

end Ccf.Ringbuffer
