import Ccf.Pbft.Log

/-!
# `Log::truncate` across `2^31`

`truncate(new_head)` clears the slots of `[head, new_head)` by a loop over `int`s from
`(int)head` to `(int)new_head`. When the two sequence numbers lie on either side of
`2^31`, the second converts to a negative `int` and the first does not, so the loop
does not run at all: nothing is cleared, yet the head moves on. The entry of a
sequence number that has left the window then stays in its slot and is returned by
`fetch` for the sequence number that takes the slot over (`truncate_keeps_stale_entry`).
Below `2^31`, or with a gap of at least `max_size`, the loop bounds are the sequence
numbers themselves.
-/

namespace Ccf.Pbft

/-- The entries of the run below: a slot is empty or holds a value, and `clear()`
empties it. -/
instance : Clear (Option Nat) := ⟨fun _ => none⟩

/-- **`truncate` leaves the entry of `2^31 - 1` in place.** A log of 4 slots is truncated
to head `2^31 - 1 = 2147483647`, and the entry for `2^31 - 1` is set. Truncating to
`2^31 + 1` moves the head but clears nothing, so `fetch(2^31 + 3)`, which shares the
slot of `2^31 - 1` and was never written, returns that entry. -/
theorem truncate_keeps_stale_entry :
    ∃ l : Log (Option Nat),
      ((Log.new 4 1 : Log (Option Nat)).truncate 2147483647).modify 2147483647
          (fun _ => some 1) = .ok l ∧
        (l.truncate 2147483649).head = 2147483649 ∧
        (l.truncate 2147483649).fetch 2147483651 = .ok (some 1) :=
  ⟨_, rfl, rfl, by decide⟩

end Ccf.Pbft
