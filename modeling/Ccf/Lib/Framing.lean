import Ccf.Lib.Codec

/-!
# Length-prefixed frames over a byte stream

A sender cuts its messages into frames, each the message's length in `w` little-endian bytes
and then the message. A receiver gets the stream in chunks of any sizes and keeps what it has
not used: it waits for a length, then for that many bytes, hands the message on, and waits for
the next length. `resume` is that receiver, run on everything it holds; `accept` says which
lengths it goes on with, and at any other length it stops for good.

The two facts a receiver needs are here once. The chunks do not matter: what `resume` gives on
all the bytes is what it gave on a first part followed by what it gives on the rest from where
it stopped (`resume_append`), so a run over chunks computes `resume` of their concatenation
(`feedAll_eq_resume`). And a stream of frames of accepted lengths gives back its messages
(`resume_frames`), and every prefix of it a prefix of them (`resume_isPrefix`).
-/

namespace Framing

/-- The frame of a message: its length in `w` bytes, least significant first, then the message. -/
def frame (w : Nat) (m : List UInt8) : List UInt8 := Codec.le w m.length ++ m

/-- The frames of the messages, one after the other. -/
def frames (w : Nat) (ms : List (List UInt8)) : List UInt8 := (ms.map (frame w)).flatten

-- Made here once: the equation lemmas that the proofs below unfold.
section
attribute [local simp] frame frames
end

@[simp] theorem frames_nil (w : Nat) : frames w [] = [] := rfl

@[simp] theorem frames_cons (w : Nat) (m : List UInt8) (ms : List (List UInt8)) :
    frames w (m :: ms) = Codec.le w m.length ++ m ++ frames w ms := by
  simp [frames, frame]

/-- Where a receiver is in the stream, with the bytes it holds: waiting for a length, waiting
for the `n` bytes of a message, or stopped. -/
inductive Waiting
  | length (buf : List UInt8)
  | payload (n : Nat) (buf : List UInt8)
  | stopped
  deriving DecidableEq, Repr

namespace Waiting

/-- More bytes arrive. A stopped receiver drops them. -/
def append : Waiting → List UInt8 → Waiting
  | .length buf, bs => .length (buf ++ bs)
  | .payload n buf, bs => .payload n (buf ++ bs)
  | .stopped, _ => .stopped

/-- The bytes the receiver holds. -/
def held : Waiting → List UInt8
  | .length buf => buf
  | .payload _ buf => buf
  | .stopped => []

/-- Reading a length uses `w ≥ 1` bytes and moves to the payload; delivering a message moves
back to a length with at most as many bytes: twice the bytes, plus one for a payload to come. -/
def measure : Waiting → Nat
  | .length buf => 2 * buf.length + 1
  | .payload _ buf => 2 * buf.length + 2
  | .stopped => 0

-- Made here once: the equation lemmas that the proofs below unfold.
section
attribute [local simp] append measure
end

@[simp] theorem append_length (buf bs : List UInt8) :
    (Waiting.length buf).append bs = .length (buf ++ bs) := rfl

@[simp] theorem append_payload (n : Nat) (buf bs : List UInt8) :
    (Waiting.payload n buf).append bs = .payload n (buf ++ bs) := rfl

@[simp] theorem append_stopped (bs : List UInt8) : Waiting.stopped.append bs = .stopped := rfl

@[simp] theorem held_length (buf : List UInt8) : (Waiting.length buf).held = buf := rfl

@[simp] theorem held_payload (n : Nat) (buf : List UInt8) : (Waiting.payload n buf).held = buf :=
  rfl

@[simp] theorem append_nil (s : Waiting) : s.append [] = s := by
  cases s <;> simp [append]

theorem append_append (s : Waiting) (bs cs : List UInt8) :
    (s.append bs).append cs = s.append (bs ++ cs) := by
  cases s <;> simp [append]

end Waiting

section Resume

variable (w : Nat) (accept : Nat → Bool)

/-- The receiver on everything it holds: the messages it hands on, in order, and where it then
waits. -/
def resume [NeZero w] : Waiting → List (List UInt8) × Waiting
  | .length buf =>
      if buf.length < w then ([], .length buf)
      else if accept (Codec.ofLe (buf.take w)) then
        resume (.payload (Codec.ofLe (buf.take w)) (buf.drop w))
      else ([], .stopped)
  | .payload n buf =>
      if buf.length < n then ([], .payload n buf)
      else
        let rest := resume (.length (buf.drop n))
        (buf.take n :: rest.1, rest.2)
  | .stopped => ([], .stopped)
termination_by s => s.measure
decreasing_by
  all_goals simp only [Waiting.measure, List.length_drop]
  · have : 0 < w := Nat.pos_of_neZero w
    omega
  · omega

/-- The receiver over a run of chunks, each taken in as it comes: all the messages it handed
on, and where it waits after the last chunk. -/
def feedAll [NeZero w] : Waiting → List (List UInt8) → List (List UInt8) × Waiting
  | s, [] => ([], s)
  | s, c :: cs =>
      let now := resume w accept (s.append c)
      let later := feedAll now.2 cs
      (now.1 ++ later.1, later.2)

-- Made here once: the equation lemmas that the proofs below unfold.
section
attribute [local simp] resume feedAll
end

/-! ## One step of `resume` -/

variable {w accept} [NeZero w]

theorem resume_length_short {buf : List UInt8} (h : buf.length < w) :
    resume w accept (.length buf) = ([], .length buf) := by
  rw [resume.eq_1, if_pos h]

theorem resume_length_accept {buf : List UInt8} (h : w ≤ buf.length)
    (ha : accept (Codec.ofLe (buf.take w)) = true) :
    resume w accept (.length buf) =
      resume w accept (.payload (Codec.ofLe (buf.take w)) (buf.drop w)) := by
  rw [resume.eq_1, if_neg (Nat.not_lt.mpr h), if_pos ha]

theorem resume_length_reject {buf : List UInt8} (h : w ≤ buf.length)
    (ha : accept (Codec.ofLe (buf.take w)) = false) :
    resume w accept (.length buf) = ([], .stopped) := by
  rw [resume.eq_1, if_neg (Nat.not_lt.mpr h), if_neg (by simp [ha])]

theorem resume_payload_short {n : Nat} {buf : List UInt8} (h : buf.length < n) :
    resume w accept (.payload n buf) = ([], .payload n buf) := by
  rw [resume.eq_2, if_pos h]

theorem resume_payload_full {n : Nat} {buf : List UInt8} (h : n ≤ buf.length) :
    resume w accept (.payload n buf) =
      (buf.take n :: (resume w accept (.length (buf.drop n))).1,
        (resume w accept (.length (buf.drop n))).2) := by
  rw [resume.eq_2, if_neg (Nat.not_lt.mpr h)]

@[simp] theorem resume_stopped : resume w accept .stopped = ([], .stopped) := by
  rw [resume.eq_3]

theorem resume_nil : resume w accept (.length []) = ([], .length []) :=
  resume_length_short (Nat.pos_of_neZero w)

/-! ## The chunks do not matter -/

/-- **Bytes that arrive later continue the run.** What the receiver hands on given more bytes
is what it handed on before, followed by what it hands on from where it waited with the new
bytes added. -/
theorem resume_append (s : Waiting) (bs : List UInt8) :
    resume w accept (s.append bs) =
      ((resume w accept s).1 ++ (resume w accept ((resume w accept s).2.append bs)).1,
        (resume w accept ((resume w accept s).2.append bs)).2) := by
  fun_induction resume w accept s with
  | case1 buf hshort => simp
  | case2 buf hlong ha ih =>
    -- the length is read from the same first `w` bytes
    have hle : w ≤ buf.length := Nat.not_lt.mp hlong
    have htake : (buf ++ bs).take w = buf.take w := List.take_append_of_le_length hle
    rw [Waiting.append_length, resume_length_accept (by simp; omega) (by rw [htake]; exact ha),
      htake, List.drop_append_of_le_length hle, ← Waiting.append_payload, ih]
  | case3 buf hlong ha =>
    have hle : w ≤ buf.length := Nat.not_lt.mp hlong
    have htake : (buf ++ bs).take w = buf.take w := List.take_append_of_le_length hle
    rw [Waiting.append_length, resume_length_reject (by simp; omega)
      (by rw [htake]; simpa using ha)]
    simp
  | case4 n buf hshort => simp
  | case5 n buf hlong rest ih =>
    -- the message is the same first `n` bytes, and the rest goes on with the new bytes
    have hle : n ≤ buf.length := Nat.not_lt.mp hlong
    rw [Waiting.append_payload, resume_payload_full (by simp; omega),
      List.take_append_of_le_length hle, List.drop_append_of_le_length hle,
      ← Waiting.append_length, ih]
    simp [rest]
  | case6 => simp

/-- Where `resume` stops waiting it has nothing more to hand on. -/
theorem resume_settled (s : Waiting) :
    resume w accept (resume w accept s).2 = ([], (resume w accept s).2) := by
  fun_induction resume w accept s with
  | case1 buf hshort => exact resume_length_short hshort
  | case2 buf hlong ha ih => exact ih
  | case3 buf hlong ha => simp
  | case4 n buf hshort => exact resume_payload_short hshort
  | case5 n buf hlong rest ih => exact ih
  | case6 => simp

/-- A stopped receiver hands nothing on, whatever arrives. -/
@[simp] theorem feedAll_stopped (cs : List (List UInt8)) :
    feedAll w accept .stopped cs = ([], .stopped) := by
  induction cs with
  | nil => rfl
  | cons c cs ih => simp [feedAll, ih]

/-- Once a run has stopped, later chunks change nothing. -/
theorem feedAll_cons_of_stopped {s : Waiting} {c : List UInt8} (cs : List (List UInt8))
    (h : (resume w accept (s.append c)).2 = .stopped) :
    (feedAll w accept s (c :: cs)).2 = .stopped := by
  simp [feedAll, h]

/-- **A run over chunks is `resume` on all of them.** From where the receiver waits, taking the
chunks in one at a time hands on what taking their concatenation at once does. -/
theorem feedAll_eq_resume (s : Waiting) (hs : resume w accept s = ([], s))
    (cs : List (List UInt8)) :
    feedAll w accept s cs = resume w accept (s.append cs.flatten) := by
  induction cs generalizing s with
  | nil => simpa [feedAll] using hs.symm
  | cons c cs ih =>
    -- after the first chunk the receiver waits again, so the rest is `resume` on the others
    have hsettled := @resume_settled w accept _ (s.append c)
    rw [feedAll, ih _ hsettled, List.flatten_cons, ← Waiting.append_append,
      resume_append (s.append c)]

/-! ## Streams of frames -/

/-- A stream that starts with frames of accepted lengths gives their messages, and then goes on
as the bytes after them do. -/
theorem resume_frames (ms : List (List UInt8))
    (hms : ∀ m ∈ ms, accept m.length = true ∧ m.length < 256 ^ w) (rest : List UInt8) :
    resume w accept (.length (frames w ms ++ rest)) =
      (ms ++ (resume w accept (.length rest)).1, (resume w accept (.length rest)).2) := by
  induction ms with
  | nil => rfl
  | cons m ms ih =>
    obtain ⟨hacc, hlt⟩ := hms m List.mem_cons_self
    -- the first `w` bytes are the length of `m`, and the `m.length` bytes after them are `m`
    have hlen : Codec.ofLe ((frames w (m :: ms) ++ rest).take w) = m.length := by
      rw [frames_cons, List.append_assoc, List.append_assoc, Codec.ofLe_take_le_append,
        Nat.mod_eq_of_lt hlt]
    have hdrop : (frames w (m :: ms) ++ rest).drop w = m ++ (frames w ms ++ rest) := by
      rw [frames_cons, List.append_assoc, List.append_assoc, List.drop_left' (Codec.length_le _ _)]
    have hw : w ≤ (frames w (m :: ms) ++ rest).length := by simp
    rw [resume_length_accept hw (by rw [hlen]; exact hacc), hlen, hdrop,
      resume_payload_full (by simp), List.take_left' rfl, List.drop_left' rfl,
      ih fun m' hm' => hms m' (List.mem_cons_of_mem m hm')]
    rfl

/-- A whole stream of frames of accepted lengths gives their messages, and the receiver waits
for the next length with nothing held. -/
theorem resume_frames_all (ms : List (List UInt8))
    (hms : ∀ m ∈ ms, accept m.length = true ∧ m.length < 256 ^ w) :
    resume w accept (.length (frames w ms)) = (ms, .length []) := by
  have h := resume_frames ms hms []
  rw [List.append_nil, resume_nil] at h
  simpa using h

/-- Every prefix of a stream of frames of accepted lengths gives a prefix of their messages,
and leaves the receiver waiting, not stopped. -/
theorem resume_isPrefix (ms : List (List UInt8))
    (hms : ∀ m ∈ ms, accept m.length = true ∧ m.length < 256 ^ w) {bs rest : List UInt8}
    (h : bs ++ rest = frames w ms) :
    (resume w accept (.length bs)).1 <+: ms ∧ (resume w accept (.length bs)).2 ≠ .stopped := by
  have hall := resume_frames_all ms hms
  rw [← h, ← Waiting.append_length, resume_append] at hall
  constructor
  · exact ⟨_, (Prod.mk.inj hall).1⟩
  · intro hstop
    rw [hstop] at hall
    simp at hall

/-- **Any chunking of a stream of frames gives back its messages.** Taken in chunk by chunk,
from a receiver waiting for a length with nothing held, a stream of frames of accepted lengths
gives its messages and leaves the receiver as it was; after any number of the chunks it has
given a prefix of them, and has not stopped. -/
theorem feedAll_frames (ms : List (List UInt8))
    (hms : ∀ m ∈ ms, accept m.length = true ∧ m.length < 256 ^ w) (cs : List (List UInt8))
    (hcs : cs.flatten = frames w ms) :
    feedAll w accept (.length []) cs = (ms, .length []) ∧
      ∀ k, (feedAll w accept (.length []) (cs.take k)).1 <+: ms ∧
        (feedAll w accept (.length []) (cs.take k)).2 ≠ .stopped := by
  constructor
  · rw [feedAll_eq_resume _ resume_nil, Waiting.append_length, List.nil_append, hcs]
    exact resume_frames_all ms hms
  · intro k
    have hsplit : (cs.take k).flatten ++ (cs.drop k).flatten = frames w ms := by
      rw [← List.flatten_append, List.take_append_drop, hcs]
    rw [feedAll_eq_resume _ resume_nil, Waiting.append_length, List.nil_append]
    exact resume_isPrefix ms hms hsplit

end Resume

end Framing
