import Ccf.Enclave.TlsEndpoint
import Ccf.Lib.Framing

/-!
# What a framed TLS session hands to `handle_data`

The endpoint's plain text still to read is `read_buffer` followed by the context's (`avail`).
An exact `read(n, true)` takes the first `n` bytes of it when there are that many, and otherwise
takes nothing and leaves all of it, however the context cuts it into records and however many
times the read goes round (`readFuel_exact`).

With that, the loop of `FramedTLSEndpoint::recv` is the receiver of `Framing` with lengths of
four bytes that goes on with the lengths from 1 to `1 << 21` (`takes`): a longer length closes
the session, and a length of 0 reads nothing, then and at every later call. What it hands on
goes to `handle_data` one request at a time until one is refused, which closes the session
(`handleAll`). So `recv` is a step of the receiver (`recv_resume`), a run of calls is
`Framing.feedAll` (`recvAll_feedAll`), and the requests `send` frames reach `handle_data`, in
order and whole, however the stream is cut (`framed_round_trip`).
-/

namespace Ccf.Enclave

open Framing

instance : NeZero sizeOfLength := ⟨by decide⟩

namespace Endpoint

/-- The plain text the endpoint has still to read: `read_buffer`, then the context's. -/
def avail (e : Endpoint) : List UInt8 := e.readBuffer ++ e.records.flatten

-- Made here once: the equation lemmas that the proofs below unfold.
section
attribute [local simp] avail
end

@[simp] theorem avail_mk_buffer (e : Endpoint) (rb : List UInt8) (recs : List (List UInt8)) :
    ({ e with readBuffer := rb, records := recs } : Endpoint).avail = rb ++ recs.flatten := rfl

/-! ## The context and `read` -/

/-- `ctx->read` with room for a byte gives some of the bytes at the front of the plain text, or
`WANT_READ` when there are none. -/
theorem ctxRead_spec (rs : List (List UInt8)) {len : Nat} (hlen : 0 < len) :
    (rs.flatten = [] ∧ ctxRead rs len = (none, [])) ∨
      ∃ got rest, ctxRead rs len = (some got, rest) ∧ got ≠ [] ∧ got.length ≤ len ∧
        got ++ rest.flatten = rs.flatten := by
  induction rs with
  | nil => exact .inl ⟨rfl, rfl⟩
  | cons r rs ih =>
    by_cases hr : r = []
    · subst hr
      rw [ctxRead, if_pos rfl]
      simpa using ih
    · right
      by_cases hlt : len < r.length
      · refine ⟨r.take len, r.drop len :: rs, by rw [ctxRead, if_neg hr, if_pos hlt], ?_,
          List.length_take_le len r,
          by rw [List.flatten_cons, ← List.append_assoc, List.take_append_drop]; rfl⟩
        simp [List.take_eq_nil_iff, hr, Nat.pos_iff_ne_zero.mp hlen]
      · exact ⟨r, rs, by rw [ctxRead, if_neg hr, if_neg hlt], hr, Nat.not_lt.mp hlt, rfl⟩

/-- `ctx->read` with no room gives no bytes. -/
theorem ctxRead_zero (rs : List (List UInt8)) :
    (ctxRead rs 0).1 = none ∨ (ctxRead rs 0).1 = some [] := by
  induction rs with
  | nil => exact .inl rfl
  | cons r rs ih =>
    by_cases hr : r = []
    · rw [ctxRead, if_pos hr]
      exact ih
    · right
      rw [ctxRead, if_neg hr, if_pos (List.length_pos_iff.mpr hr)]
      simp

/-- With at least `n` bytes in `read_buffer`, an exact read takes them from there. -/
theorem readFuel_of_le {n : Nat} (fuel : Nat) {e : Endpoint} (h : e.status = .ready)
    (hn : 0 < n) (hle : n ≤ e.readBuffer.length) :
    readFuel (fuel + 1) n true e =
      (e.readBuffer.take n, { e with readBuffer := e.readBuffer.drop n }) := by
  have hb : e.readBuffer ≠ [] := List.ne_nil_of_length_pos (Nat.lt_of_lt_of_le hn hle)
  simp [readFuel, h, hb, Nat.min_eq_left hle]

/-- With fewer than `n` bytes in `read_buffer`, an exact read takes all of them and asks the
context for the rest. -/
theorem readFuel_of_lt {n : Nat} (fuel : Nat) {e : Endpoint} (h : e.status = .ready)
    (hlt : e.readBuffer.length < n) :
    readFuel (fuel + 1) n true e =
      match ctxRead e.records (n - e.readBuffer.length) with
      | (none, records) => ([], { e with records := records })
      | (some got, records) =>
          if got = [] then ([], ({ e with readBuffer := [], records := records }).stop .closed)
          else if (e.readBuffer ++ got).length < n then
            readFuel fuel n true { e with readBuffer := e.readBuffer ++ got, records := records }
          else (e.readBuffer ++ got, { e with readBuffer := [], records := records }) := by
  -- whether `read_buffer` was empty or not, all of it is taken
  have hoff : (if decide (e.readBuffer ≠ []) = true then min n e.readBuffer.length else 0) =
      e.readBuffer.length := by
    by_cases hb : e.readBuffer = []
    · simp [hb]
    · simp [hb, Nat.min_eq_right (Nat.le_of_lt hlt)]
  have hcond : ¬(decide (e.readBuffer ≠ []) = true ∧
      (if decide (e.readBuffer ≠ []) = true then min n e.readBuffer.length else 0) = n) := by
    rw [hoff]
    omega
  rw [readFuel, if_neg (by simp [h])]
  simp only
  rw [if_neg hcond, hoff, List.take_length, List.drop_length]
  rcases ctxRead e.records (n - e.readBuffer.length) with ⟨_ | got, records⟩
  · rfl
  · by_cases hg : got = []
    · simp [hg]
    · simp only [hg, if_false, true_and]

/-- **An exact read takes the next `n` bytes or none.** From a ready endpoint, `read(n, true)`
gives the first `n` bytes of what it has to read and leaves the rest, when there are that many;
otherwise it gives nothing and leaves everything. Only `read_buffer` and the context change. -/
theorem readFuel_exact {n : Nat} (hn : 0 < n) :
    ∀ (fuel : Nat) (e : Endpoint), e.status = .ready → n - e.readBuffer.length < fuel →
      ∃ rb recs, readFuel fuel n true e =
          (if n ≤ e.avail.length then e.avail.take n else [],
            { e with readBuffer := rb, records := recs }) ∧
        rb ++ recs.flatten = if n ≤ e.avail.length then e.avail.drop n else e.avail := by
  intro fuel
  induction fuel with
  | zero => intro e _ hfuel; omega
  | succ fuel ih =>
    intro e h hfuel
    by_cases hle : n ≤ e.readBuffer.length
    · -- `read_buffer` has them all
      have havail : n ≤ e.avail.length := by simp [avail]; omega
      refine ⟨e.readBuffer.drop n, e.records, ?_, ?_⟩
      · rw [readFuel_of_le fuel h hn hle, if_pos havail, avail,
          List.take_append_of_le_length hle]
      · rw [if_pos havail, avail, List.drop_append_of_le_length hle]
    · have hlt : e.readBuffer.length < n := Nat.lt_of_not_le hle
      rw [readFuel_of_lt fuel h hlt]
      rcases ctxRead_spec e.records (Nat.sub_pos_of_lt hlt) with ⟨hnil, hnone⟩ |
        ⟨got, rest, hsome, hne, hgot, hflat⟩
      · -- `WANT_READ`: fewer than `n` bytes, and all of them stay
        have havail : ¬n ≤ e.avail.length := by simp [avail, hnil]; omega
        refine ⟨e.readBuffer, [], ?_, by rw [if_neg havail, avail, hnil]; rfl⟩
        rw [hnone, if_neg havail]
      · rw [hsome]
        simp only [hne, if_false]
        have havail : e.avail = (e.readBuffer ++ got) ++ rest.flatten := by
          rw [avail, List.append_assoc, hflat]
        have hgot1 : 0 < got.length := List.length_pos_iff.mpr hne
        by_cases hshort : (e.readBuffer ++ got).length < n
        · -- some bytes but not enough: the call is made again, with them in `read_buffer`
          rw [if_pos hshort]
          obtain ⟨rb, recs, hrun, hrest⟩ :=
            ih { e with readBuffer := e.readBuffer ++ got, records := rest } h
              (by simp at hshort ⊢; omega)
          refine ⟨rb, recs, ?_, ?_⟩
          · rw [hrun]
            simp only [avail_mk_buffer, ← havail]
          · simpa only [avail_mk_buffer, ← havail] using hrest
        · -- exactly `n` bytes: `got` is never more than was asked for
          have hexact : (e.readBuffer ++ got).length = n := by simp at hshort ⊢; omega
          have havail' : n ≤ e.avail.length := by rw [havail]; simp at hexact ⊢; omega
          rw [if_neg hshort]
          refine ⟨[], rest, ?_, ?_⟩
          · rw [if_pos havail', havail, ← hexact, List.take_left' rfl]
          · rw [if_pos havail', havail, ← hexact, List.drop_left' rfl, List.nil_append]

/-- `read(n, true)` of a ready endpoint, `n ≥ 1`: the next `n` bytes, or none. -/
theorem read_exact {n : Nat} (hn : 0 < n) {e : Endpoint} (h : e.status = .ready) :
    ∃ rb recs, e.read n true =
        (if n ≤ e.avail.length then e.avail.take n else [],
          { e with readBuffer := rb, records := recs }) ∧
      rb ++ recs.flatten = if n ≤ e.avail.length then e.avail.drop n else e.avail :=
  readFuel_exact hn (n + 1) e h (by omega)

/-- `read(0, true)` gives nothing: what it takes from `read_buffer` is none of it, and what it
gets from the context is none or 0. -/
theorem read_zero (e : Endpoint) : (e.read 0 true).1 = [] := by
  unfold Endpoint.read readFuel
  by_cases h : e.status = .ready
  · rw [if_neg (by simp [h])]
    by_cases hb : e.readBuffer = []
    · simp only [hb, ne_eq, not_true_eq_false, decide_false, Bool.false_eq_true, if_false,
        false_and]
      rcases ctxRead_zero e.records with hz | hz <;>
        rcases hc : ctxRead e.records 0 with ⟨_ | got, recs⟩ <;> simp_all
    · simp [hb]
  · rw [if_pos h]

/-! ## Closing -/

/-- After `close`, the session is not ready, whatever it was. -/
theorem close_status (e : Endpoint) : e.close.status ≠ .ready := by
  unfold close stop
  cases h : e.status <;> simp [h]

end Endpoint

/-! ## The loop of `recv` -/

namespace Framed

open Endpoint

variable {H : Type} (handleData : H → List UInt8 → H × Bool)

/-- The lengths the loop goes on with: at least one byte, or `read` gives nothing, and at most
`1 << 21`, or the session is closed. -/
def takes (n : Nat) : Bool := decide (1 ≤ n) && decide (n ≤ maxMsgSize)

/-- A session that hands nothing more to `handle_data`: one that is not ready, or that read a
length of 0, for which `read` never gives anything. -/
def Stopped (f : Framed H) : Prop := f.ep.status ≠ .ready ∨ f.msgSize = 0

/-- The session is the receiver in state `s`: ready, with `msg_size` tracking `s` and the plain
text still to read held by `s`, or stopped. -/
def Holds (f : Framed H) : Waiting → Prop
  | .length buf => f.ep.status = .ready ∧ f.msgSize = noMsgSize ∧ f.ep.avail = buf
  | .payload n buf => f.ep.status = .ready ∧ f.msgSize.toNat = n ∧ takes n = true ∧
      f.ep.avail = buf
  | .stopped => Stopped f

/-- `handle_data` on each request in turn, until one is refused: the requests it was given, the
handler's state after them, and whether it took them all. -/
def handleAll : H → List (List UInt8) → List (List UInt8) × H × Bool
  | h, [] => ([], h, true)
  | h, m :: ms =>
      if (handleData h m).2 then
        (m :: (handleAll (handleData h m).1 ms).1, (handleAll (handleData h m).1 ms).2)
      else ([m], (handleData h m).1, false)

-- Made here once: the equation lemmas that the proofs below unfold.
section
attribute [local simp] takes Stopped Holds handleAll
end

theorem handleAll_isPrefix (h : H) (ms : List (List UInt8)) : (handleAll handleData h ms).1 <+: ms := by
  induction ms generalizing h with
  | nil => exact List.prefix_refl _
  | cons m ms ih =>
    rw [handleAll]
    split
    · exact List.cons_prefix_cons.mpr ⟨rfl, ih _⟩
    · exact List.cons_prefix_cons.mpr ⟨rfl, List.nil_prefix⟩

/-- `handle_data` over two runs of requests is over the first, then, if it took them all, over
the second. -/
theorem handleAll_append (h : H) (ms ms' : List (List UInt8)) :
    handleAll handleData h (ms ++ ms') =
      if (handleAll handleData h ms).2.2 then
        ((handleAll handleData h ms).1 ++ (handleAll handleData (handleAll handleData h ms).2.1 ms').1,
          (handleAll handleData (handleAll handleData h ms).2.1 ms').2)
      else handleAll handleData h ms := by
  induction ms generalizing h with
  | nil => simp [handleAll]
  | cons m ms ih =>
    rw [List.cons_append, handleAll, handleAll]
    by_cases hok : (handleData h m).2 = true
    · rw [if_pos hok, if_pos hok, ih]
      split <;> simp
    · rw [if_neg hok, if_neg hok]
      simp

variable {handleData}

theorem readLength_of_ne {f : Framed H} (h : f.msgSize ≠ noMsgSize) : readLength f = (f, true) := by
  rw [readLength, if_neg h]

theorem recvLoop_of_readLength (fuel : Nat) {f f₁ : Framed H} (h : readLength f = (f₁, true))
    (h₁ : f₁.msgSize ≠ noMsgSize) :
    recvLoop handleData (fuel + 1) f = recvLoop handleData (fuel + 1) f₁ := by
  rw [recvLoop, recvLoop, h, readLength_of_ne h₁]

/-- A stopped session hands nothing on and stays stopped. -/
theorem recvLoop_stopped (fuel : Nat) {f : Framed H} (h : Stopped f) :
    (recvLoop handleData fuel f).handled = f.handled ∧
      (recvLoop handleData fuel f).handler = f.handler ∧ Stopped (recvLoop handleData fuel f) := by
  cases fuel with
  | zero => exact ⟨rfl, rfl, h⟩
  | succ fuel =>
    rw [recvLoop]
    rcases h with hnr | hzero
    · -- not ready: `read` gives nothing, and `close` keeps it not ready
      have hread : ∀ n, f.ep.read n true = ([], f.ep) := by
        intro n
        unfold Endpoint.read
        rw [readFuel, if_pos hnr]
      by_cases hm : f.msgSize = noMsgSize
      · simp [readLength, hm, hread, Stopped, hnr]
      · rw [readLength_of_ne hm]
        by_cases hlim : maxMsgSize < f.msgSize.toNat
        · simp [hlim, Stopped, close_status]
        · simp [hlim, hread, Stopped, hnr]
    · -- a length of 0: `read` gives nothing
      have hm : f.msgSize ≠ noMsgSize := by rw [hzero]; decide
      rw [readLength_of_ne hm]
      have hlim : ¬maxMsgSize < f.msgSize.toNat := by rw [hzero]; decide
      simp only [Bool.not_true, Bool.false_eq_true, if_false, if_neg hlim]
      rw [hzero, UInt32.toNat_zero]
      rcases hr : f.ep.read 0 true with ⟨req, ep⟩
      have hreq : req = [] := by rw [← read_zero f.ep, hr]
      simp [hreq, Stopped]

/-- **The loop of `recv` is `Framing.resume`.** From a session in state `s`, with enough rounds,
the loop gives `handle_data` the requests `resume` hands on, until it refuses one; and ends in
the state `resume` waits in, or, after a refusal, stopped. -/
theorem recvLoop_resume (s : Waiting) :
    ∀ (fuel : Nat) (f : Framed H), Holds f s → s.measure ≤ fuel →
      (recvLoop handleData fuel f).handled =
          f.handled ++ (handleAll handleData f.handler (resume sizeOfLength takes s).1).1 ∧
        (recvLoop handleData fuel f).handler =
          (handleAll handleData f.handler (resume sizeOfLength takes s).1).2.1 ∧
        (if (handleAll handleData f.handler (resume sizeOfLength takes s).1).2.2 then
          Holds (recvLoop handleData fuel f) (resume sizeOfLength takes s).2
        else Stopped (recvLoop handleData fuel f)) := by
  fun_induction resume sizeOfLength takes s with
  | case1 buf hshort =>
    intro fuel f hf _
    obtain ⟨hready, hm, havail⟩ := hf
    cases fuel with
    | zero => simpa [recvLoop, handleAll, Holds] using ⟨hready, hm, havail⟩
    | succ fuel =>
      -- fewer than four bytes: the read of the length gives nothing, and the loop returns
      obtain ⟨rb, recs, hread, hrest⟩ := read_exact (n := sizeOfLength) (by decide) hready
      have hnot : ¬sizeOfLength ≤ f.ep.avail.length := by rw [havail]; omega
      rw [if_neg hnot] at hread
      rw [if_neg hnot, havail] at hrest
      simp [recvLoop, readLength, hm, hread, handleAll, Holds, hready, Endpoint.avail, hrest]
  | case2 buf hlong ha ih =>
    intro fuel f hf hfuel
    obtain ⟨hready, hm, havail⟩ := hf
    obtain ⟨fuel, rfl⟩ : ∃ k, fuel = k + 1 := ⟨fuel - 1, by simp [Waiting.measure] at hfuel; omega⟩
    have hle : sizeOfLength ≤ f.ep.avail.length := by rw [havail]; omega
    obtain ⟨rb, recs, hread, hrest⟩ := read_exact (n := sizeOfLength) (by decide) hready
    rw [if_pos hle, havail] at hread hrest
    -- the length is read; the loop goes on as from the state waiting for the request
    have hne : buf.take sizeOfLength ≠ [] := by
      simp [List.take_eq_nil_iff, sizeOfLength]
      rintro rfl
      simp [sizeOfLength] at hlong
    have htakes : takes (Codec.ofLe (buf.take sizeOfLength)) = true := ha
    have hsmall : Codec.ofLe (buf.take sizeOfLength) ≤ maxMsgSize := by
      simp [takes] at htakes
      exact htakes.2
    have hval : (UInt32.ofNat (Codec.ofLe (buf.take sizeOfLength))).toNat =
        Codec.ofLe (buf.take sizeOfLength) :=
      UInt32.toNat_ofNat_of_lt' (Nat.lt_of_le_of_lt hsmall (by decide))
    have hlen : readLength f =
        ({ f with ep := { f.ep with readBuffer := rb, records := recs },
                  msgSize := UInt32.ofNat (Codec.ofLe (buf.take sizeOfLength)) }, true) := by
      simp [readLength, hm, hread, hne, List.take_take]
    have hne' : UInt32.ofNat (Codec.ofLe (buf.take sizeOfLength)) ≠ noMsgSize := by
      intro h
      have := congrArg UInt32.toNat h
      rw [hval] at this
      have : maxMsgSize < noMsgSize.toNat := by decide
      omega
    rw [recvLoop_of_readLength fuel hlen hne']
    exact ih (fuel + 1) _ ⟨hready, hval, htakes, by simpa using hrest⟩
      (by simp only [Waiting.measure, List.length_drop] at hfuel ⊢; simp [sizeOfLength] at hlong ⊢; omega)
  | case3 buf hlong ha =>
    intro fuel f hf hfuel
    obtain ⟨hready, hm, havail⟩ := hf
    obtain ⟨fuel, rfl⟩ : ∃ k, fuel = k + 1 := ⟨fuel - 1, by simp [Waiting.measure] at hfuel; omega⟩
    have hle : sizeOfLength ≤ f.ep.avail.length := by rw [havail]; omega
    obtain ⟨rb, recs, hread, hrest⟩ := read_exact (n := sizeOfLength) (by decide) hready
    rw [if_pos hle, havail] at hread hrest
    have hne : buf.take sizeOfLength ≠ [] := by
      simp [List.take_eq_nil_iff, sizeOfLength]
      rintro rfl
      simp [sizeOfLength] at hlong
    have hval : (UInt32.ofNat (Codec.ofLe (buf.take sizeOfLength))).toNat =
        Codec.ofLe (buf.take sizeOfLength) :=
      UInt32.toNat_ofNat_of_lt' (Codec.ofLe_take_lt sizeOfLength buf)
    rw [recvLoop]
    simp only [readLength, hm, if_true, hread, hne, if_false, List.take_take, Nat.min_self,
      Bool.not_true, Bool.false_eq_true, hval]
    -- a length refused: above the limit it closes the session, and 0 reads nothing
    simp only [takes, Bool.and_eq_true, decide_eq_true_eq, not_and_or, Nat.not_le] at ha
    by_cases hlim : maxMsgSize < Codec.ofLe (buf.take sizeOfLength)
    · simp [hlim, handleAll, Holds, Stopped, close_status]
    · have hzero : Codec.ofLe (buf.take sizeOfLength) = 0 := by omega
      rw [if_neg hlim, hzero]
      rcases hr : Endpoint.read 0 true { f.ep with readBuffer := rb, records := recs } with ⟨req, ep⟩
      have hreq : req = [] := by rw [← read_zero _, hr]
      simp [hreq, handleAll, Holds, Stopped]
  | case4 n buf hshort =>
    intro fuel f hf hfuel
    obtain ⟨hready, hm, htakes, havail⟩ := hf
    obtain ⟨fuel, rfl⟩ : ∃ k, fuel = k + 1 := ⟨fuel - 1, by simp [Waiting.measure] at hfuel; omega⟩
    have hbounds : 1 ≤ n ∧ n ≤ maxMsgSize := by simpa [takes] using htakes
    have hne : f.msgSize ≠ noMsgSize := by
      intro h
      have : maxMsgSize < noMsgSize.toNat := by decide
      rw [h] at hm
      omega
    -- the request is not all there: the read gives nothing, and the loop returns
    obtain ⟨rb, recs, hread, hrest⟩ := read_exact (n := n) (by omega) hready
    have hnot : ¬n ≤ f.ep.avail.length := by rw [havail]; omega
    rw [if_neg hnot] at hread
    rw [if_neg hnot, havail] at hrest
    rw [recvLoop, readLength_of_ne hne]
    simp only [Bool.not_true, Bool.false_eq_true, if_false, hm, if_neg (Nat.not_lt.mpr hbounds.2),
      hread, if_true]
    simp [handleAll, Holds, hready, hm, htakes, Endpoint.avail, hrest]
  | case5 n buf hlong rest ih =>
    intro fuel f hf hfuel
    obtain ⟨hready, hm, htakes, havail⟩ := hf
    obtain ⟨fuel, rfl⟩ : ∃ k, fuel = k + 1 := ⟨fuel - 1, by simp [Waiting.measure] at hfuel; omega⟩
    have hbounds : 1 ≤ n ∧ n ≤ maxMsgSize := by simpa [takes] using htakes
    have hne : f.msgSize ≠ noMsgSize := by
      intro h
      have : maxMsgSize < noMsgSize.toNat := by decide
      rw [h] at hm
      omega
    have hle : n ≤ f.ep.avail.length := by rw [havail]; omega
    obtain ⟨rb, recs, hread, hrest⟩ := read_exact (n := n) (by omega) hready
    rw [if_pos hle, havail] at hread hrest
    have hreq : buf.take n ≠ [] := by
      simp only [ne_eq, List.take_eq_nil_iff, not_or]
      exact ⟨by omega, by rintro rfl; simp at hlong; omega⟩
    rw [recvLoop, readLength_of_ne hne]
    simp only [Bool.not_true, Bool.false_eq_true, if_false, hm, if_neg (Nat.not_lt.mpr hbounds.2),
      hread, hreq]
    -- `handle_data` gets the request; if it refuses, the session is closed and stays so
    by_cases hok : (handleData f.handler (buf.take n)).2 = true
    · obtain ⟨h₁, h₂, h₃⟩ := ih fuel
        { f with ep := { f.ep with readBuffer := rb, records := recs }, msgSize := noMsgSize,
                 handler := (handleData f.handler (buf.take n)).1,
                 handled := f.handled ++ [buf.take n] }
        ⟨hready, rfl, by simpa using hrest⟩
        (by simp only [Waiting.measure, List.length_drop] at hfuel ⊢; omega)
      simp only [hok, if_true]
      refine ⟨?_, ?_, ?_⟩
      · rw [h₁]
        simp [handleAll, hok, rest]
      · rw [h₂]
        simp [handleAll, hok, rest]
      · simpa [handleAll, hok, rest] using h₃
    · have hstop : Stopped
          { f with ep := { f.ep with readBuffer := rb, records := recs }.close,
                   msgSize := noMsgSize, handler := (handleData f.handler (buf.take n)).1,
                   handled := f.handled ++ [buf.take n] } := .inl (close_status _)
      obtain ⟨h₁, h₂, h₃⟩ := @recvLoop_stopped _ handleData fuel _ hstop
      simp only [hok, Bool.false_eq_true, if_false]
      refine ⟨?_, ?_, ?_⟩
      · rw [h₁]
        simp [handleAll, hok]
      · rw [h₂]
        simp [handleAll, hok]
      · simpa [handleAll, hok] using h₃
  | case6 =>
    intro fuel f hf _
    obtain ⟨h₁, h₂, h₃⟩ := @recvLoop_stopped _ handleData fuel _ hf
    simpa [handleAll, Holds, h₁, h₂] using h₃

/-! ## Calls of `recv` -/

/-- **One call of `recv` is one step of the receiver.** The new records join the plain text to
read, and the call gives `handle_data` what `resume` hands on, until it refuses one. -/
theorem recv_resume {f : Framed H} {s : Waiting} (h : Holds f s) (records : List (List UInt8)) :
    (f.recv handleData records).handled = f.handled ++
        (handleAll handleData f.handler (resume sizeOfLength takes (s.append records.flatten)).1).1 ∧
      (f.recv handleData records).handler =
        (handleAll handleData f.handler (resume sizeOfLength takes (s.append records.flatten)).1).2.1 ∧
      (if (handleAll handleData f.handler
          (resume sizeOfLength takes (s.append records.flatten)).1).2.2 then
        Holds (f.recv handleData records) (resume sizeOfLength takes (s.append records.flatten)).2
      else Stopped (f.recv handleData records)) := by
  have havail : ({ f with ep := f.ep.recvBuffered records } : Framed H).ep.avail =
      f.ep.avail ++ records.flatten := by
    simp [recvBuffered, Endpoint.avail]
  -- the records join what is held; status and `msg_size` stay
  have hbuffered : Holds { f with ep := f.ep.recvBuffered records } (s.append records.flatten) := by
    cases s with
    | length buf =>
      obtain ⟨h₁, h₂, h₃⟩ := h
      exact ⟨h₁, h₂, by rw [havail, h₃]⟩
    | payload n buf =>
      obtain ⟨h₁, h₂, h₃, h₄⟩ := h
      exact ⟨h₁, h₂, h₃, by rw [havail, h₄]⟩
    | stopped => exact h
  have hfuel : (s.append records.flatten).measure ≤
      2 * ((f.ep.recvBuffered records).readBuffer.length +
        (f.ep.recvBuffered records).records.flatten.length) + 2 := by
    have hlen : (f.ep.recvBuffered records).readBuffer.length +
        (f.ep.recvBuffered records).records.flatten.length =
        (f.ep.avail ++ records.flatten).length := by
      simp [recvBuffered, Endpoint.avail]
    rw [hlen]
    cases s with
    | length buf => simp [Waiting.append, Waiting.measure, ← h.2.2]
    | payload n buf => simp [Waiting.append, Waiting.measure, ← h.2.2.2]
    | stopped => simp [Waiting.append, Waiting.measure]
  exact recvLoop_resume _ _ _ hbuffered hfuel

/-- A run of `recv` calls, one each time the host passes bytes in. -/
def recvAll (handleData : H → List UInt8 → H × Bool) (calls : List (List (List UInt8)))
    (f : Framed H) : Framed H :=
  calls.foldl (fun f records => f.recv handleData records) f

-- Made here once: the equation lemmas that the proofs below unfold.
section
attribute [local simp] recvAll
end

/-- A stopped session stays so, and hands nothing on, whatever the later calls bring. -/
theorem recvAll_stopped (calls : List (List (List UInt8))) :
    ∀ f : Framed H, Stopped f →
      (recvAll handleData calls f).handled = f.handled ∧
        (recvAll handleData calls f).handler = f.handler ∧ Stopped (recvAll handleData calls f) := by
  induction calls with
  | nil => intro f h; exact ⟨rfl, rfl, h⟩
  | cons records calls ih =>
    intro f h
    obtain ⟨h₁, h₂, h₃⟩ := @recv_resume _ handleData _ .stopped h records
    simp only [Waiting.append_stopped, resume_stopped, handleAll, List.append_nil, if_true] at h₁ h₂ h₃
    obtain ⟨k₁, k₂, k₃⟩ := ih _ h₃
    exact ⟨k₁.trans h₁, k₂.trans h₂, k₃⟩

/-- **A run of `recv` calls is `Framing.feedAll`**, over the plain text each call brings, with
`handle_data` given what it hands on until it refuses a request. -/
theorem recvAll_feedAll (calls : List (List (List UInt8))) :
    ∀ (f : Framed H) (s : Waiting), Holds f s →
      (recvAll handleData calls f).handled = f.handled ++ (handleAll handleData f.handler
          (feedAll sizeOfLength takes s (calls.map List.flatten)).1).1 ∧
        (recvAll handleData calls f).handler = (handleAll handleData f.handler
          (feedAll sizeOfLength takes s (calls.map List.flatten)).1).2.1 ∧
        (if (handleAll handleData f.handler
            (feedAll sizeOfLength takes s (calls.map List.flatten)).1).2.2 then
          Holds (recvAll handleData calls f) (feedAll sizeOfLength takes s (calls.map List.flatten)).2
        else Stopped (recvAll handleData calls f)) := by
  induction calls with
  | nil => intro f s h; simpa [recvAll, feedAll, handleAll] using h
  | cons records calls ih =>
    intro f s h
    obtain ⟨h₁, h₂, h₃⟩ := @recv_resume _ handleData _ _ h records
    rw [recvAll, List.foldl_cons, ← recvAll, List.map_cons, feedAll, handleAll_append]
    dsimp only
    split at h₃
    · -- `handle_data` took the requests of this call: the run goes on from its state
      next hok =>
      obtain ⟨k₁, k₂, k₃⟩ := ih _ _ h₃
      rw [if_pos hok]
      refine ⟨by rw [k₁, h₁, h₂, List.append_assoc], by rw [k₂, h₂], ?_⟩
      simpa only [h₂] using k₃
    · -- it refused one: the session is stopped for the rest of the run
      next hok =>
      obtain ⟨k₁, k₂, k₃⟩ := recvAll_stopped calls _ h₃
      rw [if_neg hok, if_neg hok]
      exact ⟨by rw [k₁, h₁], by rw [k₂, h₂], k₃⟩

/-! ## `send` -/

/-- A ready session with nothing pending writes the frame of a message that is not empty. -/
theorem send_sent {f : Framed H} (hs : f.ep.status = .ready) (hp : f.ep.pendingWrite = [])
    {m : List UInt8} (hm : m ≠ []) :
    (f.send m).ep.sent = f.ep.sent ++ frame sizeOfLength m ∧
      (f.send m).ep.pendingWrite = [] ∧ (f.send m).ep.status = .ready := by
  simp [send, hm, flush, sendBuffered, hs, hp, frame]

/-- A run of `send` calls, one per message. -/
def sendAll (ms : List (List UInt8)) (f : Framed H) : Framed H :=
  ms.foldl (fun f m => f.send m) f

-- Made here once: the equation lemmas that the proofs below unfold.
section
attribute [local simp] sendAll
end

theorem sendAll_sent (ms : List (List UInt8)) (hms : ∀ m ∈ ms, m ≠ []) :
    ∀ f : Framed H, f.ep.status = .ready → f.ep.pendingWrite = [] →
      (sendAll ms f).ep.sent = f.ep.sent ++ frames sizeOfLength ms ∧
        (sendAll ms f).ep.pendingWrite = [] ∧ (sendAll ms f).ep.status = .ready := by
  induction ms with
  | nil => intro f hs hp; exact ⟨by simp [sendAll], hp, hs⟩
  | cons m ms ih =>
    intro f hs hp
    obtain ⟨h₁, h₂, h₃⟩ := send_sent hs hp (hms m List.mem_cons_self)
    obtain ⟨k₁, k₂, k₃⟩ := ih (fun m' hm' => hms m' (List.mem_cons_of_mem m hm')) _ h₃ h₂
    refine ⟨?_, k₂, k₃⟩
    rw [sendAll, List.foldl_cons, ← sendAll, k₁, h₁, frames_cons, frame]
    simp

/-- **What `send` frames, `recv` hands to `handle_data`, whole and in order.** A ready session
sends requests of 1 to `1 << 21` bytes: it writes their frames. A session waiting for a length,
with nothing to read, given those frames in records of any sizes over calls of any numbers of
records, passes the requests to `handle_data` one at a time, until it refuses one, and no
further; if it refuses none, the session waits for a length again with nothing to read. After
any number of the calls, what it has passed on is a prefix of the requests. -/
theorem framed_round_trip {H' : Type} (sender : Framed H') (hs : sender.ep.status = .ready)
    (hp : sender.ep.pendingWrite = []) (ms : List (List UInt8))
    (hms : ∀ m ∈ ms, 1 ≤ m.length ∧ m.length ≤ maxMsgSize) (calls : List (List (List UInt8)))
    (hcalls : (calls.map List.flatten).flatten = frames sizeOfLength ms) (f : Framed H)
    (hf : f.ep.status = .ready) (hm : f.msgSize = noMsgSize) (ha : f.ep.avail = []) :
    (sendAll ms sender).ep.sent = sender.ep.sent ++ frames sizeOfLength ms ∧
      (recvAll handleData calls f).handled = f.handled ++ (handleAll handleData f.handler ms).1 ∧
      (recvAll handleData calls f).handler = (handleAll handleData f.handler ms).2.1 ∧
      ((handleAll handleData f.handler ms).2.2 = true →
        (recvAll handleData calls f).ep.status = .ready ∧
          (recvAll handleData calls f).msgSize = noMsgSize ∧
          (recvAll handleData calls f).ep.avail = []) ∧
      ∀ k, ∃ p, (recvAll handleData (calls.take k) f).handled = f.handled ++ p ∧ p <+: ms := by
  have htaken : ∀ m ∈ ms, takes m.length = true ∧ m.length < 256 ^ sizeOfLength := by
    intro m hm'
    obtain ⟨h₁, h₂⟩ := hms m hm'
    refine ⟨by simp [takes, h₁, h₂], Nat.lt_of_le_of_lt h₂ (by decide)⟩
  have hstart : Holds f (.length []) := ⟨hf, hm, ha⟩
  obtain ⟨hall, hprefix⟩ := feedAll_frames ms htaken _ hcalls
  obtain ⟨k₁, k₂, k₃⟩ := @recvAll_feedAll _ handleData calls f _ hstart
  rw [hall] at k₁ k₂ k₃
  refine ⟨(sendAll_sent ms (fun m hm' => List.ne_nil_of_length_pos (hms m hm').1) sender hs hp).1,
    k₁, k₂, fun hok => by simpa [hok, Holds] using k₃, fun k => ?_⟩
  -- after `k` calls, `handle_data` has had a prefix of a prefix of the requests
  obtain ⟨hpre, -⟩ := hprefix k
  obtain ⟨j₁, -, -⟩ := @recvAll_feedAll _ handleData (calls.take k) f _ hstart
  rw [← List.map_take] at hpre
  exact ⟨_, j₁, (handleAll_isPrefix handleData _ _).trans hpre⟩

/-- A handler that takes every request. -/
def takeAll : Unit → List UInt8 → Unit × Bool := fun _ _ => ((), true)

/-- Two requests, of three bytes and one, their frames received in three calls whose records
cut both lengths. -/
theorem framed_round_trip_threeCalls :
    (sendAll [[1, 2, 3], [4]] (established ())).ep.sent =
        [] ++ frames sizeOfLength [[1, 2, 3], [4]] ∧
      (recvAll takeAll [[[3, 0]], [[0, 0, 1, 2], [3, 1, 0]], [[0, 0, 4]]] (established ())).handled =
        [] ++ (handleAll takeAll () [[1, 2, 3], [4]]).1 ∧
      (recvAll takeAll [[[3, 0]], [[0, 0, 1, 2], [3, 1, 0]], [[0, 0, 4]]] (established ())).handler =
        (handleAll takeAll () [[1, 2, 3], [4]]).2.1 ∧
      ((handleAll takeAll () [[1, 2, 3], [4]]).2.2 = true →
        (recvAll takeAll [[[3, 0]], [[0, 0, 1, 2], [3, 1, 0]], [[0, 0, 4]]]
            (established ())).ep.status = .ready ∧
          (recvAll takeAll [[[3, 0]], [[0, 0, 1, 2], [3, 1, 0]], [[0, 0, 4]]]
            (established ())).msgSize = noMsgSize ∧
          (recvAll takeAll [[[3, 0]], [[0, 0, 1, 2], [3, 1, 0]], [[0, 0, 4]]]
            (established ())).ep.avail = []) ∧
      ∀ k, ∃ p, (recvAll takeAll ([[[3, 0]], [[0, 0, 1, 2], [3, 1, 0]], [[0, 0, 4]]].take k)
          (established ())).handled = [] ++ p ∧ p <+: [[1, 2, 3], [4]] :=
  framed_round_trip (established ()) rfl rfl [[1, 2, 3], [4]] (by decide) _ (by decide)
    (established ()) rfl rfl rfl

end Framed

end Ccf.Enclave
