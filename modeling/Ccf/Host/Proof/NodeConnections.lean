import Ccf.Host.NodeConnections
import Ccf.Lib.Framing

/-!
# What the host hands on of a node's stream

`on_read` is the receiver of `Framing` with lengths of four bytes: `msg_size` says whether it
waits for a length or for the message of the length it read, and `pending` holds the bytes it
has not used (`Holds`). One call is `Framing.resume` on what it held and the new chunk
(`onRead_resume`), and a run of calls is `Framing.feedAll` (`onReadAll_feedAll`).

That holds of the lengths the loop handles as it means to (`carries`). A length must leave room
for the `NodeMsgType` and `Header` the loop reads from the message; and it must not be
`(uint32_t)-1`, the value `msg_size` takes while no length has been read: a message of that
length that does not arrive in the same call as its length is taken, at the next call, for no
length at all, and its first bytes are read as the next one.

So every chunking of a stream of frames of such lengths writes their messages to the enclave,
one `node_inbound` message each, in order, and after any number of calls a prefix of them
(`node_frames_delivered`).
-/

namespace Ccf.Host

open EStateM Framing

instance : NeZero sizeOfLength := ⟨by decide⟩

/-- The lengths `on_read` handles as frames: room for the type and header it reads, and not the
value that means no length. -/
def carries (n : Nat) : Bool :=
  decide (sizeOfNodeMsgType + sizeOfHeader ≤ n) && n != noMsgSize.toNat

/-- `msg_size` as the receiver's state: `(uint32_t)-1` while it waits for a length, and the
length it read, one it carries, while it waits for the message. -/
def Tracks (msgSize : UInt32) : Waiting → Prop
  | .length _ => msgSize = noMsgSize
  | .payload n _ => msgSize.toNat = n ∧ carries n = true
  | .stopped => False

/-- The connection is the receiver in state `s`: `msg_size` tracks it, and `pending` is what it
holds. -/
def Holds (c : Connection) (s : Waiting) : Prop :=
  Tracks c.msgSize s ∧ c.pending = s.held

-- Made here once: the equation lemmas that the proofs below unfold.
section
attribute [local simp] carries Tracks Holds
end

/-! ## One turn of the loop -/

theorem readValue_of_le {size : Nat} {data : List UInt8} (h : size ≤ data.length)
    (c : Connection) :
    readValue size data c =
      .ok (⟨Codec.ofLe (data.take size), Codec.ofLe_take_lt size data⟩, data.drop size) c := by
  rw [readValue, Serializer.readScalar, if_neg (Nat.not_lt.mpr h)]
  rfl

/-- Waiting for a length with fewer than four bytes: the loop ends. -/
theorem onReadLoop_short (fuel : Nat) {data : List UInt8} {c : Connection}
    (hc : c.msgSize = noMsgSize) (hd : data.length < sizeOfLength) :
    onReadLoop (fuel + 1) data c = .ok data c := by
  rw [onReadLoop.eq_2, get_bind_apply, if_pos ⟨hc, hd⟩]
  rfl

/-- Reading a length is the turn of the loop that finds `msg_size` set to it. -/
theorem onReadLoop_length (fuel : Nat) {data : List UInt8} {c : Connection}
    (hc : c.msgSize = noMsgSize) (hd : sizeOfLength ≤ data.length)
    (hn : UInt32.ofNat (Codec.ofLe (data.take sizeOfLength)) ≠ noMsgSize) :
    onReadLoop (fuel + 1) data c =
      onReadLoop (fuel + 1) (data.drop sizeOfLength)
        { c with msgSize := UInt32.ofNat (Codec.ofLe (data.take sizeOfLength)) } := by
  rw [onReadLoop.eq_2, onReadLoop.eq_2, get_bind_apply, get_bind_apply]
  simp only [hc, true_and, if_neg (Nat.not_lt.mpr hd), hn, false_and, if_false, if_true]
  rw [bind_of_ok (readValue_of_le hd c)]
  rfl

/-- With a length read and its message not all there: the loop ends. -/
theorem onReadLoop_wait (fuel : Nat) {data : List UInt8} {c : Connection}
    (hc : c.msgSize ≠ noMsgSize) (hd : data.length < c.msgSize.toNat) :
    onReadLoop (fuel + 1) data c = .ok data c := by
  rw [onReadLoop.eq_2, get_bind_apply]
  simp only [hc, false_and, if_false]
  rw [pure_bind_apply, get_bind_apply, if_pos hd]
  rfl

/-- With a length read and its message all there: the message is written to the enclave, the
node perhaps associated, and the loop goes on after the message, waiting for a length. -/
theorem onReadLoop_deliver (fuel : Nat) {data : List UInt8} {c : Connection}
    (hc : c.msgSize ≠ noMsgSize) (hd : c.msgSize.toNat ≤ data.length)
    (hh : sizeOfNodeMsgType + sizeOfHeader ≤ data.length) :
    ∃ node, onReadLoop (fuel + 1) data c =
      onReadLoop fuel (data.drop c.msgSize.toNat)
        { c with node := node, msgSize := noMsgSize,
                 inbound := c.inbound ++ [data.take c.msgSize.toNat] } := by
  have htype : sizeOfNodeMsgType ≤ data.length := by unfold sizeOfHeader at hh; omega
  have hheader : sizeOfHeader ≤ (data.drop sizeOfNodeMsgType).length := by
    rw [List.length_drop]
    omega
  rw [onReadLoop.eq_2, get_bind_apply]
  simp only [hc, false_and, if_false]
  rw [pure_bind_apply, get_bind_apply, if_neg (Nat.not_lt.mpr hd),
    bind_of_ok (readValue_of_le htype c)]
  dsimp only
  rw [bind_of_ok (readValue_of_le hheader c)]
  dsimp only
  -- `associate` runs only while the node is not known, and sets it only on an incoming one
  by_cases hnode : c.node = NoNode
  · refine ⟨if c.incoming then
      fromNode ⟨Codec.ofLe ((data.drop sizeOfNodeMsgType).take sizeOfHeader),
        Codec.ofLe_take_lt _ _⟩ else c.node, ?_⟩
    rw [if_pos hnode, associate, modify_bind_apply]
    obtain ⟨incoming, node, msgSize, pending, inbound⟩ := c
    cases incoming <;> rfl
  · refine ⟨c.node, ?_⟩
    rw [if_neg hnode]
    rfl

/-! ## The loop is the receiver -/

/-- A length of four bytes is below `2 ^ 32`, so `msg_size` holds it as it is. -/
theorem toNat_ofNat_ofLe (data : List UInt8) :
    (UInt32.ofNat (Codec.ofLe (data.take sizeOfLength))).toNat =
      Codec.ofLe (data.take sizeOfLength) :=
  UInt32.toNat_ofNat_of_lt' (Codec.ofLe_take_lt sizeOfLength data)

/-- A length that is carried is not the value that means none. -/
theorem ofNat_ne_noMsgSize {n : Nat} (hlt : n < 256 ^ sizeOfLength) (hn : carries n = true) :
    UInt32.ofNat n ≠ noMsgSize := by
  intro h
  have hval := congrArg UInt32.toNat h
  rw [UInt32.toNat_ofNat_of_lt' hlt] at hval
  simp [carries, hval] at hn

/-- **The loop of `on_read` is `Framing.resume`.** From a connection in state `s`, with enough
turns, the loop writes the messages `resume` hands on, leaves the bytes it holds after them
unused, and ends in the state it waits in, unless that is the stopped one. -/
theorem onReadLoop_resume (s : Waiting) :
    ∀ (fuel : Nat) (c : Connection), Tracks c.msgSize s → s.measure ≤ fuel →
      (resume sizeOfLength carries s).2 ≠ .stopped →
      ∃ c', onReadLoop fuel s.held c = .ok (resume sizeOfLength carries s).2.held c' ∧
        Tracks c'.msgSize (resume sizeOfLength carries s).2 ∧
        c'.inbound = c.inbound ++ (resume sizeOfLength carries s).1 ∧
        c'.pending = c.pending ∧ c'.incoming = c.incoming := by
  fun_induction resume sizeOfLength carries s with
  | case1 buf hshort =>
    intro fuel c hc _ _
    refine ⟨c, ?_, hc, by simp, rfl, rfl⟩
    cases fuel with
    | zero => rfl
    | succ fuel => exact onReadLoop_short fuel hc hshort
  | case2 buf hlong ha ih =>
    intro fuel c hc hfuel hstop
    -- the loop reads the length, then goes on as from the state waiting for its message
    obtain ⟨fuel, rfl⟩ : ∃ f, fuel = f + 1 := ⟨fuel - 1, by simp [Waiting.measure] at hfuel; omega⟩
    have hle : sizeOfLength ≤ buf.length := Nat.not_lt.mp hlong
    have h4 : sizeOfLength = 4 := rfl
    have hn := ofNat_ne_noMsgSize (Codec.ofLe_take_lt _ buf) ha
    obtain ⟨c', hrun, hc'⟩ := ih (fuel + 1)
      { c with msgSize := UInt32.ofNat (Codec.ofLe (buf.take sizeOfLength)) }
      ⟨toNat_ofNat_ofLe buf, ha⟩
      (by simp only [Waiting.measure, List.length_drop] at hfuel ⊢; omega) hstop
    exact ⟨c', by rw [Waiting.held_length, onReadLoop_length fuel hc hle hn]; exact hrun, hc'⟩
  | case3 buf hlong ha => intro _ _ _ _ hstop; exact absurd rfl hstop
  | case4 n buf hshort =>
    intro fuel c hc hfuel _
    obtain ⟨fuel, rfl⟩ : ∃ f, fuel = f + 1 := ⟨fuel - 1, by simp [Waiting.measure] at hfuel; omega⟩
    obtain ⟨hsize, hcarry⟩ := hc
    have hne : c.msgSize ≠ noMsgSize := by
      intro h
      simp [carries, ← hsize, h] at hcarry
    refine ⟨c, onReadLoop_wait fuel hne (by rw [hsize]; exact hshort), ⟨hsize, hcarry⟩, by simp,
      rfl, rfl⟩
  | case5 n buf hlong rest ih =>
    intro fuel c hc hfuel hstop
    obtain ⟨fuel, rfl⟩ : ∃ f, fuel = f + 1 := ⟨fuel - 1, by simp [Waiting.measure] at hfuel; omega⟩
    obtain ⟨rfl, hcarry⟩ := hc
    have hne : c.msgSize ≠ noMsgSize := by
      intro h
      simp [carries, h] at hcarry
    have hroom : sizeOfNodeMsgType + sizeOfHeader ≤ buf.length := by
      simp only [carries, Bool.and_eq_true, decide_eq_true_eq] at hcarry
      omega
    -- the message is written, and the rest of the bytes start a new frame
    obtain ⟨node, hstep⟩ := onReadLoop_deliver fuel hne (by omega) hroom
    obtain ⟨c', hrun, htracks, hinbound, hpending, hincoming⟩ := ih fuel
      { c with node := node, msgSize := noMsgSize,
               inbound := c.inbound ++ [buf.take c.msgSize.toNat] } rfl
      (by simp only [Waiting.measure, List.length_drop] at hfuel ⊢; omega) hstop
    refine ⟨c', ?_, htracks, ?_, hpending, hincoming⟩
    · rw [Waiting.held_payload, hstep]
      exact hrun
    · rw [hinbound]
      simp [rest]
  | case6 => intro _ _ hc; exact absurd hc id

/-- **One call of `on_read` is one step of the receiver.** The chunk is added to what the
connection holds, and the call writes what `resume` hands on and leaves the connection in the
state `resume` waits in, unless that is the stopped one. -/
theorem onRead_resume {c : Connection} {s : Waiting} (h : Holds c s) (bs : List UInt8)
    (hstop : (resume sizeOfLength carries (s.append bs)).2 ≠ .stopped) :
    ∃ c', onRead bs c = .ok () c' ∧ Holds c' (resume sizeOfLength carries (s.append bs)).2 ∧
      c'.inbound = c.inbound ++ (resume sizeOfLength carries (s.append bs)).1 ∧
      c'.incoming = c.incoming := by
  obtain ⟨htracks, hheld⟩ := h
  have hsa : s ≠ .stopped := by
    rintro rfl
    exact hstop (by simp)
  -- the chunk joins the bytes held, in the state the receiver is in
  have hheld' : c.pending ++ bs = (s.append bs).held := by
    cases s <;> simp_all [Waiting.append]
  have htracks' : Tracks c.msgSize (s.append bs) := by
    cases s <;> simp_all [Waiting.append, Tracks]
  obtain ⟨c', hrun, htr, hin, hpend, hinc⟩ := onReadLoop_resume (s.append bs)
    (2 * (c.pending ++ bs).length + 2) { c with pending := c.pending ++ bs } htracks'
    (by rw [hheld']; cases (s.append bs) <;> simp [Waiting.measure]) hstop
  refine ⟨{ c' with pending := (resume sizeOfLength carries (s.append bs)).2.held },
    ?_, ⟨htr, rfl⟩, hin, hinc⟩
  rw [onRead, modify_bind_apply, get_bind_apply]
  dsimp only
  rw [bind_of_ok (by rw [hheld'] at hrun ⊢; exact hrun)]
  rfl

/-- A run of `on_read` calls, one chunk each. -/
def onReadAll (cs : List (List UInt8)) : ConnM Unit := cs.forM onRead

-- Made here once: the equation lemmas that the proofs below unfold.
section
attribute [local simp] onReadAll
end

/-- **A run of `on_read` calls is `Framing.feedAll`.** -/
theorem onReadAll_feedAll (cs : List (List UInt8)) :
    ∀ (c : Connection) (s : Waiting), Holds c s →
      (feedAll sizeOfLength carries s cs).2 ≠ .stopped →
      ∃ c', onReadAll cs c = .ok () c' ∧ Holds c' (feedAll sizeOfLength carries s cs).2 ∧
        c'.inbound = c.inbound ++ (feedAll sizeOfLength carries s cs).1 := by
  induction cs with
  | nil => intro c s h _; exact ⟨c, rfl, h, by simp [feedAll]⟩
  | cons b cs ih =>
    intro c s h hstop
    -- the first call cannot stop the receiver, or the whole run would end stopped
    have hfirst : (resume sizeOfLength carries (s.append b)).2 ≠ .stopped :=
      fun hs => hstop (feedAll_cons_of_stopped cs hs)
    obtain ⟨c₁, hrun₁, h₁, hin₁, -⟩ := onRead_resume h b hfirst
    obtain ⟨c₂, hrun₂, h₂, hin₂⟩ := ih c₁ _ h₁ hstop
    refine ⟨c₂, ?_, h₂, by rw [hin₂, hin₁]; simp [feedAll]⟩
    rw [onReadAll, List.forM, bind_of_ok hrun₁]
    exact hrun₂

/-- **The host hands on every message of a node's stream, whole and in order.** Let a node send
frames of messages long enough for their type and header, and shorter than `2^32 - 1` bytes. On
a connection waiting for a length with nothing pending, `on_read` given the stream in chunks of
any sizes never throws and writes exactly those messages to the enclave, one `node_inbound`
message each, in order, and ends waiting for a length with nothing pending again. After any
number of the calls, what it has written is a prefix of the messages. -/
theorem node_frames_delivered (ms : List (List UInt8))
    (hms : ∀ m ∈ ms, sizeOfNodeMsgType + sizeOfHeader ≤ m.length ∧ m.length < noMsgSize.toNat)
    (cs : List (List UInt8)) (hcs : cs.flatten = Framing.frames sizeOfLength ms) (c : Connection)
    (hc : c.msgSize = noMsgSize) (hp : c.pending = []) :
    (∃ c', onReadAll cs c = .ok () c' ∧ c'.inbound = c.inbound ++ ms ∧
      c'.msgSize = noMsgSize ∧ c'.pending = []) ∧
    ∀ k, ∃ c' p, onReadAll (cs.take k) c = .ok () c' ∧ c'.inbound = c.inbound ++ p ∧ p <+: ms := by
  have hcarried : ∀ m ∈ ms, carries m.length = true ∧ m.length < 256 ^ sizeOfLength := by
    intro m hm
    obtain ⟨hroom, hlt⟩ := hms m hm
    have hne : m.length ≠ noMsgSize.toNat := Nat.ne_of_lt hlt
    refine ⟨by simp [carries, hroom, hne], Nat.lt_trans hlt (by decide)⟩
  have hstart : Holds c (.length []) := ⟨hc, hp⟩
  obtain ⟨hall, hprefix⟩ := feedAll_frames ms hcarried cs hcs
  constructor
  · obtain ⟨c', hrun, ⟨htr, hheld⟩, hin⟩ := onReadAll_feedAll cs c _ hstart (by simp [hall])
    rw [hall] at htr hheld hin
    exact ⟨c', hrun, hin, htr, hheld⟩
  · intro k
    obtain ⟨hpre, hk⟩ := hprefix k
    obtain ⟨c', hrun, -, hin⟩ := onReadAll_feedAll (cs.take k) c _ hstart hk
    exact ⟨c', _, hrun, hin, hpre⟩

/-- Two messages of a node, of 24 and 30 bytes. -/
def twoNodeMessages : List (List UInt8) := [List.replicate 24 1, List.replicate 30 2]

/-- Their stream cut inside the first length, on a new incoming connection. -/
theorem node_frames_delivered_split :
    (∃ c', onReadAll [(Framing.frames sizeOfLength twoNodeMessages).take 2,
        (Framing.frames sizeOfLength twoNodeMessages).drop 2] (Connection.new true NoNode) = .ok () c' ∧
      c'.inbound = [] ++ twoNodeMessages ∧ c'.msgSize = noMsgSize ∧ c'.pending = []) ∧
    ∀ k, ∃ c' p, onReadAll ([(Framing.frames sizeOfLength twoNodeMessages).take 2,
        (Framing.frames sizeOfLength twoNodeMessages).drop 2].take k) (Connection.new true NoNode) =
        .ok () c' ∧ c'.inbound = [] ++ p ∧ p <+: twoNodeMessages :=
  node_frames_delivered twoNodeMessages (by decide) _ (by simp) _ rfl rfl

end Ccf.Host
