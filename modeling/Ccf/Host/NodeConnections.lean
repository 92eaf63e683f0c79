import Ccf.Ds.Serializer
import Ccf.Lib.Exec

/-!
# The host's node connections (`host/nodeconnections.h`)

The host carries the traffic between nodes over TCP. Each connection to or from another node has
a `ConnectionBehaviour`, whose `on_read` gets the bytes TCP delivers, in chunks of any sizes. The
other node sends frames: a `uint32_t` length, then a message that starts with its
`NodeMsgType` and `Header`. `on_read` keeps the bytes it has not used in `pending`, and the
length of the message it waits for in `msg_size`, `(uint32_t)-1` while it waits for a length.
Each whole message is written to the enclave as one `node_inbound` message; an incoming
connection, which does not know the node at its other end, takes it from the `Header` of the
first one (`associate`).

The behaviour is its fields, and `inbound` the messages written to the enclave, in order. The
calls of `serialized::read` throw a `logic_error` when the bytes run short, which `on_read` does
not catch: its run ends there, with what it had written and set. The map of associated
connections in the parent, and the logging, are left out.
-/

namespace Ccf.Host

open Serializer (ReadError)

/-- `ccf::NoNode`: `std::numeric_limits<NodeId>::max()`. -/
def NoNode : UInt64 := 0xFFFFFFFFFFFFFFFF

/-- `(uint32_t)-1`: the value of `msg_size` while no length has been read. -/
def noMsgSize : UInt32 := 0xFFFFFFFF

/-- `sizeof(uint32_t)`: the length in front of each message. -/
def sizeOfLength : Nat := 4

/-- `sizeof(ccf::NodeMsgType)`, a `uint64_t` enumeration. -/
def sizeOfNodeMsgType : Nat := 8

/-- `sizeof(ccf::Header)`: `msg` and `from_node`, two `uint64_t`, packed. -/
def sizeOfHeader : Nat := 16

-- Made here once: the equation lemmas that the proofs below unfold.
section
attribute [local simp] sizeOfLength sizeOfHeader
end

/-- A `ConnectionBehaviour`: whether it is an `IncomingBehaviour`, whose `associate` records
the node, or an `OutgoingBehaviour`, whose `associate` is the base one and does nothing; the
node, `msg_size` and `pending`; and the `node_inbound` messages written to the enclave. -/
structure Connection where
  incoming : Bool
  node : UInt64
  msgSize : UInt32
  pending : List UInt8
  inbound : List (List UInt8)
  deriving DecidableEq, Repr

/-- A connection just opened: waiting for a length, with nothing held. -/
def Connection.new (incoming : Bool) (node : UInt64) : Connection :=
  ⟨incoming, node, noMsgSize, [], []⟩

abbrev ConnM := EStateM ReadError Connection

/-- `serialized::read` of `size` bytes, on a connection. -/
def readValue (size : Nat) (data : List UInt8) : ConnM (Fin (256 ^ size) × List UInt8) :=
  match Serializer.readScalar size data with
  | .ok r => pure r
  | .error e => throw e

/-- `associate(n)`. -/
def associate (n : UInt64) : ConnM Unit :=
  modify fun c => if c.incoming then { c with node := n } else c

/-- `from_node` of a `Header` read as its 16 bytes: the second `uint64_t`. -/
def fromNode (header : Fin (256 ^ sizeOfHeader)) : UInt64 := UInt64.ofNat (header.val / 256 ^ 8)

/-- The `while (true)` loop of `on_read` on the bytes `data` from the front of `pending` it has
not used: what it leaves unused. -/
def onReadLoop : Nat → List UInt8 → ConnM (List UInt8)
  | 0, data => pure data
  | fuel + 1, data => do
      let c ← get
      if c.msgSize = noMsgSize ∧ data.length < sizeOfLength then return data
      let data ← if c.msgSize = noMsgSize then do
          let (len, data) ← readValue sizeOfLength data
          modify fun c => { c with msgSize := UInt32.ofNat len.val }
          pure data
        else pure data
      let c ← get
      if data.length < c.msgSize.toNat then return data
      -- the type and the header are read from the message's bytes, but not checked
      let (_, p) ← readValue sizeOfNodeMsgType data
      let (header, _) ← readValue sizeOfHeader p
      if c.node = NoNode then associate (fromNode header)
      modify fun c => { c with inbound := c.inbound ++ [data.take c.msgSize.toNat] }
      modify fun c => { c with msgSize := noMsgSize }
      onReadLoop fuel (data.drop c.msgSize.toNat)

/-- `on_read(len, incoming)`. Each turn of the loop but the first reads a length of four bytes,
so twice the bytes and two more turns are enough for the loop to end on its own. -/
def onRead (incoming : List UInt8) : ConnM Unit := do
  modify fun c => { c with pending := c.pending ++ incoming }
  let c ← get
  let rest ← onReadLoop (2 * c.pending.length + 2) c.pending
  -- `pending.erase(pending.begin(), pending.begin() + used)`
  modify fun c => { c with pending := rest }

-- Made here once: the equation lemmas that the proofs below unfold.
section
attribute [local simp] Connection.new readValue associate onReadLoop onRead
end

end Ccf.Host
