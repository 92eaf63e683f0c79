import Ccf.Node.Channels
import Ccf.Lib.Run

/-!
# Node-to-node messaging (`node/channels.h`, `node/nodetonode.h`)

`ChannelManager` holds a node's channels by peer, making one on first use, and sets
them up from signed public shares. `NodeToNode` sends and receives through them:
`send_authenticated` tags a message, `send_encrypted` encrypts one, and either first
starts a key exchange when the channel to the peer is not yet established, dropping
the message. The peer answers a `key_exchange` with its own share
(`key_exchange_response`), and each side establishes its channel on the other's share.

A message names its sender (`from_node`, the first value of the additional data); the
receiver verifies or decrypts it with its channel to that sender. What a node hands the
host goes out on the network, which may drop, reorder, duplicate or replay it: any packet
ever sent may be delivered to its destination any number of times. The ghost `accepted`
records every frame a node accepted.
-/

namespace Ccf.Node

/-- `ccf::ChannelMsg`. -/
inductive ChannelMsg where
  | key_exchange
  | key_exchange_response
  | encrypted_msg
  deriving DecidableEq, Repr

/-- What `NodeToNode` writes to the host. -/
inductive Packet where
  /-- `channel_msg`: a `ChannelHeader` and the signed public share. -/
  | channel (msg : ChannelMsg) (fromNode : NodeId) (signedPublic : Share)
  /-- A message of `send_authenticated`, with its header. -/
  | authenticated (fromNode : NodeId) (data : List Nat) (hdr : GcmHdr)
  /-- `forwarded_msg` of `send_encrypted`: the message header, the GCM header and the
  ciphertext. -/
  | encrypted (fromNode : NodeId) (msg : List Nat) (hdr : GcmHdr) (cipher : Cipher)
  deriving DecidableEq, Repr

/-- The GCM header of a frame; key-exchange messages have none. -/
def Packet.hdr? : Packet → Option GcmHdr
  | .channel .. => none
  | .authenticated _ _ hdr => some hdr
  | .encrypted _ _ hdr _ => some hdr

/-- `ccf::NodeToNode`, with its `ChannelManager`'s channels. -/
structure NodeToNode where
  self : NodeId
  channels : List (NodeId × Channel)
  /-- What was written to the host since the last call: destination and packet. -/
  toHost : List (NodeId × Packet)
  deriving DecidableEq, Repr

/-- A method of `NodeToNode`. -/
abbrev N2NM := EStateM String NodeToNode

namespace NodeToNode

/-- `initialize`. -/
def init (self : NodeId) : NodeToNode := ⟨self, [], []⟩

/-- `ChannelManager::get`: the channel to `peer`, made with a fresh key pair if there
is none yet. -/
def get (peer : NodeId) : N2NM Channel := do
  let n ← EStateM.get
  match n.channels.lookup peer with
  | some c => pure c
  | none =>
      let c := Channel.new ⟨n.self, peer⟩
      set { n with channels := (peer, c) :: n.channels }
      pure c

/-- Replace the channel to `peer`. -/
def setChannel (peer : NodeId) (c : Channel) (n : NodeToNode) : NodeToNode :=
  { n with channels := n.channels.map fun p => if p.1 = peer then (peer, c) else p }

/-- Run a method of the channel to `peer` on it, in place. -/
def onChannel {α : Type} (peer : NodeId) (op : ChannelM α) : N2NM α := do
  let c ← get peer
  match op c with
  | .ok a c' => do
      modify (setChannel peer c')
      pure a
  | .error e c' => do
      modify (setChannel peer c')
      throw e

/-- `to_host->write`. -/
def write (dest : NodeId) (p : Packet) : N2NM Unit :=
  modify fun n => { n with toHost := n.toHost ++ [(dest, p)] }

/-- `ChannelManager::get_signed_public`. -/
def getSignedPublic (peer : NodeId) : N2NM (Option Share) := do
  let c ← get peer
  pure c.getPublic

/-- `ChannelManager::load_peer_signed_public`: the signature, by the network key, is
checked by the ideal signature scheme, so only the loading and establishing remain. -/
def loadPeerSignedPublic (peer : NodeId) (signedPublic : Share) : N2NM Bool :=
  onChannel peer do
    let ok ← Channel.loadPeerPublic signedPublic
    if !ok then return false
    Channel.establish
    return true

/-- `establish_channel`: send a key exchange message with the signed own share. -/
def establishChannel (dest : NodeId) : N2NM Unit := do
  match ← getSignedPublic dest with
  | none => pure ()
  | some s => write dest (.channel .key_exchange (← EStateM.get).self s)

/-- `send_authenticated`: `data` is the message, which names this node as its sender. -/
def sendAuthenticated (dest : NodeId) (data : List Nat) : N2NM Bool := do
  let c ← get dest
  if c.status ≠ .ESTABLISHED then
    establishChannel dest
    return false
  let self := (← EStateM.get).self
  let hdr ← onChannel dest (Channel.tag (self :: data))
  write dest (.authenticated self data hdr)
  return true

/-- `recv_authenticated`: verify with the channel to the sender the message names. -/
def recvAuthenticated (fromNode : NodeId) (data : List Nat) (hdr : GcmHdr) :
    N2NM (List Nat) := do
  let ok ← onChannel fromNode (Channel.verify hdr (fromNode :: data))
  if !ok then throw ("Invalid authenticated node2node message from node " ++ toString fromNode)
  pure data

/-- `send_encrypted`: `msg` is the header message, which names this node as its sender,
and `data` the payload. -/
def sendEncrypted (dest : NodeId) (data msg : List Nat) : N2NM Bool := do
  let c ← get dest
  if c.status ≠ .ESTABLISHED then
    establishChannel dest
    return false
  let self := (← EStateM.get).self
  let (hdr, cipher) ← onChannel dest (Channel.encrypt (self :: msg) data)
  write dest (.encrypted self msg hdr cipher)
  return true

/-- `recv_encrypted`: decrypt with the channel to the sender the header names. -/
def recvEncrypted (fromNode : NodeId) (msg : List Nat) (hdr : GcmHdr) (cipher : Cipher) :
    N2NM (List Nat) := do
  match ← onChannel fromNode (Channel.decrypt hdr (fromNode :: msg) cipher) with
  | none => throw ("Invalid authenticated node2node message from node " ++ toString fromNode)
  | some plain => pure plain

/-- `process_key_exchange`: on the target, load the initiator's share and answer with
the own one. -/
def processKeyExchange (fromNode : NodeId) (signedPublic : Share) : N2NM Unit := do
  match ← getSignedPublic fromNode with
  | none => pure ()
  | some s =>
      if !(← loadPeerSignedPublic fromNode signedPublic) then return
      write fromNode (.channel .key_exchange_response (← EStateM.get).self s)

/-- `complete_key_exchange`: on the initiator, load the target's share. -/
def completeKeyExchange (fromNode : NodeId) (signedPublic : Share) : N2NM Unit := do
  let _ ← loadPeerSignedPublic fromNode signedPublic

/-- `recv_message`, and the receive paths of authenticated and encrypted frames: a
packet handed to the node by the host. -/
def recvPacket : Packet → N2NM Unit
  | .channel .key_exchange fromNode s => processKeyExchange fromNode s
  | .channel .key_exchange_response fromNode s => completeKeyExchange fromNode s
  | .channel .encrypted_msg _ _ => pure ()
  | .authenticated fromNode data hdr => do let _ ← recvAuthenticated fromNode data hdr
  | .encrypted fromNode msg hdr cipher => do let _ ← recvEncrypted fromNode msg hdr cipher

-- Made here once: the equation lemmas that the proofs below unfold.
section
attribute [local simp] init get write
end

end NodeToNode

/-- Nodes talking over a network that drops, reorders, duplicates and replays. -/
structure Net where
  nodes : NodeId → NodeToNode
  /-- Every packet ever handed to the host: sender, destination, packet. -/
  wire : List (NodeId × NodeId × Packet)
  /-- Ghost: every frame a node accepted, by the node. -/
  accepted : List (NodeId × Packet)

namespace Net

/-- Every node initialised, nothing sent. -/
def init : Net := ⟨NodeToNode.init, [], []⟩

/-- Node `n` runs `op`; what it wrote goes on the wire, and `accept` is recorded as
accepted if the call returned. -/
def act {α : Type} (w : Net) (n : NodeId) (op : N2NM α) (accept : Option Packet) : Net :=
  let r := op { w.nodes n with toHost := [] }
  let post := r.state
  { nodes := Function.update w.nodes n { post with toHost := [] }
    wire := w.wire ++ post.toHost.map fun p => (n, p.1, p.2)
    accepted := w.accepted ++
      match r, accept with
      | .ok _ _, some p => [(n, p)]
      | _, _ => [] }

-- Made here once: the equation lemmas that the proofs below unfold.
section
attribute [local simp] init act
end

/-- A call the host makes into a node. -/
inductive Call where
  | sendAuthenticated (n dest : NodeId) (data : List Nat)
  | sendEncrypted (n dest : NodeId) (data msg : List Nat)
  /-- The network hands a packet sent from `src` to its destination `dst`. -/
  | deliver (src dst : NodeId) (p : Packet)
  deriving DecidableEq, Repr

/-- The network after the call. -/
def Call.run : Call → Net → Net
  | .sendAuthenticated n dest data, w => w.act n (NodeToNode.sendAuthenticated dest data) none
  | .sendEncrypted n dest data msg, w => w.act n (NodeToNode.sendEncrypted dest data msg) none
  | .deliver _ dst p, w => w.act dst (NodeToNode.recvPacket p) (p.hdr?.map fun _ => p)

/-- Only packets that were sent are delivered. -/
def Call.Enabled (w : Net) : Call → Prop
  | .deliver src dst p => (src, dst, p) ∈ w.wire
  | _ => True

-- Made here once: the equation lemmas that the proofs below unfold.
section
attribute [local simp] Call.run Call.Enabled
end

instance (w : Net) (c : Call) : Decidable (c.Enabled w) := by
  cases c <;> unfold Call.Enabled <;> infer_instance

/-- One step: an enabled call. -/
def Step (w w' : Net) : Prop := ∃ c : Call, c.Enabled w ∧ w' = c.run w

/-- The runs of the network. -/
def IsRun (ws : List Net) : Prop := Run.IsRun (· = init) Step ws

/-- The networks a schedule passes through. -/
def play (w : Net) : List Call → List Net
  | [] => [w]
  | c :: cs => w :: play (c.run w) cs

/-- The network a schedule ends in. -/
def after (w : Net) (cs : List Call) : Net := cs.foldl (fun w c => c.run w) w

/-- Every call of the schedule is enabled where it is made. -/
def AllEnabled : Net → List Call → Prop
  | _, [] => True
  | w, c :: cs => c.Enabled w ∧ AllEnabled (c.run w) cs

-- Made here once: the equation lemmas that the proofs below unfold.
section
attribute [local simp] play after
end

instance decAllEnabled : (w : Net) → (cs : List Call) → Decidable (AllEnabled w cs)
  | _, [] => isTrue trivial
  | w, c :: cs =>
      have := decAllEnabled (c.run w) cs
      inferInstanceAs (Decidable (_ ∧ _))

theorem after_mem_play (w : Net) (cs : List Call) : w.after cs ∈ w.play cs := by
  induction cs generalizing w with
  | nil => exact List.mem_singleton_self w
  | cons c cs ih => exact List.mem_cons_of_mem w (ih (c.run w))

theorem play_isChain {w : Net} {cs : List Call} (h : AllEnabled w cs) :
    List.IsChain Step (w.play cs) := by
  induction cs generalizing w with
  | nil => exact .singleton w
  | cons c cs ih =>
      cases cs with
      | nil => exact .cons_cons ⟨c, h.1, rfl⟩ (.singleton _)
      | cons c' cs' => exact .cons_cons ⟨c, h.1, rfl⟩ (ih h.2)

/-- A schedule whose calls are all enabled is a run. -/
theorem IsRun.play {cs : List Call} (h : AllEnabled init cs) : IsRun (init.play cs) := by
  cases cs with
  | nil => exact ⟨_, [], rfl, rfl, .singleton _⟩
  | cons c cs => exact ⟨_, _, rfl, rfl, play_isChain h⟩

end Net

end Ccf.Node
