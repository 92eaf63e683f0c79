import Ccf.Lib.Exec
import Mathlib.Data.List.Basic

/-!
# Node-to-node channels (`node/channels.h`, `tls/keyexchange.h`, `crypto/symmkey.h`)

Each node keeps one `Channel` per peer. A channel starts with a fresh ECDH key pair
(`INITIATED`); once the peer's public share is loaded, `establish` derives an AES-GCM
key from the shared secret and the channel is `ESTABLISHED`. Every frame the channel
then tags or encrypts takes the channel's sequence number, incremented atomically, as
its IV: `GcmHdr` is `GcmHeader<sizeof(SeqNo)>`, an 8-byte IV holding exactly the
sequence number.

The cryptography is ideal and symbolic. A key share names the node that drew it and
the peer it was drawn for; its public half is the share itself, since nothing about
the scalar is used. The key two shares agree on is the unordered pair of them
(`Key.ofShares`), so it is the same from either side, as an ECDH secret is. A GCM tag
names the key, the IV, the additional data and the ciphertext it was computed over, and
a ciphertext names the key, the IV and the plaintext: verifying or decrypting under a key
succeeds exactly on what was produced under that key with that IV and data. The
signature on a public share (`get_signed_public`) is the network key's, held by every
node; the length-prefixed byte layout around it is left out.
-/

namespace Ccf.Node

/-- `ccf::NodeId`. -/
abbrev NodeId := Nat

/-- `ccf::SeqNo`. -/
abbrev SeqNo := Nat

/-- `ccf::ChannelStatus`. -/
inductive ChannelStatus where
  | INITIATED
  | ESTABLISHED
  deriving DecidableEq, Repr

/-- An ECDH key pair, named by the node that drew it and the peer it was drawn for. -/
structure Share where
  owner : NodeId
  peer : NodeId
  deriving DecidableEq, Repr

/-- Shares in a fixed order, so that a key does not depend on the side computing it. -/
def Share.le (a b : Share) : Bool := a.owner < b.owner || (a.owner = b.owner && a.peer ≤ b.peer)

-- Made here once: the equation lemmas that the proofs below unfold.
section
attribute [local simp] Share.le
end

/-- An AES-GCM key: the secret of two shares. -/
structure Key where
  lo : Share
  hi : Share
  deriving DecidableEq, Repr

/-- `compute_shared_secret`: the key two shares agree on. -/
def Key.ofShares (own peer : Share) : Key := if own.le peer then ⟨own, peer⟩ else ⟨peer, own⟩

-- Made here once: the equation lemmas that the proofs below unfold.
section
attribute [local simp] Key.ofShares
end

/-- A ciphertext of an ideal AES-GCM: it names its key, IV and plaintext. -/
structure Cipher where
  key : Key
  iv : SeqNo
  plain : List Nat
  deriving DecidableEq, Repr

/-- A GCM tag: the key, the IV, the additional data and the ciphertext it covers. -/
structure Tag where
  key : Key
  iv : SeqNo
  aad : List Nat
  cipher : Option Cipher
  deriving DecidableEq, Repr

/-- `GcmHdr`: the IV and the tag. -/
structure GcmHdr where
  iv : SeqNo
  tag : Tag
  deriving DecidableEq, Repr

/-- `ccf::Channel`. -/
structure Channel where
  /-- The key pair of `ctx`, drawn when the channel is made. -/
  own : Share
  /-- The peer's public share, once loaded into `ctx`. -/
  peerShare : Option Share
  status : ChannelStatus
  key : Option Key
  seqNo : SeqNo
  deriving DecidableEq, Repr

/-- A method of a channel. -/
abbrev ChannelM := EStateM String Channel

namespace Channel

/-- The constructor, with the key pair `ctx` draws. -/
def new (own : Share) : Channel := ⟨own, none, .INITIATED, none, 0⟩

/-- `get_public`: the own share, while the channel is not established. -/
def getPublic (c : Channel) : Option Share :=
  if c.status = .ESTABLISHED then none else some c.own

/-- `load_peer_public`. -/
def loadPeerPublic (peer : Share) : ChannelM Bool := do
  let c ← get
  if c.status = .ESTABLISHED then return false
  set { c with peerShare := some peer }
  return true

/-- `establish`: derive the key from the shared secret. -/
def establish : ChannelM Unit := do
  let c ← get
  match c.peerShare with
  | none => throw "Failed to compute shared secret"
  | some peer => set { c with key := some (Key.ofShares c.own peer), status := .ESTABLISHED }

/-- The key of an established channel; the source's `logic_error` otherwise. -/
def keyFor (what : String) : ChannelM Key := do
  let c ← get
  match c.status, c.key with
  | .ESTABLISHED, some k => pure k
  | _, _ => throw ("Channel is not established for " ++ what)

/-- `seqNo.fetch_add(1)`. -/
def nextSeqNo : ChannelM SeqNo := do
  let c ← get
  set { c with seqNo := c.seqNo + 1 }
  pure c.seqNo

/-- `tag`: a header over `aad`, with the next sequence number as IV. -/
def tag (aad : List Nat) : ChannelM GcmHdr := do
  let k ← keyFor "tagging"
  let iv ← nextSeqNo
  pure ⟨iv, ⟨k, iv, aad, none⟩⟩

/-- `verify`. -/
def verify (hdr : GcmHdr) (aad : List Nat) : ChannelM Bool := do
  let k ← keyFor "verifying"
  pure (hdr.tag = ⟨k, hdr.iv, aad, none⟩)

/-- `encrypt`: a header and the ciphertext of `plain`, with the next sequence number as
IV. -/
def encrypt (aad plain : List Nat) : ChannelM (GcmHdr × Cipher) := do
  let k ← keyFor "encrypting"
  let iv ← nextSeqNo
  let c : Cipher := ⟨k, iv, plain⟩
  pure (⟨iv, ⟨k, iv, aad, some c⟩⟩, c)

/-- `decrypt`: the plaintext, when the tag verifies. -/
def decrypt (hdr : GcmHdr) (aad : List Nat) (cipher : Cipher) : ChannelM (Option (List Nat)) := do
  let k ← keyFor "decrypting"
  if hdr.tag = ⟨k, hdr.iv, aad, some cipher⟩ ∧ cipher.key = k ∧ cipher.iv = hdr.iv then
    pure (some cipher.plain)
  else pure none

-- Made here once: the equation lemmas that the proofs below unfold.
section
attribute [local simp] new encrypt decrypt
end

end Channel

end Ccf.Node
