import Ccf.Kv.Types
import Ccf.Lib.Bytes
import Ccf.Lib.UpperBound
import Ccf.Lib.SortedMap

/-!
# Ledger encryption (`node/encryptor.h`, `crypto/symmkey.h`, `node/networksecrets.h`)

`TxEncryptor` encrypts the ledger's transactions with AES-GCM. The network keeps its secrets in
a `std::map` from the version each is valid from; the encryptor copies their master keys, in
that order, when it is built. Every `encrypt` takes a fresh 12-byte IV: the low 8 bytes are a
counter of the encryptor's calls and the high 4 the low 4 bytes of the node's id. The header
it returns is the 16-byte tag, then the IV.

The cipher itself is left abstract (`Gcm`): what is proved holds for any function pair with the
properties stated of it where they are used. The header's two arrays are memories of bytes, so
that the stores of `setIvId` and `setIvSeq` through `reinterpret_cast` are the stores of
`Bytes`. `encrypt` builds its header on the stack without initialising it; `GcmHeader.blank`
stands for those bytes, and every byte of it that is read is written first. Of a secret only
the master key is read; sealing a new secret is left out.
-/

namespace Ccf.Encryption

/-- `crypto::GCM_SIZE_TAG`. -/
def GCM_SIZE_TAG : Nat := 16

/-- `crypto::GCM_SIZE_IV`. -/
def GCM_SIZE_IV : Nat := 12

/-- `GcmHeader::IV_DELIMITER`: where the node id starts in the IV. -/
def IV_DELIMITER : Nat := 8

/-- `serialized::read(data, size, block_size)`: the next `block_size` bytes and what is left. -/
def readBlock (data : List UInt8) (blockSize : Nat) : Except String (List UInt8 × List UInt8) :=
  if data.length < blockSize then
    .error ("Insufficient space (read block: " ++ toString data.length ++ " < " ++
      toString blockSize ++ ")")
  else .ok (data.take blockSize, data.drop blockSize)

-- Made here once: the equation lemmas that the proofs below unfold.
section
attribute [local simp] readBlock
end

/-- `crypto::GcmHeader<GCM_SIZE_IV>`: the arrays `tag` and `iv`. -/
structure GcmHeader where
  tag : Nat → UInt8
  iv : Nat → UInt8

namespace GcmHeader

/-- The bytes of a header declared and not initialised. -/
def blank : GcmHeader := ⟨fun _ => 0, fun _ => 0⟩

/-- `setIvId(id)`: `static_cast<uint32_t>(id)` over the 4 bytes from `IV_DELIMITER`. -/
def setIvId (hdr : GcmHeader) (id : UInt64) : GcmHeader :=
  { hdr with iv := Bytes.store hdr.iv IV_DELIMITER 4 id.toUInt32.toNat }

/-- `setIvSeq(seq)`: `seq` over the first 8 bytes. -/
def setIvSeq (hdr : GcmHeader) (seq : UInt64) : GcmHeader :=
  { hdr with iv := Bytes.store hdr.iv 0 8 seq.toNat }

/-- `getIv()`: the `GCM_SIZE_IV` bytes of the IV. -/
def getIv (hdr : GcmHeader) : List UInt8 := Bytes.read hdr.iv 0 GCM_SIZE_IV

/-- `serialise()`: the tag, then the IV. -/
def serialise (hdr : GcmHeader) : List UInt8 :=
  Bytes.read hdr.tag 0 GCM_SIZE_TAG ++ Bytes.read hdr.iv 0 GCM_SIZE_IV

/-- `deserialise(serial_hdr)`: a block for the tag, then one for the IV, each copied over the
array. Bytes after them are not looked at. -/
def deserialise (hdr : GcmHeader) (serialHdr : List UInt8) : Except String GcmHeader := do
  let (tag, rest) ← readBlock serialHdr GCM_SIZE_TAG
  let (iv, _) ← readBlock rest GCM_SIZE_IV
  pure { tag := Bytes.copy hdr.tag 0 tag, iv := Bytes.copy hdr.iv 0 iv }

-- Made here once: the equation lemmas that the proofs below unfold.
section
attribute [local simp] setIvId setIvSeq getIv serialise deserialise
end

end GcmHeader

/-- `crypto::KeyAesGcm`, over the bytes of its key: `encrypt(key, iv, plain, aad)` gives the
cipher text and the tag, `decrypt(key, iv, tag, cipher, aad)` the plain text, or nothing when
the tag does not check. -/
structure Gcm where
  encrypt : List UInt8 → List UInt8 → List UInt8 → List UInt8 → List UInt8 × List UInt8
  decrypt : List UInt8 → List UInt8 → List UInt8 → List UInt8 → List UInt8 → Option (List UInt8)

/-- `ccf::Secret`: its master key. -/
structure Secret where
  master : List UInt8

/-- `NetworkSecrets`: `secrets_map`, a `std::map` from the version each secret is valid from,
so the versions increase along it; and `current_version`. -/
structure NetworkSecrets where
  secretsMap : List (Kv.Version × Secret)
  sorted : SortedMap.Sorted secretsMap
  currentVersion : Kv.Version

namespace NetworkSecrets

/-- `NetworkSecrets()`: no secrets. -/
def empty : NetworkSecrets := ⟨[], List.Pairwise.nil, 0⟩

/-- `add_secret(v, secret, force_seal)`, without the seal: `emplace`, which keeps a secret
that is there, then `current_version = max(current_version, v)`. -/
def addSecret (ns : NetworkSecrets) (v : Kv.Version) (secret : Secret) : NetworkSecrets where
  secretsMap :=
    if v ∈ SortedMap.keys ns.secretsMap then ns.secretsMap
    else SortedMap.upsert v secret ns.secretsMap
  sorted := by
    split
    · exact ns.sorted
    · exact ns.sorted.upsert v secret
  currentVersion := max ns.currentVersion v

/-- `get_secrets()`: the map, read in order. -/
def getSecrets (ns : NetworkSecrets) : List (Kv.Version × Secret) := ns.secretsMap

-- Made here once: the equation lemmas that the proofs below unfold.
section
attribute [local simp] getSecrets
end

end NetworkSecrets

/-- `TxEncryptor`: the node's id (`NodeId`, `uint64_t`), the IV counter `seqNo`, and
`encryption_keys`, each master key with the version it is valid from. -/
structure TxEncryptor where
  id : UInt64
  seqNo : UInt64
  encryptionKeys : List (Kv.Version × List UInt8)

namespace TxEncryptor

/-- `TxEncryptor(id, ns)`: the counter at 0, and the master keys in the map's order. -/
def new (id : UInt64) (ns : NetworkSecrets) : TxEncryptor :=
  ⟨id, 0, ns.getSecrets.map fun s => (s.1, s.2.master)⟩

/-- `set_iv(gcm_hdr)`: the node id, then the counter, which `fetch_add(1)` moves on. -/
def setIv (e : TxEncryptor) (hdr : GcmHeader) : GcmHeader × TxEncryptor :=
  ((hdr.setIvId e.id).setIvSeq e.seqNo, { e with seqNo := e.seqNo + 1 })

/-- The comparator of `get_encryption_key`: `comp(a, b) = b.first <= a`. -/
def keyComp (a : Kv.Version) (b : Kv.Version × List UInt8) : Bool := decide (b.1 ≤ a)

/-- `get_encryption_key(version)`: `std::upper_bound` over the keys from the last to the first;
the end of that range is an error. -/
def getEncryptionKey (e : TxEncryptor) (version : Kv.Version) : Except String (List UInt8) :=
  let keys := e.encryptionKeys.reverse
  let search := UpperBound.upperBound keyComp keys version
  match keys[search]? with
  | some k => .ok k.2
  | none => .error ("TxEncryptor: encrypt version is not valid: " ++ toString version)

/-- `encrypt(plain, additional_data, serialised_header, cipher, version)`: the serialised
header and the cipher text. The IV is set, and the counter moved on, before the key is looked
up, so a call that throws uses a counter value too. -/
def encrypt (g : Gcm) (e : TxEncryptor) (plain additionalData : List UInt8)
    (version : Kv.Version) : Except String (List UInt8 × List UInt8) × TxEncryptor :=
  let set := e.setIv GcmHeader.blank
  match set.2.getEncryptionKey version with
  | .error msg => (.error msg, set.2)
  | .ok key =>
      -- the key writes the cipher text, and the tag into the header
      let out := g.encrypt key set.1.getIv plain additionalData
      (.ok ({ set.1 with tag := Bytes.copy set.1.tag 0 out.2 }.serialise, out.1), set.2)

/-- `decrypt(cipher, additional_data, serialised_header, plain, version)`: whether the tag
checks, and the plain text, emptied when it does not. -/
def decrypt (g : Gcm) (e : TxEncryptor) (cipher additionalData serialisedHeader : List UInt8)
    (version : Kv.Version) : Except String (Bool × List UInt8) := do
  let hdr ← GcmHeader.blank.deserialise serialisedHeader
  let key ← e.getEncryptionKey version
  match g.decrypt key hdr.getIv (Bytes.read hdr.tag 0 GCM_SIZE_TAG) cipher additionalData with
  | some plain => pure (true, plain)
  | none => pure (false, [])

/-- A run of `encrypt` calls, each with its plain text, additional data and version: what each
returned, and the encryptor after them. -/
def encryptAll (g : Gcm) (e : TxEncryptor) :
    List (List UInt8 × List UInt8 × Kv.Version) →
      List (Except String (List UInt8 × List UInt8)) × TxEncryptor
  | [] => ([], e)
  | (plain, aad, v) :: calls =>
      let call := e.encrypt g plain aad v
      let rest := call.2.encryptAll g calls
      (call.1 :: rest.1, rest.2)

-- Made here once: the equation lemmas that the proofs below unfold.
section
attribute [local simp] new setIv keyComp getEncryptionKey encrypt decrypt encryptAll
end

end TxEncryptor

end Ccf.Encryption
