import Ccf.Kv.Types
import Ccf.Lib.Exec

/-!
# Serialising transactions (`kv/genericserialisewrapper.h`, `kv/msgpackserialise.h`)

The store serialises a committed transaction with `GenericSerialiseWrapper<MsgPackWriter>`
and reads it back with `GenericDeserialiseWrapper<MsgPackReader>`. The writer packs
one msgpack value per call into the public or the private buffer; the reader unpacks
them in order and converts each to the C++ type it is read as.

A buffer is modelled as the list of values packed into it, each tagged with the type
it was packed from (`Token`). `read_next<T>` takes the next value and fails, as
`msgpack::unpack` and `as<T>` throw, when there is none or it is not a `T`. That
msgpack round-trips each value is thereby built in: a value read back is the value
written.

With an encryptor the private buffer is encrypted under the public one as
additional data. The serialised transaction keeps the public domain and the
ciphertext (`RawTx`); the GCM header and the length prefix that separate them in
the byte layout are folded into the ciphertext. The encryptor is abstract
(`TxEncryptor`): a ciphertext type and the two functions, about which nothing is
assumed here.
-/

namespace Ccf.Kv

/-- `kv::KvOperationType`: one bit per operation, so that a reader may accept
several at once. -/
structure KvOperationType where
  bits : UInt32
  deriving DecidableEq, Repr

namespace KvOperationType

def KOT_NOT_SUPPORTED : KvOperationType := ⟨0⟩
def KOT_SET_VERSION : KvOperationType := ⟨1⟩
def KOT_MAP_START_INDICATOR : KvOperationType := ⟨2⟩
def KOT_READ_VERSION : KvOperationType := ⟨4⟩
def KOT_READ : KvOperationType := ⟨8⟩
def KOT_WRITE_VERSION : KvOperationType := ⟨16⟩
def KOT_WRITE : KvOperationType := ⟨32⟩
def KOT_REMOVE_VERSION : KvOperationType := ⟨64⟩
def KOT_REMOVE : KvOperationType := ⟨128⟩

/-- `operator&`. -/
def and (a b : KvOperationType) : KvOperationType := ⟨a.bits &&& b.bits⟩

/-- `operator|`. -/
def or (a b : KvOperationType) : KvOperationType := ⟨a.bits ||| b.bits⟩

-- Made here once: the equation lemmas that the proofs below unfold.
section
attribute [local simp] and
end

end KvOperationType

/-- A packed value, by the C++ type it was packed from. -/
inductive Token (K V : Type) where
  /-- A `kv::Version` (`int64_t`). -/
  | version (v : Version)
  /-- A count header (`uint64_t`). -/
  | count (n : Nat)
  | op (o : KvOperationType)
  | name (s : String)
  | key (k : K)
  | value (v : V)
  deriving DecidableEq, Repr

/-- `kv::AbstractTxEncryptor`, with the ciphertext (header included) of type `C`. -/
structure TxEncryptor (K V C : Type) where
  /-- Encrypt the private domain, with the public domain as additional data. -/
  encrypt : List (Token K V) → List (Token K V) → Version → C
  /-- Decrypt and authenticate; `none` when the tag does not verify. -/
  decrypt : C → List (Token K V) → Version → Option (List (Token K V))

/-- A serialised transaction: its public domain, and the encrypted private domain
when the store has an encryptor. -/
structure RawTx (K V C : Type) where
  publicDomain : List (Token K V)
  privateDomain : Option C
  deriving DecidableEq, Repr

variable {K V C : Type}

/-- `GenericSerialiseWrapper<MsgPackWriter>`. -/
structure Serialiser (K V C : Type) where
  publicWriter : List (Token K V)
  privateWriter : List (Token K V)
  currentDomain : SecurityDomain
  version : Version
  cryptoUtil : Option (TxEncryptor K V C)

namespace Serialiser

/-- `serialise_internal`: pack into the current domain's buffer. -/
def serialiseInternal (s : Serialiser K V C) (t : Token K V) : Serialiser K V C :=
  match s.currentDomain with
  | .PUBLIC => { s with publicWriter := s.publicWriter ++ [t] }
  | .PRIVATE => { s with privateWriter := s.privateWriter ++ [t] }

/-- The constructor: the version opens the public domain. -/
def init (e : Option (TxEncryptor K V C)) (version : Version) : Serialiser K V C :=
  serialiseInternal ⟨[], [], .PUBLIC, version, e⟩ (.version version)

/-- `start_map`: switch to the map's domain and open it. -/
def startMap (s : Serialiser K V C) (name : String) (domain : SecurityDomain) :
    Except String (Serialiser K V C) :=
  if domain = .PRIVATE ∧ s.cryptoUtil.isNone then
    .error ("Private map " ++ name ++ " cannot be serialised without an encryptor")
  else
    let s := { s with currentDomain := domain }
    .ok ((s.serialiseInternal (.op .KOT_MAP_START_INDICATOR)).serialiseInternal (.name name))

def serialiseReadVersion (s : Serialiser K V C) (version : Version) : Serialiser K V C :=
  s.serialiseInternal (.version version)

def serialiseCountHeader (s : Serialiser K V C) (ctr : Nat) : Serialiser K V C :=
  s.serialiseInternal (.count ctr)

def serialiseRead (s : Serialiser K V C) (k : K) (version : Version) : Serialiser K V C :=
  (s.serialiseInternal (.key k)).serialiseInternal (.version version)

def serialiseWrite (s : Serialiser K V C) (k : K) (v : V) : Serialiser K V C :=
  (s.serialiseInternal (.key k)).serialiseInternal (.value v)

def serialiseRemove (s : Serialiser K V C) (k : K) : Serialiser K V C :=
  s.serialiseInternal (.key k)

/-- `get_raw_data`: the public domain alone without an encryptor, else the public
domain and the private one encrypted under it. -/
def getRawData (s : Serialiser K V C) : RawTx K V C :=
  match s.cryptoUtil with
  | none => ⟨s.publicWriter, none⟩
  | some e => ⟨s.publicWriter, some (e.encrypt s.privateWriter s.publicWriter s.version)⟩

-- Made here once: the equation lemmas that the proofs below unfold.
section
attribute [local simp] serialiseInternal init startMap getRawData
end

end Serialiser

/-- `GenericDeserialiseWrapper<MsgPackReader>`: the two readers hold what is left to
read; `current` says which one `current_reader` points to. -/
structure Deserialiser (K V C : Type) where
  publicReader : List (Token K V)
  privateReader : List (Token K V)
  current : SecurityDomain
  unhandledOp : KvOperationType
  version : Version
  cryptoUtil : Option (TxEncryptor K V C)
  domainRestriction : Option SecurityDomain

/-- A method of the deserialiser; a failed unpack throws. -/
abbrev DeserialiserM (K V C : Type) := EStateM String (Deserialiser K V C)

namespace Deserialiser

/-- The constructor. -/
def new (e : Option (TxEncryptor K V C)) (domainRestriction : Option SecurityDomain) :
    Deserialiser K V C :=
  ⟨[], [], .PUBLIC, .KOT_NOT_SUPPORTED, 0, e, domainRestriction⟩

/-- The buffer `current_reader` reads. -/
def currentReader (d : Deserialiser K V C) : List (Token K V) :=
  match d.current with
  | .PUBLIC => d.publicReader
  | .PRIVATE => d.privateReader

/-- Replace what `current_reader` has left. -/
def setCurrentReader (d : Deserialiser K V C) (l : List (Token K V)) : Deserialiser K V C :=
  match d.current with
  | .PUBLIC => { d with publicReader := l }
  | .PRIVATE => { d with privateReader := l }

/-- `read_next<T>` on `current_reader`, with `f` the conversion to `T`. -/
def readNext {α : Type} (f : Token K V → Option α) : DeserialiserM K V C α := do
  let d ← get
  match d.currentReader with
  | [] => throw "insufficient bytes"
  | t :: rest =>
      match f t with
      | none => throw "std::bad_cast"
      | some a => do
          set (d.setCurrentReader rest)
          pure a

def asVersion : Token K V → Option Version
  | .version v => some v
  | _ => none

def asCount : Token K V → Option Nat
  | .count n => some n
  | _ => none

def asOp : Token K V → Option KvOperationType
  | .op o => some o
  | _ => none

def asName : Token K V → Option String
  | .name s => some s
  | _ => none

def asKey : Token K V → Option K
  | .key k => some k
  | _ => none

def asValue : Token K V → Option V
  | .value v => some v
  | _ => none

/-- `init`: set up the readers. Without an encryptor the buffer is the public
domain. With one, the public domain is read as it is; unless only the public domain
is wanted, the private one is decrypted under it, and `init` fails when that does not
verify or there is no private domain to decrypt. -/
def init (d : Deserialiser K V C) (buffer : RawTx K V C) : Bool × Deserialiser K V C :=
  let d := { d with current := .PUBLIC }
  match d.cryptoUtil with
  | none => (true, { d with publicReader := buffer.publicDomain })
  | some e =>
      let d := { d with publicReader := buffer.publicDomain }
      if d.domainRestriction = some .PUBLIC then (true, d)
      else
        -- `peek_next<Version>` of the public reader
        let version := (buffer.publicDomain.head?.bind asVersion).getD 0
        let d := { d with version := version }
        match buffer.privateDomain.bind fun c => e.decrypt c buffer.publicDomain version with
        | none => (false, d)
        | some priv => (true, { d with privateReader := priv })

/-- `try_read_op_flag`: an operation header of one of the kinds `type`, or a
header read earlier that was not of the kind then asked for. -/
def tryReadOpFlag (type : KvOperationType) : DeserialiserM K V C KvOperationType := do
  let d ← get
  if d.unhandledOp ≠ .KOT_NOT_SUPPORTED then
    let currType := type.and d.unhandledOp
    if currType ≠ .KOT_NOT_SUPPORTED then
      modify fun d => { d with unhandledOp := .KOT_NOT_SUPPORTED }
    pure currType
  else
    let nextOp ← readNext asOp
    if type.and nextOp = nextOp then pure nextOp
    else
      modify fun d => { d with unhandledOp := nextOp }
      pure .KOT_NOT_SUPPORTED

/-- `try_read_op`. -/
def tryReadOp (type : KvOperationType) : DeserialiserM K V C Bool := do
  let op ← tryReadOpFlag type
  pure (op = type)

def deserialiseVersion : DeserialiserM K V C Version := do
  let v ← readNext asVersion
  modify fun d => { d with version := v }
  pure v

/-- `start_map`: the name of the next map, moving on to the private domain when the
public one is exhausted; `none` at the end. -/
def startMap : DeserialiserM K V C (Option String) := do
  let d ← get
  if d.currentReader = [] then
    if d.current = .PUBLIC ∧ d.privateReader ≠ [] then
      set { d with current := .PRIVATE }
    else
      return none
  let ok ← tryReadOp .KOT_MAP_START_INDICATOR
  if !ok then return none
  let name ← readNext asName
  pure (some name)

def deserialiseReadVersion : DeserialiserM K V C Version := readNext asVersion

def deserialiseReadHeader : DeserialiserM K V C Nat := readNext asCount

def deserialiseRead : DeserialiserM K V C (K × Version) := do
  let k ← readNext asKey
  let v ← readNext asVersion
  pure (k, v)

def deserialiseWriteHeader : DeserialiserM K V C Nat := readNext asCount

def deserialiseWrite : DeserialiserM K V C (K × V) := do
  let k ← readNext asKey
  let v ← readNext asValue
  pure (k, v)

def deserialiseRemoveHeader : DeserialiserM K V C Nat := readNext asCount

def deserialiseRemove : DeserialiserM K V C K := readNext asKey

/-- `end`: both the current and the public reader are exhausted. -/
def «end» (d : Deserialiser K V C) : Bool :=
  d.currentReader.isEmpty && d.publicReader.isEmpty

-- Made here once: the equation lemmas that the proofs below unfold.
section
attribute [local simp] new currentReader setCurrentReader readNext init tryReadOpFlag tryReadOp deserialiseVersion startMap deserialiseReadVersion deserialiseReadHeader deserialiseWriteHeader deserialiseWrite deserialiseRemoveHeader
end

end Deserialiser

end Ccf.Kv
