import Mathlib.Order.Bounds.Defs
import Ccf.Node.Encryptor

/-!
# Ledger encryption: the key in force, the round trip, and fresh IVs

Three properties of `TxEncryptor`, each over every history of calls:

* `get_encryption_key(v)` returns the key of the secret in force at `v`, the one valid from the
  greatest version at most `v` (`getEncryptionKey_of_selects`), and throws exactly when `v` is
  below every version (`getEncryptionKey_eq_error_iff`). The search is `std::upper_bound` over
  the keys from the last to the first: read that way the versions decrease, so `b.first <= v`
  is false on a prefix and true after it, which is all `upper_bound` needs
  (`partitioned_reverse`).
* What `encrypt` returns, `decrypt` turns back into the plain text, in any encryptor with the
  same key for the version it is given, when the cipher is correct (`decrypt_encrypt`).
* The IV of the `i`-th call is the counter `seqNo + i` beside the node's id (`encryptAll_iv`),
  and the IV's bytes give both back (`getIv_inj`). So the calls of one node have different IVs
  while it makes at most `2^64` of them, and those of two nodes do when their ids differ in the
  low 32 bits. The IV in the header is the one the cipher was given (`encrypt_of_ok`).
-/

namespace Ccf.Encryption

open SortedMap

/-- What the ledger asks of the cipher: a tag of `GCM_SIZE_TAG` bytes, and decryption under the
key, IV and additional data of an encryption giving its plain text back. -/
structure Gcm.Correct (g : Gcm) : Prop where
  tag_length : ∀ key iv plain aad, (g.encrypt key iv plain aad).2.length = GCM_SIZE_TAG
  decrypt_encrypt : ∀ key iv plain aad,
    g.decrypt key iv (g.encrypt key iv plain aad).2 (g.encrypt key iv plain aad).1 aad = some plain

/-- `s` is the version the secret in force at `v` is valid from: the greatest version of the
list at most `v`. -/
def Selects {α : Type} (l : List (Kv.Version × α)) (v s : Kv.Version) : Prop :=
  IsGreatest {s' | s' ∈ keys l ∧ s' ≤ v} s

/-- The IV of call number `seq` of node `id`: what `set_iv` writes in the header. -/
def ivOf (id seq : UInt64) : List UInt8 := ((GcmHeader.blank.setIvId id).setIvSeq seq).getIv

-- Made here once: the equation lemmas that the proofs below unfold.
section
attribute [local simp] Selects
end

/-! ## The IV -/

section Iv

theorem getIv_eq_read_append (hdr : GcmHeader) :
    hdr.getIv = Bytes.read hdr.iv 0 8 ++ Bytes.read hdr.iv IV_DELIMITER 4 :=
  Bytes.read_add 0 8 4

@[simp] theorem length_getIv (hdr : GcmHeader) : hdr.getIv.length = GCM_SIZE_IV :=
  Bytes.length_read _ _

@[simp] theorem length_ivOf (id seq : UInt64) : (ivOf id seq).length = GCM_SIZE_IV :=
  length_getIv _

/-- The counter is in the first 8 bytes of the IV. -/
theorem load_seq (hdr : GcmHeader) (id seq : UInt64) :
    Bytes.load ((hdr.setIvId id).setIvSeq seq).iv 0 8 = seq.toNat := by
  rw [GcmHeader.setIvSeq, Bytes.load_store]
  exact Nat.mod_eq_of_lt (by simpa using seq.toNat_lt)

/-- The low 32 bits of the id are in the 4 bytes from `IV_DELIMITER`: the counter, stored
after the id, stops before them. -/
theorem load_id (hdr : GcmHeader) (id seq : UInt64) :
    Bytes.load ((hdr.setIvId id).setIvSeq seq).iv IV_DELIMITER 4 = id.toUInt32.toNat := by
  rw [GcmHeader.setIvSeq, Bytes.load_store_of_disjoint (Or.inr (Nat.le_refl 8)),
    GcmHeader.setIvId, Bytes.load_store]
  exact Nat.mod_eq_of_lt (by simpa using id.toUInt32.toNat_lt)

/-- The IV after `set_iv` gives back the counter and the low 32 bits of the id, whatever the
header held before. -/
theorem getIv_inj {hdr hdr' : GcmHeader} {id id' seq seq' : UInt64}
    (h : ((hdr.setIvId id).setIvSeq seq).getIv = ((hdr'.setIvId id').setIvSeq seq').getIv) :
    seq = seq' ∧ id.toUInt32 = id'.toUInt32 := by
  rw [getIv_eq_read_append, getIv_eq_read_append] at h
  obtain ⟨hseq, hid⟩ := List.append_inj h (by simp)
  constructor
  · apply UInt64.toNat_inj.mp
    rw [← load_seq hdr id seq, ← load_seq hdr' id' seq']
    exact Bytes.load_eq_of_read_eq hseq
  · apply UInt32.toNat_inj.mp
    rw [← load_id hdr id seq, ← load_id hdr' id' seq']
    exact Bytes.load_eq_of_read_eq hid

end Iv

/-! ## The key in force -/

section Keys

variable {e : TxEncryptor}

/-- From the last key back the versions decrease, so `b.first <= v` holds from some point on. -/
theorem partitioned_reverse (hl : Sorted e.encryptionKeys) (v : Kv.Version) :
    UpperBound.Partitioned (TxEncryptor.keyComp v) e.encryptionKeys.reverse := by
  intro i j hi hj hij hpi
  rcases Nat.lt_or_eq_of_le hij with hlt | rfl
  · have hdec := hl.getElem_reverse_lt hlt hi hj
    rw [TxEncryptor.keyComp, decide_eq_true_eq] at hpi ⊢
    exact le_of_lt (lt_of_lt_of_le hdec hpi)
  · exact hpi

/-- With the keys sorted, the search stops at the first key, from the last one back, valid from
a version at most `v`. -/
theorem upperBound_keyComp (hl : Sorted e.encryptionKeys) (v : Kv.Version) :
    UpperBound.upperBound TxEncryptor.keyComp e.encryptionKeys.reverse v =
      e.encryptionKeys.reverse.findIdx (TxEncryptor.keyComp v) :=
  UpperBound.upperBound_eq_findIdx (partitioned_reverse hl v)

theorem getEncryptionKey_of_selects (hl : Sorted e.encryptionKeys) {v s : Kv.Version}
    {k : List UInt8} (hmem : (s, k) ∈ e.encryptionKeys) (hs : Selects e.encryptionKeys v s) :
    e.getEncryptionKey v = .ok k := by
  obtain ⟨⟨-, hsv⟩, hmax⟩ := hs
  simp only [TxEncryptor.getEncryptionKey, upperBound_keyComp hl]
  -- `(s, k)` is at some position `j` from the end, and the search stops there
  obtain ⟨j, hj, hjeq⟩ := List.getElem_of_mem (List.mem_reverse.mpr hmem)
  have hfound : e.encryptionKeys.reverse.findIdx (TxEncryptor.keyComp v) = j := by
    refine (List.findIdx_eq hj).mpr ⟨by rw [hjeq]; exact decide_eq_true hsv, fun i hij => ?_⟩
    have hi : i < e.encryptionKeys.reverse.length := by omega
    -- every key before it is valid from a later version than `s`, so from after `v`
    have hgt : s < e.encryptionKeys.reverse[i].1 := by
      have hlt := hl.getElem_reverse_lt hij hi hj
      rwa [hjeq] at hlt
    have hmem_i : e.encryptionKeys.reverse[i].1 ∈ keys e.encryptionKeys :=
      List.mem_map_of_mem (List.mem_reverse.mp (List.getElem_mem hi))
    apply decide_eq_false
    intro hle
    exact absurd (hmax ⟨hmem_i, hle⟩) (not_le.mpr hgt)
  rw [hfound, List.getElem?_eq_getElem hj, hjeq]

theorem getEncryptionKey_eq_error_iff (hl : Sorted e.encryptionKeys) (v : Kv.Version) :
    e.getEncryptionKey v = .error ("TxEncryptor: encrypt version is not valid: " ++ toString v) ↔
      ∀ s ∈ keys e.encryptionKeys, v < s := by
  simp only [TxEncryptor.getEncryptionKey, upperBound_keyComp hl]
  constructor
  · intro h s hs
    -- a version at most `v` stops the search inside the list
    obtain ⟨p, hp, rfl⟩ := List.mem_map.mp hs
    by_contra hle
    have hlt : e.encryptionKeys.reverse.findIdx (TxEncryptor.keyComp v) <
        e.encryptionKeys.reverse.length :=
      List.findIdx_lt_length_of_exists ⟨p, List.mem_reverse.mpr hp, decide_eq_true (not_lt.mp hle)⟩
    rw [List.getElem?_eq_getElem hlt] at h
    cases h
  · intro h
    have hnone : e.encryptionKeys.reverse.findIdx (TxEncryptor.keyComp v) =
        e.encryptionKeys.reverse.length :=
      List.findIdx_eq_length.mpr fun p hp =>
        decide_eq_false (not_le.mpr (h p.1 (List.mem_map_of_mem (List.mem_reverse.mp hp))))
    rw [hnone, List.getElem?_eq_none (Nat.le_refl _)]

/-- Whatever the counter, the keys are the same. -/
@[simp] theorem getEncryptionKey_seqNo (n : UInt64) (v : Kv.Version) :
    ({ e with seqNo := n } : TxEncryptor).getEncryptionKey v = e.getEncryptionKey v := rfl

end Keys

section New

variable (id : UInt64) (ns : NetworkSecrets)

@[simp] theorem keys_encryptionKeys_new :
    keys (TxEncryptor.new id ns).encryptionKeys = keys ns.secretsMap := by
  simp [TxEncryptor.new, NetworkSecrets.getSecrets, keys, Function.comp_def]

theorem sorted_new : Sorted (TxEncryptor.new id ns).encryptionKeys := by
  unfold Sorted
  rw [keys_encryptionKeys_new]
  exact ns.sorted

theorem mem_new {s : Kv.Version} {secret : Secret} (h : (s, secret) ∈ ns.secretsMap) :
    (s, secret.master) ∈ (TxEncryptor.new id ns).encryptionKeys :=
  List.mem_map_of_mem (f := fun s => (s.1, s.2.master)) h

theorem selects_new {v s : Kv.Version} (h : Selects ns.secretsMap v s) :
    Selects (TxEncryptor.new id ns).encryptionKeys v s := by
  unfold Selects
  rwa [keys_encryptionKeys_new]

end New

/-! ## `encrypt` and `decrypt` -/

section Calls

variable {g : Gcm} {e : TxEncryptor} {v : Kv.Version}

theorem readBlock_append {a b : List UInt8} {n : Nat} (ha : a.length = n) :
    readBlock (a ++ b) n = .ok (a, b) := by
  rw [readBlock, if_neg (by simp; omega), List.take_left' ha, List.drop_left' ha]

theorem readBlock_of_length {a : List UInt8} {n : Nat} (ha : a.length = n) :
    readBlock a n = .ok (a, []) := by
  simpa using readBlock_append (b := []) ha

/-- `encrypt` with a key: the tag and the IV, and the cipher text, each as the cipher made them
from the IV of this call. -/
theorem encrypt_of_ok {key : List UInt8} (hkey : e.getEncryptionKey v = .ok key)
    (plain aad : List UInt8) :
    e.encrypt g plain aad v =
      (.ok (Bytes.read (Bytes.copy GcmHeader.blank.tag 0
          (g.encrypt key (ivOf e.id e.seqNo) plain aad).2) 0 GCM_SIZE_TAG ++ ivOf e.id e.seqNo,
        (g.encrypt key (ivOf e.id e.seqNo) plain aad).1), { e with seqNo := e.seqNo + 1 }) := by
  simp only [TxEncryptor.encrypt, TxEncryptor.setIv, getEncryptionKey_seqNo, hkey]
  rfl

theorem encrypt_of_error {msg : String} (hkey : e.getEncryptionKey v = .error msg)
    (plain aad : List UInt8) :
    e.encrypt g plain aad v = (.error msg, { e with seqNo := e.seqNo + 1 }) := by
  simp only [TxEncryptor.encrypt, TxEncryptor.setIv, getEncryptionKey_seqNo, hkey]

/-- Every call moves the counter on, the ones that throw too. -/
theorem encrypt_snd (plain aad : List UInt8) :
    (e.encrypt g plain aad v).2 = { e with seqNo := e.seqNo + 1 } := by
  cases hkey : e.getEncryptionKey v with
  | error msg => rw [encrypt_of_error hkey]
  | ok key => rw [encrypt_of_ok hkey]

/-- The header of a call that returns holds the IV of the call after the tag. -/
theorem encrypt_iv {plain aad hdr cipher : List UInt8}
    (h : (e.encrypt g plain aad v).1 = .ok (hdr, cipher)) :
    hdr.drop GCM_SIZE_TAG = ivOf e.id e.seqNo := by
  cases hkey : e.getEncryptionKey v with
  | error msg =>
    rw [encrypt_of_error hkey] at h
    cases h
  | ok key =>
    rw [encrypt_of_ok hkey] at h
    simp only [Except.ok.injEq, Prod.mk.injEq] at h
    obtain ⟨rfl, -⟩ := h
    exact List.drop_left' (Bytes.length_read _ _)

/-- `decrypt` of a tag and an IV of the right lengths: what the cipher makes of them. -/
theorem decrypt_of_ok {key : List UInt8} (hkey : e.getEncryptionKey v = .ok key)
    {tag iv : List UInt8} (htag : tag.length = GCM_SIZE_TAG) (hiv : iv.length = GCM_SIZE_IV)
    (cipher aad : List UInt8) :
    e.decrypt g cipher aad (tag ++ iv) v =
      .ok (match g.decrypt key iv tag cipher aad with
        | some plain => (true, plain)
        | none => (false, [])) := by
  simp only [TxEncryptor.decrypt, GcmHeader.deserialise, readBlock_append htag]
  -- the header read back holds the tag and the IV
  simp only [bind, Except.bind, pure, Except.pure, readBlock_of_length hiv, GcmHeader.getIv,
    Bytes.read_copy_of_length htag, Bytes.read_copy_of_length hiv, hkey]
  cases g.decrypt key iv tag cipher aad <;> rfl

/-- **Round trip.** A decryption with the key the encryption used gives the plain text back. -/
theorem decrypt_encrypt (hg : g.Correct) {e' : TxEncryptor} {v' : Kv.Version}
    {key : List UInt8} (hkey : e.getEncryptionKey v = .ok key)
    (hkey' : e'.getEncryptionKey v' = .ok key) (plain aad : List UInt8) :
    ∃ hdr cipher, (e.encrypt g plain aad v).1 = .ok (hdr, cipher) ∧
      e'.decrypt g cipher aad hdr v' = .ok (true, plain) := by
  rw [encrypt_of_ok hkey]
  refine ⟨_, _, rfl, ?_⟩
  rw [decrypt_of_ok hkey' (Bytes.length_read _ _) (length_ivOf _ _)]
  -- the tag in the header is the one the cipher made
  rw [Bytes.read_copy_of_length (hg.tag_length key (ivOf e.id e.seqNo) plain aad),
    hg.decrypt_encrypt]

end Calls

/-! ## Runs of `encrypt` -/

section Runs

variable (g : Gcm)

@[simp] theorem length_encryptAll (e : TxEncryptor) (calls) :
    (e.encryptAll g calls).1.length = calls.length := by
  induction calls generalizing e with
  | nil => rfl
  | cons call calls ih =>
    obtain ⟨plain, aad, v⟩ := call
    simp [TxEncryptor.encryptAll, ih]

/-- A run of calls leaves the id and the keys as they were. -/
theorem encryptionKeys_encryptAll (e : TxEncryptor) (calls) :
    (e.encryptAll g calls).2.encryptionKeys = e.encryptionKeys := by
  induction calls generalizing e with
  | nil => rfl
  | cons call calls ih =>
    obtain ⟨plain, aad, v⟩ := call
    simp only [TxEncryptor.encryptAll]
    rw [ih, encrypt_snd]

/-- A run of calls leaves the keys, and so the key in force at each version, as they were. -/
theorem getEncryptionKey_encryptAll (e : TxEncryptor) (calls) (v : Kv.Version) :
    (e.encryptAll g calls).2.getEncryptionKey v = e.getEncryptionKey v := by
  simp only [TxEncryptor.getEncryptionKey, encryptionKeys_encryptAll]

/-- The `i`-th call of a run, if it returns, used the counter `seqNo + i`. -/
theorem encryptAll_iv (e : TxEncryptor) (calls) {i : Nat} {hdr cipher : List UInt8}
    (h : (e.encryptAll g calls).1[i]? = some (.ok (hdr, cipher))) :
    hdr.drop GCM_SIZE_TAG = ivOf e.id (e.seqNo + UInt64.ofNat i) := by
  induction calls generalizing e i with
  | nil => simp [TxEncryptor.encryptAll] at h
  | cons call calls ih =>
    obtain ⟨plain, aad, v⟩ := call
    cases i with
    | zero =>
      simp only [TxEncryptor.encryptAll, List.getElem?_cons_zero, Option.some.injEq] at h
      rw [encrypt_iv h]
      simp
    | succ i =>
      simp only [TxEncryptor.encryptAll, List.getElem?_cons_succ] at h
      rw [ih _ h, encrypt_snd]
      -- the rest of the run starts one further on
      show ivOf e.id (e.seqNo + 1 + UInt64.ofNat i) = ivOf e.id (e.seqNo + UInt64.ofNat (i + 1))
      rw [UInt64.ofNat_add, UInt64.add_assoc, UInt64.add_comm 1]
      rfl

theorem lt_length_of_getElem? {calls : List (List UInt8 × List UInt8 × Kv.Version)}
    {e : TxEncryptor} {i : Nat} {r : Except String (List UInt8 × List UInt8)}
    (h : (e.encryptAll g calls).1[i]? = some r) : i < calls.length := by
  obtain ⟨hi, -⟩ := List.getElem?_eq_some_iff.mp h
  simpa using hi

/-- Two calls of one run have different IVs while the run is at most `2^64` calls long. -/
theorem encryptAll_iv_ne (e : TxEncryptor) {calls} (hlen : calls.length ≤ UInt64.size)
    {i j : Nat} {hdr hdr' cipher cipher' : List UInt8} (hij : i ≠ j)
    (hi : (e.encryptAll g calls).1[i]? = some (.ok (hdr, cipher)))
    (hj : (e.encryptAll g calls).1[j]? = some (.ok (hdr', cipher'))) :
    hdr.drop GCM_SIZE_TAG ≠ hdr'.drop GCM_SIZE_TAG := by
  rw [encryptAll_iv g e calls hi, encryptAll_iv g e calls hj]
  intro h
  -- the counters are equal, and below `2^64` they are the positions
  have hseq := congrArg UInt64.toNat ((UInt64.add_right_inj e.seqNo).mp (getIv_inj h).1)
  have hi' := lt_length_of_getElem? g hi
  have hj' := lt_length_of_getElem? g hj
  simp only [UInt64.toNat_ofNat', UInt64.size] at hseq hlen
  omega

/-- Calls of two nodes whose ids differ in the low 32 bits have different IVs. -/
theorem encryptAll_iv_ne_of_id (e e' : TxEncryptor) (calls calls')
    (hid : e.id.toUInt32 ≠ e'.id.toUInt32) {i j : Nat} {hdr hdr' cipher cipher' : List UInt8}
    (hi : (e.encryptAll g calls).1[i]? = some (.ok (hdr, cipher)))
    (hj : (e'.encryptAll g calls').1[j]? = some (.ok (hdr', cipher'))) :
    hdr.drop GCM_SIZE_TAG ≠ hdr'.drop GCM_SIZE_TAG := by
  rw [encryptAll_iv g e calls hi, encryptAll_iv g e' calls' hj]
  exact fun h => hid (getIv_inj h).2

end Runs

/-! ## Over every history -/

/-- **Ledger encryption.** For any network secrets: an encryptor built from them returns the
master key of the secret in force at `v`, and throws exactly when `v` is below the first
version; what one node encrypts after any run of calls, any node decrypts after any run of its
own when the two versions select the same secret; and no two calls that return share an IV,
within one node making at most `2^64` calls, or across two nodes whose ids differ modulo
`2^32`. -/
theorem ledger_encryption (g : Gcm) (hg : g.Correct) (ns : NetworkSecrets) :
    (∀ (id : UInt64) (v s : Kv.Version) (secret : Secret), (s, secret) ∈ ns.secretsMap →
        Selects ns.secretsMap v s →
          (TxEncryptor.new id ns).getEncryptionKey v = .ok secret.master) ∧
    (∀ (id : UInt64) (v : Kv.Version),
        (TxEncryptor.new id ns).getEncryptionKey v =
            .error ("TxEncryptor: encrypt version is not valid: " ++ toString v) ↔
          ∀ s₁ ∈ (keys ns.secretsMap).head?, v < s₁) ∧
    (∀ (id id' : UInt64) (calls calls' : List (List UInt8 × List UInt8 × Kv.Version))
        (plain aad : List UInt8) (v v' s : Kv.Version),
        Selects ns.secretsMap v s → Selects ns.secretsMap v' s →
          ∃ hdr cipher,
            (((TxEncryptor.new id ns).encryptAll g calls).2.encrypt g plain aad v).1 =
              .ok (hdr, cipher) ∧
            ((TxEncryptor.new id' ns).encryptAll g calls').2.decrypt g cipher aad hdr v' =
              .ok (true, plain)) ∧
    (∀ (id : UInt64) (calls : List (List UInt8 × List UInt8 × Kv.Version)),
        calls.length ≤ UInt64.size →
        ∀ (i j : Nat) (hdr hdr' cipher cipher' : List UInt8), i ≠ j →
          ((TxEncryptor.new id ns).encryptAll g calls).1[i]? = some (.ok (hdr, cipher)) →
          ((TxEncryptor.new id ns).encryptAll g calls).1[j]? = some (.ok (hdr', cipher')) →
            hdr.drop GCM_SIZE_TAG ≠ hdr'.drop GCM_SIZE_TAG) ∧
    (∀ (ns' : NetworkSecrets) (id id' : UInt64)
        (calls calls' : List (List UInt8 × List UInt8 × Kv.Version)),
        id.toUInt32 ≠ id'.toUInt32 →
        ∀ (i j : Nat) (hdr hdr' cipher cipher' : List UInt8),
          ((TxEncryptor.new id ns).encryptAll g calls).1[i]? = some (.ok (hdr, cipher)) →
          ((TxEncryptor.new id' ns').encryptAll g calls').1[j]? = some (.ok (hdr', cipher')) →
            hdr.drop GCM_SIZE_TAG ≠ hdr'.drop GCM_SIZE_TAG) := by
  refine ⟨?_, ?_, ?_, ?_, ?_⟩
  · intro id v s secret hmem hs
    exact getEncryptionKey_of_selects (sorted_new id ns) (mem_new id ns hmem) (selects_new id ns hs)
  · intro id v
    rw [getEncryptionKey_eq_error_iff (sorted_new id ns), keys_encryptionKeys_new]
    exact ns.sorted.forall_lt_iff v
  · intro id id' calls calls' plain aad v v' s hs hs'
    -- both ends find the master key of the secret from `s`, whatever calls came before
    obtain ⟨⟨s₀, secret⟩, hmem, rfl⟩ := List.mem_map.mp hs.1.1
    have hkey := getEncryptionKey_of_selects (sorted_new id ns) (mem_new id ns hmem)
      (selects_new id ns hs)
    have hkey' := getEncryptionKey_of_selects (sorted_new id' ns) (mem_new id' ns hmem)
      (selects_new id' ns hs')
    rw [← getEncryptionKey_encryptAll g _ calls] at hkey
    rw [← getEncryptionKey_encryptAll g _ calls'] at hkey'
    exact decrypt_encrypt hg hkey hkey' plain aad
  · intro id calls hlen i j hdr hdr' cipher cipher' hij hi hj
    exact encryptAll_iv_ne g _ hlen hij hi hj
  · intro ns' id id' calls calls' hid i j hdr hdr' cipher cipher' hi hj
    exact encryptAll_iv_ne_of_id g _ _ calls calls' hid hi hj

/-- A cipher that leaves the plain text as it is and tags it with zeros: correct, if not
secret. -/
def echoGcm : Gcm :=
  ⟨fun _ _ plain _ => (plain, List.replicate GCM_SIZE_TAG 0), fun _ _ _ cipher _ => some cipher⟩

theorem echoGcm_correct : echoGcm.Correct :=
  ⟨fun _ _ _ _ => List.length_replicate, fun _ _ _ _ => rfl⟩

/-- Secrets valid from versions 0 and 10. -/
def twoSecrets : NetworkSecrets :=
  ⟨[(0, ⟨[1]⟩), (10, ⟨[2]⟩)], by simp [Sorted, keys], 10⟩

-- Made here once: the equation lemmas that the proofs below unfold.
section
attribute [local simp] twoSecrets
end

theorem selects_twoSecrets {v : Kv.Version} (h₀ : 0 ≤ v) (h₁₀ : v < 10) :
    Selects twoSecrets.secretsMap v 0 := by
  refine ⟨⟨by simp [twoSecrets, keys], h₀⟩, fun s' ⟨hmem, hle⟩ => ?_⟩
  simp only [twoSecrets, keys, List.map_cons, List.map_nil, List.mem_cons, List.not_mem_nil,
    or_false] at hmem
  rcases hmem with rfl | rfl
  · exact le_refl _
  · exact absurd (lt_of_le_of_lt hle h₁₀) (lt_irrefl _)

theorem ledger_encryption_twoSecrets :
    echoGcm.Correct ∧
      (TxEncryptor.new 1 twoSecrets).getEncryptionKey 12 = .ok [2] ∧
      ∃ hdr cipher, ((TxEncryptor.new 1 twoSecrets).encrypt echoGcm [5] [] 3).1 = .ok (hdr, cipher) ∧
        (TxEncryptor.new 2 twoSecrets).decrypt echoGcm cipher [] hdr 7 = .ok (true, [5]) := by
  obtain ⟨hkey, -, hround, -, -⟩ := ledger_encryption echoGcm echoGcm_correct twoSecrets
  have hsel : Selects twoSecrets.secretsMap 12 10 := by
    refine ⟨⟨by simp [twoSecrets, keys], by decide⟩, fun s' ⟨hmem, _⟩ => ?_⟩
    simp only [twoSecrets, keys, List.map_cons, List.map_nil, List.mem_cons, List.not_mem_nil,
      or_false] at hmem
    rcases hmem with rfl | rfl <;> decide
  exact ⟨echoGcm_correct, hkey 1 12 10 ⟨[2]⟩ (by simp [twoSecrets]) hsel,
    hround 1 2 [] [] [5] [] 3 7 0 (selects_twoSecrets (by decide) (by decide))
      (selects_twoSecrets (by decide) (by decide))⟩

end Ccf.Encryption
