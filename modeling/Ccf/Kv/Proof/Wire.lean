import Ccf.Kv.Proof.Serial
import Ccf.Lib.AList

/-!
# The wire format of a replicated transaction

`Tx::commit` serialises each map its transaction changed into the buffer of the map's domain,
public maps first: the map's name, an empty read set (`serialise(false)`), the values written
behind their count, and the keys removed behind theirs. A backup's `Store::deserialise` reads the
buffers back with the map loop `deserialiseMaps`, which fills a view per map.

Both sides meet at the packed form of a map (`packMap`). `serialise` packs exactly that for each
view that changed its map, provided that every removal it counts is of a key the map has; that is
the count it writes, and the loop reads back only as many keys as the count says
(`serialise_foldlM`). The loop reads back any public stream then private stream of packed maps,
each named once and known to the store, and is at the end of both buffers afterwards
(`deserialiseMaps_stream`). Each map is read as a view committed at the transaction's version
whose write set has, key by key, the writes packed (`loadWrites_lookup`), when those are values
stamped `0` and removals with the default value, as `put` and `remove` leave them.

The readers are the deserialiser's state; every state the loop passes through is the first one with
its current reader replaced (`Deserialiser.setCurrentReader`), so each lemma below says what one
call reads from `d.setCurrentReader (packed ++ rest)` and leaves `d.setCurrentReader rest`.
-/

namespace Ccf.Kv

variable {K V C : Type}

/-! ## The packed form of a map -/

section Packed

/-- The puts of a write set, in its order: the writes `serialise` packs with their values. -/
def puts (ws : Write K V) : List (Σ _ : K, VersionV V) :=
  ws.entries.filter fun w => !TxView.isRemove w.2.version

/-- The removals of a write set, in its order. -/
def removals (ws : Write K V) : List (Σ _ : K, VersionV V) :=
  ws.entries.filter fun w => TxView.isRemove w.2.version

/-- A write set as `serialise` packs it when each removal is of a key the map has: the values
written, then the keys removed, each list behind its count. -/
def packWrites (ws : Write K V) : List (Token K V) :=
  [.count (puts ws).length] ++ (puts ws).flatMap (fun w => [.key w.1, .value w.2.value]) ++
    [.count (removals ws).length] ++ (removals ws).flatMap fun w => [.key w.1]

/-- A map that changed, as `serialise` packs it without its reads. -/
def packMap (name : String) (ws : Write K V) : List (Token K V) :=
  [.op .KOT_MAP_START_INDICATOR, .name name, .version NoVersion, .count 0] ++ packWrites ws

-- Made here once: the equation lemmas that the proofs below unfold.
section
attribute [local simp] puts removals packWrites packMap
end

/-- Every packed map takes at least one value. -/
theorem length_le_packed (ms : List (String × Write K V)) :
    ms.length ≤ (ms.flatMap fun p => packMap p.1 p.2).length := by
  induction ms with
  | nil => simp
  | cons p ms ih =>
      simp only [List.length_cons, List.flatMap_cons, List.length_append]
      have : 1 ≤ (packMap p.1 p.2).length := by simp [packMap]
      omega

variable [DecidableEq K] [Inhabited V]

/-- Every write of a write set is a value stamped `0` or a removal with the default value, as
`put` and `remove` leave them. -/
def Packable (ws : Write K V) : Prop :=
  ∀ k w, ws.lookup k = some w → w.version = 0 ∨ w = ⟨NoVersion, default⟩

/-- The write set `deserialise` loads from a packed one into a view's own: the values read,
stamped `0`, then the keys read as removals. -/
def loadWrites (ws into : Write K V) : Write K V :=
  ((removals ws).map (·.1)).foldl (fun w k => w.insert k ⟨NoVersion, default⟩)
    (((puts ws).map fun w => (w.1, w.2.value)).foldl (fun w p => w.insert p.1 ⟨0, p.2⟩) into)

-- Made here once: the equation lemmas that the proofs below unfold.
section
attribute [local simp] loadWrites
end

/-- Loading what was packed from a write set of puts and removals gives it back, key by key. -/
theorem loadWrites_lookup {ws : Write K V} (hw : Packable ws) (k : K) :
    (loadWrites ws ∅).lookup k = ws.lookup k := by
  have hr : (removals ws).NodupKeys := ws.nodupKeys.sublist List.filter_sublist
  have hp : (puts ws).NodupKeys := ws.nodupKeys.sublist List.filter_sublist
  rw [loadWrites, List.foldl_map, List.foldl_map,
    AList.lookup_foldl_insert (fun _ => (⟨NoVersion, default⟩ : VersionV V)) k hr,
    AList.lookup_foldl_insert (fun e => (⟨0, e.2.value⟩ : VersionV V)) k hp,
    removals, puts, AList.dlookup_filter _ k ws.nodupKeys, AList.dlookup_filter _ k ws.nodupKeys]
  show _ = ws.entries.dlookup k
  cases hk : ws.entries.dlookup k with
  | none => simp
  | some w =>
      rcases hw k w hk with h0 | rfl
      · -- a value: stamped `0`, so not a removal
        have hnr : TxView.isRemove w.version = false := by simp [TxView.isRemove, h0, NoVersion]
        simp [hnr, ← h0]
      · simp [TxView.isRemove]

end Packed

/-! ## Serialising -/

namespace Serialiser

/-- `serialise_internal` of each token in turn. -/
def emit (s : Serialiser K V C) (ts : List (Token K V)) : Serialiser K V C :=
  ts.foldl serialiseInternal s

-- Made here once: the equation lemmas that the proofs below unfold.
section
attribute [local simp] emit
end

theorem emit_emit (s : Serialiser K V C) (a b : List (Token K V)) :
    (s.emit a).emit b = s.emit (a ++ b) :=
  (List.foldl_append ..).symm

theorem foldl_emit {α : Type} (f : α → List (Token K V)) :
    ∀ (l : List α) (s : Serialiser K V C), l.foldl (fun s a => s.emit (f a)) s = s.emit (l.flatMap f)
  | [], _ => rfl
  | a :: l, s => by
      rw [List.foldl_cons, foldl_emit f l, emit_emit, List.flatMap_cons]

/-- What `emit` packs goes to the buffer of the current domain. -/
theorem emit_writers (ts : List (Token K V)) : ∀ s : Serialiser K V C,
    (s.emit ts).publicWriter =
        (if s.currentDomain = .PUBLIC then s.publicWriter ++ ts else s.publicWriter) ∧
      (s.emit ts).privateWriter =
        (if s.currentDomain = .PRIVATE then s.privateWriter ++ ts else s.privateWriter) ∧
      (s.emit ts).currentDomain = s.currentDomain ∧ (s.emit ts).version = s.version ∧
      (s.emit ts).cryptoUtil = s.cryptoUtil := by
  induction ts with
  | nil => intro s; simp [emit]
  | cons t ts ih =>
      intro s
      obtain ⟨hpub, hpriv, hd, hv, hc⟩ := ih (s.serialiseInternal t)
      simp only [emit, List.foldl_cons] at hpub hpriv hd hv hc ⊢
      rw [hpub, hpriv, hd, hv, hc]
      unfold serialiseInternal
      cases s.currentDomain <;> simp

theorem serialiseReadVersion_eq (s : Serialiser K V C) (v : Version) :
    s.serialiseReadVersion v = s.emit [.version v] := rfl

theorem serialiseCountHeader_eq (s : Serialiser K V C) (n : Nat) :
    s.serialiseCountHeader n = s.emit [.count n] := rfl

theorem serialiseWrite_eq (s : Serialiser K V C) (k : K) (v : V) :
    s.serialiseWrite k v = s.emit [.key k, .value v] := rfl

theorem serialiseRemove_eq (s : Serialiser K V C) (k : K) :
    s.serialiseRemove k = s.emit [.key k] := rfl

/-- `start_map`: a private map needs an encryptor; the map's domain becomes the current one,
and the map opens with its header. -/
theorem startMap_eq (s : Serialiser K V C) (name : String) (d : SecurityDomain) :
    s.startMap name d =
      if d = .PRIVATE ∧ s.cryptoUtil.isNone then
        .error ("Private map " ++ name ++ " cannot be serialised without an encryptor")
      else .ok ({ s with currentDomain := d }.emit [.op .KOT_MAP_START_INDICATOR, .name name]) :=
  rfl

end Serialiser

section Serialise

variable [DecidableEq K] {view : TxView K V} {m : Map K V}

/-- Each removal of the view is of a key the map has: `serialise` then counts them all. -/
def RemovalsIn (view : TxView K V) (m : Map K V) : Prop :=
  ∀ w ∈ removals view.writes, w.1 ∈ m.back.state

/-- `serialise` of a view that changed its map, each removal of a key the map has: the map's
domain becomes the current one, and the map is packed there. -/
theorem TxView.serialise_changed (s : Serialiser K V C) (hc : view.changes = true)
    (hrm : RemovalsIn view m) :
    view.serialise s false m =
      if m.securityDomain = .PRIVATE ∧ s.cryptoUtil.isNone then
        .error ("Private map " ++ m.name ++ " cannot be serialised without an encryptor")
      else .ok ({ s with currentDomain := m.securityDomain }.emit (packMap m.name view.writes)) := by
  have hctr : ((removals view.writes).filter fun w => decide (w.1 ∈ m.back.state)).length =
      (removals view.writes).length := by
    rw [List.filter_eq_self.mpr fun w hw => decide_eq_true (hrm w hw)]
  unfold TxView.serialise
  simp only [hc, Bool.not_true, Bool.false_eq_true, if_false, Serialiser.startMap_eq]
  split
  · rfl
  · simp only [Serialiser.serialiseReadVersion_eq, Serialiser.serialiseCountHeader_eq,
      Serialiser.serialiseWrite_eq, Serialiser.serialiseRemove_eq, Serialiser.foldl_emit,
      Serialiser.emit_emit]
    simp only [removals] at hctr
    rw [hctr]
    simp [packMap, packWrites, puts, removals, Serialiser.emit_emit]

theorem TxView.serialise_unchanged (s : Serialiser K V C) (m : Map K V)
    (hc : view.changes = false) : view.serialise s false m = .ok s := by
  simp [TxView.serialise, hc]

/-- What serialising one view does to the two buffers. -/
theorem TxView.serialise_writers {s s' : Serialiser K V C} (hrm : RemovalsIn view m)
    (h : view.serialise s false m = .ok s') :
    s'.publicWriter = s.publicWriter ++
        (if view.changes ∧ m.securityDomain = .PUBLIC then packMap m.name view.writes else []) ∧
      s'.privateWriter = s.privateWriter ++
        (if view.changes ∧ m.securityDomain = .PRIVATE then packMap m.name view.writes else []) ∧
      s'.version = s.version ∧ s'.cryptoUtil = s.cryptoUtil ∧
      (view.changes = true → m.securityDomain = .PRIVATE → s.cryptoUtil.isSome) := by
  cases hc : view.changes with
  | false =>
      rw [TxView.serialise_unchanged s m hc] at h
      cases h
      simp
  | true =>
      rw [TxView.serialise_changed s hc hrm] at h
      split at h
      · cases h
      · next hd =>
        cases h
        obtain ⟨hpub, hpriv, -, hv, hcu⟩ := Serialiser.emit_writers (packMap m.name view.writes)
          { s with currentDomain := m.securityDomain }
        refine ⟨?_, ?_, hv, hcu, fun _ hp => ?_⟩
        · rw [hpub]
          cases m.securityDomain <;> simp
        · rw [hpriv]
          cases m.securityDomain <;> simp
        · simpa [hp, Option.isSome_iff_ne_none] using hd

/-- **What serialising views in turn writes.** Each view that changed its map, every removal of
a key the map has, is packed into the buffer of the map's domain, in order; the fold throws only
on a private map when there is no encryptor. -/
theorem serialise_foldlM {l : List (TxView K V × Map K V)} (hl : ∀ p ∈ l, RemovalsIn p.1 p.2) :
    ∀ {s ser : Serialiser K V C}, l.foldlM (fun ser vm => vm.1.serialise ser false vm.2) s = .ok ser →
      ser.publicWriter = s.publicWriter ++
          (l.filter fun p => p.1.changes ∧ p.2.securityDomain = .PUBLIC).flatMap
            (fun p => packMap p.2.name p.1.writes) ∧
        ser.privateWriter = s.privateWriter ++
          (l.filter fun p => p.1.changes ∧ p.2.securityDomain = .PRIVATE).flatMap
            (fun p => packMap p.2.name p.1.writes) ∧
        ser.version = s.version ∧ ser.cryptoUtil = s.cryptoUtil ∧
        (∀ p ∈ l, p.1.changes = true → p.2.securityDomain = .PRIVATE → s.cryptoUtil.isSome) := by
  induction l with
  | nil =>
      intro s ser h
      cases h
      simp
  | cons p l ih =>
      intro s ser h
      rw [List.foldlM_cons] at h
      cases h₁ : p.1.serialise s false p.2 with
      | error e =>
          rw [h₁] at h
          cases h
      | ok s₁ =>
          rw [h₁] at h
          obtain ⟨hpub₁, hpriv₁, hv₁, hc₁, he₁⟩ :=
            TxView.serialise_writers (hl p List.mem_cons_self) h₁
          obtain ⟨hpub, hpriv, hv, hc, he⟩ :=
            ih (fun q hq => hl q (List.mem_cons_of_mem p hq)) h
          refine ⟨?_, ?_, hv.trans hv₁, hc.trans hc₁, fun q hq => ?_⟩
          · rw [hpub, hpub₁, List.filter_cons]
            by_cases hq : p.1.changes = true ∧ p.2.securityDomain = .PUBLIC
            · rw [if_pos hq, if_pos (by simpa using hq)]
              simp
            · rw [if_neg hq, if_neg (by simpa using hq)]
              simp
          · rw [hpriv, hpriv₁, List.filter_cons]
            by_cases hq : p.1.changes = true ∧ p.2.securityDomain = .PRIVATE
            · rw [if_pos hq, if_pos (by simpa using hq)]
              simp
            · rw [if_neg hq, if_neg (by simpa using hq)]
              simp
          · rcases List.mem_cons.mp hq with rfl | hq
            · exact he₁
            · rw [← hc₁]
              exact he q hq

end Serialise

/-! ## Reading values back -/

namespace Deserialiser

variable {d : Deserialiser K V C} {l l' : List (Token K V)}

@[simp] theorem currentReader_setCurrentReader : (d.setCurrentReader l).currentReader = l := by
  obtain ⟨_, _, cur, _⟩ := d
  cases cur <;> rfl

@[simp] theorem current_setCurrentReader : (d.setCurrentReader l).current = d.current := by
  obtain ⟨_, _, cur, _⟩ := d
  cases cur <;> rfl

@[simp] theorem unhandledOp_setCurrentReader :
    (d.setCurrentReader l).unhandledOp = d.unhandledOp := by
  obtain ⟨_, _, cur, _⟩ := d
  cases cur <;> rfl

@[simp] theorem setCurrentReader_setCurrentReader :
    (d.setCurrentReader l).setCurrentReader l' = d.setCurrentReader l' := by
  obtain ⟨_, _, cur, _⟩ := d
  cases cur <;> rfl

@[simp] theorem setCurrentReader_currentReader : d.setCurrentReader d.currentReader = d := by
  obtain ⟨_, _, cur, _⟩ := d
  cases cur <;> rfl

/-- `read_next` of a value of the type asked for. -/
theorem readNext_set {α : Type} {f : Token K V → Option α} {t : Token K V} {a : α}
    (hf : f t = some a) : readNext f (d.setCurrentReader (t :: l)) = .ok a (d.setCurrentReader l) := by
  rw [readNext, EStateM.get_bind_apply]
  simp only [currentReader_setCurrentReader, hf]
  show EStateM.Result.ok a ((d.setCurrentReader (t :: l)).setCurrentReader l) = _
  rw [setCurrentReader_setCurrentReader]

theorem deserialiseWrite_set {k : K} {v : V} :
    deserialiseWrite (d.setCurrentReader (.key k :: .value v :: l)) =
      .ok (k, v) (d.setCurrentReader l) := by
  rw [deserialiseWrite, EStateM.bind_of_ok (readNext_set (f := asKey) (t := .key k) rfl),
    EStateM.bind_of_ok (readNext_set (f := asValue) (t := .value v) rfl)]
  rfl

theorem deserialiseRemove_set {k : K} :
    deserialiseRemove (d.setCurrentReader (.key k :: l)) = .ok k (d.setCurrentReader l) :=
  readNext_set rfl

/-- `try_read_op_flag` of a header of a kind asked for, with no header left over from an
earlier read. -/
theorem tryReadOpFlag_set {type o : KvOperationType} (hop : d.unhandledOp = .KOT_NOT_SUPPORTED)
    (ho : type.and o = o) :
    tryReadOpFlag type (d.setCurrentReader (.op o :: l)) = .ok o (d.setCurrentReader l) := by
  rw [tryReadOpFlag, EStateM.get_bind_apply]
  simp only [unhandledOp_setCurrentReader, hop, ne_eq, not_true_eq_false, if_false]
  rw [EStateM.bind_of_ok (readNext_set (f := asOp) (t := .op o) rfl), if_pos ho]
  rfl

/-- `try_read_op` of a map header, with no header left over from an earlier read. -/
theorem tryReadOp_set (hop : d.unhandledOp = .KOT_NOT_SUPPORTED) :
    tryReadOp .KOT_MAP_START_INDICATOR (d.setCurrentReader (.op .KOT_MAP_START_INDICATOR :: l)) =
      .ok true (d.setCurrentReader l) := by
  rw [tryReadOp, EStateM.bind_of_ok (tryReadOpFlag_set hop rfl)]
  rfl

/-- `start_map` at the header of a map: its name. -/
theorem startMap_set {name : String} (hop : d.unhandledOp = .KOT_NOT_SUPPORTED) :
    startMap (d.setCurrentReader (.op .KOT_MAP_START_INDICATOR :: .name name :: l)) =
      .ok (some name) (d.setCurrentReader l) := by
  rw [startMap, EStateM.get_bind_apply]
  simp only [currentReader_setCurrentReader, reduceCtorEq, if_false]
  rw [EStateM.bind_of_ok (tryReadOp_set hop)]
  simp only [Bool.not_true, Bool.false_eq_true, if_false]
  rw [EStateM.bind_of_ok (readNext_set (f := asName) (t := .name name) rfl)]
  rfl

/-- `start_map` with nothing left to read: there is no next map. -/
theorem startMap_end (hd : d.currentReader = []) (hp : ¬(d.current = .PUBLIC ∧ d.privateReader ≠ [])) :
    startMap d = .ok none d := by
  rw [startMap, EStateM.get_bind_apply]
  simp only [hd, if_true, hp, if_false]
  rfl

/-- `start_map` at the end of the public domain goes on in the private one, if it has anything. -/
theorem startMap_switch (hc : d.current = .PUBLIC) (hpub : d.publicReader = [])
    (hpriv : d.privateReader ≠ []) : startMap d = startMap { d with current := .PRIVATE } := by
  have hd : d.currentReader = [] := by rw [currentReader, hc, hpub]
  have hd' : ({ d with current := .PRIVATE } : Deserialiser K V C).currentReader = d.privateReader :=
    rfl
  -- rewrite the readers before the tests, so that their decision procedures follow
  rw [startMap, EStateM.get_bind_apply, EStateM.get_bind_apply, hd, hd', if_pos rfl, if_neg hpriv,
    if_pos ⟨hc, hpriv⟩]
  rfl

end Deserialiser

/-- Reading `n` values in turn, each packed as `enc b`, gives them back in order. -/
theorem readN_flatMap {α β : Type} {step : DeserialiserM K V C α} (enc : β → List (Token K V))
    (dec : β → α)
    (hstep : ∀ b rest (d : Deserialiser K V C),
      step (d.setCurrentReader (enc b ++ rest)) = .ok (dec b) (d.setCurrentReader rest)) :
    ∀ (bs : List β) (rest : List (Token K V)) (d : Deserialiser K V C),
      TxView.readN step bs.length (d.setCurrentReader (bs.flatMap enc ++ rest)) =
        .ok (bs.map dec) (d.setCurrentReader rest)
  | [], rest, d => rfl
  | b :: bs, rest, d => by
      rw [List.flatMap_cons, List.append_assoc, List.length_cons, TxView.readN,
        EStateM.bind_of_ok (hstep b _ d), EStateM.bind_of_ok (readN_flatMap enc dec hstep bs rest d)]
      rfl

/-! ## Reading maps back -/

section Deserialise

variable [DecidableEq K] [Inhabited V]

/-- `deserialise` of a map packed without reads: the view, committed at `v`, loads the writes. -/
theorem TxView.deserialise_packed (view : TxView K V) (v : Version) (ws : Write K V)
    (rest : List (Token K V)) (d : Deserialiser K V C) :
    view.deserialise v (d.setCurrentReader ([.version NoVersion, .count 0] ++ packWrites ws ++ rest)) =
      .ok { view with commitVersion := v, writes := loadWrites ws view.writes }
        (d.setCurrentReader rest) := by
  simp only [packWrites, List.cons_append, List.nil_append, List.append_assoc]
  -- the read set: `NoVersion`, and no reads
  rw [TxView.deserialise, Deserialiser.deserialiseReadVersion,
    EStateM.bind_of_ok
      (Deserialiser.readNext_set (f := Deserialiser.asVersion) (t := .version NoVersion) rfl)]
  simp only [ne_eq, not_true_eq_false, if_false, Deserialiser.deserialiseReadHeader]
  rw [EStateM.bind_of_ok (Deserialiser.readNext_set (f := Deserialiser.asCount) (t := .count 0) rfl),
    TxView.readN, EStateM.pure_bind_apply]
  simp only [List.foldl_nil, Deserialiser.deserialiseWriteHeader,
    Deserialiser.deserialiseRemoveHeader]
  -- the values, then the removals, each behind its count
  rw [EStateM.bind_of_ok
      (Deserialiser.readNext_set (f := Deserialiser.asCount) (t := .count (puts ws).length) rfl),
    EStateM.bind_of_ok (readN_flatMap (fun w => [Token.key w.1, Token.value w.2.value])
      (fun w => (w.1, w.2.value)) (fun _ _ _ => Deserialiser.deserialiseWrite_set) (puts ws) _ d),
    EStateM.bind_of_ok
      (Deserialiser.readNext_set (f := Deserialiser.asCount) (t := .count (removals ws).length) rfl),
    EStateM.bind_of_ok (readN_flatMap (fun w => [Token.key w.1]) (fun w => w.1)
      (fun _ _ _ => Deserialiser.deserialiseRemove_set) (removals ws) _ d)]
  rfl

/-- The view `deserialise` reads for a map packed at `v`: created over the map at `v`,
committed at `v`, with the packed writes loaded. -/
def readBack (m : Map K V) (v : Version) (ws : Write K V) : TxView K V :=
  { m.createView v with commitVersion := v, writes := loadWrites ws (m.createView v).writes }

/-- The views the map loop of `Store::deserialise` files for packed maps of the store. -/
def loadViews (s : Store K V C) (v : Version) (ms : List (String × Write K V))
    (views : List (String × TxView K V)) : List (String × TxView K V) :=
  ms.foldl (fun vs p => ((s.find p.1).map fun m => insertView p.1 (readBack m v p.2) vs).getD vs)
    views

-- Made here once: the equation lemmas that the proofs below unfold.
section
attribute [local simp] readBack loadViews
end

omit [DecidableEq K] [Inhabited V] in
/-- A name the views lack is still lacking after filing a map of another name. -/
theorem lookup_insertView_of_ne {views : List (String × TxView K V)} {n n' : String}
    {view : TxView K V} (hl : views.lookup n' = none) (hn : n ≠ n') (hn' : views.lookup n = none) :
    (insertView n' view views).lookup n = none := by
  rw [lookup_insertView hl, if_neg hn, hn']

/-- The map loop of `Store::deserialise` over packed maps of the store, each named once: it files
the view read for each, and goes on after them. -/
theorem deserialiseMaps_packed (s : Store K V C) (v : Version) :
    ∀ (ms : List (String × Write K V)) (fuel : Nat) (views : List (String × TxView K V))
      (rest : List (Token K V)) (d : Deserialiser K V C),
      d.unhandledOp = .KOT_NOT_SUPPORTED → (∀ p ∈ ms, (s.find p.1).isSome) →
      (ms.map (·.1)).Nodup → (∀ p ∈ ms, views.lookup p.1 = none) →
      deserialiseMaps s v (ms.length + fuel) views
          (d.setCurrentReader (ms.flatMap (fun p => packMap p.1 p.2) ++ rest)) =
        deserialiseMaps s v fuel (loadViews s v ms views) (d.setCurrentReader rest)
  | [], fuel, views, rest, d, _, _, _, _ => by simp [loadViews]
  | (n, ws) :: ms, fuel, views, rest, d, hop, hfind, hnd, hfresh => by
      obtain ⟨m, hm⟩ := Option.isSome_iff_exists.mp (hfind (n, ws) List.mem_cons_self)
      have hl : views.lookup n = none := hfresh (n, ws) List.mem_cons_self
      obtain ⟨hn, hnd'⟩ := List.nodup_cons.mp hnd
      have hreader : ((n, ws) :: ms).flatMap (fun p => packMap p.1 p.2) ++ rest =
          .op .KOT_MAP_START_INDICATOR :: .name n :: ([.version NoVersion, .count 0] ++
            packWrites ws ++ (ms.flatMap (fun p => packMap p.1 p.2) ++ rest)) := by
        simp [packMap]
      -- one round: the map's header, a map the store has and the views lack, and its view
      rw [hreader, List.length_cons, Nat.add_right_comm, deserialiseMaps,
        EStateM.bind_of_ok (Deserialiser.startMap_set hop)]
      simp only [hm, hl, Option.isSome_none, Bool.false_eq_true, if_false]
      rw [EStateM.bind_of_ok (TxView.deserialise_packed _ v ws _ d)]
      show deserialiseMaps s v (ms.length + fuel) (insertView n (readBack m v ws) views)
        (d.setCurrentReader (ms.flatMap (fun p => packMap p.1 p.2) ++ rest)) = _
      rw [deserialiseMaps_packed s v ms fuel (insertView n (readBack m v ws) views) rest d hop
        (fun q hq => hfind q (List.mem_cons_of_mem _ hq)) hnd' fun q hq =>
          lookup_insertView_of_ne hl (fun h => hn (h ▸ List.mem_map_of_mem (f := (·.1)) hq))
            (hfresh q (List.mem_cons_of_mem _ hq))]
      simp only [loadViews, List.foldl_cons, hm, Option.map_some, Option.getD_some]

/-- The views filed for packed maps of the store, each named once: a packed map's name gives the
view read for it, any other name what was filed before. -/
theorem loadViews_lookup (s : Store K V C) (v : Version) (n : String) :
    ∀ (ms : List (String × Write K V)) (views : List (String × TxView K V)),
      (∀ p ∈ ms, (s.find p.1).isSome) → (ms.map (·.1)).Nodup → (∀ p ∈ ms, views.lookup p.1 = none) →
      (loadViews s v ms views).lookup n =
        ((ms.lookup n).bind fun ws => (s.find n).map fun m => readBack m v ws).or (views.lookup n)
  | [], _, _, _, _ => by simp [loadViews]
  | (n', ws) :: ms, views, hfind, hnd, hfresh => by
      obtain ⟨m, hm⟩ := Option.isSome_iff_exists.mp (hfind (n', ws) List.mem_cons_self)
      obtain ⟨hn, hnd'⟩ := List.nodup_cons.mp hnd
      have hl : views.lookup n' = none := hfresh (n', ws) List.mem_cons_self
      have ih := loadViews_lookup s v n ms (insertView n' (readBack m v ws) views)
        (fun q hq => hfind q (List.mem_cons_of_mem _ hq)) hnd' fun q hq => lookup_insertView_of_ne hl
          (fun h => hn (h ▸ List.mem_map_of_mem (f := (·.1)) hq)) (hfresh q (List.mem_cons_of_mem _ hq))
      simp only [loadViews, List.foldl_cons, hm, Option.map_some, Option.getD_some] at ih ⊢
      rw [ih, lookup_insertView hl, List.lookup_cons]
      by_cases hnn : n = n'
      · -- the map just read: no later map has its name
        subst hnn
        have hms : ms.lookup n = none := List.lookup_eq_none_iff.mpr fun q hq => by
          rw [bne_iff_ne]
          rintro rfl
          exact hn (List.mem_map_of_mem (f := (·.1)) hq)
        simp [hms, hm]
      · simp [hnn, beq_false_of_ne hnn]

/-- With nothing left in the current reader nor the private one, the map loop stops. -/
theorem deserialiseMaps_end (s : Store K V C) (v : Version) (fuel : Nat)
    (views : List (String × TxView K V)) {d : Deserialiser K V C} (hd : d.currentReader = [])
    (hp : ¬(d.current = .PUBLIC ∧ d.privateReader ≠ [])) :
    deserialiseMaps s v (fuel + 1) views d = .ok (some views) d := by
  rw [deserialiseMaps, EStateM.bind_of_ok (Deserialiser.startMap_end hd hp)]
  rfl

/-- At the end of the public domain, with private maps to read, the map loop goes on there. -/
theorem deserialiseMaps_switch (s : Store K V C) (v : Version) (fuel : Nat)
    (views : List (String × TxView K V)) {d : Deserialiser K V C} (hc : d.current = .PUBLIC)
    (hpub : d.publicReader = []) (hpriv : d.privateReader ≠ []) :
    deserialiseMaps s v (fuel + 1) views d =
      deserialiseMaps s v (fuel + 1) views { d with current := .PRIVATE } := by
  rw [deserialiseMaps]
  exact EStateM.bind_congr_of_eq (Deserialiser.startMap_switch hc hpub hpriv)

/-- **The map loop reads back what `serialise` packs.** Over the public maps, then the private
ones, each named once and known to the store, it files the view read for each, and leaves both
readers empty. The fuel `Store::deserialise` gives it is enough, each map taking a value. -/
theorem deserialiseMaps_stream (s : Store K V C) (v : Version) (pubs privs : List (String × Write K V))
    {d : Deserialiser K V C} (hc : d.current = .PUBLIC) (hop : d.unhandledOp = .KOT_NOT_SUPPORTED)
    (hpub : d.publicReader = pubs.flatMap fun p => packMap p.1 p.2)
    (hpriv : d.privateReader = privs.flatMap fun p => packMap p.1 p.2)
    (hfind : ∀ p ∈ pubs ++ privs, (s.find p.1).isSome) (hnd : ((pubs ++ privs).map (·.1)).Nodup) :
    ∃ d', deserialiseMaps s v (d.publicReader.length + d.privateReader.length + 1) [] d =
      .ok (some (loadViews s v (pubs ++ privs) [])) d' ∧ d'.end = true := by
  rw [List.map_append, List.nodup_append] at hnd
  obtain ⟨hndpub, hndpriv, hdisj⟩ := hnd
  have hfpub := fun p (hp : p ∈ pubs) => hfind p (List.mem_append_left _ hp)
  have hfpriv := fun p (hp : p ∈ privs) => hfind p (List.mem_append_right _ hp)
  have hviews : loadViews s v (pubs ++ privs) [] = loadViews s v privs (loadViews s v pubs []) :=
    List.foldl_append ..
  rw [hviews]
  -- the public maps first, from the reader as it is
  have hd : d = d.setCurrentReader ((pubs.flatMap fun p => packMap p.1 p.2) ++ []) := by
    rw [List.append_nil, ← hpub]
    conv_lhs => rw [← Deserialiser.setCurrentReader_currentReader (d := d)]
    simp [Deserialiser.currentReader, Deserialiser.setCurrentReader, hc]
  obtain ⟨extra, hextra⟩ : ∃ extra, d.publicReader.length + d.privateReader.length + 1 =
      pubs.length + (extra + d.privateReader.length + 1) :=
    ⟨d.publicReader.length - pubs.length, by rw [hpub]; have := length_le_packed pubs; omega⟩
  rw [hextra, hd, deserialiseMaps_packed s v pubs _ [] [] d hop hfpub hndpub (fun _ _ => rfl)]
  have hset : ∀ l, d.setCurrentReader l = { d with publicReader := l } := by
    intro l
    simp [Deserialiser.setCurrentReader, hc]
  simp only [hset, List.append_nil]
  cases privs with
  | nil =>
      simp only [List.flatMap_nil] at hpriv
      refine ⟨{ d with publicReader := [] }, ?_, ?_⟩
      · rw [hpriv, List.length_nil, Nat.add_zero]
        exact deserialiseMaps_end s v extra _ (by simp [Deserialiser.currentReader, hc]) (by simp)
      · simp [Deserialiser.end, Deserialiser.currentReader, hc]
  | cons q qs =>
      have hne : d.privateReader ≠ [] := by simp [hpriv, packMap]
      -- no private map is named like a public one
      have hfresh : ∀ p ∈ q :: qs, (loadViews s v pubs []).lookup p.1 = none := by
        intro p hp
        rw [loadViews_lookup s v p.1 pubs [] hfpub hndpub (fun _ _ => rfl)]
        have hnone : pubs.lookup p.1 = none := List.lookup_eq_none_iff.mpr fun r hr => by
          rw [bne_iff_ne]
          exact (hdisj r.1 (List.mem_map_of_mem hr) p.1 (List.mem_map_of_mem hp)).symm
        simp [hnone]
      -- the loop moves on to the private domain, whose reader holds the private maps
      let d₂ : Deserialiser K V C := { d with publicReader := [], current := .PRIVATE }
      have hd₂ : d₂ = d₂.setCurrentReader (((q :: qs).flatMap fun p => packMap p.1 p.2) ++ []) := by
        simp [d₂, Deserialiser.setCurrentReader, hpriv]
      obtain ⟨extra', hextra'⟩ : ∃ e, extra + d.privateReader.length = (q :: qs).length + e :=
        ⟨extra + d.privateReader.length - (q :: qs).length, by
          rw [hpriv]; have := length_le_packed (q :: qs); omega⟩
      rw [deserialiseMaps_switch s v _ _ (d := { d with publicReader := [] }) (by simp [hc]) rfl hne,
        hextra']
      change ∃ d', deserialiseMaps s v _ _ d₂ = _ ∧ _
      rw [Nat.add_assoc, hd₂,
        deserialiseMaps_packed s v (q :: qs) _ _ [] d₂ (by simp [d₂, hop]) hfpriv hndpriv hfresh]
      refine ⟨d₂.setCurrentReader [], ?_, ?_⟩
      · exact deserialiseMaps_end s v extra' _ (by simp) (by simp [d₂])
      · simp [Deserialiser.end, d₂, Deserialiser.setCurrentReader, Deserialiser.currentReader]

end Deserialise

/-! ## Opening the buffers -/

/-- The encryptor decrypts what it encrypted, under the same public domain and version. -/
def TxEncryptor.Inverts (e : TxEncryptor K V C) : Prop :=
  ∀ priv pub v, e.decrypt (e.encrypt priv pub v) pub v = some priv

/-- `init` on what a serialiser wrote, opened by its version, with an encryptor that decrypts
what it encrypts: the two readers hold the two buffers. -/
theorem Deserialiser.init_getRawData (ser : Serialiser K V C) {rest : List (Token K V)}
    (hinv : ∀ e ∈ ser.cryptoUtil, e.Inverts) (hpub : ser.publicWriter = .version ser.version :: rest)
    (hpriv : ser.cryptoUtil = none → ser.privateWriter = []) :
    ∃ d, (Deserialiser.new ser.cryptoUtil none).init ser.getRawData = (true, d) ∧
      d.current = .PUBLIC ∧ d.publicReader = ser.publicWriter ∧ d.privateReader = ser.privateWriter ∧
      d.unhandledOp = .KOT_NOT_SUPPORTED := by
  cases he : ser.cryptoUtil with
  | none =>
      refine ⟨{ Deserialiser.new none none with publicReader := ser.publicWriter }, ?_, rfl, rfl,
        (hpriv he).symm, rfl⟩
      simp [Deserialiser.init, Deserialiser.new, Serialiser.getRawData, he]
  | some e =>
      -- the private domain is decrypted at the version that opens the public one
      have hdec := hinv e he ser.privateWriter ser.publicWriter ser.version
      let d : Deserialiser K V C := { Deserialiser.new (some e) none with
        publicReader := ser.publicWriter, privateReader := ser.privateWriter, version := ser.version }
      refine ⟨d, ?_, rfl, rfl, rfl, rfl⟩
      have hv : (ser.publicWriter.head?.bind Deserialiser.asVersion).getD 0 = ser.version := by
        rw [hpub]
        rfl
      simp [Deserialiser.init, Deserialiser.new, Serialiser.getRawData, he, hv, hdec, d]

section Store

variable [DecidableEq K] [Inhabited V]

omit [DecidableEq K] [Inhabited V] in
theorem liftDeserialiser_ok {α : Type} {x : DeserialiserM K V C α} {d d' : Deserialiser K V C} {a : α}
    (h : x d = .ok a d') (s : Store K V C) : liftDeserialiser x d s = .ok (a, d') s := by
  simp [liftDeserialiser, h]

/-- `Store::deserialise` of a transaction that follows the store's version, whose maps all read,
to the end of both buffers, and whose views pass: the views are committed at its version. -/
theorem Store.deserialise_pass {data : RawTx K V C} {b s' : Store K V C}
    {d₀ d₁ d₂ : Deserialiser K V C} {v x : Version} {views views' : List (String × TxView K V)}
    (hinit : (Deserialiser.new b.encryptor none).init data = (true, d₀))
    (hver : Deserialiser.deserialiseVersion d₀ = .ok v d₁) (hcur : b.currentVersion = v - 1)
    (hmaps : deserialiseMaps b v (d₁.publicReader.length + d₁.privateReader.length + 1) [] d₁ =
      .ok (some views) d₂)
    (hend : d₂.end = true) (hcommit : Tx.commitViews b views (fun s => (v, s)) = some (x, s', views'))
    (hhist : b.history = none) :
    Store.deserialise data false b = .ok (.PASS, 0) { s' with version := v, lastReplicated := v } := by
  have hroll : b.rollback (v - 1) = b := by
    simp [Store.rollback, hcur]
  rw [Store.deserialise, EStateM.get_bind_apply]
  simp only [Bool.false_eq_true, if_false, hinit, Bool.not_true]
  rw [EStateM.bind_of_ok (liftDeserialiser_ok hver b), EStateM.modify_bind_apply, hroll,
    EStateM.get_bind_apply]
  simp only [hcur, ne_eq, not_true_eq_false, if_false]
  rw [EStateM.bind_of_ok (liftDeserialiser_ok hmaps b)]
  simp only [hend, Bool.not_true, Bool.false_eq_true, if_false, hcommit, hhist]
  rfl

end Store

/-! ## The backup applies what it read -/

section Backup

variable [DecidableEq K] [Inhabited V]

/-- A view read back over a map passes `prepare` against it: it counts the map's rollbacks, read
nothing, and iterated nothing. -/
theorem readBack_prepare (m : Map K V) (v : Version) (ws : Write K V) :
    (readBack m v ws).prepare m = true := by
  simp [TxView.prepare, readBack, Map.createView, NoVersion]

/-- A view read back holds, key by key, the writes that were packed. -/
theorem readBack_writes_lookup {ws : Write K V} (hw : Packable ws) (m : Map K V) (v : Version)
    (k : K) : (readBack m v ws).writes.lookup k = ws.lookup k := by
  rw [show (readBack m v ws).writes = loadWrites ws ∅ from rfl, loadWrites_lookup hw]

/-- Committing views changes the maps of the store, and neither its encryptor, its history nor
its compacted version. -/
theorem Tx.commitEach_keeps (v : Version) :
    ∀ (views : List (String × TxView K V)) (s : Store K V C),
      (Tx.commitEach v s views).1.encryptor = s.encryptor ∧
        (Tx.commitEach v s views).1.history = s.history ∧
        (Tx.commitEach v s views).1.compacted = s.compacted
  | [], _ => ⟨rfl, rfl, rfl⟩
  | (n, view) :: rest, s => by
      cases hf : s.find view.map with
      | none =>
          simp only [Tx.commitEach, hf]
          exact Tx.commitEach_keeps v rest s
      | some m =>
          simp only [Tx.commitEach, hf]
          exact Tx.commitEach_keeps v rest _

theorem Tx.commitEach_encryptor (v : Version) (views : List (String × TxView K V))
    (s : Store K V C) : (Tx.commitEach v s views).1.encryptor = s.encryptor :=
  (Tx.commitEach_keeps v views s).1

/-- `Tx::commit` over views of distinct maps commits each map of the store by its own view, if it
has one. -/
theorem Tx.commitEach_find_getD (v : Version) {views : List (String × TxView K V)}
    (hv : ViewsShape views) (s : Store K V C) (n : String) :
    (Tx.commitEach v s views).1.find n =
      (s.find n).map fun m => ((views.lookup n).map fun view => (view.commit v m).2).getD m := by
  rw [Tx.commitEach_find v views s hv n]
  cases s.find n with
  | none => rfl
  | some m => cases views.lookup n <;> rfl

/-- A commit of a view without writes leaves its map. -/
theorem TxView.commit_of_hasWrites {view : TxView K V} (h : view.hasWrites = false) (v : Version)
    (m : Map K V) : (view.commit v m).2 = m := by
  have he : view.writes.entries.isEmpty = true := by
    simp only [TxView.hasWrites, Bool.or_eq_false_iff, Bool.not_eq_false'] at h
    exact h.2
  simp [TxView.commit, he]

/-- `Tx::commit(views, f)` at a given version, over views of distinct maps, all of which pass:
each map of the store is committed by its own view, if it has one; without writes, nothing
changes. -/
theorem Tx.commitViews_find {s : Store K V C} {views : List (String × TxView K V)} {v : Version}
    (hv : ViewsShape views) (hp : Tx.prepareAll s views = true) :
    ∃ x s' views', Tx.commitViews s views (fun s => (v, s)) = some (x, s', views') ∧
      s'.encryptor = s.encryptor ∧ s'.history = s.history ∧ s'.compacted = s.compacted ∧
      ∀ n, s'.find n =
        (s.find n).map fun m => ((views.lookup n).map fun view => (view.commit v m).2).getD m := by
  unfold Tx.commitViews
  simp only [hp, Bool.not_true, Bool.false_eq_true, if_false]
  split
  · obtain ⟨he, hh, hc⟩ := Tx.commitEach_keeps v views s
    exact ⟨_, _, _, rfl, he, hh, hc, Tx.commitEach_find_getD v hv s⟩
  · next hw =>
    refine ⟨_, _, _, rfl, rfl, rfl, rfl, fun n => ?_⟩
    -- no view writes: every view's commit leaves its map
    cases hf : s.find n with
    | none => rfl
    | some m =>
        cases hl : views.lookup n with
        | none => rfl
        | some view =>
            have hw' : view.hasWrites = false := by
              simp only [List.any_eq_true, not_exists, not_and, Bool.not_eq_true] at hw
              exact hw _ (lookup_mem hl)
            simp [TxView.commit_of_hasWrites hw']

/-- The views read back are filed each under its map, once. -/
theorem loadViews_shape (s : Store K V C) (v : Version) :
    ∀ (ms : List (String × Write K V)) (views : List (String × TxView K V)),
      (ms.map (·.1)).Nodup → (∀ p ∈ ms, views.lookup p.1 = none) → ViewsShape views →
      ViewsShape (loadViews s v ms views)
  | [], _, _, _, h => h
  | (n, ws) :: ms, views, hnd, hfresh, h => by
      obtain ⟨hn, hnd'⟩ := List.nodup_cons.mp hnd
      have hl : views.lookup n = none := hfresh (n, ws) List.mem_cons_self
      simp only [loadViews, List.foldl_cons]
      cases hm : s.find n with
      | none =>
          exact loadViews_shape s v ms views hnd' (fun q hq => hfresh q (List.mem_cons_of_mem _ hq)) h
      | some m =>
          have hmap : (readBack m v ws).map = n := (Store.find_spec hm).2
          exact loadViews_shape s v ms _ hnd' (fun q hq => lookup_insertView_of_ne hl
            (fun h => hn (h ▸ List.mem_map_of_mem (f := (·.1)) hq)) (hfresh q (List.mem_cons_of_mem _ hq)))
            (h.insertView hl hmap)

/-- Each view read back is over the map of its name. -/
theorem loadViews_mem (s : Store K V C) (v : Version) :
    ∀ (ms : List (String × Write K V)) (views : List (String × TxView K V)),
      ∀ p ∈ loadViews s v ms views, p ∈ views ∨ ∃ m ws, s.find p.1 = some m ∧ p.2 = readBack m v ws
  | [], _, p, hp => .inl hp
  | (n, ws) :: ms, views, p, hp => by
      simp only [loadViews, List.foldl_cons] at hp
      cases hm : s.find n with
      | none =>
          rw [hm] at hp
          exact loadViews_mem s v ms views p hp
      | some m =>
          rw [hm] at hp
          rcases loadViews_mem s v ms _ p hp with hp | hp
          · rcases (List.mem_orderedInsert _).mp hp with rfl | hp
            · exact .inr ⟨m, ws, hm, rfl⟩
            · exact .inl hp
          · exact .inr hp

/-- The views read back all pass `prepare`. -/
theorem prepareAll_loadViews (s : Store K V C) (v : Version) (ms : List (String × Write K V)) :
    Tx.prepareAll s (loadViews s v ms []) = true := by
  simp only [Tx.prepareAll, List.all_eq_true]
  intro p hp
  rcases loadViews_mem s v ms [] p hp with hp | ⟨m, ws, hm, hview⟩
  · cases hp
  · have hfind : s.find p.2.map = some m := by
      rw [hview]
      exact Store.find_of_mem (Store.find_spec hm).1
    rw [hfind, hview]
    exact readBack_prepare m v ws

omit [DecidableEq K] [Inhabited V] in
theorem Deserialiser.deserialiseVersion_set {d : Deserialiser K V C} {v : Version}
    {l : List (Token K V)} :
    Deserialiser.deserialiseVersion (d.setCurrentReader (.version v :: l)) =
      .ok v { d.setCurrentReader l with version := v } := by
  rw [Deserialiser.deserialiseVersion,
    EStateM.bind_of_ok (Deserialiser.readNext_set (f := Deserialiser.asVersion) (t := .version v) rfl)]
  rfl

/-- **A backup applies what a serialiser packed.** Given the public maps after the version, the
private ones under an encryptor that decrypts what it encrypts, each map named once and known to
the backup, at the version after the backup's: `Store::deserialise` passes, moves the backup to
that version, and commits on each map named the view read back for it. -/
theorem Store.deserialise_packed {b : Store K V C} {ser : Serialiser K V C} {v : Version}
    {pubs privs : List (String × Write K V)}
    (hpub : ser.publicWriter = .version v :: pubs.flatMap fun p => packMap p.1 p.2)
    (hpriv : ser.privateWriter = privs.flatMap fun p => packMap p.1 p.2) (hver : ser.version = v)
    (henc : b.encryptor = ser.cryptoUtil) (hinv : ∀ e ∈ ser.cryptoUtil, e.Inverts)
    (hnone : ser.cryptoUtil = none → privs = [])
    (hnd : ((pubs ++ privs).map (·.1)).Nodup) (hfind : ∀ p ∈ pubs ++ privs, (b.find p.1).isSome)
    (hcur : b.currentVersion = v - 1) (hhist : b.history = none) :
    ∃ b', Store.deserialise ser.getRawData false b = .ok (.PASS, 0) b' ∧ b'.version = v ∧
      b'.encryptor = b.encryptor ∧ b'.history = b.history ∧ b'.compacted = b.compacted ∧
      ∀ n, b'.find n = (b.find n).map fun mb =>
        (((pubs ++ privs).lookup n).map fun ws => ((readBack mb v ws).commit v mb).2).getD mb := by
  -- open the buffers, and read the version
  obtain ⟨d₀, hinit, hc, hpub₀, hpriv₀, hop⟩ := Deserialiser.init_getRawData ser hinv
    (hver ▸ hpub) fun h => by rw [hpriv, hnone h, List.flatMap_nil]
  have hd₀ : d₀ = d₀.setCurrentReader (.version v :: pubs.flatMap fun p => packMap p.1 p.2) := by
    rw [← hpub, ← hpub₀]
    conv_lhs => rw [← Deserialiser.setCurrentReader_currentReader (d := d₀)]
    simp [Deserialiser.currentReader, hc]
  have hset : ∀ l, d₀.setCurrentReader l = { d₀ with publicReader := l } := by
    intro l
    simp [Deserialiser.setCurrentReader, hc]
  let d₁ : Deserialiser K V C :=
    { d₀.setCurrentReader (pubs.flatMap fun p => packMap p.1 p.2) with version := v }
  have hver₀ : Deserialiser.deserialiseVersion d₀ = .ok v d₁ := by
    rw [hd₀, Deserialiser.deserialiseVersion_set]
  -- the map loop, then the commit of what it read
  obtain ⟨d₂, hmaps, hend⟩ := deserialiseMaps_stream b v pubs privs (d := d₁) (by simp [d₁, hc])
    (by simp [d₁, hop]) (by simp [d₁, hset]) (by simp [d₁, hset, hpriv₀, hpriv]) hfind hnd
  have hshape := loadViews_shape b v (pubs ++ privs) [] hnd (fun _ _ => rfl) ⟨List.nodup_nil, by simp⟩
  obtain ⟨x, s', views', hcommit, henc', hhist', hcomp', hfind'⟩ :=
    Tx.commitViews_find (v := v) hshape (prepareAll_loadViews b v (pubs ++ privs))
  refine ⟨_, Store.deserialise_pass (henc ▸ hinit) hver₀ hcur hmaps hend hcommit hhist, rfl,
    henc', hhist', hcomp', fun n => ?_⟩
  show s'.find n = _
  rw [hfind' n, loadViews_lookup b v n _ [] (fun p hp => hfind p hp) hnd (fun _ _ => rfl)]
  cases hb : b.find n with
  | none => rfl
  | some mb => cases (pubs ++ privs).lookup n <;> simp

end Backup

end Ccf.Kv
