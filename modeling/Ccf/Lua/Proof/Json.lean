import Mathlib.Algebra.Group.Nat.Defs
import Ccf.Lua.Json

/-!
# JSON through Lua and back

`check_get<json>(push_raw(j))` gives `j` back for every `j` the trip can carry
(`json_lua_round_trip`), with one change of spelling: an unsigned integer comes back as the
signed `lua_Integer` of the same bits (`Json.signed`), which `nlohmann::json`'s `==` counts as
equal. What the trip can carry (`Representable`) is the claim's condition, strings without a
NUL byte and no `null` element or member, and three more. The empty object is not carried: it
becomes an empty table, and an empty table reads back as the empty array
(`empty_object_reads_as_array`). An array of `2^31` elements or more runs `prev_key`, an `int`,
past its range; and `discarded` cannot be pushed at all.

The push fills each table with keys that are new every time: the indices of an array count up
(`FreshAfter`), and the keys of an object increase. So every set appends an entry
(`rawset_of_not_mem`), and the table lists the elements or members in order. The array walk
then finds the keys `1, 2, …` (`pushArray_spec`); the first key of an object's table is a string,
so the first walk stops at once and the second inserts the members, in increasing order, at the
end of the object it builds (`pushObject_spec`). The three statements are proved together, by
recursion on the value, as the functions are defined.

The model visits a table's entries in the order they were set. For an array that is the order
the claim assumes of the vendored Lua; for an object any order gives the same result
(`dictLoop_perm`), since the members' names differ and setting two different keys of a sorted
map commutes (`SortedMap.Sorted.upsert_comm`).
-/

namespace Ccf.Lua

open SortedMap

variable {F : Type}

/-- No NUL byte: `c_str()` passes the whole string. -/
def NoNul (s : String) : Prop := ∀ c ∈ s.toList, c ≠ Char.ofNat 0

-- Made here once: the equation lemmas that the proofs below unfold.
section
attribute [local simp] NoNul
end

mutual

/-- The JSON values the round trip carries: strings and keys with no NUL byte and no `null`
element or member, as the claim asks; the keys of an object increasing, as its `std::map` holds
them; and no empty object, no array of `2^31` elements or more, and no `discarded` value. -/
def Representable : Json F → Prop
  | .null => True
  | .object kvs => kvs ≠ [] ∧ Sorted kvs ∧ RepresentableMembers kvs
  | .array xs => xs.length < 2 ^ 31 ∧ RepresentableElements xs
  | .string s => NoNul s
  | .boolean _ => True
  | .numberInteger _ => True
  | .numberUnsigned _ => True
  | .numberFloat _ => True
  | .discarded => False

/-- Every element is representable and not `null`. -/
def RepresentableElements : List (Json F) → Prop
  | [] => True
  | x :: xs => x ≠ .null ∧ Representable x ∧ RepresentableElements xs

/-- Every key has no NUL byte, and every value is representable and not `null`. -/
def RepresentableMembers : List (String × Json F) → Prop
  | [] => True
  | (k, v) :: kvs => NoNul k ∧ v ≠ .null ∧ Representable v ∧ RepresentableMembers kvs

end

mutual

/-- The value as it comes back through a `lua_Integer`: every unsigned integer becomes the
signed one of the same bits (`const lua_Integer i = j`), the same number below `2^63`. -/
def Json.signed : Json F → Json F
  | .object kvs => .object (Json.signedMembers kvs)
  | .array xs => .array (Json.signedElements xs)
  | .numberUnsigned n => .numberInteger n.toInt64
  | j => j

/-- `Json.signed` of every element. -/
def Json.signedElements : List (Json F) → List (Json F)
  | [] => []
  | x :: xs => x.signed :: Json.signedElements xs

/-- `Json.signed` of every value. -/
def Json.signedMembers : List (String × Json F) → List (String × Json F)
  | [] => []
  | (k, v) :: kvs => (k, v.signed) :: Json.signedMembers kvs

end

/-! ## One step of the push -/

theorem cstr_of_noNul {s : String} (h : NoNul s) : cstr s = s := by
  have htake : ∀ l : List Char, (∀ c ∈ l, c ≠ Char.ofNat 0) →
      l.takeWhile (· ≠ Char.ofNat 0) = l := by
    intro l hl
    induction l with
    | nil => rfl
    | cons c l ih =>
      rw [List.takeWhile_cons_of_pos (by simpa using hl c List.mem_cons_self),
        ih fun c' hc' => hl c' (List.mem_cons_of_mem c hc')]
  rw [cstr, htake s.toList h, String.ofList_toList]

/-- Setting a key that is not there to a value that is not `nil` adds an entry at the end. -/
theorem rawset_of_not_mem {t : List (Key × Value F)} {k : Key} {v : Value F}
    (hk : k ∉ t.map Prod.fst) (hv : v ≠ .nil) : rawset t k v = t ++ [(k, v)] := by
  cases v with
  | nil => exact absurd rfl hv
  | _ => simp only [rawset, if_neg hk]

/-- Only `null` is pushed as `nil`. -/
theorem pushRaw_ne_nil {j : Json F} {v : Value F} (h : pushRaw j = .ok v) (hj : j ≠ .null) :
    v ≠ .nil := by
  rintro rfl
  cases j with
  | null => exact hj rfl
  | object kvs =>
    rw [pushRaw] at h
    cases hp : pushObject kvs [] <;> rw [hp] at h <;> cases h
  | array xs =>
    rw [pushRaw] at h
    cases hp : pushArray xs 0 [] <;> rw [hp] at h <;> cases h
  | _ => cases h

/-- No key of `t` is an index after `i` that an array shorter than `2^31` sets. -/
def FreshAfter (t : List (Key × Value F)) (i : Nat) : Prop :=
  ∀ m, i < m → m < 2 ^ 31 → Key.integer (Int64.ofNat m) ∉ t.map Prod.fst

theorem FreshAfter.push {t : List (Key × Value F)} {i : Nat} (h : FreshAfter t i) (v : Value F)
    (hi : i + 1 < 2 ^ 31) : FreshAfter (t ++ [(.integer (Int64.ofNat (i + 1)), v)]) (i + 1) := by
  intro m hm hm' hmem
  rw [List.map_append, List.mem_append] at hmem
  rcases hmem with hmem | hmem
  · exact h m (by omega) hm' hmem
  · -- the index just set is below every later one
    have heq : Int64.ofNat m = Int64.ofNat (i + 1) := by simpa using hmem
    have hint := congrArg Int64.toInt heq
    rw [Int64.toInt_ofNat_of_lt (by omega), Int64.toInt_ofNat_of_lt (by omega)] at hint
    omega

theorem int32_ofNat_succ (i : Nat) : Int32.ofNat i + 1 = Int32.ofNat (i + 1) := by
  rw [Int32.ofNat_add]
  rfl

/-- The array walk accepts the index after `i`, for arrays shorter than `2^31`. -/
theorem toInt_index {i : Nat} (hi : i + 1 < 2 ^ 31) :
    (Int64.ofNat (i + 1)).toInt = (Int32.ofNat i + 1).toInt := by
  rw [Int64.toInt_ofNat_of_lt (by omega), int32_ofNat_succ, Int32.toInt_ofNat_of_lt (by omega)]

/-! ## The round trip -/

mutual

/-- Each value is pushed, and what is pushed reads back as the value. -/
theorem checkGet_pushRaw : ∀ (j : Json F), Representable j →
    ∃ v, pushRaw j = .ok v ∧ checkGet v = .ok j.signed
  | .null, _ => ⟨.nil, rfl, rfl⟩
  | .object kvs, ⟨hne, hsorted, hmem⟩ => by
    obtain ⟨es, hpush, hkeys, hdict⟩ := pushObject_spec kvs hmem hsorted
    refine ⟨.table es, by rw [pushRaw, hpush [] fun _ _ => List.not_mem_nil]; rfl, ?_⟩
    obtain ⟨⟨k, v⟩, kvs', rfl⟩ := List.exists_cons_of_ne_nil hne
    cases es with
    | nil => cases hkeys
    | cons e es =>
      -- the first key is a string: the array walk stops at once, and the object walk runs
      obtain ⟨k₀, lv⟩ := e
      obtain ⟨rfl, -⟩ := List.cons.inj hkeys
      have hd := hdict [] fun _ h => absurd h List.not_mem_nil
      simp only [checkGet, arrayLoop, bind, Except.bind]
      rw [hd]
      rfl
  | .array xs, ⟨hlen, helems⟩ => by
    obtain ⟨es, hpush, hloop⟩ := pushArray_spec xs helems 0 (by omega)
    obtain ⟨saw, hl⟩ := hloop false []
    refine ⟨.table es, by rw [pushRaw, hpush [] fun _ _ _ => List.not_mem_nil]; rfl, ?_⟩
    -- the array walk gets through every entry
    simp only [checkGet]
    rw [show (0 : Int32) = Int32.ofNat 0 from rfl, hl]
    rfl
  | .string s, h => ⟨_, rfl, by rw [checkGet, cstr_of_noNul h, cstr_of_noNul h]; rfl⟩
  | .boolean _, _ => ⟨_, rfl, rfl⟩
  | .numberInteger _, _ => ⟨_, rfl, rfl⟩
  | .numberUnsigned _, _ => ⟨_, rfl, rfl⟩
  | .numberFloat _, _ => ⟨_, rfl, rfl⟩
  | .discarded, h => h.elim

/-- The elements from the `i + 1`-th: pushed after the entries of `t` at the indices after `i`,
and walked by the array loop from `prev_key = i`. -/
theorem pushArray_spec : ∀ (xs : List (Json F)), RepresentableElements xs →
    ∀ i, i + xs.length < 2 ^ 31 →
      ∃ es, (∀ t, FreshAfter t i → pushArray xs i t = .ok (t ++ es)) ∧
        ∀ sawIntegerKey a, ∃ saw, arrayLoop es (Int32.ofNat i) sawIntegerKey a =
          .ok (true, saw, a ++ Json.signedElements xs)
  | [], _, _, _ => ⟨[], fun t _ => by rw [pushArray, List.append_nil],
      fun sawIntegerKey a => ⟨sawIntegerKey, by rw [arrayLoop, Json.signedElements, List.append_nil]⟩⟩
  | x :: xs, ⟨hx, hrep, hxs⟩, i, hi => by
    have hi' : i + 1 + xs.length < 2 ^ 31 := by simp only [List.length_cons] at hi; omega
    obtain ⟨v, hpush, hget⟩ := checkGet_pushRaw x hrep
    obtain ⟨es, hpushes, hloop⟩ := pushArray_spec xs hxs (i + 1) hi'
    refine ⟨(.integer (Int64.ofNat (i + 1)), v) :: es, fun t ht => ?_, fun _ a => ?_⟩
    · -- the index `i + 1` is new, so the element goes at the end
      have hnew := ht (i + 1) (by omega) (by omega)
      simp only [pushArray, hpush, bind, Except.bind]
      rw [rawset_of_not_mem hnew (pushRaw_ne_nil hpush hx),
        hpushes _ (ht.push v (by omega)), List.append_assoc]
      rfl
    · obtain ⟨saw, h⟩ := hloop true (a ++ [x.signed])
      refine ⟨saw, ?_⟩
      rw [arrayLoop, if_neg (not_not.mpr (toInt_index (by omega)))]
      simp only [bind, Except.bind, hget]
      rw [int32_ofNat_succ, h,
        Json.signedElements, List.append_assoc]
      rfl

/-- The members in increasing key order: pushed after the entries of `t` under their keys, and
walked by the object loop into an object whose keys are all below theirs. -/
theorem pushObject_spec : ∀ (kvs : List (String × Json F)), RepresentableMembers kvs →
    Sorted kvs →
      ∃ es, (∀ t, (∀ k ∈ keys kvs, Key.string k ∉ t.map Prod.fst) →
          pushObject kvs t = .ok (t ++ es)) ∧
        es.map Prod.fst = (keys kvs).map Key.string ∧
        ∀ obj, (∀ k' ∈ keys obj, ∀ k ∈ keys kvs, k' < k) →
          dictLoop es obj = .ok (obj ++ Json.signedMembers kvs)
  | [], _, _ => ⟨[], fun t _ => by rw [pushObject, List.append_nil], rfl,
      fun obj _ => by rw [dictLoop, Json.signedMembers, List.append_nil]⟩
  | (k, v) :: kvs, ⟨hk, hv, hrep, hrest⟩, hsorted => by
    obtain ⟨hlt, hsorted'⟩ := sorted_cons.mp hsorted
    obtain ⟨lv, hpush, hget⟩ := checkGet_pushRaw v hrep
    obtain ⟨es, hpushes, hkeys, hdict⟩ := pushObject_spec kvs hrest hsorted'
    refine ⟨(.string k, lv) :: es, fun t ht => ?_, by rw [List.map_cons, hkeys]; rfl,
      fun obj hobj => ?_⟩
    · -- the key is new, so the member goes at the end, and the later keys stay new
      have hnew := ht k (by simp)
      simp only [pushObject, hpush, bind, Except.bind]
      rw [cstr_of_noNul hk, rawset_of_not_mem hnew (pushRaw_ne_nil hpush hv)]
      have hfresh : ∀ k' ∈ keys kvs, Key.string k' ∉ (t ++ [(Key.string k, lv)]).map Prod.fst := by
        intro k' hk' hmem
        rw [List.map_append, List.mem_append] at hmem
        rcases hmem with hmem | hmem
        · exact ht k' (by simp [hk']) hmem
        · have heq : k' = k := by simpa using hmem
          exact absurd (heq ▸ hlt k' hk') (lt_irrefl _)
      rw [hpushes _ hfresh, List.append_assoc]
      rfl
    · -- every key of the object is below `k`, so the member goes at its end
      have hup : upsert k v.signed obj = obj ++ [(k, v.signed)] := by
        have h := upsert_append_of_gt (k := k) (v := v.signed) []
          fun k' hk' => hobj k' hk' k (by simp)
        rw [List.append_nil] at h
        exact h
      have hbelow : ∀ k'' ∈ keys (obj ++ [(k, v.signed)]), ∀ k' ∈ keys kvs, k'' < k' := by
        intro k'' hk'' k' hk'
        rw [keys_append, List.mem_append] at hk''
        rcases hk'' with hk'' | hk''
        · exact hobj k'' hk'' k' (by simp [hk'])
        · have heq : k'' = k := by simpa using hk''
          exact heq ▸ hlt k' hk'
      simp only [dictLoop, bind, Except.bind, hget]
      rw [cstr_of_noNul hk, hup, hdict _ hbelow, Json.signedMembers, List.append_assoc]
      rfl

end

/-! ## The order of an object's members -/

/-- The member name a key gives: a string up to its first NUL; an integer key gives none. -/
def Key.name : Key → Option String
  | .integer _ => none
  | .string s => some (cstr s)

-- Made here once: the equation lemmas that the proofs below unfold.
section
attribute [local simp] Key.name
end

/-- A step of the object walk that goes on: a string key, its value read, and the member set. -/
theorem dictLoop_cons_ok {e : Key × Value F} {es : List (Key × Value F)}
    {obj r : List (String × Json F)} (h : dictLoop (e :: es) obj = .ok r) :
    ∃ s v x, e = (.string s, v) ∧ checkGet v = .ok x ∧
      dictLoop es (upsert (cstr s) x obj) = .ok r := by
  obtain ⟨k, v⟩ := e
  cases k with
  | integer i =>
    rw [dictLoop] at h
    cases h
  | string s =>
    rw [dictLoop] at h
    cases hx : checkGet v with
    | error msg =>
      rw [hx] at h
      cases h
    | ok x =>
      rw [hx] at h
      exact ⟨s, v, x, rfl, hx, h⟩

/-- **The object walk does not depend on the order `lua_next` visits the members in**, when
their keys are different strings: any other order builds the same object. -/
theorem dictLoop_perm {es es' : List (Key × Value F)} (hp : es.Perm es') :
    (es.map fun e => e.1.name).Nodup → ∀ {obj r : List (String × Json F)}, Sorted obj →
      dictLoop es obj = .ok r → dictLoop es' obj = .ok r := by
  induction hp with
  | nil => exact fun _ _ _ _ h => h
  | cons e _ ih =>
    intro hnd obj r hobj h
    obtain ⟨s, v, x, rfl, hx, hrest⟩ := dictLoop_cons_ok h
    have hrest' := ih (List.nodup_cons.mp hnd).2 (hobj.upsert _ _) hrest
    rw [dictLoop, hx]
    exact hrest'
  | swap e₁ e₂ l =>
    -- two members in the other order: the two sets commute, their names being different
    intro hnd obj r hobj h
    obtain ⟨s₂, v₂, x₂, rfl, hx₂, h₂⟩ := dictLoop_cons_ok h
    obtain ⟨s₁, v₁, x₁, rfl, hx₁, h₁⟩ := dictLoop_cons_ok h₂
    have hne : cstr s₁ ≠ cstr s₂ := by
      intro heq
      simp [Key.name, heq] at hnd
    rw [dictLoop, hx₁]
    show dictLoop ((Key.string s₂, v₂) :: l) (upsert (cstr s₁) x₁ obj) = .ok r
    rw [dictLoop, hx₂]
    show dictLoop l (upsert (cstr s₂) x₂ (upsert (cstr s₁) x₁ obj)) = .ok r
    rw [hobj.upsert_comm (Ne.symm hne)]
    exact h₁
  | trans hp₁ _ ih₁ ih₂ =>
    intro hnd obj r hobj h
    exact ih₂ ((hp₁.map _).nodup_iff.mp hnd) hobj (ih₁ hnd hobj h)

/-- **JSON through Lua and back.** A representable value comes back from Lua as it went in,
with its unsigned integers as signed ones of the same bits. -/
theorem json_lua_round_trip (j : Json F) (h : Representable j) :
    (pushRaw j >>= checkGet) = .ok j.signed := by
  obtain ⟨v, hpush, hget⟩ := checkGet_pushRaw j h
  rw [hpush]
  exact hget

/-- An object with an array of an unsigned integer and a boolean, over `double`s. -/
def nodeRecord : Json Float := .object [("id", .array [.numberUnsigned 7, .boolean true])]

-- Made here once: the equation lemmas that the proofs below unfold.
section
attribute [local simp] nodeRecord
end

theorem json_lua_round_trip_nodeRecord :
    Representable nodeRecord ∧
      (pushRaw nodeRecord >>= checkGet) =
        .ok (.object [("id", .array [.numberInteger 7, .boolean true])]) := by
  have h : Representable nodeRecord := by
    simp [nodeRecord, Representable, RepresentableMembers, RepresentableElements, NoNul, Sorted,
      keys]
  exact ⟨h, json_lua_round_trip nodeRecord h⟩

/-- **The empty object comes back as the empty array.** It has no string, integer or element
that the claim excludes, and its empty table is read as an array. -/
theorem empty_object_reads_as_array :
    (pushRaw (Json.object [] : Json Float) >>= checkGet) = .ok (.array []) ∧
      (pushRaw (Json.object [] : Json Float) >>= checkGet) ≠ .ok (.object []) := by
  have h : (pushRaw (Json.object [] : Json Float) >>= checkGet) = .ok (.array []) := rfl
  refine ⟨h, ?_⟩
  rw [h]
  intro heq
  cases heq

end Ccf.Lua
