import Mathlib.Data.String.Basic
import Ccf.Lib.SortedMap

/-!
# JSON to Lua and back (`luainterp/luajson.h`)

`push_raw(l, j)` leaves a Lua value for a JSON value on the stack: an object or an array
becomes a new table, filled member by member with `lua_setfield` or element by element with
`lua_seti` at `1, 2, …`. `check_get<json>(l, arg)` turns a Lua value back into JSON; for a
table it first walks it with `lua_next` hoping for the keys `1, 2, …` in that order, which make
an array, and otherwise walks it again as an object whose keys must all be strings.

The stack is not modelled: a push is the value it leaves, and a read is of a value. A table is
the list of its entries in the order `lua_next` visits them. Setting a key keeps the place of a
key that is there and visits a new key last, which is how the vendored Lua visits a table whose
keys `1..n` were set in order by `lua_seti`; for other keys the order is the table's own, and
the object `check_get` builds does not depend on it. Keys are integers or strings, the keys
`push_raw` sets; a table holding other keys is out of scope, as is running out of stack space
(`lua_checkstack`).

Strings go through `c_str()`, so they end at their first NUL byte. JSON floating-point numbers
and `lua_Number`s are one type `F` (`double`), passed on unchanged. `prev_key`, the counter of
the array walk, is a C `int`; its overflow is modelled as the wrap the compiled code performs.
-/

namespace Ccf.Lua

/-- `nlohmann::json`, over the type `F` of its floating-point numbers. An object is its
`std::map` from keys to values, in key order. -/
inductive Json (F : Type)
  | null
  | object (kvs : List (String × Json F))
  | array (xs : List (Json F))
  | string (s : String)
  | boolean (b : Bool)
  | numberInteger (i : Int64)
  | numberUnsigned (n : UInt64)
  | numberFloat (x : F)
  | discarded

/-- A table key: an integer or a string. -/
inductive Key
  | integer (i : Int64)
  | string (s : String)
  deriving DecidableEq

/-- A Lua value, over the type `F` of `lua_Number`s. A table is its entries in the order
`lua_next` visits them. -/
inductive Value (F : Type)
  | nil
  | boolean (b : Bool)
  | integer (i : Int64)
  | number (x : F)
  | string (s : String)
  | table (entries : List (Key × Value F))
  | userdata
  | function
  | lightuserdata
  | thread

variable {F : Type}

/-- What `c_str()` passes on of a string: up to its first NUL. -/
def cstr (s : String) : String := String.ofList (s.toList.takeWhile (· ≠ Char.ofNat 0))

/-- `t[k] = v` on a table with no metatable (`lua_setfield`, `lua_seti`): `nil` removes the
key; a key that is there keeps its place; a new key is visited last. -/
def rawset (t : List (Key × Value F)) (k : Key) : Value F → List (Key × Value F)
  | .nil => t.filter (·.1 ≠ k)
  | v => if k ∈ t.map Prod.fst then t.map (fun e => if e.1 = k then (k, v) else e) else t ++ [(k, v)]

-- Made here once: the equation lemmas that the proofs below unfold.
section
attribute [local simp] cstr rawset
end

mutual

/-- `push_raw<nlohmann::json>(l, j)`: the value it leaves on the stack. -/
def pushRaw : Json F → Except String (Value F)
  | .null => .ok .nil
  | .object kvs => .table <$> pushObject kvs []
  | .array xs => .table <$> pushArray xs 0 []
  | .string s => .ok (.string (cstr s))
  | .boolean b => .ok (.boolean b)
  | .numberInteger i => .ok (.integer i)
  -- `const lua_Integer i = j`
  | .numberUnsigned n => .ok (.integer n.toInt64)
  | .numberFloat x => .ok (.number x)
  | .discarded => .error "Unhandled json type, unable to push onto lua stack"

/-- The members of an object, in key order: `push_raw` of the value, then `lua_setfield` at the
key. -/
def pushObject : List (String × Json F) → List (Key × Value F) →
    Except String (List (Key × Value F))
  | [], t => .ok t
  | (k, v) :: kvs, t => do
      let lv ← pushRaw v
      pushObject kvs (rawset t (.string (cstr k)) lv)

/-- The elements of an array, `i` of them already set: `push_raw`, then `lua_seti` at `++i`. -/
def pushArray : List (Json F) → Nat → List (Key × Value F) →
    Except String (List (Key × Value F))
  | [], _, t => .ok t
  | x :: xs, i, t => do
      let lv ← pushRaw x
      pushArray xs (i + 1) (rawset t (.integer (Int64.ofNat (i + 1))) lv)

end

mutual

/-- `check_get<nlohmann::json>(l, arg)`. Userdata and functions leave the `null` the result
starts as. A table is an array if the first walk got through every entry; otherwise an error if
that walk saw an integer key, and an object from the second walk if not. -/
def checkGet : Value F → Except String (Json F)
  | .nil => .ok .null
  | .number x => .ok (.numberFloat x)
  | .integer i => .ok (.numberInteger i)
  | .boolean b => .ok (.boolean b)
  | .string s => .ok (.string (cstr s))
  | .table es => do
      let (isArray, sawIntegerKey, a) ← arrayLoop es 0 false []
      if isArray then pure (.array a)
      else if sawIntegerKey then throw "Cannot create Json table with integer key."
      else .object <$> dictLoop es []
  | .userdata => .ok .null
  | .function => .ok .null
  | .lightuserdata => .error "Encountered unexpected lua type while constructing json object."
  | .thread => .error "Encountered unexpected lua type while constructing json object."

/-- The array walk over the entries after the key `prevKey`, with `saw_integer_key` and the
elements `a` so far: `is_array` (the entries ran out), `saw_integer_key`, and the elements. -/
def arrayLoop : List (Key × Value F) → Int32 → Bool → List (Json F) →
    Except String (Bool × Bool × List (Json F))
  | [], _, sawIntegerKey, a => .ok (true, sawIntegerKey, a)
  -- not an integer key
  | (.string _, _) :: _, _, sawIntegerKey, a => .ok (false, sawIntegerKey, a)
  | (.integer key, v) :: es, prevKey, _, a =>
      -- `key != ++prev_key`, the `int` promoted to `lua_Integer`
      if key.toInt ≠ (prevKey + 1).toInt then .ok (false, true, a)
      else do
        let x ← checkGet v
        arrayLoop es (prevKey + 1) true (a ++ [x])

/-- The object walk: every key must be a string, and `j[key] = check_get(value)`. -/
def dictLoop : List (Key × Value F) → List (String × Json F) →
    Except String (List (String × Json F))
  | [], obj => .ok obj
  | (.integer _, _) :: _, _ => .error "Cannot create Json table with integer key."
  | (.string s, v) :: es, obj => do
      let x ← checkGet v
      dictLoop es (SortedMap.upsert (cstr s) x obj)

end

end Ccf.Lua
