import Mathlib.Data.List.Basic

/-!
# The persistent hash map (`ds/champmap.h`)

`champ::Map` is a Compressed Hash-Array Mapped Prefix-tree. A key's 32-bit hash is read
five bits at a time, from the low bits up: the slice at `depth` picks one of the 32 slots of
the node at that depth. A node (`SubNodes`) stores only its occupied slots, packed in one
vector: first the slots that hold an entry, in slot order, then those that hold a node one
level down, in slot order; `data_map` and `node_map` say which slots are which, and a
slot's position in the vector is a population count (`compressed_idx`). After six levels
of five bits two bits are left: the nodes below the last level of sub-nodes are collision
nodes (`Collisions`), four bins of entries picked by those two bits and searched by key.

A node's children are `std::shared_ptr<void>`, cast by `node_as` to what the bitmaps and
the depth say they are. Here a child is an entry or a node one level down (`Child`), and
the depth decides the kind of a node: every test of `depth` against `collision_depth - 1`
in the source agrees that the nodes at depth `collision_depth - 1` have collision nodes
below them and the others sub-nodes. `Trie n` is the type of the nodes at height `n`,
that is at depth `collision_depth - n`: collision nodes at height 0, and at height `n + 1`
sub-nodes whose children are of height `n`. The sub-node operations take the operation of
their children as an argument, which is the call the source makes after its depth test. A
cast to the wrong kind would read a node as what it is not; the model reads it as nothing.

The hash function `H` is the template's `H()` with its result taken as a `Hash`, as every
use of it in the source does. The map is persistent: `put` copies the nodes it changes and
`put_mut` changes the copy, so in the model both are the one function `putMut`. `foreach`
takes a callback that returns whether to go on, in any monad, standing for the callback's
side effects.
-/

namespace Ccf.Champ

/-- `index_mask_bits`: a node is indexed by five bits of the hash. -/
def indexMaskBits : Nat := 5

/-- `index_mask`. -/
def indexMask : UInt32 := (1 <<< indexMaskBits.toUInt32) - 1

/-- `Hash`. -/
abbrev Hash := UInt32

/-- `hash_bits`. -/
def hashBits : Nat := 32

/-- `collision_node_bits`: the bits of the hash left below the last level of sub-nodes. -/
def collisionNodeBits : Nat := hashBits % indexMaskBits

/-- `collision_depth`: the depth of the collision nodes. -/
def collisionDepth : Nat := hashBits / indexMaskBits

/-- `collision_bins`. -/
def collisionBins : Nat := 1 <<< collisionNodeBits

/-- `mask(hash, depth)`: the slice of `hash` that indexes a node at `depth`. -/
def mask (hash : Hash) (depth : Nat) : Nat :=
  ((hash >>> (depth * indexMaskBits).toUInt32) &&& indexMask).toNat

-- Made here once: the equation lemmas that the proofs below unfold.
section
attribute [local simp] mask
end

/-- `Bitmap`: a set of slots `0 … 31`, as the bits of a word. -/
structure Bitmap where
  bits : UInt32

namespace Bitmap

/-- `operator&`. -/
def and (a b : Bitmap) : Bitmap := ⟨a.bits &&& b.bits⟩

/-- `pop()`, `__builtin_popcount`. -/
def pop (b : Bitmap) : Nat := b.bits.toBitVec.cpop.toNat

/-- `set(idx)`. -/
def set (b : Bitmap) (idx : Nat) : Bitmap := ⟨b.bits ||| (1 <<< idx.toUInt32)⟩

/-- `clear(idx)`. -/
def clear (b : Bitmap) (idx : Nat) : Bitmap := ⟨b.bits &&& ~~~(1 <<< idx.toUInt32)⟩

/-- `check(idx)`. -/
def check (b : Bitmap) (idx : Nat) : Bool := b.bits &&& (1 <<< idx.toUInt32) != 0

-- Made here once: the equation lemmas that the proofs below unfold.
section
attribute [local simp] and pop set clear check
end

end Bitmap

/-- `Entry<K, V>`. -/
structure Entry (K V : Type) where
  key : K
  value : V

variable {K V : Type} [DecidableEq K]

/-- `Entry::getp`. -/
def Entry.getp (e : Entry K V) (k : K) : Option V :=
  if k = e.key then some e.value else none

-- Made here once: the equation lemmas that the proofs below unfold.
section
attribute [local simp] Entry.getp
end

/-- `Collisions`: the entries whose hashes agree on all the slices of the sub-nodes above,
in `collision_bins` bins. -/
structure Collisions (K V : Type) where
  bins : List (List (Entry K V))

namespace Collisions

/-- `Collisions()`: every bin empty. -/
def new : Collisions K V := ⟨List.replicate collisionBins []⟩

/-- `Collisions::getp`. -/
def getp (c : Collisions K V) (hash : Hash) (k : K) : Option V :=
  let bin := c.bins.getD (mask hash collisionDepth) []
  (bin.find? fun e => k = e.key).map (·.value)

/-- `Collisions::put_mut`: overwrite the entry of `k` in its bin, or append one. Returns
whether an entry was added. -/
def putMut (c : Collisions K V) (hash : Hash) (k : K) (v : V) : Collisions K V × Bool :=
  let idx := mask hash collisionDepth
  let bin := c.bins.getD idx []
  match bin.findIdx? fun e => k = e.key with
  | some i => (⟨c.bins.set idx (bin.set i ⟨k, v⟩)⟩, false)
  | none => (⟨c.bins.set idx (bin ++ [⟨k, v⟩])⟩, true)

/-- `Collisions::foreach`. -/
def foreach {m : Type → Type} [Monad m] (c : Collisions K V) (f : K → V → m Bool) : m Bool :=
  c.bins.allM fun bin => bin.allM fun e => f e.key e.value

/-- The collision node that `SubNodes::put_mut` makes of `entry0` and the entry of `k`, when
the two share a slot at the last depth of sub-nodes. -/
def pair (H : K → Hash) (entry0 : Entry K V) (hash : Hash) (k : K) (v : V) : Collisions K V :=
  let bins := (new : Collisions K V).bins
  let idx0 := mask (H entry0.key) collisionDepth
  let bins := bins.set idx0 (bins.getD idx0 [] ++ [entry0])
  let idx1 := mask hash collisionDepth
  ⟨bins.set idx1 (bins.getD idx1 [] ++ [⟨k, v⟩])⟩

-- Made here once: the equation lemmas that the proofs below unfold.
section
attribute [local simp] new getp putMut foreach pair
end

end Collisions

/-- A child of a sub-node: an entry, or a node one level down. -/
inductive Child (K V C : Type) where
  | entry (e : Entry K V)
  | node (c : C)

/-- `SubNodes`, whose nodes one level down are of type `C`. -/
structure SubNodes (K V C : Type) where
  nodes : List (Child K V C)
  nodeMap : Bitmap
  dataMap : Bitmap

namespace SubNodes

variable {C : Type}

/-- `SubNodes()`. -/
def new : SubNodes K V C := ⟨[], ⟨0⟩, ⟨0⟩⟩

/-- `compressed_idx(idx)`: the position of slot `idx` in `nodes`, or `none` (the source's
`(SmallIndex)-1`) when the slot is free. -/
def compressedIdx (s : SubNodes K V C) (idx : Nat) : Option Nat :=
  if !s.nodeMap.check idx && !s.dataMap.check idx then none
  else
    let mask : Bitmap := ⟨~~~((-1 : UInt32) <<< idx.toUInt32)⟩
    if s.dataMap.check idx then some (s.dataMap.and mask).pop
    else some (s.dataMap.pop + (s.nodeMap.and mask).pop)

/-- `SubNodes::getp`, with `getpChild` the `getp` of the nodes one level down. -/
def getp (getpChild : C → Hash → K → Option V) (depth : Nat) (s : SubNodes K V C)
    (hash : Hash) (k : K) : Option V :=
  let idx := mask hash depth
  match s.compressedIdx idx with
  | none => none
  | some cIdx =>
      if s.dataMap.check idx then
        match s.nodes[cIdx]? with
        | some (.entry e) => e.getp k
        | _ => none
      else
        match s.nodes[cIdx]? with
        | some (.node c) => getpChild c hash k
        | _ => none

/-- `SubNodes::put_mut`, with `putChild` the `put_mut` of the nodes one level down and
`split` the node one level down that takes an entry and the entry of `k` when they share a
slot. Returns whether an entry was added. -/
def putMut (putChild : C → Hash → K → V → C × Bool) (split : Entry K V → Hash → K → V → C)
    (depth : Nat) (s : SubNodes K V C) (hash : Hash) (k : K) (v : V) : SubNodes K V C × Bool :=
  let idx := mask hash depth
  match s.compressedIdx idx with
  | none =>
      -- a free slot takes the entry
      let s := { s with dataMap := s.dataMap.set idx }
      let cIdx := (s.compressedIdx idx).getD 0
      ({ s with nodes := s.nodes.insertIdx cIdx (.entry ⟨k, v⟩) }, true)
  | some cIdx =>
      if s.nodeMap.check idx then
        match s.nodes[cIdx]? with
        | some (.node sn) =>
            let r := putChild sn hash k v
            ({ s with nodes := s.nodes.set cIdx (.node r.1) }, r.2)
        | _ => (s, false)
      else
        match s.nodes[cIdx]? with
        | some (.entry entry0) =>
            if k = entry0.key then
              ({ s with nodes := s.nodes.set cIdx (.entry ⟨k, v⟩) }, false)
            else
              -- the slot's entry and the new one move one level down
              let subNode := split entry0 hash k v
              let s := { s with
                nodes := s.nodes.eraseIdx cIdx
                dataMap := s.dataMap.clear idx
                nodeMap := s.nodeMap.set idx }
              let cIdx := (s.compressedIdx idx).getD 0
              ({ s with nodes := s.nodes.insertIdx cIdx (.node subNode) }, true)
        | _ => (s, false)

/-- `SubNodes::foreach`, with `foreachChild` the `foreach` of the nodes one level down: the
entries first, then the nodes. -/
def foreach {m : Type → Type} [Monad m] (foreachChild : C → m Bool) (s : SubNodes K V C)
    (f : K → V → m Bool) : m Bool := do
  let entries := s.dataMap.pop
  let ok ← (s.nodes.take entries).allM fun
    | .entry e => f e.key e.value
    | .node _ => pure true
  if !ok then return false
  (s.nodes.drop entries).allM fun
    | .node c => foreachChild c
    | .entry _ => pure true

-- Made here once: the equation lemmas that the proofs below unfold.
section
attribute [local simp] new compressedIdx getp putMut foreach
end

end SubNodes

/-- The nodes at height `n`, at depth `collision_depth - n`. -/
def Trie (K V : Type) : Nat → Type
  | 0 => Collisions K V
  | n + 1 => SubNodes K V (Trie K V n)

namespace Trie

/-- `getp` of a node at height `n`. -/
def getp : (n : Nat) → Trie K V n → Hash → K → Option V
  | 0 => Collisions.getp
  | n + 1 => SubNodes.getp (getp n) (collisionDepth - (n + 1))

/-- The node at height `n` that `put_mut` makes of `entry0` and the entry of `k` when they
share a slot one level up: a collision node at height 0, and otherwise a sub-node holding
`entry0`, into which the entry of `k` is put with `put`. -/
def split (H : K → Hash) : (n : Nat) → (Trie K V n → Hash → K → V → Trie K V n × Bool) →
    Entry K V → Hash → K → V → Trie K V n
  | 0, _, entry0, hash, k, v => Collisions.pair H entry0 hash k v
  | n + 1, put, entry0, hash, k, v =>
      let idx0 := mask (H entry0.key) (collisionDepth - (n + 1))
      (put ⟨[.entry entry0], ⟨0⟩, (⟨0⟩ : Bitmap).set idx0⟩ hash k v).1

/-- `put_mut` of a node at height `n`. -/
def putMut (H : K → Hash) : (n : Nat) → Trie K V n → Hash → K → V → Trie K V n × Bool
  | 0 => Collisions.putMut
  | n + 1 => SubNodes.putMut (putMut H n) (split H n (putMut H n)) (collisionDepth - (n + 1))

/-- `foreach` of a node at height `n`. -/
def foreach {m : Type → Type} [Monad m] : (n : Nat) → Trie K V n → (K → V → m Bool) → m Bool
  | 0, c, f => Collisions.foreach c f
  | n + 1, s, f => SubNodes.foreach (fun c => foreach n c f) s f

-- Made here once: the equation lemmas that the proofs below unfold.
section
attribute [local simp] getp putMut foreach
end

end Trie

/-- `champ::Map`: the root, a sub-node at depth 0, and the number of entries. -/
structure Map (K V : Type) where
  root : Trie K V collisionDepth
  size : Nat

namespace Map

/-- `Map()`. -/
def new : Map K V := ⟨(SubNodes.new : SubNodes K V _), 0⟩

/-- `empty()`. -/
def empty (m : Map K V) : Bool := m.size == 0

/-- `get(key)`, and `getp(key)`, which returns the same value by pointer. -/
def get (H : K → Hash) (m : Map K V) (key : K) : Option V :=
  Trie.getp collisionDepth m.root (H key) key

/-- `put(key, value)`: the map with `key` bound to `value`; the size grows when the key
was not there. -/
def put (H : K → Hash) (m : Map K V) (key : K) (value : V) : Map K V :=
  let r := Trie.putMut H collisionDepth m.root (H key) key value
  ⟨r.1, if r.2 then m.size + 1 else m.size⟩

/-- `foreach(f)`. -/
def foreach {m : Type → Type} [Monad m] (mp : Map K V) (f : K → V → m Bool) : m Bool :=
  Trie.foreach collisionDepth mp.root f

-- Made here once: the equation lemmas that the proofs below unfold.
section
attribute [local simp] new get put foreach
end

end Map

end Ccf.Champ
