import Mathlib.Order.Defs.LinearOrder

/-!
# The red-black map (`ds/rbmap.h`)

`RBMap<K, V>` is a persistent red-black tree after Okasaki. A map is a shared pointer to a
`const` node, null for the empty map; a node holds a colour, its left subtree, a key, a value
and its right subtree. `insert` goes down by the keys and adds a red node at the bottom; on the
way back up, below every black node, `balance` turns a red node with a red child into a red node
with two black children. `put` paints the root black.

Nodes are never changed once built, so a subtree is a value here and sharing is not seen.
`rootKey()`, `left()` and the other accessors are read by pattern matching: the source reads them
only from maps it has tested not to be empty, except in `paint` and `put`, which it never calls
on the empty map and which give the empty map back here. The keys need only `<`, as in the
source. `foreach` runs its callback in any monad, which stands for the callback's side effects.
-/

namespace Ccf

namespace RBMap

/-- `RBMap::Color`. -/
inductive Color
  | R
  | B
  deriving DecidableEq, Repr

end RBMap

open RBMap in
/-- `RBMap<K, V>`: a null root, or a node. -/
inductive RBMap (K V : Type)
  | empty
  /-- `Node(c, lft, key, val, rgt)`. -/
  | node (c : Color) (lft : RBMap K V) (key : K) (val : V) (rgt : RBMap K V)
  deriving DecidableEq, Repr

namespace RBMap

variable {K V : Type}

/-- `paint(c)`: the root node in colour `c`. -/
def paint : RBMap K V → Color → RBMap K V
  | empty, _ => empty
  | node _ l k v r, c => node c l k v r

/-- `balance(lft, x, v, rgt)`, called when the parent is black: the four shapes of a red node
with a red child, tested in the source's order, become a red node over two black ones. -/
def balance : RBMap K V → K → V → RBMap K V → RBMap K V
  -- `lft.doubledLeft()`
  | node .R ll@(node .R ..) lk lv lr, x, v, rgt =>
      node .R (ll.paint .B) lk lv (node .B lr x v rgt)
  -- `lft.doubledRight()`
  | node .R ll lk lv (node .R lrl lrk lrv lrr), x, v, rgt =>
      node .R (node .B ll lk lv lrl) lrk lrv (node .B lrr x v rgt)
  -- `rgt.doubledLeft()`
  | lft, x, v, node .R (node .R rll rlk rlv rlr) rk rv rr =>
      node .R (node .B lft x v rll) rlk rlv (node .B rlr rk rv rr)
  -- `rgt.doubledRight()`
  | lft, x, v, node .R rl rk rv rr@(node .R ..) =>
      node .R (node .B lft x v rl) rk rv (rr.paint .B)
  | lft, x, v, rgt => node .B lft x v rgt

-- Made here once: the equation lemmas that the proofs below unfold.
section
attribute [local simp] paint balance
end

variable [LT K] [DecidableLT K]

/-- `insert(x, v)`: a red node at the bottom, rebalanced below every black node on the way
up; a key that is there keeps its node and gets the new value. -/
def insert : RBMap K V → K → V → RBMap K V
  | empty, x, v => node .R empty x v empty
  | node c l y yv r, x, v =>
      if c = .B then
        if x < y then balance (l.insert x v) y yv r
        else if y < x then balance l y yv (r.insert x v)
        else node c l y v r
      else
        if x < y then node c (l.insert x v) y yv r
        else if y < x then node c l y yv (r.insert x v)
        else node c l y v r

/-- `put(key, value)`: the insert, with its root black. -/
def put (t : RBMap K V) (key : K) (value : V) : RBMap K V :=
  match t.insert key value with
  | empty => empty
  | node _ l k v r => node .B l k v r

/-- `getp(key)`: the value of `key`, found by going down by the keys. -/
def getp : RBMap K V → K → Option V
  | empty, _ => none
  | node _ l y yv r, key =>
      if key < y then l.getp key
      else if y < key then r.getp key
      else some yv

/-- `get(key)`: a copy of what `getp` points to. -/
def get (t : RBMap K V) (key : K) : Option V :=
  match t.getp key with
  | some v => some v
  | none => none

/-- `foreach(f)`: `f` on every binding, the left subtree first. -/
def foreach {M : Type → Type} [Monad M] (f : K → V → M Unit) : RBMap K V → M Unit
  | empty => pure ()
  | node _ l k v r => do
      l.foreach f
      f k v
      r.foreach f

-- Made here once: the equation lemmas that the proofs below unfold.
section
attribute [local simp] insert put getp get foreach
end

end RBMap

end Ccf
