import Ccf.Ds.RBMap
import Ccf.Lib.SortedMap
import Ccf.Ds.Proof.Champ

/-!
# `RBMap` stays a red-black search tree

Two invariants carry the proofs, one for the keys and one for the colours.

The keys: a map is a search tree (`BST`) exactly when its bindings read in order (`toList`,
what `foreach` visits) are sorted, and then `insert` puts its binding into that list in its
place (`toList_insert`) and `getp` finds what a lookup in the list finds (`getp_eq_lookup`).
`balance` moves nodes but keeps the order of the bindings (`toList_balance`).

The colours: `Valid t c n` says that `t` has root colour `c`, no red node with a red child,
and `n` black nodes on every path down; it gives the properties one by one (`Valid.noRedRed`,
`Valid.blackCounts`). Below a parent, `insert` may leave a red node with a red child at the
top of what it returns, and nowhere else (`Infrared`); `balance`, below a black node, repairs
that (`Infrared.balance_left`, `Infrared.balance_right`), and `put` paints the root black.
-/

namespace Ccf

namespace RBMap

open SortedMap

variable {K V : Type}

/-! ## What a map holds -/

/-- The bindings, in order. -/
def toList : RBMap K V → List (K × V)
  | empty => []
  | node _ l k v r => l.toList ++ (k, v) :: r.toList

/-- The colour of the root; the empty map is black. -/
def color : RBMap K V → Color
  | empty => .B
  | node c .. => c

/-- No red node has a red child. -/
def NoRedRed : RBMap K V → Prop
  | empty => True
  | node c l _ _ r => l.NoRedRed ∧ r.NoRedRed ∧ (c = .R → l.color = .B ∧ r.color = .B)

/-- The number of black nodes on each path from the root down to an empty map. -/
def blackCounts : RBMap K V → List ℕ
  | empty => [0]
  | node c l _ _ r => (l.blackCounts ++ r.blackCounts).map (· + if c = .B then 1 else 0)

-- Made here once: the equation lemmas that the proofs below unfold.
section
attribute [local simp] blackCounts
end

/-- A red-black tree with root colour `c` and `n` black nodes on every path down. -/
inductive Valid : RBMap K V → Color → ℕ → Prop
  | empty : Valid empty .B 0
  | red {l r : RBMap K V} {k : K} {v : V} {n : ℕ} :
      Valid l .B n → Valid r .B n → Valid (node .R l k v r) .R n
  | black {l r : RBMap K V} {k : K} {v : V} {cl cr : Color} {n : ℕ} :
      Valid l cl n → Valid r cr n → Valid (node .B l k v r) .B (n + 1)

/-- What `insert` gives back below a node: a valid tree, or, where `p` holds, a red node over
two valid trees of either colour. -/
inductive Infrared (p : Prop) : RBMap K V → ℕ → Prop
  | valid {t : RBMap K V} {c : Color} {n : ℕ} : Valid t c n → Infrared p t n
  | redRed {l r : RBMap K V} {k : K} {v : V} {cl cr : Color} {n : ℕ} :
      p → Valid l cl n → Valid r cr n → Infrared p (node .R l k v r) n

section Order

variable [LinearOrder K]

/-- A search tree: at every node, the keys on the left are below the node's key and the keys
on the right above it. -/
def BST : RBMap K V → Prop
  | empty => True
  | node _ l k _ r =>
      l.BST ∧ r.BST ∧ (∀ k' ∈ keys l.toList, k' < k) ∧ ∀ k' ∈ keys r.toList, k < k'

-- Made here once: the equation lemmas that the proofs below unfold.
section
attribute [local simp] BST
end

end Order

/-! ## The bindings in order -/

@[simp] theorem toList_empty : (empty : RBMap K V).toList = [] := rfl

@[simp] theorem toList_node (c : Color) (l : RBMap K V) (k : K) (v : V) (r : RBMap K V) :
    (node c l k v r).toList = l.toList ++ (k, v) :: r.toList := rfl

theorem toList_paint (t : RBMap K V) (c : Color) : (t.paint c).toList = t.toList := by
  cases t <;> rfl

/-- The rotations keep the bindings in order. -/
theorem toList_balance (l : RBMap K V) (k : K) (v : V) (r : RBMap K V) :
    (balance l k v r).toList = l.toList ++ (k, v) :: r.toList := by
  unfold balance
  split <;> simp [paint]

/-- `foreach` visits the bindings in order. -/
theorem foreach_eq_forM {M : Type → Type} [Monad M] [LawfulMonad M] (f : K → V → M Unit)
    (t : RBMap K V) : t.foreach f = t.toList.forM fun p => f p.1 p.2 := by
  induction t with
  | empty => rfl
  | node c l k v r ihl ihr => simp [foreach, ihl, ihr, List.forM_append]

/-! ## The colours -/

section Colours

variable {l r t : RBMap K V} {k : K} {v : V} {c : Color} {n : ℕ}

theorem Valid.color_eq (h : Valid t c n) : t.color = c := by
  cases h <;> rfl

theorem Valid.noRedRed (h : Valid t c n) : t.NoRedRed := by
  induction h with
  | empty => trivial
  | red hl hr ihl ihr => exact ⟨ihl, ihr, fun _ => ⟨hl.color_eq, hr.color_eq⟩⟩
  | black _ _ ihl ihr => exact ⟨ihl, ihr, fun hc => absurd hc (by decide)⟩

/-- Every path down has the same number of black nodes. -/
theorem Valid.blackCounts_eq (h : Valid t c n) : ∀ m ∈ t.blackCounts, m = n := by
  induction h with
  | empty => simp [blackCounts]
  | red _ _ ihl ihr | black _ _ ihl ihr =>
    -- a path goes down one side, and counts the node if it is black
    intro m hm
    obtain ⟨m', hm', rfl⟩ := List.mem_map.mp hm
    rcases List.mem_append.mp hm' with h' | h'
    · simp [ihl m' h']
    · simp [ihr m' h']

/-- Both children of a valid red node are black. -/
theorem Valid.red_inv (h : Valid (node .R l k v r) c n) : Valid l .B n ∧ Valid r .B n := by
  cases h with
  | red hl hr => exact ⟨hl, hr⟩

theorem Valid.not_red_black : ¬Valid (node .R l k v r) .B n := nofun

/-- A valid tree that is not a red node is black. -/
theorem Valid.black_of_not_red (h : Valid t c n)
    (hne : ∀ l k v r, t = node .R l k v r → False) : Valid t .B n := by
  cases h with
  | empty => exact .empty
  | red => exact (hne _ _ _ _ rfl).elim
  | black hl hr => exact .black hl hr

theorem Infrared.of_false {p : Prop} (hp : ¬p) (h : Infrared p t n) : ∃ c, Valid t c n := by
  cases h with
  | valid h => exact ⟨_, h⟩
  | redRed h => exact absurd h hp

/-- `balance` below a black node repairs a red-red pair at the top of its left side. -/
theorem Infrared.balance_left {p : Prop} (hl : Infrared p l n) (hr : Valid r c n) :
    ∃ c', Valid (balance l k v r) c' (n + 1) := by
  unfold balance
  split
  · -- `lft.doubledLeft()`
    rcases hl with ⟨hl⟩ | ⟨-, hll, hlr⟩
    · exact absurd hl.red_inv.1 Valid.not_red_black
    · obtain ⟨ha, hb⟩ := hll.red_inv
      exact ⟨_, .red (.black ha hb) (.black hlr hr)⟩
  · -- `lft.doubledRight()`
    rcases hl with ⟨hl⟩ | ⟨-, hll, hlr⟩
    · exact absurd hl.red_inv.2 Valid.not_red_black
    · obtain ⟨hb, hc⟩ := hlr.red_inv
      exact ⟨_, .red (.black hll hb) (.black hc hr)⟩
  · -- `rgt.doubledLeft()`: not in a valid right side
    exact absurd hr.red_inv.1 Valid.not_red_black
  · -- `rgt.doubledRight()`: not in a valid right side
    exact absurd hr.red_inv.2 Valid.not_red_black
  · next _ _ _ _ hLL hLR _ _ =>
    rcases hl with ⟨hl⟩ | ⟨-, hll, hlr⟩
    · exact ⟨_, .black hl hr⟩
    · -- a red left side whose children are not red, as the first two tests found
      have ha := hll.black_of_not_red fun _ _ _ _ he => hLL _ _ _ _ _ _ _ (congrArg (node .R · _ _ _) he)
      have hb := hlr.black_of_not_red fun _ _ _ _ he => hLR _ _ _ _ _ _ _ (congrArg (node .R _ _ _ ·) he)
      exact ⟨_, .black (.red ha hb) hr⟩

/-- `balance` below a black node repairs a red-red pair at the top of its right side. -/
theorem Infrared.balance_right {p : Prop} (hl : Valid l c n) (hr : Infrared p r n) :
    ∃ c', Valid (balance l k v r) c' (n + 1) := by
  unfold balance
  split
  · -- `lft.doubledLeft()`: not in a valid left side
    exact absurd hl.red_inv.1 Valid.not_red_black
  · -- `lft.doubledRight()`: not in a valid left side
    exact absurd hl.red_inv.2 Valid.not_red_black
  · -- `rgt.doubledLeft()`
    rcases hr with ⟨hr⟩ | ⟨-, hrl, hrr⟩
    · exact absurd hr.red_inv.1 Valid.not_red_black
    · obtain ⟨hb, hc⟩ := hrl.red_inv
      exact ⟨_, .red (.black hl hb) (.black hc hrr)⟩
  · -- `rgt.doubledRight()`
    rcases hr with ⟨hr⟩ | ⟨-, hrl, hrr⟩
    · exact absurd hr.red_inv.2 Valid.not_red_black
    · obtain ⟨hc, hd⟩ := hrr.red_inv
      exact ⟨_, .red (.black hl hrl) (.black hc hd)⟩
  · next _ _ _ _ _ _ hRL hRR =>
    rcases hr with ⟨hr⟩ | ⟨-, hrl, hrr⟩
    · exact ⟨_, .black hl hr⟩
    · have hb := hrl.black_of_not_red fun _ _ _ _ he => hRL _ _ _ _ _ _ _ (congrArg (node .R · _ _ _) he)
      have hc := hrr.black_of_not_red fun _ _ _ _ he => hRR _ _ _ _ _ _ _ (congrArg (node .R _ _ _ ·) he)
      exact ⟨_, .black hl (.red hb hc)⟩

/-- Painted black, what `insert` gives back is valid. -/
theorem Infrared.paint_black {p : Prop} (h : Infrared p t n) : ∃ m, Valid (t.paint .B) .B m := by
  rcases h with ⟨h⟩ | ⟨-, hl, hr⟩
  · cases h with
    | empty => exact ⟨0, .empty⟩
    | red hl hr => exact ⟨_, .black hl hr⟩
    | black hl hr => exact ⟨_, .black hl hr⟩
  · exact ⟨_, .black hl hr⟩

section Insert

variable [LT K] [DecidableLT K]

theorem put_eq_paint (t : RBMap K V) (x : K) (v : V) : t.put x v = (t.insert x v).paint .B := by
  rw [put]
  cases t.insert x v <;> rfl

/-- `insert` keeps the black height, and below a black node gives back a valid tree; below a
red one its result may be a red node with a red child. -/
theorem Valid.insert (h : Valid t c n) (x : K) (v : V) : Infrared (c = .R) (t.insert x v) n := by
  induction h with
  | empty => exact .valid (.red .empty .empty)
  | @red l r y yv n hl hr ihl ihr =>
    rw [RBMap.insert, if_neg (by decide)]
    split_ifs
    · -- the left child was black, so it comes back valid, and may be red
      obtain ⟨c', h'⟩ := ihl.of_false (by decide)
      cases c' with
      | R => exact .redRed rfl h' hr
      | B => exact .valid (.red h' hr)
    · obtain ⟨c', h'⟩ := ihr.of_false (by decide)
      cases c' with
      | R => exact .redRed rfl hl h'
      | B => exact .valid (.red hl h')
    · exact .valid (.red hl hr)
  | @black l r y yv cl cr n hl hr ihl ihr =>
    rw [RBMap.insert, if_pos rfl]
    split_ifs
    · obtain ⟨c', h'⟩ := ihl.balance_left hr
      exact .valid h'
    · obtain ⟨c', h'⟩ := ihr.balance_right hl
      exact .valid h'
    · exact .valid (.black hl hr)

/-- `put` gives back a valid tree with a black root. -/
theorem Valid.put (h : Valid t c n) (x : K) (v : V) : ∃ m, Valid (t.put x v) .B m := by
  rw [put_eq_paint]
  exact (h.insert x v).paint_black

end Insert

end Colours

section Order

variable [LinearOrder K]

/-- A search tree is a map whose bindings are sorted. -/
theorem bst_iff_sorted (t : RBMap K V) : t.BST ↔ Sorted t.toList := by
  induction t with
  | empty => simp [BST, Sorted]
  | node c l k v r ihl ihr => rw [BST, ihl, ihr, toList_node, sorted_append_cons]

/-- `insert` at a node, seen in order: the binding goes into the subtree on its side, or over
the node's own value. The colour of the node does not matter. -/
theorem toList_insert_node (c : Color) (l : RBMap K V) (y : K) (yv : V) (r : RBMap K V)
    (x : K) (v : V) :
    ((node c l y yv r).insert x v).toList =
      if x < y then (l.insert x v).toList ++ (y, yv) :: r.toList
      else if y < x then l.toList ++ (y, yv) :: (r.insert x v).toList
      else l.toList ++ (y, v) :: r.toList := by
  rw [insert]
  split_ifs <;> simp [toList_balance]

theorem toList_insert {t : RBMap K V} (h : t.BST) (x : K) (v : V) :
    (t.insert x v).toList = upsert x v t.toList := by
  induction t with
  | empty => rfl
  | node c l y yv r ihl ihr =>
    obtain ⟨hl, hr, hlt, hgt⟩ := h
    rw [toList_insert_node, toList_node]
    by_cases hxy : x < y
    · -- on the left: everything from `y` on is above `x`
      have habove : ∀ k' ∈ keys ((y, yv) :: r.toList), x < k' := by
        intro k' hk'
        rcases List.mem_cons.mp hk' with rfl | hk'
        · exact hxy
        · exact lt_trans hxy (hgt k' hk')
      rw [if_pos hxy, ihl hl, upsert_append_of_lt _ habove]
    · have hbelow : ∀ k' ∈ keys l.toList, k' < x := fun k' hk' =>
        lt_of_lt_of_le (hlt k' hk') (not_lt.mp hxy)
      rw [if_neg hxy, upsert_append_of_gt _ hbelow, upsert]
      by_cases hyx : y < x
      · rw [if_pos hyx, if_neg hxy, if_pos hyx, ihr hr]
      · rw [if_neg hyx, if_neg hxy, if_neg hyx]

/-- `getp` finds what a lookup in the bindings finds. -/
theorem getp_eq_lookup {t : RBMap K V} (h : t.BST) (key : K) :
    t.getp key = t.toList.lookup key := by
  induction t with
  | empty => rfl
  | node c l y yv r ihl ihr =>
    obtain ⟨hl, hr, hlt, hgt⟩ := h
    rw [getp, toList_node, List.lookup_append, lookup_cons_eq]
    by_cases hky : key < y
    · -- neither `y` nor the right side holds `key`
      have hr' : key ∉ keys r.toList := fun hm => lt_asymm hky (hgt key hm)
      rw [if_pos hky, ihl hl, if_neg (ne_of_lt hky), lookup_eq_none_of_not_mem hr',
        Option.or_none]
    by_cases hyk : y < key
    · -- neither the left side nor `y` holds `key`
      have hl' : key ∉ keys l.toList := fun hm => lt_asymm hyk (hlt key hm)
      rw [if_neg hky, if_pos hyk, ihr hr, if_neg (ne_of_gt hyk), lookup_eq_none_of_not_mem hl',
        Option.none_or]
    · have hk : key = y := le_antisymm (not_lt.mp hyk) (not_lt.mp hky)
      subst hk
      have hl' : key ∉ keys l.toList := fun hm => lt_irrefl key (hlt key hm)
      rw [if_neg hky, if_neg hyk, if_pos rfl, lookup_eq_none_of_not_mem hl', Option.none_or]

end Order

/-! ## Runs of `put` -/

section Order

variable [LinearOrder K]

theorem toList_put {t : RBMap K V} (h : t.BST) (x : K) (v : V) :
    (t.put x v).toList = upsert x v t.toList := by
  rw [put_eq_paint, toList_paint, toList_insert h]

theorem get_eq_getp (t : RBMap K V) (key : K) : t.get key = t.getp key := by
  rw [get]
  cases t.getp key <;> rfl

/-- What a map built by `put` keeps: a search tree, valid with a black root, whose bindings
are the last put of each key. -/
structure Inv (ops : List (K × V)) (t : RBMap K V) : Prop where
  bst : t.BST
  valid : ∃ n, Valid t .B n
  lookup : ∀ k, t.toList.lookup k = Champ.Map.lastPut ops k

theorem Inv.empty : Inv [] (empty : RBMap K V) := ⟨trivial, ⟨0, .empty⟩, fun _ => rfl⟩

/-- One put keeps the invariant, with the put appended to `ops`. -/
theorem Inv.put {ops : List (K × V)} {t : RBMap K V} (h : Inv ops t) (k : K) (v : V) :
    Inv (ops ++ [(k, v)]) (t.put k v) := by
  have hlist := toList_put h.bst k v
  obtain ⟨n, hn⟩ := h.valid
  refine ⟨?_, hn.put k v, fun k' => ?_⟩
  · rw [bst_iff_sorted, hlist]
    exact ((bst_iff_sorted t).mp h.bst).upsert k v
  · rw [hlist, lookup_upsert, Champ.Map.lastPut_append, h.lookup]

/-- Every run of puts keeps the invariant. -/
theorem Inv.foldl (ops : List (K × V)) {pre : List (K × V)} {t : RBMap K V} (h : Inv pre t) :
    Inv (pre ++ ops) (ops.foldl (fun t p => t.put p.1 p.2) t) := by
  induction ops generalizing pre t with
  | nil =>
    rw [List.append_nil]
    exact h
  | cons p ops ih =>
    rw [List.foldl_cons, ← List.singleton_append, ← List.append_assoc]
    exact ih (h.put p.1 p.2)

/-- Three keys put in increasing order: the third put rotates the tree at its root. -/
example : ([1, 2, 3].foldl (fun t k => t.put k k) (empty : RBMap ℕ ℕ)) =
    node .B (node .B empty 1 1 empty) 2 2 (node .B empty 3 3 empty) := by
  decide

end Order

end RBMap

end Ccf
