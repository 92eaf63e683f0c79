import Ccf.Ds.Champ
import Ccf.Lib.Packed
import Ccf.Lib.Exec

/-!
# A sub-node is an array of 32 slots

What a `SubNodes` stores is packed: the entries, then the nodes, each in slot order, with
the two bitmaps saying which slots hold what. This module reads a sub-node as the list of
its 32 slots: `Packs s slots` says that `s` is `slots` packed. Then `compressed_idx` is
where a slot's content sits (`Marks.compressedIdx`: the population counts of the bitmaps
are ranks in the sense of `Packed.rank`), `getp` reads the slot of the hash
(`Packs.getp`), and each of the four paths of `put_mut` (a free slot, a node, the same key,
an entry moved one level down) writes that one slot and keeps the packing
(`Packs.putMut`). `foreach` visits the entries and then the nodes: the slots' entries in
another order (`entries_perm_slots`).

A collision node is read the same way, as `collision_bins` bins routed by the last bits of
the hash (`Collisions.Ok`): its `getp` is a lookup and its `put_mut` a binding.
-/

namespace Ccf.Champ

namespace Bitmap

/-- Bit `i` of the word. -/
def bit (b : Bitmap) (i : Nat) : Bool := b.bits.toBitVec.getLsbD i

-- Made here once: the equation lemmas that the proofs below unfold.
section
attribute [local simp] bit
end

variable {b : Bitmap} {i j : Nat}

theorem one_shiftLeft (hi : i < 32) :
    ((1 : UInt32) <<< i.toUInt32).toBitVec = BitVec.twoPow 32 i := by
  have hi' : i.toUInt32.toNat = i := by simp; omega
  rw [UInt32.toBitVec_shiftLeft]
  ext j hj
  by_cases hji : j < i
  · simp [hi', Nat.mod_eq_of_lt hi, hji]
    omega
  · simp [hi', Nat.mod_eq_of_lt hi, hji]
    omega

theorem check_eq_bit (hi : i < 32) : b.check i = b.bit i := by
  unfold check bit
  have hand : (b.bits &&& 1 <<< i.toUInt32).toBitVec =
      if b.bits.toBitVec.getLsbD i then BitVec.twoPow 32 i else 0#32 := by
    rw [UInt32.toBitVec_and, one_shiftLeft hi, BitVec.and_twoPow]
  cases hb : b.bits.toBitVec.getLsbD i
  · have h0 : b.bits &&& 1 <<< i.toUInt32 = 0 := by
      apply UInt32.toBitVec_inj.mp
      rw [hand, hb]
      rfl
    simp [h0]
  · have h0 : b.bits &&& 1 <<< i.toUInt32 ≠ 0 := by
      intro h
      have := congrArg (fun x : UInt32 => x.toBitVec.getLsbD i) h
      simp [hand, hb, hi] at this
    simpa using h0

@[simp] theorem bit_set (hi : i < 32) (j : Nat) : (b.set i).bit j = (b.bit j || decide (j = i)) := by
  simp [set, bit, one_shiftLeft hi, hi, eq_comm]

@[simp] theorem bit_clear (hi : i < 32) (j : Nat) :
    (b.clear i).bit j = (b.bit j && !decide (j = i)) := by
  simp only [clear, bit, UInt32.toBitVec_and, UInt32.toBitVec_not, one_shiftLeft hi,
    BitVec.getLsbD_and, BitVec.getLsbD_not, BitVec.getLsbD_twoPow, hi, decide_true,
    Bool.true_and]
  by_cases hj : j < 32
  · simp [hj, eq_comm]
  · simp [BitVec.getLsbD_of_ge _ _ (Nat.le_of_not_lt hj)]

@[simp] theorem bit_and (a b : Bitmap) (j : Nat) : (a.and b).bit j = (a.bit j && b.bit j) := by
  simp [and, bit]

theorem bit_below (hi : i < 32) (hj : j < 32) :
    (⟨~~~((-1 : UInt32) <<< i.toUInt32)⟩ : Bitmap).bit j = decide (j < i) := by
  have hi' : i.toUInt32.toNat = i := by simp; omega
  simp [bit, hi', Nat.mod_eq_of_lt hi, hj]
  intro h
  by_contra hji
  rw [show (4294967295#32) = BitVec.allOnes 32 from rfl, BitVec.getElem_allOnes] at h
  exact absurd h (by simp)

theorem cpopNatRec_eq_countP (x : BitVec 32) (n : Nat) :
    x.cpopNatRec n 0 = (List.range n).countP x.getLsbD := by
  induction n with
  | zero => rfl
  | succ n ih =>
      rw [BitVec.cpopNatRec_succ, Nat.zero_add, BitVec.cpopNatRec_eq, ih, List.range_succ,
        List.countP_append]
      cases h : x.getLsbD n <;> simp [h]

theorem pop_eq_countP (b : Bitmap) : b.pop = (List.range 32).countP b.bit := by
  rw [pop, BitVec.toNat_cpop, cpopNatRec_eq_countP]
  rfl

theorem bit_set_of_lt (hi : i < 32) (j : Nat) :
    (b.set i).bit j = if j = i then true else b.bit j := by
  by_cases hj : j = i <;> simp [Bitmap.bit_set hi, hj]

theorem bit_clear_of_lt (hi : i < 32) (j : Nat) :
    (b.clear i).bit j = if j = i then false else b.bit j := by
  by_cases hj : j = i <;> simp [Bitmap.bit_clear hi, hj]

/-- The population count of `b` below `i`, when the bits of `b` are those of `p`. -/
theorem pop_and_below {p : Nat → Bool} (hb : ∀ j < 32, b.bit j = p j) (hi : i < 32) :
    (b.and ⟨~~~((-1 : UInt32) <<< i.toUInt32)⟩).pop = (List.range i).countP p := by
  have hsplit : List.range 32 = List.range i ++ (List.range (32 - i)).map (i + ·) := by
    rw [← List.range_add, Nat.add_sub_cancel' hi.le]
  rw [pop_eq_countP, hsplit, List.countP_append]
  -- below `i` the bits are those of `p`; from `i` on the mask clears them
  have hlow : (List.range i).countP (b.and ⟨~~~((-1 : UInt32) <<< i.toUInt32)⟩).bit =
      (List.range i).countP p := by
    refine List.countP_congr fun j hj => ?_
    have hj' : j < i := List.mem_range.mp hj
    simp [bit_below hi (by omega : j < 32), hj', hb j (by omega)]
  have hhigh : ((List.range (32 - i)).map (i + ·)).countP
      (b.and ⟨~~~((-1 : UInt32) <<< i.toUInt32)⟩).bit = 0 := by
    refine List.countP_eq_zero.mpr fun j hj => ?_
    obtain ⟨t, ht, rfl⟩ := List.mem_map.mp hj
    have ht' : t < 32 - i := List.mem_range.mp ht
    simp [bit_below hi (by omega : i + t < 32)]
  rw [hlow, hhigh, Nat.add_zero]

theorem pop_eq_countP_of {p : Nat → Bool} (hb : ∀ j < 32, b.bit j = p j) :
    b.pop = (List.range 32).countP p := by
  rw [pop_eq_countP]
  exact List.countP_congr fun j hj => by simp [hb j (List.mem_range.mp hj)]

end Bitmap

theorem mask_lt (hash : Hash) (depth : Nat) : mask hash depth < 32 := by
  have h31 : indexMask.toNat = 31 := by decide
  unfold mask
  rw [UInt32.toNat_and, h31]
  exact Nat.lt_of_le_of_lt Nat.and_le_right (by omega)

theorem mask_collisionDepth_lt (hash : Hash) : mask hash collisionDepth < collisionBins := by
  have hshift : (collisionDepth * indexMaskBits).toUInt32.toNat = 30 := by decide
  have hbins : collisionBins = 4 := by decide
  have hlt : hash.toNat < 4294967296 := hash.toNat_lt
  unfold mask
  rw [UInt32.toNat_and, UInt32.toNat_shiftRight, hshift, hbins, Nat.shiftRight_eq_div_pow]
  have hpow : (2 : Nat) ^ (30 % 32) = 1073741824 := rfl
  refine Nat.lt_of_le_of_lt Nat.and_le_left ?_
  rw [hpow]
  omega

variable {K V C : Type}

/-- What one of the 32 slots of a sub-node holds. -/
inductive Slot (K V C : Type) where
  | empty
  | entry (e : Entry K V)
  | node (c : C)

namespace Slot

/-- The child a slot holding an entry puts among the entries. -/
def dataChild? : Slot K V C → Option (Child K V C)
  | entry e => some (.entry e)
  | _ => none

/-- The child a slot holding a node puts among the nodes. -/
def nodeChild? : Slot K V C → Option (Child K V C)
  | node c => some (.node c)
  | _ => none

end Slot

open Packed (rank)

/-- The bitmaps of `s` mark the slots of `slots` that hold an entry and those that hold a
node. -/
structure Marks (s : SubNodes K V C) (slots : List (Slot K V C)) : Prop where
  length : slots.length = 32
  data : ∀ i < 32, s.dataMap.bit i = (slots.getD i .empty).dataChild?.isSome
  node : ∀ i < 32, s.nodeMap.bit i = (slots.getD i .empty).nodeChild?.isSome

/-- `s` packs `slots`: its bitmaps mark them, and `nodes` has the entries, then the nodes,
each in slot order. -/
structure Packs (s : SubNodes K V C) (slots : List (Slot K V C)) : Prop extends Marks s slots where
  nodes : s.nodes = slots.filterMap Slot.dataChild? ++ slots.filterMap Slot.nodeChild?

namespace Marks

variable {s s' : SubNodes K V C} {slots : List (Slot K V C)} {i : Nat}

theorem getElem?_eq (h : Marks s slots) (hi : i < 32) : slots[i]? = some (slots.getD i .empty) := by
  rw [List.getD_eq_getElem?_getD, List.getElem?_eq_getElem (by rw [h.length]; exact hi)]
  rfl

theorem getD_set (h : Marks s slots) (hi : i < 32) (x : Slot K V C) (j : Nat) :
    (slots.set i x).getD j .empty = if j = i then x else slots.getD j .empty := by
  simp only [List.getD_eq_getElem?_getD, List.getElem?_set]
  by_cases hj : j = i
  · subst hj
    simp [h.length, hi]
  · simp [Ne.symm hj, hj]

/-- The entries come first in `nodes`: `data_map` counts them. -/
theorem pop_data (h : Marks s slots) : s.dataMap.pop = (slots.filterMap Slot.dataChild?).length := by
  rw [Bitmap.pop_eq_countP_of h.data, ← Packed.rank_eq_countP_range Slot.empty h.length.ge,
    Packed.rank, ← h.length, List.take_length]

/-- **`compressed_idx` reads only the bitmaps**: a slot's index is its rank among the
entries, or among the nodes after all the entries. -/
theorem compressedIdx (h : Marks s slots) (hi : i < 32) :
    s.compressedIdx i = match slots.getD i .empty with
      | .empty => none
      | .entry _ => some (rank Slot.dataChild? slots i)
      | .node _ => some ((slots.filterMap Slot.dataChild?).length + rank Slot.nodeChild? slots i) := by
  have hrank : ∀ g : Slot K V C → Option (Child K V C), rank g slots i =
      (List.range i).countP fun j => (g (slots.getD j .empty)).isSome :=
    fun g => Packed.rank_eq_countP_range Slot.empty (by rw [h.length]; exact hi.le)
  unfold SubNodes.compressedIdx
  rw [Bitmap.check_eq_bit hi, Bitmap.check_eq_bit hi, h.data i hi, h.node i hi]
  cases hx : slots.getD i .empty with
  | empty => rfl
  | entry e =>
      simp only [Slot.dataChild?, Slot.nodeChild?, Option.isSome_some, Option.isSome_none]
      rw [Bitmap.pop_and_below h.data hi, hrank]
      rfl
  | node c =>
      simp only [Slot.dataChild?, Slot.nodeChild?, Option.isSome_some, Option.isSome_none]
      rw [Bitmap.pop_and_below h.node hi, hrank, h.pop_data]
      rfl

/-- **Marking a slot anew.** Bitmaps that mark slot `i` for `x` and are otherwise those of
`s` mark the slots with `i` set to `x`. -/
theorem set (h : Marks s slots) (hi : i < 32) {x : Slot K V C}
    (hdata : ∀ j < 32, s'.dataMap.bit j = if j = i then x.dataChild?.isSome else s.dataMap.bit j)
    (hnode : ∀ j < 32, s'.nodeMap.bit j = if j = i then x.nodeChild?.isSome else s.nodeMap.bit j) :
    Marks s' (slots.set i x) where
  length := by rw [List.length_set, h.length]
  data j hj := by
    rw [hdata j hj, h.getD_set hi]
    split
    · rfl
    · exact h.data j hj
  node j hj := by
    rw [hnode j hj, h.getD_set hi]
    split
    · rfl
    · exact h.node j hj

end Marks


namespace Packs

variable {s : SubNodes K V C} {slots : List (Slot K V C)} {i : Nat}

theorem filterMap_replicate_empty {g : Slot K V C → Option (Child K V C)} (hg : g .empty = none) :
    (List.replicate 32 (Slot.empty : Slot K V C)).filterMap g = [] := by
  rw [List.filterMap_eq_nil_iff]
  intro a ha
  rw [List.eq_of_mem_replicate ha]
  exact hg

/-- `SubNodes()` packs 32 free slots. -/
theorem new : Packs (SubNodes.new : SubNodes K V C) (List.replicate 32 .empty) := by
  have hfree : ∀ j, (List.replicate 32 (Slot.empty : Slot K V C)).getD j .empty = .empty :=
    fun j => by
      simp only [List.getD_eq_getElem?_getD, List.getElem?_replicate]
      split <;> rfl
  refine ⟨⟨List.length_replicate, fun j _ => ?_, fun j _ => ?_⟩, ?_⟩
  · rw [hfree]
    simp [Bitmap.bit, SubNodes.new, Slot.dataChild?]
  · rw [hfree]
    simp [Bitmap.bit, SubNodes.new, Slot.nodeChild?]
  · rw [filterMap_replicate_empty rfl, filterMap_replicate_empty rfl]
    rfl

/-- The sub-node of one entry, which `put_mut` makes before putting a second one in, packs
the free slots with the entry at `i`. -/
theorem single (hi : i < 32) (e : Entry K V) :
    Packs (⟨[.entry e], ⟨0⟩, (⟨0⟩ : Bitmap).set i⟩ : SubNodes K V C)
      ((List.replicate 32 .empty).set i (.entry e)) := by
  have hx : (List.replicate 32 (Slot.empty : Slot K V C))[i]? = some .empty := by
    rw [List.getElem?_replicate, if_pos hi]
  have hmarks : Marks (⟨[.entry e], ⟨0⟩, (⟨0⟩ : Bitmap).set i⟩ : SubNodes K V C)
      ((List.replicate 32 .empty).set i (.entry e)) :=
    new.set hi (fun j _ => Bitmap.bit_set_of_lt hi j) fun j _ => by
      split
      · simp [Bitmap.bit, Slot.nodeChild?]
      · rfl
  have hrank : rank Slot.dataChild? (List.replicate 32 (Slot.empty : Slot K V C)) i = 0 := by
    have := Packed.rank_le_length (g := Slot.dataChild?) (List.replicate 32 (Slot.empty : Slot K V C)) i
    rw [filterMap_replicate_empty rfl] at this
    exact Nat.le_zero.mp this
  refine ⟨hmarks, ?_⟩
  rw [Packed.filterMap_set_insert (g := Slot.dataChild?) hx rfl rfl,
    Packed.filterMap_set_of_none (g := Slot.nodeChild?) hx rfl rfl, hrank,
    filterMap_replicate_empty rfl, filterMap_replicate_empty rfl]
  rfl

/-- A slot's entry sits at its rank among the entries. -/
theorem nodes_entry (h : Packs s slots) (hi : i < 32) {e : Entry K V}
    (he : slots.getD i .empty = .entry e) :
    s.nodes[rank Slot.dataChild? slots i]? = some (.entry e) := by
  have hx : slots[i]? = some (.entry e) := by rw [h.getElem?_eq hi, he]
  have hlt := Packed.rank_lt_length hx (rfl : Slot.dataChild? (.entry e) = some (.entry e))
  rw [h.nodes, List.getElem?_append_left hlt]
  exact Packed.getElem?_rank hx rfl

/-- A slot's node sits after all the entries, at its rank among the nodes. -/
theorem nodes_node (h : Packs s slots) (hi : i < 32) {c : C} (hc : slots.getD i .empty = .node c) :
    s.nodes[(slots.filterMap Slot.dataChild?).length + rank Slot.nodeChild? slots i]? =
      some (.node c) := by
  have hx : slots[i]? = some (.node c) := by rw [h.getElem?_eq hi, hc]
  rw [h.nodes, List.getElem?_append_right (by omega), Nat.add_sub_cancel_left]
  exact Packed.getElem?_rank hx rfl

/-- `foreach` visits the first `data_map.pop()` nodes as entries: they are the entries. -/
theorem take_pop (h : Packs s slots) :
    s.nodes.take s.dataMap.pop = slots.filterMap Slot.dataChild? := by
  rw [h.pop_data, h.nodes, List.take_left]

/-- ... and the rest as nodes: they are the nodes. -/
theorem drop_pop (h : Packs s slots) :
    s.nodes.drop s.dataMap.pop = slots.filterMap Slot.nodeChild? := by
  rw [h.pop_data, h.nodes, List.drop_left]

/-- **A free slot takes an entry**: its bit is set in `data_map`, and the entry is inserted
at its rank among the entries. -/
theorem occupy (h : Packs s slots) (hi : i < 32) (hfree : slots.getD i .empty = .empty)
    (e : Entry K V) :
    Packs { s with
        dataMap := s.dataMap.set i
        nodes := s.nodes.insertIdx
          ((({ s with dataMap := s.dataMap.set i } : SubNodes K V C).compressedIdx i).getD 0)
          (.entry e) }
      (slots.set i (.entry e)) := by
  have hx : slots[i]? = some .empty := by rw [h.getElem?_eq hi, hfree]
  have hmarks : Marks ({ s with dataMap := s.dataMap.set i } : SubNodes K V C)
      (slots.set i (.entry e)) := h.set hi (fun j _ => Bitmap.bit_set_of_lt hi j) fun j hj => by
    split
    · subst_vars
      rw [h.node _ hj, hfree]
      rfl
    · rfl
  -- the index the code computes is the slot's rank among the entries
  have hidx : (({ s with dataMap := s.dataMap.set i } : SubNodes K V C).compressedIdx i) =
      some (rank Slot.dataChild? slots i) := by
    rw [hmarks.compressedIdx hi, h.getD_set hi, if_pos rfl, Packed.rank_set]
  refine ⟨⟨hmarks.length, hmarks.data, hmarks.node⟩, ?_⟩
  show s.nodes.insertIdx _ _ = _
  rw [hidx, Option.getD_some, h.nodes, Packed.insertIdx_append_left _ (Packed.rank_le_length _ _),
    Packed.filterMap_set_insert (g := Slot.dataChild?) hx rfl rfl,
    Packed.filterMap_set_of_none (g := Slot.nodeChild?) hx rfl rfl]

/-- **An entry is overwritten in place.** -/
theorem overwrite (h : Packs s slots) (hi : i < 32) {e₀ : Entry K V}
    (he : slots.getD i .empty = .entry e₀) (e : Entry K V) :
    Packs { s with nodes := s.nodes.set (rank Slot.dataChild? slots i) (.entry e) }
      (slots.set i (.entry e)) := by
  have hx : slots[i]? = some (.entry e₀) := by rw [h.getElem?_eq hi, he]
  have hmarks : Marks ({ s with nodes := s.nodes.set (rank Slot.dataChild? slots i) (.entry e) } :
      SubNodes K V C) (slots.set i (.entry e)) := by
    refine h.set hi (fun j hj => ?_) fun j hj => ?_
    all_goals
      split
      · subst_vars
        first | rw [h.data _ hj, he] | rw [h.node _ hj, he]
        rfl
      · rfl
  have hlt := Packed.rank_lt_length hx (rfl : Slot.dataChild? (.entry e₀) = some (.entry e₀))
  refine ⟨⟨hmarks.length, hmarks.data, hmarks.node⟩, ?_⟩
  show s.nodes.set _ _ = _
  rw [h.nodes, List.set_append_left _ _ hlt,
    Packed.filterMap_set_set (g := Slot.dataChild?) hx rfl rfl,
    Packed.filterMap_set_of_none (g := Slot.nodeChild?) hx rfl rfl]

/-- **A node is replaced in place.** -/
theorem replace (h : Packs s slots) (hi : i < 32) {c₀ : C} (hc : slots.getD i .empty = .node c₀)
    (c : C) :
    Packs { s with nodes := (s.nodes.set
        ((slots.filterMap Slot.dataChild?).length + rank Slot.nodeChild? slots i) (.node c)) }
      (slots.set i (.node c)) := by
  have hx : slots[i]? = some (.node c₀) := by rw [h.getElem?_eq hi, hc]
  have hmarks : Marks ({ s with nodes := (s.nodes.set
      ((slots.filterMap Slot.dataChild?).length + rank Slot.nodeChild? slots i) (.node c)) } :
      SubNodes K V C) (slots.set i (.node c)) := by
    refine h.set hi (fun j hj => ?_) fun j hj => ?_
    all_goals
      split
      · subst_vars
        first | rw [h.data _ hj, hc] | rw [h.node _ hj, hc]
        rfl
      · rfl
  refine ⟨⟨hmarks.length, hmarks.data, hmarks.node⟩, ?_⟩
  show s.nodes.set _ _ = _
  rw [h.nodes, List.set_append_right _ _ (Nat.le_add_right _ _), Nat.add_sub_cancel_left,
    Packed.filterMap_set_of_none (g := Slot.dataChild?) hx rfl rfl,
    Packed.filterMap_set_set (g := Slot.nodeChild?) hx rfl rfl]

/-- **An entry moves one level down**: its slot leaves `data_map` for `node_map`, the entry
is erased from among the entries and the node inserted at the slot's rank among the
nodes. -/
theorem push (h : Packs s slots) (hi : i < 32) {e₀ : Entry K V}
    (he : slots.getD i .empty = .entry e₀) (c : C) {s' : SubNodes K V C}
    (hs' : s' = { s with
      nodes := s.nodes.eraseIdx (rank Slot.dataChild? slots i)
      dataMap := s.dataMap.clear i
      nodeMap := s.nodeMap.set i }) :
    Packs { s' with nodes := s'.nodes.insertIdx ((s'.compressedIdx i).getD 0) (.node c) }
      (slots.set i (.node c)) := by
  subst hs'
  have hx : slots[i]? = some (.entry e₀) := by rw [h.getElem?_eq hi, he]
  have hmarks : Marks ({ s with
      nodes := s.nodes.eraseIdx (rank Slot.dataChild? slots i)
      dataMap := s.dataMap.clear i
      nodeMap := s.nodeMap.set i } : SubNodes K V C) (slots.set i (.node c)) :=
    h.set hi (fun j _ => Bitmap.bit_clear_of_lt hi j) fun j _ => Bitmap.bit_set_of_lt hi j
  have hlt := Packed.rank_lt_length hx (rfl : Slot.dataChild? (.entry e₀) = some (.entry e₀))
  have herase := Packed.filterMap_set_erase (g := Slot.dataChild?) (a := .node c) hx rfl rfl
  -- the index the code computes is the slot's rank among the nodes, after the entries left
  have hidx : ({ s with
      nodes := s.nodes.eraseIdx (rank Slot.dataChild? slots i)
      dataMap := s.dataMap.clear i
      nodeMap := s.nodeMap.set i } : SubNodes K V C).compressedIdx i =
      some (((slots.filterMap Slot.dataChild?).eraseIdx (rank Slot.dataChild? slots i)).length +
        rank Slot.nodeChild? slots i) := by
    rw [hmarks.compressedIdx hi, h.getD_set hi, if_pos rfl, herase]
    dsimp only
    rw [Packed.rank_set]
  refine ⟨⟨hmarks.length, hmarks.data, hmarks.node⟩, ?_⟩
  show (s.nodes.eraseIdx _).insertIdx _ _ = _
  rw [hidx, Option.getD_some, h.nodes, List.eraseIdx_append_of_lt_length hlt,
    Packed.insertIdx_append_right, herase,
    Packed.filterMap_set_insert (g := Slot.nodeChild?) hx rfl rfl]

end Packs

/-- What `getp` finds in a slot. -/
def Slot.getp [DecidableEq K] (getpChild : C → Hash → K → Option V) (hash : Hash) (k : K) :
    Slot K V C → Option V
  | .empty => none
  | .entry e => e.getp k
  | .node c => getpChild c hash k

/-- What `put_mut` leaves in a slot, and whether it added an entry. -/
def Slot.put [DecidableEq K] (putChild : C → Hash → K → V → C × Bool)
    (split : Entry K V → Hash → K → V → C) (hash : Hash) (k : K) (v : V) :
    Slot K V C → Slot K V C × Bool
  | .empty => (.entry ⟨k, v⟩, true)
  | .entry e => if k = e.key then (.entry ⟨k, v⟩, false) else (.node (split e hash k v), true)
  | .node c => (.node (putChild c hash k v).1, (putChild c hash k v).2)

-- Made here once: the equation lemmas that the proofs below unfold.
section
attribute [local simp] Slot.getp Slot.put
end

variable [DecidableEq K]

namespace Packs

variable {s : SubNodes K V C} {slots : List (Slot K V C)} {i : Nat}

/-- **`getp` reads the slot of the hash.** -/
theorem getp (h : Packs s slots) (getpChild : C → Hash → K → Option V) (depth : Nat) (hash : Hash)
    (k : K) :
    s.getp getpChild depth hash k = (slots.getD (mask hash depth) .empty).getp getpChild hash k := by
  have hi := mask_lt hash depth
  unfold SubNodes.getp
  dsimp only
  rw [h.compressedIdx hi]
  cases hx : slots.getD (mask hash depth) .empty with
  | empty => rfl
  | entry e =>
      have hd : s.dataMap.check (mask hash depth) = true := by
        rw [Bitmap.check_eq_bit hi, h.data _ hi, hx]
        rfl
      simp only [hd, if_true, h.nodes_entry hi hx]
      rfl
  | node c =>
      have hd : s.dataMap.check (mask hash depth) = false := by
        rw [Bitmap.check_eq_bit hi, h.data _ hi, hx]
        rfl
      simp only [hd, Bool.false_eq_true, if_false, h.nodes_node hi hx]
      rfl

/-- **`put_mut` writes the slot of the hash**, as `Slot.put` says. -/
theorem putMut (h : Packs s slots) (putChild : C → Hash → K → V → C × Bool)
    (split : Entry K V → Hash → K → V → C) (depth : Nat) (hash : Hash) (k : K) (v : V) :
    Packs (s.putMut putChild split depth hash k v).1
        (slots.set (mask hash depth) ((slots.getD (mask hash depth) .empty).put putChild split hash k v).1) ∧
      (s.putMut putChild split depth hash k v).2 =
        ((slots.getD (mask hash depth) .empty).put putChild split hash k v).2 := by
  have hi := mask_lt hash depth
  unfold SubNodes.putMut
  dsimp only
  rw [h.compressedIdx hi]
  cases hx : slots.getD (mask hash depth) .empty with
  | empty => exact ⟨h.occupy hi hx _, rfl⟩
  | entry e =>
      have hn : s.nodeMap.check (mask hash depth) = false := by
        rw [Bitmap.check_eq_bit hi, h.node _ hi, hx]
        rfl
      simp only [hn, Bool.false_eq_true, if_false, h.nodes_entry hi hx]
      by_cases hk : k = e.key
      · simp only [hk, if_true, Slot.put]
        exact ⟨h.overwrite hi hx _, trivial⟩
      · simp only [hk, if_false, Slot.put]
        exact ⟨h.push hi hx _ rfl, trivial⟩
  | node c =>
      have hn : s.nodeMap.check (mask hash depth) = true := by
        rw [Bitmap.check_eq_bit hi, h.node _ hi, hx]
        rfl
      simp only [hn, if_true, h.nodes_node hi hx]
      exact ⟨h.replace hi hx _, rfl⟩

end Packs

/-- An entry as a pair of an association list. -/
def Entry.toSigma (e : Entry K V) : Σ _ : K, V := ⟨e.key, e.value⟩

-- Made here once: the equation lemmas that the proofs below unfold.
section
attribute [local simp] Entry.toSigma
end

omit [DecidableEq K] in
@[simp] theorem Entry.toSigma_fst (e : Entry K V) : e.toSigma.1 = e.key := rfl

/-- The entries in a slot, with `ec` the entries of a node. -/
def Slot.entries (ec : C → List (Σ _ : K, V)) : Slot K V C → List (Σ _ : K, V)
  | .empty => []
  | .entry e => [e.toSigma]
  | .node c => ec c

/-- What `foreach` visits of a child among the entries. -/
def Child.asEntry : Child K V C → List (Σ _ : K, V)
  | .entry e => [e.toSigma]
  | .node _ => []

/-- What `foreach` visits of a child among the nodes, with `ec` the entries of a node. -/
def Child.asNode (ec : C → List (Σ _ : K, V)) : Child K V C → List (Σ _ : K, V)
  | .node c => ec c
  | .entry _ => []

-- Made here once: the equation lemmas that the proofs below unfold.
section
attribute [local simp] Slot.entries Child.asEntry Child.asNode
end

omit [DecidableEq K] in
/-- The entries first and then the nodes hold the entries of the slots, in another order. -/
theorem entries_perm_slots (ec : C → List (Σ _ : K, V)) (slots : List (Slot K V C)) :
    ((slots.filterMap Slot.dataChild?).flatMap Child.asEntry ++
      (slots.filterMap Slot.nodeChild?).flatMap (Child.asNode ec)).Perm
      (slots.flatMap (Slot.entries ec)) := by
  induction slots with
  | nil => simp
  | cons x t ih =>
      cases x with
      | empty =>
          simp only [List.filterMap_cons, Slot.dataChild?, Slot.nodeChild?, List.flatMap_cons,
            Slot.entries, List.nil_append]
          exact ih
      | entry e =>
          simp only [List.filterMap_cons, Slot.dataChild?, Slot.nodeChild?, List.flatMap_cons,
            Child.asEntry, Slot.entries, List.cons_append]
          exact ih.cons _
      | node c =>
          simp only [List.filterMap_cons, Slot.dataChild?, Slot.nodeChild?, List.flatMap_cons,
            Child.asNode, Slot.entries]
          -- the node's entries move in front of the entries of the slots after it
          exact (List.perm_append_comm_assoc _ _ _).trans (ih.append_left _)

namespace Collisions

variable {bin : List (Entry K V)} {k : K}

/-- The search of a bin is a lookup in it. -/
theorem find?_eq_dlookup (bin : List (Entry K V)) (k : K) :
    (bin.find? fun e => k = e.key).map (·.value) = (bin.map Entry.toSigma).dlookup k := by
  induction bin with
  | nil => rfl
  | cons e t ih =>
      by_cases hk : k = e.key
      · subst hk
        simp [Entry.toSigma]
      · rw [List.find?_cons_of_neg (by simpa using hk), List.map_cons,
          List.dlookup_cons_ne _ e.toSigma hk, ih]

/-- Overwriting the entry the search found: the lookup of `k` changes, no other. -/
theorem dlookup_set_findIdx {i : Nat} (hi : bin.findIdx? (fun e => k = e.key) = some i) (v : V)
    (k' : K) :
    ((bin.set i ⟨k, v⟩).map Entry.toSigma).dlookup k' =
      if k' = k then some v else (bin.map Entry.toSigma).dlookup k' := by
  induction bin generalizing i with
  | nil => simp at hi
  | cons e t ih =>
      rw [List.findIdx?_cons] at hi
      by_cases hk : k = e.key
      · -- the head is the entry found
        simp only [hk, decide_true, if_true, Option.some.injEq] at hi
        subst hi hk
        rw [List.set_cons_zero, List.map_cons, List.map_cons]
        by_cases hk' : k' = e.key
        · subst hk'
          rw [if_pos rfl]
          exact List.dlookup_cons_eq _ _ _
        · rw [if_neg hk', List.dlookup_cons_ne _ (Entry.toSigma ⟨e.key, v⟩) hk',
            List.dlookup_cons_ne _ e.toSigma hk']
      · simp only [hk, decide_false, Bool.false_eq_true, if_false] at hi
        obtain ⟨j, hj, rfl⟩ := Option.map_eq_some_iff.mp hi
        rw [List.set_cons_succ, List.map_cons, List.map_cons]
        by_cases hk' : k' = e.key
        · -- both lists start with the head's entry
          subst hk'
          rw [if_neg fun h => hk h.symm]
          simp only [Entry.toSigma, List.dlookup_cons_eq]
        · rw [List.dlookup_cons_ne _ e.toSigma hk', List.dlookup_cons_ne _ e.toSigma hk', ih hj]

/-- ... and leaves the keys. -/
theorem keys_set_findIdx {i : Nat} (hi : bin.findIdx? (fun e => k = e.key) = some i) (v : V) :
    ((bin.set i ⟨k, v⟩).map Entry.toSigma).keys = (bin.map Entry.toSigma).keys := by
  obtain ⟨hlt, hki, -⟩ := List.findIdx?_eq_some_iff_getElem.mp hi
  have hk : bin[i].key = k := (of_decide_eq_true hki).symm
  simp only [List.keys, List.map_map, List.map_set]
  have hlt' : i < (bin.map (Sigma.fst ∘ Entry.toSigma)).length := by simpa using hlt
  have hget : (Entry.toSigma ⟨k, v⟩).fst = (bin.map (Sigma.fst ∘ Entry.toSigma))[i] := by
    simp [hk]
  rw [hget, List.set_getElem_self]

/-- A failed search: the key is not in the bin. -/
theorem not_mem_keys_of_findIdx (h : bin.findIdx? (fun e => k = e.key) = none) :
    k ∉ (bin.map Entry.toSigma).keys := by
  intro hk
  obtain ⟨p, hp, hpk⟩ := List.mem_map.mp hk
  obtain ⟨e, he, rfl⟩ := List.mem_map.mp hp
  have := List.findIdx?_eq_none_iff.mp h e he
  simp_all

/-- What `put_mut` makes of the bin of `k`: the keys of the bin and `k`, without repeats,
with `k` looked up as `v` and every other key as before; an entry is added when `k` was not
there. -/
theorem bin_put (hnd : (bin.map Entry.toSigma).NodupKeys) (k : K) (v : V) :
    let r : List (Entry K V) × Bool := match bin.findIdx? fun e => k = e.key with
      | some i => (bin.set i ⟨k, v⟩, false)
      | none => (bin ++ [⟨k, v⟩], true)
    (r.1.map Entry.toSigma).NodupKeys ∧
      (∀ k' ∈ (r.1.map Entry.toSigma).keys, k' = k ∨ k' ∈ (bin.map Entry.toSigma).keys) ∧
      (∀ k', (r.1.map Entry.toSigma).dlookup k' =
        if k' = k then some v else (bin.map Entry.toSigma).dlookup k') ∧
      r.2 = ((bin.map Entry.toSigma).dlookup k).isNone := by
  cases hf : bin.findIdx? fun e => k = e.key with
  | some i =>
      have hkeys := keys_set_findIdx hf v
      -- the search found an entry of `k`
      have hmem : k ∈ (bin.map Entry.toSigma).keys := by
        obtain ⟨hlt, hki, -⟩ := List.findIdx?_eq_some_iff_getElem.mp hf
        have hk : bin[i].key = k := (of_decide_eq_true hki).symm
        exact List.mem_map.mpr ⟨bin[i].toSigma, List.mem_map_of_mem (List.getElem_mem hlt), hk⟩
      refine ⟨?_, fun k' hk' => .inr (hkeys ▸ hk'), dlookup_set_findIdx hf v, ?_⟩
      · unfold List.NodupKeys
        rw [hkeys]
        exact hnd
      · have hsome := List.dlookup_isSome.mpr hmem
        cases hl : (bin.map Entry.toSigma).dlookup k
        · simp [hl] at hsome
        · simp
  | none =>
      have hnot := not_mem_keys_of_findIdx hf
      have hkeys : ((bin ++ [(⟨k, v⟩ : Entry K V)]).map Entry.toSigma).keys =
          (bin.map Entry.toSigma).keys ++ [k] := by
        simp [List.keys, Entry.toSigma]
      refine ⟨?_, ?_, fun k' => ?_, ?_⟩
      · unfold List.NodupKeys
        rw [hkeys, List.nodup_append]
        exact ⟨hnd, List.nodup_singleton k, fun a ha b hb heq => hnot (by simp_all)⟩
      · intro k' hk'
        rw [hkeys, List.mem_append, List.mem_singleton] at hk'
        exact hk'.symm.imp id id
      · rw [List.map_append, List.dlookup_append]
        by_cases hk' : k' = k
        · subst hk'
          rw [List.dlookup_eq_none.mpr hnot, if_pos rfl]
          simp [Entry.toSigma]
        · rw [if_neg hk', List.map_singleton, List.dlookup_cons_ne _ (Entry.toSigma ⟨k, v⟩) hk',
            List.dlookup_nil, Option.or_none]
      · simp [List.dlookup_eq_none.mpr hnot]

/-- `put_mut` rewrites the bin of `k`. -/
theorem putMut_eq (c : Collisions K V) (hash : Hash) (k : K) (v : V) :
    c.putMut hash k v =
      let bin := c.bins.getD (mask hash collisionDepth) []
      let r : List (Entry K V) × Bool := match bin.findIdx? fun e => k = e.key with
        | some i => (bin.set i ⟨k, v⟩, false)
        | none => (bin ++ [⟨k, v⟩], true)
      (⟨c.bins.set (mask hash collisionDepth) r.1⟩, r.2) := by
  unfold putMut
  dsimp only
  -- the two matches on the same search, however Lean compiled them
  cases (c.bins.getD (mask hash collisionDepth) []).findIdx? fun e => k = e.key <;> rfl

/-- The entries of a collision node, bin after bin, as `foreach` visits them. -/
def entries (c : Collisions K V) : List (Σ _ : K, V) :=
  c.bins.flatMap fun bin => bin.map Entry.toSigma

-- Made here once: the equation lemmas that the proofs below unfold.
section
attribute [local simp] entries
end

/-- A collision node as `put_mut` keeps it: `collision_bins` bins, each entry in the bin its
hash picks, and no key twice in a bin. -/
structure Ok (H : K → Hash) (c : Collisions K V) : Prop where
  length : c.bins.length = collisionBins
  routed : Packed.Routed (fun k => mask (H k) collisionDepth)
    (fun i => (c.bins.getD i []).map Entry.toSigma) collisionBins
  nodupKeys : ∀ i < collisionBins, ((c.bins.getD i []).map Entry.toSigma).NodupKeys

variable {H : K → Hash} {c : Collisions K V}

omit [DecidableEq K] in
theorem Ok.new (H : K → Hash) : Ok H (Collisions.new : Collisions K V) := by
  have hbin : ∀ i, (Collisions.new : Collisions K V).bins.getD i [] = [] := fun i => by
    simp only [Collisions.new, List.getD_eq_getElem?_getD, List.getElem?_replicate]
    split <;> rfl
  refine ⟨List.length_replicate, fun i _ p hp => ?_, fun i _ => ?_⟩
  · have hp' : p ∈ ((Collisions.new : Collisions K V).bins.getD i []).map Entry.toSigma := hp
    rw [hbin] at hp'
    exact absurd hp' List.not_mem_nil
  · rw [hbin]
    exact List.nodupKeys_nil

omit [DecidableEq K] in
theorem Ok.entries_eq (hc : Ok H c) :
    c.entries = (List.range collisionBins).flatMap fun i => (c.bins.getD i []).map Entry.toSigma := by
  rw [entries, Packed.flatMap_eq_flatMap_range c.bins [], hc.length]

omit [DecidableEq K] in
theorem Ok.entries_nodupKeys (hc : Ok H c) : c.entries.NodupKeys := by
  rw [hc.entries_eq]
  exact hc.routed.nodupKeys hc.nodupKeys

/-- **`getp` of a collision node is a lookup** in its entries. -/
theorem Ok.getp (hc : Ok H c) (k : K) : c.getp (H k) k = c.entries.dlookup k := by
  rw [hc.entries_eq, hc.routed.dlookup (mask_collisionDepth_lt (H k))]
  exact find?_eq_dlookup _ _

/-- **Writing the bin of `k`.** A bin that takes keys that are `k` or were there, without
repeats, and looks up `k` as `v` and the others as before, does the same for the node. -/
theorem Ok.write (hc : Ok H c) {k : K} {v : V} {bin : List (Entry K V)}
    (hnd : (bin.map Entry.toSigma).NodupKeys)
    (hkeys : ∀ k' ∈ (bin.map Entry.toSigma).keys,
      k' = k ∨ k' ∈ ((c.bins.getD (mask (H k) collisionDepth) []).map Entry.toSigma).keys)
    (hlook : ∀ k', (bin.map Entry.toSigma).dlookup k' = if k' = k then some v else
      ((c.bins.getD (mask (H k) collisionDepth) []).map Entry.toSigma).dlookup k') :
    Ok H ⟨c.bins.set (mask (H k) collisionDepth) bin⟩ ∧
      ∀ k', (⟨c.bins.set (mask (H k) collisionDepth) bin⟩ : Collisions K V).entries.dlookup k' =
        if k' = k then some v else c.entries.dlookup k' := by
  have hidx := mask_collisionDepth_lt (H k)
  have hget : ∀ i, (c.bins.set (mask (H k) collisionDepth) bin).getD i [] =
      if i = mask (H k) collisionDepth then bin else c.bins.getD i [] := fun i => by
    by_cases hi : i = mask (H k) collisionDepth
    · subst hi
      simp [List.getD_eq_getElem?_getD, hc.length, hidx]
    · simp [List.getD_eq_getElem?_getD, Ne.symm hi, hi]
  have hsame : ∀ i < collisionBins, i ≠ mask (H k) collisionDepth →
      ((c.bins.set (mask (H k) collisionDepth) bin).getD i []).map Entry.toSigma =
        (c.bins.getD i []).map Entry.toSigma := fun i _ hi => by rw [hget, if_neg hi]
  have hrouted : Packed.Routed (fun k => mask (H k) collisionDepth)
      (fun i => ((c.bins.set (mask (H k) collisionDepth) bin).getD i []).map Entry.toSigma)
      collisionBins :=
    hc.routed.update (k := k) hsame (by rw [hget, if_pos rfl]; exact hkeys)
  have hok : Ok H ⟨c.bins.set (mask (H k) collisionDepth) bin⟩ := by
    refine ⟨by rw [List.length_set, hc.length], hrouted, fun i hi => ?_⟩
    show (((c.bins.set (mask (H k) collisionDepth) bin).getD i []).map Entry.toSigma).NodupKeys
    rw [hget]
    split
    · exact hnd
    · exact hc.nodupKeys i hi
  refine ⟨hok, fun k' => ?_⟩
  rw [hok.entries_eq, hc.entries_eq]
  exact hc.routed.dlookup_update hrouted hidx hsame (by intro k''; rw [hget, if_pos rfl]; exact hlook k'') k'

/-- **`put_mut` of a collision node** binds `k` to `v`, keeps the node as it is kept, and adds
an entry when `k` had none. -/
theorem Ok.putMut (hc : Ok H c) (k : K) (v : V) :
    Ok H (c.putMut (H k) k v).1 ∧
      (∀ k', (c.putMut (H k) k v).1.entries.dlookup k' =
        if k' = k then some v else c.entries.dlookup k') ∧
      (c.putMut (H k) k v).2 = (c.entries.dlookup k).isNone := by
  have hidx := mask_collisionDepth_lt (H k)
  obtain ⟨hnd, hkeys, hlook, hflag⟩ := bin_put (hc.nodupKeys _ hidx) k v
  have hw := hc.write hnd hkeys hlook
  rw [putMut_eq]
  refine ⟨hw.1, hw.2, ?_⟩
  rw [hflag, hc.entries_eq, hc.routed.dlookup hidx]

omit [DecidableEq K] in
/-- **`foreach` of a collision node visits its entries**, bin after bin. -/
theorem foreach_eq {m : Type → Type} [Monad m] [LawfulMonad m] (c : Collisions K V)
    (f : K → V → m Bool) : c.foreach f = c.entries.allM fun p => f p.1 p.2 := by
  unfold foreach entries
  rw [List.allM_flatMap]
  congr 1
  funext bin
  rw [List.allM_map]
  rfl

/-- The collision node of two entries is the empty one with the two put in. -/
theorem pair_eq (H : K → Hash) (e₀ : Entry K V) {k : K} (hk : e₀.key ≠ k) (v : V) :
    pair H e₀ (H k) k v = ((new.putMut (H e₀.key) e₀.key e₀.value).1.putMut (H k) k v).1 := by
  have hnew : ∀ i < collisionBins, (new : Collisions K V).bins.getD i [] = [] := fun i hi => by
    simp [new, List.getD_eq_getElem?_getD, hi]
  have h₀ := hnew _ (mask_collisionDepth_lt (H e₀.key))
  -- after `entry0`, the bin of `k` holds at most `entry0`, which is not `k`'s
  have hbin : ∀ e ∈ ((new : Collisions K V).bins.set (mask (H e₀.key) collisionDepth)
      [⟨e₀.key, e₀.value⟩]).getD (mask (H k) collisionDepth) [], e = e₀ := by
    intro e he
    by_cases hidx : mask (H k) collisionDepth = mask (H e₀.key) collisionDepth
    · rw [hidx] at he
      simp [List.getD_eq_getElem?_getD, new, mask_collisionDepth_lt] at he
      exact he
    · rw [List.getD_eq_getElem?_getD, List.getElem?_set_ne (Ne.symm hidx),
        ← List.getD_eq_getElem?_getD, hnew _ (mask_collisionDepth_lt _)] at he
      exact absurd he List.not_mem_nil
  have hnone : (((new : Collisions K V).bins.set (mask (H e₀.key) collisionDepth)
      [⟨e₀.key, e₀.value⟩]).getD (mask (H k) collisionDepth) []).findIdx?
        (fun e => k = e.key) = none :=
    List.findIdx?_eq_none_iff.mpr fun e he => by
      rw [hbin e he]
      simpa using Ne.symm hk
  unfold pair
  rw [putMut_eq, putMut_eq]
  simp only [h₀, List.findIdx?_nil, List.nil_append]
  rw [hnone]

/-- **The collision node of two entries** holds the two. -/
theorem Ok.pair (H : K → Hash) (e₀ : Entry K V) {k : K} (hk : e₀.key ≠ k) (v : V) :
    Ok H (pair H e₀ (H k) k v) ∧ ∀ k', (pair H e₀ (H k) k v).entries.dlookup k' =
      if k' = k then some v else if k' = e₀.key then some e₀.value else none := by
  obtain ⟨h₁, hl₁, -⟩ := (Ok.new H).putMut e₀.key e₀.value
  obtain ⟨h₂, hl₂, -⟩ := h₁.putMut k v
  have hempty : (Collisions.new : Collisions K V).entries = [] := by
    simp [entries, Collisions.new]
  rw [pair_eq H e₀ hk]
  refine ⟨h₂, fun k' => ?_⟩
  rw [hl₂, hl₁, hempty, List.dlookup_nil]

end Collisions

end Ccf.Champ
