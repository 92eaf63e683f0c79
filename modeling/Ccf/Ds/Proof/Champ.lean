import Mathlib.Data.List.GetD
import Ccf.Ds.Proof.ChampNode

/-!
# What a CHAMP map holds

`ChampNode.lean` is about one sub-node: its packed vector is an array of 32 slots, and
`getp` and `put_mut` read and write the slot the hash picks. This file is about the tree.
A node at height `n` denotes a list of bindings (`Trie.entries`), in the order `foreach`
visits them, and the invariant `Trie.WF` says what makes the denotation a map:

* a collision node keeps each key in the bin of its hash's last two bits (`Collisions.Ok`);
* a sub-node packs 32 slots (`Packs`), each slot holds only keys whose hash picks that slot
  at the node's depth, and the nodes in its slots are well formed.

Routing is what makes a lookup one path down the tree: the bindings of a sub-node are the
concatenation of its slots' bindings (up to order), so a lookup there is a lookup in the
slot of the hash (`Packed.Routed.dlookup`). `put_mut` writes that slot (`Packs.putMut`), and
`slot_put` says what the write does, from what `put_mut` does one level down; `putOk` is the
induction over heights. The split of two entries that share a slot is a sub-node of one
entry into which the other is put, or at height 0 a collision node (`split_ok`).

At the top, `Map.Inv` relates a map to the puts that built it: its bindings are the last put
of each key, and `size` counts them.
-/

namespace Ccf.Champ

variable {K V : Type}

section Lookup

variable [DecidableEq K]

/-- An entry looks up its own key and nothing else. -/
theorem Entry.getp_eq_dlookup (e : Entry K V) (k : K) : e.getp k = [e.toSigma].dlookup k := by
  unfold Entry.getp
  by_cases hk : k = e.key
  · subst hk
    simp [Entry.toSigma]
  · rw [if_neg hk, List.dlookup_cons_ne _ e.toSigma hk, List.dlookup_nil]

end Lookup

namespace Trie

/-- The entries of a node at height `n`, in the order `foreach` visits them. -/
def entries : (n : Nat) → Trie K V n → List (Σ _ : K, V)
  | 0, c => Collisions.entries c
  | n + 1, s =>
      (s.nodes.take s.dataMap.pop).flatMap Child.asEntry ++
        (s.nodes.drop s.dataMap.pop).flatMap (Child.asNode (entries n))

-- Made here once: the equation lemmas that the proofs below unfold.
section
attribute [local simp] entries
end

/-- **`foreach` visits the entries** in order, and stops at the first callback that returns
`false`. -/
theorem foreach_eq {m : Type → Type} [Monad m] [LawfulMonad m] (n : Nat) (t : Trie K V n)
    (f : K → V → m Bool) : Trie.foreach n t f = (entries n t).allM fun p => f p.1 p.2 := by
  induction n with
  | zero => exact Collisions.foreach_eq t f
  | succ n ih =>
      unfold Trie.foreach SubNodes.foreach entries
      rw [List.allM_append, List.allM_flatMap, List.allM_flatMap]
      dsimp only
      congr 1
      · -- the entries' loop: an entry is one call of `f`
        congr 1
        funext c
        cases c with
        | entry e =>
          rw [Child.asEntry, List.allM_singleton]
          rfl
        | node _ => rfl
      · funext ok
        cases ok
        · rfl
        · -- the nodes' loop: a node is its own `foreach`
          show List.allM _ _ = List.allM _ _
          congr 1
          funext c
          cases c with
          | node c => exact ih c
          | entry _ => rfl

/-- **Well-formed nodes**, as `put_mut` keeps them. A collision node keeps its bins
(`Collisions.Ok`); a sub-node packs 32 slots, each holding only keys whose hash picks that
slot at the node's depth, and the nodes in its slots are well formed. -/
def WF (H : K → Hash) : (n : Nat) → Trie K V n → Prop
  | 0, c => Collisions.Ok H c
  | n + 1, s => ∃ slots, Packs s slots ∧
      Packed.Routed (fun k => mask (H k) (collisionDepth - (n + 1)))
        (fun i => (slots.getD i .empty).entries (entries n)) 32 ∧
      ∀ i < 32, ∀ c, slots.getD i .empty = .node c → WF H n c

variable {H : K → Hash} {n : Nat}

theorem entries_succ (s : Trie K V (n + 1)) :
    entries (n + 1) s = (SubNodes.nodes s |>.take (SubNodes.dataMap s).pop).flatMap Child.asEntry ++
      (SubNodes.nodes s |>.drop (SubNodes.dataMap s).pop).flatMap (Child.asNode (entries n)) := rfl

/-- A sub-node's entries are its slots' entries, in another order. -/
theorem entries_perm {s : Trie K V (n + 1)} {slots : List (Slot K V (Trie K V n))}
    (h : Packs s slots) :
    (entries (n + 1) s).Perm
      ((List.range 32).flatMap fun i => (slots.getD i .empty).entries (entries n)) := by
  rw [← h.length, ← Packed.flatMap_eq_flatMap_range, entries_succ, h.take_pop, h.drop_pop]
  exact entries_perm_slots _ _

theorem nodupKeys_of_perm {l₁ l₂ : List (Σ _ : K, V)} (hp : l₁.Perm l₂) (h : l₂.NodupKeys) :
    l₁.NodupKeys :=
  (hp.map Sigma.fst).nodup_iff.mpr h

/-- **A well-formed node has no key twice.** -/
theorem WF.nodupKeys {t : Trie K V n} (hwf : WF H n t) : (entries n t).NodupKeys := by
  induction n with
  | zero => exact Collisions.Ok.entries_nodupKeys hwf
  | succ n ih =>
      obtain ⟨slots, hp, hr, hc⟩ := hwf
      refine nodupKeys_of_perm (entries_perm hp) (hr.nodupKeys fun i hi => ?_)
      cases hx : slots.getD i .empty with
      | empty => exact List.nodupKeys_nil
      | entry e => exact List.nodupKeys_singleton _
      | node c => exact ih (hc i hi c hx)

/-- The empty sub-node is well formed at every height. -/
theorem WF.new (H : K → Hash) : WF H (n + 1) (SubNodes.new : SubNodes K V (Trie K V n)) := by
  refine ⟨_, Packs.new, fun i hi p hp => ?_, fun i hi c hc => ?_⟩
  · dsimp only at hp
    rw [List.getD_replicate _ hi] at hp
    exact absurd hp List.not_mem_nil
  · rw [List.getD_replicate _ hi] at hc
    cases hc

theorem entries_new : entries (n + 1) (SubNodes.new : SubNodes K V (Trie K V n)) = [] := by
  refine (entries_succ _).trans ?_
  simp only [SubNodes.new, List.take_nil, List.drop_nil, List.flatMap_nil, List.append_nil]

variable [DecidableEq K]

/-- **`getp` of a well-formed node is a lookup** in its entries. -/
theorem WF.getp {t : Trie K V n} (hwf : WF H n t) (k : K) :
    Trie.getp n t (H k) k = (entries n t).dlookup k := by
  induction n with
  | zero => exact Collisions.Ok.getp hwf k
  | succ n ih =>
      have hnd := WF.nodupKeys hwf
      obtain ⟨slots, hp, hr, hc⟩ := hwf
      have hi := mask_lt (H k) (collisionDepth - (n + 1))
      show SubNodes.getp (Trie.getp n) _ t (H k) k = _
      rw [hp.getp, List.perm_dlookup k hnd (entries_perm hp), hr.dlookup hi]
      -- the slot of the hash decides
      cases hx : slots.getD (mask (H k) (collisionDepth - (n + 1))) .empty with
      | empty => rfl
      | entry e => exact Entry.getp_eq_dlookup e k
      | node c => exact ih (hc _ hi c hx)

/-- What `put_mut` does to a well-formed node at height `n`: the node stays well formed,
`k` is bound to `v`, every other key is left, and the result says whether `k` was
missing. -/
def PutOk (H : K → Hash) (n : Nat) : Prop :=
  ∀ t : Trie K V n, WF H n t → ∀ (k : K) (v : V),
    WF H n (Trie.putMut H n t (H k) k v).1 ∧
      (∀ k', (entries n (Trie.putMut H n t (H k) k v).1).dlookup k' =
        if k' = k then some v else (entries n t).dlookup k') ∧
      (Trie.putMut H n t (H k) k v).2 = ((entries n t).dlookup k).isNone

/-- **The node of two entries** that `put_mut` makes one level down holds the two. -/
theorem split_ok (hput : PutOk (V := V) H n) (e : Entry K V) {k : K} (hk : e.key ≠ k) (v : V) :
    WF H n (Trie.split H n (Trie.putMut H n) e (H k) k v) ∧
      ∀ k', (entries n (Trie.split H n (Trie.putMut H n) e (H k) k v)).dlookup k' =
        if k' = k then some v else if k' = e.key then some e.value else none := by
  cases n with
  | zero => exact Collisions.Ok.pair H e hk v
  | succ m =>
      -- a sub-node holding `entry0` alone, into which the entry of `k` is put
      have hi := mask_lt (H e.key) (collisionDepth - (m + 1))
      have hsingle := Packs.single (C := Trie K V m) hi e
      have hslot : ∀ j, ((List.replicate 32 (Slot.empty : Slot K V (Trie K V m))).set
          (mask (H e.key) (collisionDepth - (m + 1))) (.entry e)).getD j .empty =
          if j = mask (H e.key) (collisionDepth - (m + 1)) then .entry e else .empty := by
        intro j
        rw [Packs.new.getD_set hi]
        split
        · rfl
        · simp only [List.getD_eq_getElem?_getD, List.getElem?_replicate]
          split <;> rfl
      have hwf : WF H (m + 1) (⟨[.entry e], ⟨0⟩,
          (⟨0⟩ : Bitmap).set (mask (H e.key) (collisionDepth - (m + 1)))⟩ :
            SubNodes K V (Trie K V m)) := by
        refine ⟨_, hsingle, fun j _ p hp => ?_, fun j _ c hc => ?_⟩
        · simp only [hslot] at hp
          split at hp
          · rename_i hj
            simp only [Slot.entries, List.mem_singleton] at hp
            rw [hp, hj]
            rfl
          · exact absurd hp List.not_mem_nil
        · rw [hslot] at hc
          split at hc <;> cases hc
      have hentries : entries (m + 1) (⟨[.entry e], ⟨0⟩,
          (⟨0⟩ : Bitmap).set (mask (H e.key) (collisionDepth - (m + 1)))⟩ :
            SubNodes K V (Trie K V m)) = [e.toSigma] := by
        -- the one child is the entry: no slot holds a node
        have hnone : ((List.replicate 32 (Slot.empty : Slot K V (Trie K V m))).set
            (mask (H e.key) (collisionDepth - (m + 1))) (.entry e)).filterMap Slot.nodeChild? = [] := by
          have hx : (List.replicate 32 (Slot.empty : Slot K V (Trie K V m)))[mask (H e.key)
              (collisionDepth - (m + 1))]? = some .empty := by
            rw [List.getElem?_replicate, if_pos hi]
          rw [Packed.filterMap_set_of_none hx rfl rfl]
          exact Packs.filterMap_replicate_empty rfl
        have hle := List.drop_eq_nil_iff.mp (hsingle.drop_pop.trans hnone)
        refine (entries_succ _).trans ?_
        rw [List.take_of_length_le hle, hsingle.drop_pop, hnone]
        rfl
      obtain ⟨h₁, h₂, -⟩ := hput _ hwf k v
      refine ⟨h₁, fun k' => (h₂ k').trans ?_⟩
      rw [hentries, ← Entry.getp_eq_dlookup]
      rfl

theorem putMut_succ (s : Trie K V (n + 1)) (hash : Hash) (k : K) (v : V) :
    Trie.putMut H (n + 1) s hash k v = SubNodes.putMut (Trie.putMut H n)
      (Trie.split H n (Trie.putMut H n)) (collisionDepth - (n + 1)) s hash k v := rfl

/-- **`put_mut` on one slot**, given what it does one level down. -/
theorem slot_put (hput : PutOk (V := V) H n) {x : Slot K V (Trie K V n)}
    (hx : ∀ c, x = .node c → WF H n c) (k : K) (v : V) :
    (∀ c, (x.put (Trie.putMut H n) (Trie.split H n (Trie.putMut H n)) (H k) k v).1 = .node c →
        WF H n c) ∧
      (∀ k', ((x.put (Trie.putMut H n) (Trie.split H n (Trie.putMut H n)) (H k) k v).1.entries
          (entries n)).dlookup k' = if k' = k then some v else (x.entries (entries n)).dlookup k') ∧
      (x.put (Trie.putMut H n) (Trie.split H n (Trie.putMut H n)) (H k) k v).2 =
        ((x.entries (entries n)).dlookup k).isNone := by
  cases x with
  | empty =>
      refine ⟨fun c hc => (by cases hc), fun k' => ?_, rfl⟩
      show [(⟨k, v⟩ : Entry K V).toSigma].dlookup k' = _
      rw [← Entry.getp_eq_dlookup]
      rfl
  | entry e =>
      by_cases hk : k = e.key
      · -- the key is there: its value is overwritten in place
        simp only [Slot.put, if_pos hk]
        refine ⟨fun c hc => (by cases hc), fun k' => ?_, ?_⟩
        · show [(⟨k, v⟩ : Entry K V).toSigma].dlookup k' =
            if k' = k then some v else [e.toSigma].dlookup k'
          rw [← Entry.getp_eq_dlookup, ← Entry.getp_eq_dlookup]
          unfold Entry.getp
          rw [← hk]
          by_cases hk' : k' = k <;> simp [hk']
        · show false = ([e.toSigma].dlookup k).isNone
          rw [← Entry.getp_eq_dlookup, Entry.getp, if_pos hk]
          rfl
      · -- another key: the two go to a new node one level down
        obtain ⟨hwf, hlook⟩ := split_ok hput e (Ne.symm hk) v
        simp only [Slot.put, if_neg hk]
        refine ⟨fun c hc => by (cases hc; exact hwf), fun k' => ?_, ?_⟩
        · show (entries n _).dlookup k' = if k' = k then some v else [e.toSigma].dlookup k'
          rw [hlook, ← Entry.getp_eq_dlookup]
          rfl
        · show true = ([e.toSigma].dlookup k).isNone
          rw [← Entry.getp_eq_dlookup, Entry.getp, if_neg hk]
          rfl
  | node c =>
      obtain ⟨h₁, h₂, h₃⟩ := hput c (hx c rfl) k v
      exact ⟨fun c' hc' => by (cases hc'; exact h₁), h₂, h₃⟩

/-- **`put_mut` keeps a node well formed and binds the key**, at every height. -/
theorem putOk (H : K → Hash) (n : Nat) : PutOk (V := V) H n := by
  induction n with
  | zero => exact fun c hc k v => Collisions.Ok.putMut hc k v
  | succ n ih =>
      intro s hwf k v
      have hnd := WF.nodupKeys hwf
      obtain ⟨slots, hp, hr, hc⟩ := hwf
      have hi := mask_lt (H k) (collisionDepth - (n + 1))
      rw [putMut_succ]
      obtain ⟨hp', hflag⟩ := hp.putMut (Trie.putMut H n) (Trie.split H n (Trie.putMut H n))
        (collisionDepth - (n + 1)) (H k) k v
      obtain ⟨hcx, hlook, hflagx⟩ := slot_put ih (hc _ hi) k v
      set idx := mask (H k) (collisionDepth - (n + 1))
      set r := (slots.getD idx .empty).put (Trie.putMut H n) (Trie.split H n (Trie.putMut H n))
        (H k) k v
      -- only the slot of the hash changes
      have hget := hp.getD_set hi r.1
      have hsame : ∀ j < 32, j ≠ idx → ((slots.set idx r.1).getD j .empty).entries (entries n) =
          (slots.getD j .empty).entries (entries n) := by
        intro j _ hj
        rw [hget, if_neg hj]
      have hbk : ∀ k', (((slots.set idx r.1).getD idx .empty).entries (entries n)).dlookup k' =
          if k' = k then some v else ((slots.getD idx .empty).entries (entries n)).dlookup k' := by
        intro k'
        rw [hget, if_pos rfl]
        exact hlook k'
      have hr' := hr.update (k := k) hsame (Packed.keys_of_write hbk)
      have hwf' : WF H (n + 1) (SubNodes.putMut (Trie.putMut H n) (Trie.split H n (Trie.putMut H n))
          (collisionDepth - (n + 1)) s (H k) k v).1 := by
        refine ⟨_, hp', hr', fun j hj c hcj => ?_⟩
        rw [hget] at hcj
        split at hcj
        · exact hcx c hcj
        · exact hc j hj c hcj
      refine ⟨hwf', fun k' => ?_, ?_⟩
      · rw [List.perm_dlookup k' (WF.nodupKeys hwf') (entries_perm hp'),
          List.perm_dlookup k' hnd (entries_perm hp)]
        exact hr.dlookup_update hr' hi hsame hbk k'
      · rw [hflag, hflagx, List.perm_dlookup k hnd (entries_perm hp), hr.dlookup hi]

end Trie

namespace Map

/-- The value the last put of `k` in `ops` gave it: what a map built by the puts `ops`
should bind `k` to. -/
def lastPut [DecidableEq K] (ops : List (K × V)) (k : K) : Option V :=
  (ops.reverse.find? fun p => p.1 = k).map Prod.snd

-- Made here once: the equation lemmas that the proofs below unfold.
section
attribute [local simp] lastPut
end

section LastPut

variable [DecidableEq K]

theorem lastPut_append (ops : List (K × V)) (k : K) (v : V) (k' : K) :
    lastPut (ops ++ [(k, v)]) k' = if k' = k then some v else lastPut ops k' := by
  unfold lastPut
  rw [List.reverse_append, List.reverse_singleton, List.singleton_append, List.find?_cons]
  by_cases hk : k' = k
  · subst hk
    simp
  · simp [hk, Ne.symm hk]

theorem lastPut_isSome (ops : List (K × V)) (k : K) :
    (lastPut ops k).isSome ↔ k ∈ ops.map Prod.fst := by
  simp [lastPut, List.find?_isSome]

end LastPut

theorem put_root [DecidableEq K] (H : K → Hash) (m : Map K V) (k : K) (v : V) :
    (m.put H k v).root = (Trie.putMut H collisionDepth m.root (H k) k v).1 := rfl

theorem put_size [DecidableEq K] (H : K → Hash) (m : Map K V) (k : K) (v : V) :
    (m.put H k v).size =
      if (Trie.putMut H collisionDepth m.root (H k) k v).2 then m.size + 1 else m.size := rfl

theorem entries_new : Trie.entries collisionDepth (new : Map K V).root = [] :=
  Trie.entries_new (n := 5)

/-- **What a map built by `put` keeps**: a well-formed root whose bindings are the last put
of each key in `ops`, and a `size` that counts them. -/
structure Inv [DecidableEq K] (H : K → Hash) (ops : List (K × V)) (m : Map K V) : Prop where
  wf : Trie.WF H collisionDepth m.root
  lookup : ∀ k, (Trie.entries collisionDepth m.root).dlookup k = lastPut ops k
  size : m.size = (Trie.entries collisionDepth m.root).length

section Inv

variable [DecidableEq K] {H : K → Hash}

theorem Inv.new (H : K → Hash) : Inv H [] (new : Map K V) where
  wf := Trie.WF.new (n := 5) H
  lookup k := by
    rw [entries_new]
    rfl
  size := by
    rw [entries_new]
    rfl

/-- **One put keeps the invariant**, with the put appended to `ops`. -/
theorem Inv.put {ops : List (K × V)} {m : Map K V} (h : Inv H ops m) (k : K) (v : V) :
    Inv H (ops ++ [(k, v)]) (m.put H k v) := by
  obtain ⟨hwf, hlook, hflag⟩ := Trie.putOk H collisionDepth m.root h.wf k v
  refine ⟨hwf, fun k' => ?_, ?_⟩
  · rw [put_root, hlook, lastPut_append, h.lookup]
  · -- the size grows exactly when the key was missing, as the bindings do
    rw [put_size, put_root, Packed.length_of_write hlook h.wf.nodupKeys hwf.nodupKeys, hflag,
      h.size]
    split <;> rfl

/-- **Every run of puts keeps the invariant.** -/
theorem Inv.foldl (ops : List (K × V)) {pre : List (K × V)} {m : Map K V} (h : Inv H pre m) :
    Inv H (pre ++ ops) (ops.foldl (fun m p => m.put H p.1 p.2) m) := by
  induction ops generalizing pre m with
  | nil =>
      rw [List.append_nil]
      exact h
  | cons p ops ih =>
      rw [List.foldl_cons, ← List.singleton_append, ← List.append_assoc]
      exact ih (h.put p.1 p.2)

end Inv

/-- **A CHAMP map built by puts is the map of their last values.** For every hash function
and every sequence of puts from the empty map, `get` returns the value of the last put of the
key, `size` is the number of distinct keys put, and `foreach` visits a list of bindings with
no key twice, each key put with its last value. -/
theorem map_agrees_with_puts [DecidableEq K] (H : K → Hash) (ops : List (K × V)) :
    let m := ops.foldl (fun m p => m.put H p.1 p.2) (new : Map K V)
    (∀ k, m.get H k = lastPut ops k) ∧ m.size = (ops.map Prod.fst).toFinset.card ∧
      ∃ visits : List (Σ _ : K, V), visits.NodupKeys ∧
        (∀ k v, ⟨k, v⟩ ∈ visits ↔ lastPut ops k = some v) ∧
        ∀ {M : Type → Type} [Monad M] [LawfulMonad M] (f : K → V → M Bool),
          m.foreach f = visits.allM fun p => f p.1 p.2 := by
  intro m
  have h : Inv H ops m := by
    have := Inv.foldl ops (Inv.new (V := V) H)
    rwa [List.nil_append] at this
  have hnd := h.wf.nodupKeys
  refine ⟨fun k => ?_, ?_, _, hnd, fun k v => ?_, fun f => Trie.foreach_eq _ _ f⟩
  · rw [Map.get, h.wf.getp, h.lookup]
  · -- the keys bound are the keys put
    rw [h.size, Packed.length_eq_card_keys hnd]
    congr 1
    ext k
    rw [List.mem_toFinset, List.mem_toFinset, ← List.dlookup_isSome, h.lookup, lastPut_isSome]
  · rw [← List.mem_dlookup_iff hnd, h.lookup, Option.mem_def]

/-- A hash that sends 1, 4 and 7 to the same slot at every depth, down to a collision node. -/
example :
    let h3 : Nat → Hash := fun k => (k % 3).toUInt32
    let m := [(1, 10), (4, 40), (7, 70), (4, 41)].foldl (fun m p => m.put h3 p.1 p.2)
      (new : Map Nat Nat)
    m.get h3 4 = some 41 ∧ m.get h3 7 = some 70 ∧ m.get h3 2 = none ∧ m.size = 3 := by
  decide

end Map

end Ccf.Champ
