import Mathlib.Algebra.Ring.Int.Defs
import Mathlib.Data.List.Nodup
import Ccf.Pbft.ReqQueue

/-!
# `Req_queue` is a queue of distinct requests

What the queue is for is a list of requests, oldest first, no two under one key (`Spec`).
`Rep q l` says that the linked nodes of `q` store `l`: the index `reqs` holds exactly the
queued requests, each node's `next` and `prev` name its neighbours in `l`, `head` and `tail`
its ends, and `size()` and `num_bytes()` count it. The counters are `int`s: they are the
length and the byte total of `l` reduced to 32 bits, equal to them while they fit.

Each operation keeps `Rep` and answers as the list does (`Rep.append`, `Rep.remove`,
`Rep.removeKey`); by induction on the calls, so does every run from the empty queue.
-/

namespace Ccf.Pbft

namespace ReqQueue

/-! ## What the queue holds -/

/-- The key of the first request. -/
def headKey (l : List Request) : Option Key := l.head?.map keyOf

/-- The key of the last request. -/
def lastKey (l : List Request) : Option Key := l.getLast?.map keyOf

/-- The byte total of the requests, as a mathematical integer. -/
def bytes (l : List Request) : Int := (l.map fun r => r.size.toInt).sum

/-- The nodes that store `l` behind the node `prev`: each request under its key, its `next`
and `prev` naming its neighbours. -/
def nodesOf : List Request → Option Key → Nodes
  | [], _ => fun _ => none
  | r :: l, prev => Function.update (nodesOf l (some (keyOf r))) (keyOf r) (some ⟨r, headKey l, prev⟩)

-- Made here once: the equation lemmas that the proofs below unfold.
section
attribute [local simp] headKey lastKey bytes
end

namespace Spec

/-- `append`: a request whose key is not queued goes at the back. -/
def append (l : List Request) (r : Request) : List Request × Bool :=
  if keyOf r ∈ l.map keyOf then (l, false) else (l ++ [r], true)

/-- `remove()`: the oldest request. -/
def remove : List Request → Option Request × List Request
  | [] => (none, [])
  | r :: l => (some r, l)

/-- `remove(cid, rid)`: drop the request of key `k`, and tell whether it was the oldest. -/
def removeKey (l : List Request) (k : Key) : Bool × List Request :=
  if k ∈ l.map keyOf then (decide (headKey l = some k), l.filter fun r => keyOf r ≠ k)
  else (false, l)

/-- One call on the list. -/
def step (l : List Request) : Op → Out × List Request
  | .append r => ((Out.appended (append l r).2), (append l r).1)
  | .remove => (.removed (remove l).1, (remove l).2)
  | .removeKey cid rid => (.removedKey (removeKey l ⟨sizeT cid, rid⟩).1, (removeKey l ⟨sizeT cid, rid⟩).2)
  | .clear => (.cleared, [])

/-- The calls in order, on the list. -/
def run (l : List Request) : List Op → List Out × List Request
  | [] => ([], l)
  | op :: ops => ((step l op).1 :: (run (step l op).2 ops).1, (run (step l op).2 ops).2)

-- Made here once: the equation lemmas that the proofs below unfold.
section
attribute [local simp] append remove removeKey run
end

end Spec

/-- The queue `q` stores the list `l`. -/
structure Rep (q : ReqQueue) (l : List Request) : Prop where
  /-- No key is queued twice. -/
  nodup : (l.map keyOf).Nodup
  /-- The index holds one node per queued request, linked to its neighbours. -/
  reqs : q.reqs = nodesOf l none
  head : q.head = headKey l
  tail : q.tail = lastKey l
  /-- `size()`: the number of requests, as an `int`. -/
  size : q.size = Int32.ofNat l.length
  /-- `num_bytes()`: their total size, as an `int`. -/
  numBytes : q.numBytes = Int32.ofInt (bytes l)

/-! ## Ends of a list -/

@[simp] theorem headKey_nil : headKey [] = none := rfl

@[simp] theorem headKey_cons (r : Request) (l : List Request) :
    headKey (r :: l) = some (keyOf r) := rfl

@[simp] theorem lastKey_nil : lastKey [] = none := rfl

@[simp] theorem lastKey_singleton (r : Request) : lastKey [r] = some (keyOf r) := rfl

theorem headKey_append (l₁ l₂ : List Request) :
    headKey (l₁ ++ l₂) = (headKey l₁).or (headKey l₂) := by
  simp only [headKey, List.head?_append, Option.map_or]

theorem lastKey_append (l₁ l₂ : List Request) :
    lastKey (l₁ ++ l₂) = (lastKey l₂).or (lastKey l₁) := by
  simp only [lastKey, List.getLast?_append, Option.map_or]

@[simp] theorem headKey_eq_none {l : List Request} : headKey l = none ↔ l = [] := by
  simp [headKey]

@[simp] theorem lastKey_eq_none {l : List Request} : lastKey l = none ↔ l = [] := by
  simp [lastKey]

@[simp] theorem lastKey_cons_cons (a b : Request) (l : List Request) :
    lastKey (a :: b :: l) = lastKey (b :: l) := by
  simp only [lastKey, List.getLast?_cons_cons]

/-- Behind `a`, the last node's `prev` is `a` if nothing else is. -/
theorem lastKey_cons_or (a : Request) (l : List Request) (p : Option Key) :
    (lastKey (a :: l)).or p = (lastKey l).or (some (keyOf a)) := by
  cases l with
  | nil => rfl
  | cons b l =>
    obtain ⟨k, hk⟩ := Option.ne_none_iff_exists'.mp (mt lastKey_eq_none.mp (List.cons_ne_nil b l))
    rw [lastKey_cons_cons, hk]
    rfl

theorem headKey_ne_of_not_mem {k : Key} {l : List Request} (h : k ∉ l.map keyOf) :
    headKey l ≠ some k := by
  cases l with
  | nil => simp
  | cons r l =>
    rw [headKey_cons, ne_eq, Option.some_inj]
    rintro rfl
    exact h (by simp)

theorem lastKey_ne_of_not_mem {k : Key} {l : List Request} (h : k ∉ l.map keyOf) :
    lastKey l ≠ some k := by
  intro hk
  obtain ⟨r, hr, rfl⟩ : ∃ r, l.getLast? = some r ∧ keyOf r = k := Option.map_eq_some_iff.mp hk
  exact h (List.mem_map.mpr ⟨r, List.mem_of_getLast? hr, rfl⟩)

/-- The first key once `r` is taken out: the key after it if `r` was first. -/
theorem headKey_unlink (l₁ : List Request) (r : Request) (l₂ : List Request) :
    (if lastKey l₁ = none then headKey l₂ else headKey (l₁ ++ r :: l₂)) =
      headKey (l₁ ++ l₂) := by
  cases l₁ with
  | nil => rfl
  | cons a l₁ =>
    rw [if_neg (by simp)]
    rfl

/-- The last key once `r` is taken out: the key before it if `r` was last. -/
theorem lastKey_unlink (l₁ : List Request) (r : Request) (l₂ : List Request) :
    (if headKey l₂ = none then lastKey l₁ else lastKey (l₁ ++ r :: l₂)) =
      lastKey (l₁ ++ l₂) := by
  cases l₂ with
  | nil => rw [headKey_nil, if_pos rfl, List.append_nil]
  | cons b l₂ => rw [if_neg (by simp), lastKey_append, lastKey_append, lastKey_cons_cons]

/-- Taking `r` out of a list with distinct keys leaves distinct keys, none of them `r`'s. -/
theorem nodup_unlink {l₁ : List Request} {r : Request} {l₂ : List Request}
    (hnd : ((l₁ ++ r :: l₂).map keyOf).Nodup) :
    keyOf r ∉ (l₁ ++ l₂).map keyOf ∧ ((l₁ ++ l₂).map keyOf).Nodup := by
  rw [← List.nodup_cons, List.map_append, ← List.nodup_middle]
  simpa only [List.map_append, List.map_cons] using hnd

/-- With distinct keys, dropping the requests of `r`'s key drops `r` alone. -/
theorem filter_unlink {l₁ : List Request} {r : Request} {l₂ : List Request}
    (hnd : ((l₁ ++ r :: l₂).map keyOf).Nodup) :
    (l₁ ++ r :: l₂).filter (fun x => keyOf x ≠ keyOf r) = l₁ ++ l₂ := by
  have hother : ∀ x ∈ l₁ ++ l₂, decide (keyOf x ≠ keyOf r) = true := fun x hx =>
    decide_eq_true fun e => (nodup_unlink hnd).1 (e ▸ List.mem_map_of_mem hx)
  rw [List.filter_append, List.filter_cons_of_neg (by simp),
    List.filter_eq_self.mpr fun x hx => hother x (List.mem_append_left _ hx),
    List.filter_eq_self.mpr fun x hx => hother x (List.mem_append_right _ hx)]

/-! ## Writes through a pointer -/

@[simp] theorem setNext_none (reqs : Nodes) (v : Option Key) : setNext reqs none v = reqs := rfl

@[simp] theorem setPrev_none (reqs : Nodes) (v : Option Key) : setPrev reqs none v = reqs := rfl

theorem setNext_update_self (reqs : Nodes) (k : Key) (n : RNode) (v : Option Key) :
    setNext (Function.update reqs k (some n)) (some k) v =
      Function.update reqs k (some { n with next := v }) := by
  simp [setNext]

theorem setPrev_update_self (reqs : Nodes) (k : Key) (n : RNode) (v : Option Key) :
    setPrev (Function.update reqs k (some n)) (some k) v =
      Function.update reqs k (some { n with prev := v }) := by
  simp [setPrev]

/-- A write through a pointer to another node commutes with storing the node at `k`. -/
theorem setNext_update_of_ne {p : Option Key} {k : Key} (h : p ≠ some k) (reqs : Nodes)
    (n : Option RNode) (v : Option Key) :
    setNext (Function.update reqs k n) p v = Function.update (setNext reqs p v) k n := by
  cases p with
  | none => rfl
  | some j =>
    have hjk : j ≠ k := fun e => h (e ▸ rfl)
    simp only [setNext, Function.update_of_ne hjk]
    exact (Function.update_comm hjk _ _ _).symm

theorem setPrev_update_of_ne {p : Option Key} {k : Key} (h : p ≠ some k) (reqs : Nodes)
    (n : Option RNode) (v : Option Key) :
    setPrev (Function.update reqs k n) p v = Function.update (setPrev reqs p v) k n := by
  cases p with
  | none => rfl
  | some j =>
    have hjk : j ≠ k := fun e => h (e ▸ rfl)
    simp only [setPrev, Function.update_of_ne hjk]
    exact (Function.update_comm hjk _ _ _).symm

/-! ## The nodes of a list -/

@[simp] theorem nodesOf_nil (p : Option Key) : nodesOf [] p = fun _ => none := rfl

theorem nodesOf_cons (r : Request) (l : List Request) (p : Option Key) :
    nodesOf (r :: l) p =
      Function.update (nodesOf l (some (keyOf r))) (keyOf r) (some ⟨r, headKey l, p⟩) := rfl

/-- A key has a node exactly when a request of that key is in the list. -/
theorem nodesOf_eq_none_iff {l : List Request} {p : Option Key} {k : Key} :
    nodesOf l p k = none ↔ k ∉ l.map keyOf := by
  induction l generalizing p with
  | nil => simp
  | cons r l ih =>
    by_cases hk : k = keyOf r
    · subst hk
      simp [nodesOf_cons]
    · simp [nodesOf_cons, ih, hk]

/-- Only the first node names the node before the list. -/
theorem setPrev_nodesOf (l : List Request) (p p' : Option Key) :
    setPrev (nodesOf l p) (headKey l) p' = nodesOf l p' := by
  cases l with
  | nil => rfl
  | cons r l => rw [headKey_cons, nodesOf_cons, setPrev_update_self, nodesOf_cons]

/-- The node of `r`, wherever it is in the list. -/
theorem nodesOf_node (l₁ : List Request) (r : Request) (l₂ : List Request) (p : Option Key)
    (hr : keyOf r ∉ l₁.map keyOf) :
    nodesOf (l₁ ++ r :: l₂) p (keyOf r) = some ⟨r, headKey l₂, (lastKey l₁).or p⟩ := by
  induction l₁ generalizing p with
  | nil => simp [nodesOf_cons]
  | cons a l₁ ih =>
    have hra : keyOf r ≠ keyOf a := fun e => hr (by simp [e])
    rw [List.cons_append, nodesOf_cons, Function.update_of_ne hra, lastKey_cons_or]
    exact ih _ fun h => hr (List.mem_cons_of_mem _ h)

/-- `append`: the old last node points on to the new one, which points back to it. -/
theorem nodesOf_snoc (l : List Request) (r : Request) (p : Option Key)
    (hnd : ((l ++ [r]).map keyOf).Nodup) :
    nodesOf (l ++ [r]) p = Function.update (setNext (nodesOf l p) (lastKey l) (some (keyOf r)))
      (keyOf r) (some ⟨r, none, (lastKey l).or p⟩) := by
  induction l generalizing p with
  | nil => rfl
  | cons a l ih =>
    rw [List.cons_append, List.map_cons, List.nodup_cons] at hnd
    obtain ⟨ha, hnd⟩ := hnd
    have hra : keyOf a ≠ keyOf r := fun e => ha (by simp [e])
    rw [List.cons_append, nodesOf_cons, ih _ hnd, nodesOf_cons, lastKey_cons_or]
    cases l with
    | nil =>
      -- `a` was last: its own `next` now names `r`
      rw [lastKey_singleton, setNext_update_self]
      exact Function.update_comm hra.symm _ _ _
    | cons b l =>
      -- the last node is further on, and `a` keeps its `next`
      have hla : lastKey (b :: l) ≠ some (keyOf a) :=
        lastKey_ne_of_not_mem fun h => ha (by simp only [List.map_append]; exact List.mem_append_left _ h)
      rw [lastKey_cons_cons, setNext_update_of_ne hla]
      exact Function.update_comm hra.symm _ _ _

/-- `remove`: the neighbours of `r` are linked to each other, and its node goes. -/
theorem nodesOf_unlink (l₁ : List Request) (r : Request) (l₂ : List Request) (p : Option Key)
    (hnd : ((l₁ ++ r :: l₂).map keyOf).Nodup) :
    Function.update (setPrev (setNext (nodesOf (l₁ ++ r :: l₂) p) (lastKey l₁) (headKey l₂))
      (headKey l₂) ((lastKey l₁).or p)) (keyOf r) none = nodesOf (l₁ ++ l₂) p := by
  induction l₁ generalizing p with
  | nil =>
    -- `r` is first: the node after it now names `p`
    have hr : keyOf r ∉ l₂.map keyOf := (List.nodup_cons.mp hnd).1
    rw [List.nil_append, List.nil_append, nodesOf_cons, lastKey_nil, setNext_none, Option.none_or,
      setPrev_update_of_ne (headKey_ne_of_not_mem hr), Function.update_idem, setPrev_nodesOf,
      Function.update_eq_self_iff]
    exact (nodesOf_eq_none_iff.mpr hr).symm
  | cons a l₁ ih =>
    rw [List.cons_append, List.map_cons, List.nodup_cons] at hnd
    obtain ⟨ha, hnd⟩ := hnd
    simp only [List.map_append, List.map_cons, List.mem_append, List.mem_cons, not_or] at ha
    obtain ⟨ha₁, har, ha₂⟩ := ha
    have ih := ih (some (keyOf a)) hnd
    have h₂a := headKey_ne_of_not_mem ha₂
    rw [List.cons_append, List.cons_append, nodesOf_cons, nodesOf_cons]
    cases l₁ with
    | nil =>
      -- `a` comes just before `r`: its `next` moves on to `l₂`
      simp only [List.nil_append, lastKey_nil, setNext_none, Option.none_or] at ih ⊢
      rw [lastKey_singleton, Option.some_or, setNext_update_self, setPrev_update_of_ne h₂a,
        Function.update_comm har, ih]
    | cons b l₁ =>
      -- the predecessor of `r` is further on, and `a` keeps its links
      rw [lastKey_cons_or, lastKey_cons_cons, setNext_update_of_ne (lastKey_ne_of_not_mem ha₁),
        setPrev_update_of_ne h₂a, Function.update_comm har, ih]
      rfl

/-! ## Counters -/

theorem bytes_cons (r : Request) (l : List Request) : bytes (r :: l) = bytes l + r.size.toInt := by
  simp only [bytes, List.map_cons, List.sum_cons]
  omega

theorem bytes_snoc (l : List Request) (r : Request) : bytes (l ++ [r]) = bytes l + r.size.toInt := by
  simp [bytes]

theorem bytes_middle (l₁ : List Request) (r : Request) (l₂ : List Request) :
    bytes (l₁ ++ r :: l₂) = bytes (l₁ ++ l₂) + r.size.toInt := by
  simp only [bytes, List.map_append, List.map_cons, List.sum_append, List.sum_cons]
  omega

theorem ofNat_succ (n : Nat) : Int32.ofNat (n + 1) = Int32.ofNat n + 1 := by
  rw [Int32.ofNat_add]
  rfl

theorem ofInt_add_toInt (a : Int) (b : Int32) : Int32.ofInt (a + b.toInt) = Int32.ofInt a + b := by
  rw [Int32.ofInt_add, Int32.ofInt_toInt]

theorem ofNat_succ_sub_one (n : Nat) : Int32.ofNat (n + 1) - 1 = Int32.ofNat n := by
  rw [ofNat_succ, Int32.add_sub_cancel]

theorem ofInt_add_toInt_sub (a : Int) (b : Int32) : Int32.ofInt (a + b.toInt) - b = Int32.ofInt a := by
  rw [ofInt_add_toInt, Int32.add_sub_cancel]

/-! ## The calls -/

section Calls

variable {q : ReqQueue}

/-- `append` of a queued key returns `false` and changes nothing. -/
theorem append_of_some {r : Request} {n : RNode} (h : q.reqs (keyOf r) = some n) :
    q.append r = (q, false) := by
  simp [append, h]

/-- `append` of a new key, both branches of the source in one: a queue with no `head` has no
`tail`, and `tail->next = rn` through no node writes nothing. -/
theorem append_of_none {r : Request} (h : q.reqs (keyOf r) = none)
    (ht : q.head = none → q.tail = none) :
    q.append r =
      ({ reqs := Function.update (setNext q.reqs q.tail (some (keyOf r))) (keyOf r)
                  (some ⟨r, none, q.tail⟩),
         head := q.head.or (some (keyOf r)), tail := some (keyOf r), nelems := q.nelems + 1,
         nbytes := q.nbytes + r.size }, true) := by
  unfold append
  simp only [h]
  cases hh : q.head with
  | none => simp [ht hh]
  | some k => rfl

/-- `remove()` on an empty queue returns nothing and changes nothing. -/
theorem remove_of_head_none (h : q.head = none) : q.remove = (none, q) := by
  simp [remove, h]

/-- `remove()` takes the first node off: the next one becomes first, with no `prev`. -/
theorem remove_of_some {k : Key} {n : RNode} (hh : q.head = some k) (hk : q.reqs k = some n) :
    q.remove =
      (some n.r, { reqs := Function.update (setPrev q.reqs n.next none) (keyOf n.r) none,
                   head := n.next, tail := if n.next = none then none else q.tail,
                   nelems := q.nelems - 1, nbytes := q.nbytes - n.r.size }) := by
  unfold remove
  rw [hh]
  simp only [hk]
  cases n.next <;> rfl

/-- `remove(cid, rid)` of a key that is not queued returns `false` and changes nothing. -/
theorem removeKey_of_none {cid : Int32} {rid : RequestId} (h : q.reqs ⟨sizeT cid, rid⟩ = none) :
    q.removeKey cid rid = (false, q) := by
  simp [removeKey, h]

/-- `remove(cid, rid)` of a queued key, its four branches in one: the neighbours are linked
to each other, through no node where there is none, and an end moves where the node was one. -/
theorem removeKey_of_some {cid : Int32} {rid : RequestId} {n : RNode}
    (h : q.reqs ⟨sizeT cid, rid⟩ = some n) :
    q.removeKey cid rid =
      (n.prev.isNone,
        { reqs := Function.update (setPrev (setNext q.reqs n.prev n.next) n.next n.prev)
                    ⟨sizeT cid, rid⟩ none,
          head := if n.prev = none then n.next else q.head,
          tail := if n.next = none then n.prev else q.tail,
          nelems := q.nelems - 1, nbytes := q.nbytes - n.r.size }) := by
  unfold removeKey
  simp only [h]
  obtain ⟨r, next, prev⟩ := n
  cases prev <;> cases next <;> rfl

end Calls

/-! ## Each call keeps the representation -/

section Rep

variable {q : ReqQueue} {l : List Request}

/-- The empty queue stores the empty list. -/
theorem Rep.new : Rep new [] := ⟨List.nodup_nil, rfl, rfl, rfl, rfl, rfl⟩

/-- `first()` is the oldest request. -/
theorem Rep.first (h : Rep q l) : q.first = l.head? := by
  cases l with
  | nil => simp [ReqQueue.first, h.head]
  | cons r l => simp [ReqQueue.first, h.head, h.reqs, nodesOf_cons]

theorem Rep.append (h : Rep q l) (r : Request) :
    (q.append r).2 = (Spec.append l r).2 ∧ Rep (q.append r).1 (Spec.append l r).1 := by
  by_cases hk : keyOf r ∈ l.map keyOf
  · -- the key is queued: nothing changes
    obtain ⟨n, hn⟩ := Option.ne_none_iff_exists'.mp (mt nodesOf_eq_none_iff.mp (not_not.mpr hk))
    rw [append_of_some (h.reqs ▸ hn), Spec.append, if_pos hk]
    exact ⟨rfl, h⟩
  · have hnd : ((l ++ [r]).map keyOf).Nodup := by
      rw [List.map_append, List.nodup_append]
      exact ⟨h.nodup, List.nodup_singleton _, fun a ha b hb => by
        simp only [List.map_cons, List.map_nil, List.mem_singleton] at hb
        rintro rfl
        exact hk (hb ▸ ha)⟩
    have hnone : q.reqs (keyOf r) = none := by rw [h.reqs]; exact nodesOf_eq_none_iff.mpr hk
    have ht : q.head = none → q.tail = none := fun hh => by
      rw [h.tail, lastKey_eq_none.mpr (headKey_eq_none.mp (h.head ▸ hh))]
    rw [append_of_none hnone ht, Spec.append, if_neg hk]
    refine ⟨rfl, hnd, ?_, ?_, ?_, ?_, ?_⟩
    · show Function.update (setNext q.reqs q.tail _) _ _ = _
      rw [h.reqs, h.tail, nodesOf_snoc l r none hnd, Option.or_none]
    · show q.head.or _ = _
      rw [h.head, headKey_append]
      rfl
    · show _ = lastKey (l ++ [r])
      rw [lastKey_append]
      rfl
    · show q.nelems + 1 = _
      rw [show q.nelems = _ from h.size, List.length_append, List.length_singleton, ofNat_succ]
    · show q.nbytes + r.size = _
      rw [show q.nbytes = _ from h.numBytes, bytes_snoc, ofInt_add_toInt]

theorem Rep.remove (h : Rep q l) :
    q.remove.1 = (Spec.remove l).1 ∧ Rep q.remove.2 (Spec.remove l).2 := by
  cases l with
  | nil =>
    rw [remove_of_head_none h.head]
    exact ⟨rfl, h⟩
  | cons r l =>
    have hn : q.reqs (keyOf r) = some ⟨r, headKey l, none⟩ := by
      rw [h.reqs, nodesOf_cons, Function.update_self]
    have hnd := h.nodup
    rw [remove_of_some h.head hn]
    refine ⟨rfl, (List.nodup_cons.mp hnd).2, ?_, rfl, ?_, ?_, ?_⟩
    · -- the node after `r` becomes the first
      have hu := nodesOf_unlink [] r l none hnd
      simp only [List.nil_append, lastKey_nil, setNext_none, Option.none_or] at hu
      show Function.update (setPrev q.reqs (headKey l) none) (keyOf r) none = nodesOf l none
      rw [← hu, h.reqs]
    · show (if headKey l = none then none else q.tail) = lastKey l
      rw [h.tail]
      exact lastKey_unlink [] r l
    · show q.nelems - 1 = Int32.ofNat l.length
      rw [show q.nelems = _ from h.size, List.length_cons, ofNat_succ_sub_one]
    · show q.nbytes - r.size = Int32.ofInt (bytes l)
      rw [show q.nbytes = _ from h.numBytes, bytes_cons, ofInt_add_toInt_sub]

theorem Rep.removeKey (h : Rep q l) (cid : Int32) (rid : RequestId) :
    (q.removeKey cid rid).1 = (Spec.removeKey l ⟨sizeT cid, rid⟩).1 ∧
      Rep (q.removeKey cid rid).2 (Spec.removeKey l ⟨sizeT cid, rid⟩).2 := by
  by_cases hk : (⟨sizeT cid, rid⟩ : Key) ∈ l.map keyOf
  · obtain ⟨r, hr, hkr⟩ := List.mem_map.mp hk
    obtain ⟨l₁, l₂, rfl⟩ := List.append_of_mem hr
    have hnd := h.nodup
    obtain ⟨hr', hnd₁₂⟩ := nodup_unlink hnd
    have hr₁ : keyOf r ∉ l₁.map keyOf := fun hm =>
      hr' (by rw [List.map_append]; exact List.mem_append_left _ hm)
    have hn : q.reqs ⟨sizeT cid, rid⟩ = some ⟨r, headKey l₂, lastKey l₁⟩ := by
      rw [h.reqs, ← hkr, nodesOf_node _ _ _ _ hr₁, Option.or_none]
    rw [removeKey_of_some hn, Spec.removeKey, if_pos hk, ← hkr, filter_unlink hnd, hkr]
    refine ⟨?_, hnd₁₂, ?_, ?_, ?_, ?_, ?_⟩
    · -- `true` exactly when `r` had no predecessor
      show (lastKey l₁).isNone = decide (headKey (l₁ ++ r :: l₂) = some _)
      cases l₁ with
      | nil => simp [hkr]
      | cons a l₁ =>
        have har : keyOf a ≠ keyOf r := fun e => hr₁ (by simp [e])
        simp [← hkr, har, Option.isSome_iff_ne_none]
    · show Function.update (setPrev (setNext q.reqs (lastKey l₁) (headKey l₂)) (headKey l₂)
        (lastKey l₁)) ⟨sizeT cid, rid⟩ none = nodesOf (l₁ ++ l₂) none
      have hu := nodesOf_unlink l₁ r l₂ none hnd
      rw [Option.or_none, hkr] at hu
      rw [h.reqs]
      exact hu
    · show (if lastKey l₁ = none then headKey l₂ else q.head) = headKey (l₁ ++ l₂)
      rw [h.head]
      exact headKey_unlink l₁ r l₂
    · show (if headKey l₂ = none then lastKey l₁ else q.tail) = lastKey (l₁ ++ l₂)
      rw [h.tail]
      exact lastKey_unlink l₁ r l₂
    · show q.nelems - 1 = Int32.ofNat (l₁ ++ l₂).length
      have hlen : (l₁ ++ r :: l₂).length = (l₁ ++ l₂).length + 1 := by
        simp only [List.length_append, List.length_cons]
        omega
      rw [show q.nelems = _ from h.size, hlen, ofNat_succ_sub_one]
    · show q.nbytes - r.size = Int32.ofInt (bytes (l₁ ++ l₂))
      rw [show q.nbytes = _ from h.numBytes, bytes_middle, ofInt_add_toInt_sub]
  · rw [removeKey_of_none (by rw [h.reqs]; exact nodesOf_eq_none_iff.mpr hk), Spec.removeKey,
      if_neg hk]
    exact ⟨rfl, h⟩

/-- While the count fits an `int`, `size()` is the count. -/
theorem Rep.size_toInt (h : Rep q l) (hlen : l.length < 2147483648) :
    q.size.toInt = l.length := by
  rw [h.size, ← Int32.ofInt_eq_ofNat, Int32.toInt_ofInt_of_le (by omega) (by omega)]

/-- While the byte total fits an `int`, `num_bytes()` is the byte total. -/
theorem Rep.numBytes_toInt (h : Rep q l) (hlo : -2147483648 ≤ bytes l)
    (hhi : bytes l < 2147483648) : q.numBytes.toInt = bytes l := by
  rw [h.numBytes, Int32.toInt_ofInt_of_le (by omega) (by omega)]

theorem Rep.clear (q : ReqQueue) : Rep q.clear [] := ⟨List.nodup_nil, rfl, rfl, rfl, rfl, rfl⟩

/-- One call answers as the list does, and the queue after it stores the list after it. -/
theorem Rep.step (h : Rep q l) (op : Op) :
    (q.step op).1 = (Spec.step l op).1 ∧ Rep (q.step op).2 (Spec.step l op).2 := by
  cases op with
  | append r =>
    obtain ⟨hok, hrep⟩ := h.append r
    exact ⟨congrArg Out.appended hok, hrep⟩
  | remove =>
    obtain ⟨hr, hrep⟩ := h.remove
    exact ⟨congrArg Out.removed hr, hrep⟩
  | removeKey cid rid =>
    obtain ⟨hb, hrep⟩ := h.removeKey cid rid
    exact ⟨congrArg Out.removedKey hb, hrep⟩
  | clear => exact ⟨rfl, Rep.clear q⟩

/-- Every run answers as the list does, call by call, and keeps the representation. -/
theorem Rep.run (h : Rep q l) (ops : List Op) :
    (q.run ops).1 = (Spec.run l ops).1 ∧ Rep (q.run ops).2 (Spec.run l ops).2 := by
  induction ops generalizing q l with
  | nil => exact ⟨rfl, h⟩
  | cons op ops ih =>
    obtain ⟨ho, hs⟩ := h.step op
    obtain ⟨hos, hrs⟩ := ih hs
    exact ⟨congrArg₂ List.cons ho hos, hrs⟩

end Rep

/-- Three clients; the second request is appended twice and then taken from the middle. -/
def threeClients : List Op :=
  [.append ⟨1, 7, 100⟩, .append ⟨2, 7, 200⟩, .append ⟨3, 7, 300⟩, .append ⟨2, 7, 200⟩,
    .removeKey 2 7, .remove]

/-- Two requests of a gibibyte each. -/
def twoLargeRequests : List Op := [.append ⟨1, 1, 1073741824⟩, .append ⟨2, 1, 1073741824⟩]

end ReqQueue

end Ccf.Pbft
