import Mathlib.Logic.Function.Basic
import Ccf.Pbft.Types

/-!
# The queue of requests (`consensus/pbft/libbyz/Req_queue.cpp`)

`Req_queue` keeps the requests a replica has received and not yet ordered, oldest first, at most
one per key `(cid, rid)`. Its nodes form a doubly linked list, `head` to `tail` through `next`
and back through `prev`, and each node is owned by the hash map `reqs` under its request's key.

A pointer to a node is the key the node is stored under: every node is in `reqs`, under one key.
A write through a pointer (`tail->next = rn`) changes the node stored under that key; through a
null pointer, which the representation invariant of `Proof/ReqQueue.lean` rules out, it changes
nothing. The counters `nelems` and `nbytes` are `int`s, and wrap.

`Request` is reduced to what the queue reads of it: `client_id()`, `request_id()` and `size()`.
-/

namespace Ccf.Pbft

/-- `Request_id`: `ULong`. -/
abbrev RequestId := UInt64

/-- What `Req_queue` reads of a `Request`. -/
structure Request where
  /-- `client_id()`, an `int`. -/
  clientId : Int32
  /-- `request_id()`. -/
  requestId : RequestId
  /-- `size()`, an `int`. -/
  size : Int32
  deriving DecidableEq, Repr

namespace ReqQueue

/-- `Req_queue::Key`. -/
structure Key where
  cid : UInt64
  rid : RequestId
  deriving DecidableEq, Repr

/-- An `int` client id as the `size_t` of the key: `size_t cid = r->client_id()` in `append`,
`(size_t)cid` in the two `remove`s. -/
def sizeT (cid : Int32) : UInt64 := cid.toInt64.toUInt64

/-- The key a request is stored under. -/
def keyOf (r : Request) : Key := ⟨sizeT r.clientId, r.requestId⟩

/-- `Req_queue::RNode`, with its pointers given by the keys of the nodes they point to. -/
structure RNode where
  r : Request
  next : Option Key
  prev : Option Key
  deriving DecidableEq, Repr

/-- The nodes, stored in `reqs` by key. -/
abbrev Nodes := Key → Option RNode

/-- `p->next = v`, for the node `p` points to. -/
def setNext (reqs : Nodes) (p : Option Key) (v : Option Key) : Nodes :=
  match p with
  | none => reqs
  | some k => Function.update reqs k ((reqs k).map fun n => { n with next := v })

/-- `p->prev = v`, for the node `p` points to. -/
def setPrev (reqs : Nodes) (p : Option Key) (v : Option Key) : Nodes :=
  match p with
  | none => reqs
  | some k => Function.update reqs k ((reqs k).map fun n => { n with prev := v })

-- Made here once: the equation lemmas that the proofs below unfold.
section
attribute [local simp] setNext setPrev
end

end ReqQueue

open ReqQueue in
/-- `Req_queue`. -/
structure ReqQueue where
  reqs : Nodes
  head : Option Key
  tail : Option Key
  /-- Number of elements in queue. -/
  nelems : Int32
  /-- Number of bytes in queue. -/
  nbytes : Int32

namespace ReqQueue

/-- The constructor: an empty queue. -/
def new : ReqQueue := ⟨fun _ => none, none, none, 0, 0⟩

/-- `append(r)`: a request whose key is not queued goes at the back. -/
def append (q : ReqQueue) (r : Request) : ReqQueue × Bool :=
  let k := keyOf r
  match q.reqs k with
  | some _ => (q, false)
  | none =>
      let nbytes := q.nbytes + r.size
      let nelems := q.nelems + 1
      match q.head with
      | none =>
          -- `head = tail = rn`, with no neighbours
          ({ reqs := Function.update q.reqs k (some ⟨r, none, none⟩), head := some k,
              tail := some k, nelems, nbytes }, true)
      | some _ =>
          -- `tail->next = rn; rn->prev = tail; rn->next = nullptr; tail = rn`
          let reqs := setNext q.reqs q.tail (some k)
          ({ reqs := Function.update reqs k (some ⟨r, none, q.tail⟩), head := q.head,
              tail := some k, nelems, nbytes }, true)

/-- `remove()`: the first request, taken off the front. -/
def remove (q : ReqQueue) : Option Request × ReqQueue :=
  match q.head with
  | none => (none, q)
  | some h =>
      match q.reqs h with
      | none => (none, q)
      | some hn =>
          let ret := hn.r
          let head := hn.next
          -- `head->prev = nullptr`, or `tail = nullptr` once the queue is empty
          let (reqs, tail) := match head with
            | some _ => (setPrev q.reqs head none, q.tail)
            | none => (q.reqs, none)
          let q : ReqQueue := { reqs := Function.update reqs (keyOf ret) none, head, tail,
                                nelems := q.nelems - 1, nbytes := q.nbytes - ret.size }
          (some ret, q)

/-- `remove(cid, rid)`: the request of that key, unlinked from wherever it is; `true` if it was
the first. -/
def removeKey (q : ReqQueue) (cid : Int32) (rid : RequestId) : Bool × ReqQueue :=
  let k : Key := ⟨sizeT cid, rid⟩
  match q.reqs k with
  | none => (false, q)
  | some rn =>
      let nelems := q.nelems - 1
      let nbytes := q.nbytes - rn.r.size
      -- `head = rn->next`, or `rn->prev->next = rn->next`
      let (ret, head, reqs) := match rn.prev with
        | none => (true, rn.next, q.reqs)
        | some _ => (false, q.head, setNext q.reqs rn.prev rn.next)
      -- `tail = rn->prev`, or `rn->next->prev = rn->prev`
      let (tail, reqs) := match rn.next with
        | none => (rn.prev, reqs)
        | some _ => (q.tail, setPrev reqs rn.next rn.prev)
      (ret, { reqs := Function.update reqs k none, head, tail, nelems, nbytes })

/-- `clear()`. -/
def clear (q : ReqQueue) : ReqQueue :=
  { q with reqs := fun _ => none, head := none, tail := none, nelems := 0, nbytes := 0 }

/-- `first()`. -/
def first (q : ReqQueue) : Option Request :=
  q.head.bind fun h => (q.reqs h).map (·.r)

/-- `size()`. -/
def size (q : ReqQueue) : Int32 := q.nelems

/-- `num_bytes()`. -/
def numBytes (q : ReqQueue) : Int32 := q.nbytes

-- Made here once: the equation lemmas that the proofs below unfold.
section
attribute [local simp] new append remove removeKey clear first size numBytes
end

/-- A call on the queue. -/
inductive Op
  | append (r : Request)
  | remove
  | removeKey (cid : Int32) (rid : RequestId)
  | clear
  deriving DecidableEq, Repr

/-- What a call returns. -/
inductive Out
  | appended (ok : Bool)
  | removed (r : Option Request)
  | removedKey (first : Bool)
  | cleared
  deriving DecidableEq, Repr

/-- One call. -/
def step (q : ReqQueue) : Op → Out × ReqQueue
  | .append r => let (q, ok) := q.append r; (.appended ok, q)
  | .remove => let (r, q) := q.remove; (.removed r, q)
  | .removeKey cid rid => let (b, q) := q.removeKey cid rid; (.removedKey b, q)
  | .clear => (.cleared, q.clear)

/-- The calls in order: what each returns, and the queue after them. -/
def run (q : ReqQueue) : List Op → List Out × ReqQueue
  | [] => ([], q)
  | op :: ops =>
      let (o, q) := q.step op
      let (os, q) := q.run ops
      (o :: os, q)

-- Made here once: the equation lemmas that the proofs below unfold.
section
attribute [local simp] run
end

end ReqQueue

end Ccf.Pbft
