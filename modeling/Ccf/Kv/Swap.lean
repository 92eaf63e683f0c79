import Ccf.Kv.Store
import Ccf.Lib.Exec

/-!
# Swapping in private state (`Store::swap_private_maps`, `kv/kv.h`)

Catastrophic recovery rebuilds the public state of the service in one store and its
private state in another, then swaps the private maps of the second into the first.
`swap_private_maps` locks this store's private maps in name order, walks the other
store's maps pairing each private one with the next entry of that list by name and
locking it, checks that no entry is left unpaired, exchanges the rollback counter and
roll of every pair (`Map::swap`), and last unlocks every pair.

`Map` leaves the map's spin lock out; here it is what matters, so the two stores are
carried with the names of their maps whose lock is held (`Locked`). `lock()` waits for
a lock that another thread holds and then takes it: the model records it as taken. The
two `maps_lock` guards are `std::lock_guard`s, released on every exit, an exception
included, and are not kept. The maps of one `Store` share their key and value types, so
the `dynamic_cast` of `Map::swap` always succeeds.
-/

namespace Ccf.Kv

variable {K V C : Type}

/-- `Map::swap`: `lhs` takes the rollback counter and roll of `rhs`. -/
def Map.swap (lhs rhs : Map K V) : Map K V :=
  { lhs with rollbackCounter := rhs.rollbackCounter, roll := rhs.roll, roll_ne := rhs.roll_ne }

/-- The names of the private maps among `ms`, in their order. -/
def privateNames (ms : List (Map K V)) : List String :=
  (ms.filter fun m => m.securityDomain = .PRIVATE).map (·.name)

-- Made here once: the equation lemmas that the proofs below unfold.
section
attribute [local simp] privateNames
end

/-- Two stores, `this` and the `store` passed in, each with the names of its maps whose
spin lock is held. -/
structure Locked (K V C : Type) where
  this : Store K V C
  thisLocked : List String
  other : Store K V C
  otherLocked : List String

namespace Locked

/-- `lhs->swap(rhs)` on the pair named `name`, in both directions. -/
def swapPair (p : Locked K V C) (name : String) : Locked K V C :=
  match p.this.find name, p.other.find name with
  | some lhs, some rhs =>
      { p with this := p.this.setMap (lhs.swap rhs), other := p.other.setMap (rhs.swap lhs) }
  | _, _ => p

/-- `lhs->unlock(); rhs->unlock();` on the pair named `name`. -/
def unlockPair (p : Locked K V C) (name : String) : Locked K V C :=
  { p with thisLocked := p.thisLocked.erase name, otherLocked := p.otherLocked.erase name }

-- Made here once: the equation lemmas that the proofs below unfold.
section
attribute [local simp] swapPair unlockPair
end

end Locked

/-- The walk over the other store's maps: each private map must be the next unpaired
entry, of the same name, and is locked. Returns the entries left unpaired. -/
def pairOther : List (Map K V) → List String → EStateM String (Locked K V C) (List String)
  | [], entries => pure entries
  | m :: ms, entries =>
      if m.securityDomain = .PRIVATE then
        match entries with
        | [] => throw ("Private map list mismatch during swap, " ++ m.name ++ " not found")
        | e :: es =>
            if e ≠ m.name then
              throw ("Private map list mismatch during swap, " ++ e ++ " != " ++ m.name)
            else do
              modify fun p => { p with otherLocked := p.otherLocked ++ [m.name] }
              pairOther ms es
      else pairOther ms entries

/-- `this.swap_private_maps(store)`. -/
def swapPrivateMaps : EStateM String (Locked K V C) Unit := do
  let p ← get
  let entries := privateNames p.this.maps
  set { p with thisLocked := p.thisLocked ++ entries }
  let rest ← pairOther p.other.maps entries
  match rest with
  | e :: _ => throw ("Private map list mismatch during swap, missing at least " ++ e)
  | [] =>
      modify fun p => entries.foldl Locked.swapPair p
      modify fun p => entries.foldl Locked.unlockPair p

-- Made here once: the equation lemmas that the proofs below unfold.
section
attribute [local simp] pairOther swapPrivateMaps
end

end Ccf.Kv
