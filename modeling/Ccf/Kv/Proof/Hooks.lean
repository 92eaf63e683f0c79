import Ccf.Kv.Proof.Rollback

/-!
# Compaction with a global hook

`Map::compact` feeds a map's global hook by moving entries of the roll into
`commit_deltas`. Without a hook, compaction drops states from the front of the roll and
keeps the others whole (`Map.compactRoll_suffix`). With one, it keeps the same entries at
the same versions, and only the first of them can differ (`Map.compactRoll_hook`).

That first entry is where it goes wrong. The loop moves a discardable state with writes
before it checks whether the next state is later than `v`; when it is, the loop stops
and the roll keeps the state it moved, moved-from. That entry is what every version from
its own up to the next change reads. So after such a compaction a view created at one of
those versions reads the moved-from state (`compacted_view_moved`), and so does the map
after a rollback to one (`rollback_after_hooked_compact`), where each should read the state
the map had there. And when the first entry is the constructor's, at version 0,
`compact(0)` hands the hook version 0 with an empty write set, though the map did not change
there (`hook_called_at_unchanged_version`).
-/

namespace Ccf.Kv

variable {K V : Type}

/-- The hook changes nothing in what compaction keeps but its first entry: the versions
are the same, and so is every later entry. -/
theorem Map.compactRoll_hook (hook : Bool) (v : Version) : ∀ l : List (LocalCommit K V),
    (Map.compactRoll hook v l).1.tail = (Map.compactRoll false v l).1.tail ∧
      (Map.compactRoll hook v l).1.map (·.version) = (Map.compactRoll false v l).1.map (·.version)
  | [] => ⟨rfl, rfl⟩
  | [r] => by
      simp only [Map.compactRoll]
      split <;> simp
  | r :: n :: rest => by
      unfold Map.compactRoll
      split
      · split <;> simp
      dsimp only
      simp only [Bool.false_and]
      split
      · -- the loop stops here: at most this entry was moved
        split <;> simp [LocalCommit.movedFrom]
      · exact Map.compactRoll_hook hook v (n :: rest)

/-- Map `A` has a global hook, map `B` has none; both are public and empty, at version 0. -/
def hookedMaps : Store Nat Nat Unit :=
  ⟨[Map.new "A" .PUBLIC true, Map.new "B" .PUBLIC false], by decide, none, none, 0, 0, 0, 0⟩

/-- `A` changes at versions 1 and 3 and `B` at 2; then the store is compacted at 2. -/
def hookedCompact : List (Op Nat Nat) :=
  [.getView 1 "A", .put 1 "A" 0 1, .commit 1,
   .getView 2 "B", .put 2 "B" 0 1, .commit 2,
   .getView 3 "A", .put 3 "A" 0 2, .commit 3,
   .compact 2]

theorem hookedCompact_reachable :
    Sys.Reachable hookedMaps ((Sys.init hookedMaps).afterOps hookedCompact) :=
  Sys.Reachable.afterOps (Run.Reachable.of_init rfl)
    ⟨trivial, trivial, trivial, trivial, trivial, trivial, trivial, trivial, trivial,
      show _ ≤ (2 : Version) by decide, trivial⟩

/-- Before the compaction at 2, a view of `A` at 2 reads key 0 as 1; after it, `A`'s first
entry, at version 1, is moved-from, and a view at 2 reads it and finds nothing. -/
theorem compacted_view_moved :
    Sys.Reachable hookedMaps ((Sys.init hookedMaps).afterOps hookedCompact) ∧
      (((Sys.init hookedMaps).afterOps (hookedCompact.take 9)).store.find "A").map
        (fun m => (m.createView 2).state.lookup 0) = some (some ⟨1, 1⟩) ∧
      (((Sys.init hookedMaps).afterOps hookedCompact).store.find "A").map
        (fun m => (m.front.version, m.front.state.entries, (m.createView 2).state.lookup 0)) =
        some (1, [], none) := by
  refine ⟨hookedCompact_reachable, ?_⟩
  decide

/-- After the compaction at 2 the store rolls back to 2, which it may: the state `A` had
at version 2 held 1 at key 0, and the state it is left in holds nothing there. -/
theorem rollback_after_hooked_compact :
    Sys.Reachable hookedMaps ((Sys.init hookedMaps).afterOps hookedCompact) ∧
      ((Sys.init hookedMaps).afterOps hookedCompact).store.commitVersion = 2 ∧
      ((Sys.init hookedMaps).afterOps hookedCompact).store.currentVersion = 3 ∧
      (stateAt ((Sys.init hookedMaps).afterOps hookedCompact).past "A" 2).map (·.lookup 0) =
        some (some ⟨1, 1⟩) ∧
      ((((Sys.init hookedMaps).afterOps hookedCompact).apply (.rollback 2)).store.find "A").map
        (·.back.state.lookup 0) = some none := by
  refine ⟨hookedCompact_reachable, ?_⟩
  decide

/-- `A` changes at version 1. -/
def hookedOnce : List (Op Nat Nat) := [.getView 1 "A", .put 1 "A" 0 1, .commit 1]

/-- `compact(0)` calls `A`'s hook at version 0, where `A` still had the constructor's
empty state, with an empty write set; `compact(1)` then calls it at version 1 with the
write made there. -/
theorem hook_called_at_unchanged_version :
    Sys.Reachable hookedMaps ((Sys.init hookedMaps).afterOps (hookedOnce ++ [.compact 0])) ∧
      (stateAt ((Sys.init hookedMaps).afterOps hookedOnce).past "A" 0).map (·.entries) =
        some [] ∧
      (((Sys.init hookedMaps).afterOps hookedOnce).store.compactHookCalls 0).map
        (fun c => (c.1, c.2.version, c.2.writes.entries)) = [("A", 0, [])] ∧
      (((Sys.init hookedMaps).afterOps (hookedOnce ++ [.compact 0])).store.compactHookCalls 1).map
        (fun c => (c.1, c.2.version, c.2.writes.entries)) = [("A", 1, [⟨0, ⟨0, 1⟩⟩])] := by
  refine ⟨Sys.Reachable.afterOps (Run.Reachable.of_init rfl)
    ⟨trivial, trivial, trivial, show _ ≤ (0 : Version) by decide, trivial⟩, ?_⟩
  decide

end Ccf.Kv
