import Ccf.Kv.Swap
import Ccf.Kv.Proof.Rollback

/-!
# What `swap_private_maps` leaves behind

The walk over the other store's maps succeeds exactly when its private names are a
prefix of this store's (`pairOther_ok`); otherwise it throws, having locked the maps
of the prefix the two lists share (`pairOther_error`). So whenever the two stores'
private names differ, `swap_private_maps` throws with both stores' maps as they were,
but every lock it took is still held: all of this store's private maps, and those of
the other store it paired before the mismatch (`swapPrivateMaps_mismatch`). The locks
are taken by `lock()` and released only by the loop at the end, which the exception
skips; a later transaction over one of those maps spins on its lock for ever.

When the names agree, the swap loop takes the pairs one by one. No pair is found
changed by the ones before it, names being unique in a store, so after the pairs of
`done` the stores are their maps with those pairs swapped (`swapIn`, `foldl_swapPair`);
over all the private names, that is each store taking the other's private state
(`Store.takePrivate`), and the unlock loop then releases every lock it took
(`swapPrivateMaps_same`).
-/

namespace Ccf.Kv

open EStateM

variable {K V C : Type}

section PrivateNames

@[simp] theorem privateNames_nil : privateNames ([] : List (Map K V)) = [] := rfl

theorem privateNames_cons (m : Map K V) (ms : List (Map K V)) :
    privateNames (m :: ms) =
      if m.securityDomain = .PRIVATE then m.name :: privateNames ms else privateNames ms := by
  unfold privateNames
  by_cases h : m.securityDomain = .PRIVATE <;> simp [h]

theorem privateNames_nodup (s : Store K V C) : (privateNames s.maps).Nodup :=
  s.maps_nodup.sublist ((List.filter_sublist).map _)

theorem mem_privateNames {s : Store K V C} {m : Map K V} (hm : m ∈ s.maps) :
    m.name ∈ privateNames s.maps ↔ m.securityDomain = .PRIVATE := by
  constructor
  · -- another private map of that name would be `m` itself
    intro h
    obtain ⟨m', hm', hname⟩ := List.mem_map.mp h
    obtain ⟨hm's, hpriv⟩ := List.mem_filter.mp hm'
    rw [← List.inj_on_of_nodup_map s.maps_nodup hm's hm hname]
    simpa using hpriv
  · intro h
    exact List.mem_map_of_mem (List.mem_filter.mpr ⟨hm, by simpa using h⟩)

theorem find_isSome_of_mem_privateNames {s : Store K V C} {n : String}
    (h : n ∈ privateNames s.maps) :
    (s.find n).isSome := by
  obtain ⟨m, hm, rfl⟩ := List.mem_map.mp h
  rw [Store.find_of_mem (List.mem_filter.mp hm).1]
  rfl

end PrivateNames

section Pair

/-- **The walk pairs a prefix.** When the other store's private names start this store's
list, the walk locks them all and returns the entries left over. -/
theorem pairOther_ok (ms : List (Map K V)) (rest : List String) (p : Locked K V C) :
    pairOther ms (privateNames ms ++ rest) p =
      .ok rest { p with otherLocked := p.otherLocked ++ privateNames ms } := by
  induction ms generalizing p with
  | nil => simp [pairOther]; rfl
  | cons m ms ih =>
      rw [privateNames_cons]
      by_cases hm : m.securityDomain = .PRIVATE
      · -- the private map is the next entry: locked, then the walk goes on
        simp only [hm, if_true, List.cons_append, pairOther, ne_eq, not_true_eq_false,
          if_false]
        rw [modify_bind_apply, ih]
        simp
      · simp only [hm, if_false, pairOther]
        exact ih p

/-- **The walk stops at the first mismatch.** When the other store's private names do
not start this store's list, the walk throws a mismatch, having locked the private maps
of a prefix the two lists share. -/
theorem pairOther_error (ms : List (Map K V)) (entries : List String) (p : Locked K V C)
    (h : ¬ privateNames ms <+: entries) :
    ∃ reason k, pairOther ms entries p =
        .error ("Private map list mismatch during swap, " ++ reason)
          { p with otherLocked := p.otherLocked ++ k } ∧
      k <+: privateNames ms ∧ k <+: entries := by
  induction ms generalizing entries p with
  | nil => exact absurd (List.nil_prefix) h
  | cons m ms ih =>
      rw [privateNames_cons] at h ⊢
      by_cases hm : m.securityDomain = .PRIVATE
      · simp only [hm, if_true] at h ⊢
        match entries with
        | [] =>
            -- more private maps on the other side: "… not found"
            refine ⟨m.name ++ " not found", [], ?_, List.nil_prefix, List.nil_prefix⟩
            simp [pairOther, hm, String.append_assoc]
            rfl
        | e :: es =>
            by_cases he : e = m.name
            · -- the names agree: `m` is locked and the walk goes on
              subst he
              have h' : ¬ privateNames ms <+: es :=
                fun hp => h (List.prefix_cons_inj _ |>.mpr hp)
              obtain ⟨reason, k, hrun, hk, hke⟩ :=
                ih es { p with otherLocked := p.otherLocked ++ [m.name] } h'
              refine ⟨reason, m.name :: k, ?_, List.prefix_cons_inj _ |>.mpr hk,
                List.prefix_cons_inj _ |>.mpr hke⟩
              simp only [pairOther, hm, if_true, ne_eq, not_true_eq_false, if_false]
              rw [modify_bind_apply, hrun]
              simp
            · -- the names differ: "… e != name"
              refine ⟨e ++ " != " ++ m.name, [], ?_, List.nil_prefix, List.nil_prefix⟩
              simp [pairOther, hm, he, String.append_assoc]
              rfl
      · simp only [hm, if_false] at h ⊢
        obtain ⟨reason, k, hrun, hk, hke⟩ := ih entries p h
        refine ⟨reason, k, ?_, hk, hke⟩
        simpa [pairOther, hm] using hrun

end Pair

/-- **A failed swap keeps its locks.** Whenever the two stores' private map names
differ, `swap_private_maps` throws a mismatch and leaves both stores as they were, but
with every private map of this store still locked, and the private maps of the other
store it paired before the mismatch (a prefix `k` of both lists) locked too. -/
theorem swapPrivateMaps_mismatch (p : Locked K V C)
    (h : privateNames p.this.maps ≠ privateNames p.other.maps) :
    ∃ reason k, swapPrivateMaps p =
        .error ("Private map list mismatch during swap, " ++ reason)
          { p with thisLocked := p.thisLocked ++ privateNames p.this.maps,
                   otherLocked := p.otherLocked ++ k } ∧
      k <+: privateNames p.this.maps ∧ k <+: privateNames p.other.maps := by
  unfold swapPrivateMaps
  rw [get_bind_apply]
  by_cases hpre : privateNames p.other.maps <+: privateNames p.this.maps
  · -- the other store's names run out first: "missing at least …"
    obtain ⟨rest, hrest⟩ := hpre
    obtain ⟨e, es, rfl⟩ : ∃ e es, rest = e :: es := by
      cases rest with
      | nil => exact absurd (by simpa using hrest.symm) h
      | cons e es => exact ⟨e, es, rfl⟩
    refine ⟨"missing at least " ++ e, privateNames p.other.maps, ?_, ⟨_, hrest⟩,
      List.prefix_refl _⟩
    rw [set_bind_apply, ← hrest, bind_of_ok (pairOther_ok _ _ _)]
    rfl
  · obtain ⟨reason, k, hrun, hk, hke⟩ :=
      pairOther_error p.other.maps (privateNames p.this.maps)
        { p with thisLocked := p.thisLocked ++ privateNames p.this.maps } hpre
    refine ⟨reason, k, ?_, hke, hk⟩
    rw [set_bind_apply, bind_of_error hrun]

/-- The stores of the source's invalid swap test: `s2` has the private maps `one` and
`two`, `s1` only `one`. -/
def oneAndTwo : Store Nat Nat Unit :=
  ⟨[Map.new "one" .PRIVATE false, Map.new "two" .PRIVATE false], by decide, none, none,
    0, 0, 0, 0⟩

def onlyOne : Store Nat Nat Unit :=
  ⟨[Map.new "one" .PRIVATE false], List.nodup_singleton _, none, none, 0, 0, 0, 0⟩

theorem swapPrivateMaps_mismatch_oneAndTwo :
    privateNames oneAndTwo.maps ≠ privateNames onlyOne.maps ∧
      ∃ reason k, swapPrivateMaps (⟨oneAndTwo, [], onlyOne, []⟩ : Locked Nat Nat Unit) =
          .error ("Private map list mismatch during swap, " ++ reason)
            ⟨oneAndTwo, [] ++ privateNames oneAndTwo.maps, onlyOne, [] ++ k⟩ ∧
        k <+: privateNames oneAndTwo.maps ∧ k <+: privateNames onlyOne.maps :=
  ⟨by decide, swapPrivateMaps_mismatch ⟨oneAndTwo, [], onlyOne, []⟩ (by decide)⟩

/-- `s2.swap_private_maps(s1)` throws "missing at least two", holding the locks of `one`
and `two` in `s2` and of `one` in `s1`. -/
example : swapPrivateMaps (⟨oneAndTwo, [], onlyOne, []⟩ : Locked Nat Nat Unit) =
    .error "Private map list mismatch during swap, missing at least two"
      ⟨oneAndTwo, ["one", "two"], onlyOne, ["one"]⟩ := rfl

/-! ## A swap of matching stores -/

@[simp] theorem Map.swap_name (lhs rhs : Map K V) : (lhs.swap rhs).name = lhs.name := rfl

/-- `m` swapped with the map of its name in `t`, if there is one. -/
def Map.takeFrom (t : Store K V C) (m : Map K V) : Map K V :=
  ((t.find m.name).map m.swap).getD m

-- Made here once: the equation lemmas that the proofs below unfold.
section
attribute [local simp] Map.takeFrom
end

theorem Map.takeFrom_name (t : Store K V C) (m : Map K V) : (m.takeFrom t).name = m.name := by
  unfold Map.takeFrom
  cases t.find m.name <;> rfl

/-- What the swap is for: each private map of `s` takes the rollback counter and roll of
the map of its name in `t`. Nothing else of `s` changes. -/
def Store.takePrivate (s t : Store K V C) : Store K V C :=
  s.mapMaps (fun m => if m.securityDomain = .PRIVATE then m.takeFrom t else m) fun m => by
    split
    · exact m.takeFrom_name t
    · rfl

/-- The map `m` once the pairs named in `done` are swapped against the maps of `t`. -/
def swapIn (done : List String) (t : Store K V C) (m : Map K V) : Map K V :=
  if m.name ∈ done then m.takeFrom t else m

-- Made here once: the equation lemmas that the proofs below unfold.
section
attribute [local simp] swapIn
end

theorem swapIn_name (done : List String) (t : Store K V C) (m : Map K V) :
    (swapIn done t m).name = m.name := by
  unfold swapIn
  split
  · exact m.takeFrom_name t
  · rfl

section MapMaps

variable {s : Store K V C} {f g : Map K V → Map K V}

theorem Store.mapMaps_mapMaps (hf : ∀ m, (f m).name = m.name)
    (hg : ∀ m, (g m).name = m.name) :
    (s.mapMaps f hf).mapMaps g hg = s.mapMaps (g ∘ f) (fun m => (hg (f m)).trans (hf m)) := by
  simp [Store.mapMaps, List.map_map]

theorem Store.mapMaps_congr (hf : ∀ m, (f m).name = m.name) (hg : ∀ m, (g m).name = m.name)
    (h : ∀ m ∈ s.maps, f m = g m) : s.mapMaps f hf = s.mapMaps g hg := by
  simp only [Store.mapMaps, List.map_congr_left h]

theorem Store.mapMaps_self (hf : ∀ m, (f m).name = m.name) (h : ∀ m ∈ s.maps, f m = m) :
    s.mapMaps f hf = s := by
  cases s
  simp [Store.mapMaps, List.map_congr_left h]

end MapMaps

section SwapIn

variable {s t : Store K V C} {done : List String} {n : String}

theorem find_swapIn (hn : n ∉ done) :
    (s.mapMaps (swapIn done t) (swapIn_name done t)).find n = s.find n := by
  rw [Store.find_of_maps (swapIn_name done t) rfl]
  cases hf : s.find n with
  | none => rfl
  | some m =>
      have hm : m.name = n := (Store.find_spec hf).2
      simp [swapIn, hm, hn]

/-- Swapping the pair named `n` extends the swapped names by `n`. -/
theorem setMap_swapIn {lhs rhs : Map K V} (hl : s.find n = some lhs)
    (hr : t.find n = some rhs) :
    (s.mapMaps (swapIn done t) (swapIn_name done t)).setMap (lhs.swap rhs) =
      s.mapMaps (swapIn (done ++ [n]) t) (swapIn_name _ t) := by
  obtain ⟨hlm, hln⟩ := Store.find_spec hl
  unfold Store.setMap
  rw [Store.mapMaps_mapMaps]
  apply Store.mapMaps_congr
  intro m hm
  simp only [Function.comp, swapIn_name]
  by_cases hmn : m.name = n
  · -- the map named `n` is `lhs`, since names are unique
    have hml : m = lhs :=
      Option.some_injective _ ((Store.find_of_mem hm).symm.trans (hmn ▸ hl))
    subst hml
    simp [swapIn, Map.takeFrom, hln, hr]
  · have hne : ¬ m.name = lhs.name := hln ▸ hmn
    simp [swapIn, hne, hmn]

end SwapIn

namespace Locked

theorem swapPair_locks (q : Locked K V C) (n : String) :
    (q.swapPair n).thisLocked = q.thisLocked ∧ (q.swapPair n).otherLocked = q.otherLocked := by
  unfold swapPair
  split <;> exact ⟨rfl, rfl⟩

theorem foldl_swapPair_locks (ns : List String) (q : Locked K V C) :
    (ns.foldl swapPair q).thisLocked = q.thisLocked ∧
      (ns.foldl swapPair q).otherLocked = q.otherLocked := by
  induction ns generalizing q with
  | nil => exact ⟨rfl, rfl⟩
  | cons n ns ih =>
      obtain ⟨h₁, h₂⟩ := swapPair_locks q n
      rw [List.foldl_cons, (ih _).1, (ih _).2, h₁, h₂]
      exact ⟨rfl, rfl⟩

/-- The swap loop, pair after pair: with the pairs named in `done` swapped, swapping
those named in `ns` (each in both stores, none swapped yet) leaves `done ++ ns` swapped. -/
theorem foldl_swapPair (p : Locked K V C) :
    ∀ (ns done : List String) (q : Locked K V C),
      (∀ n ∈ ns, (p.this.find n).isSome ∧ (p.other.find n).isSome) → (done ++ ns).Nodup →
      q.this = p.this.mapMaps (swapIn done p.other) (swapIn_name done p.other) →
      q.other = p.other.mapMaps (swapIn done p.this) (swapIn_name done p.this) →
      (ns.foldl swapPair q).this =
          p.this.mapMaps (swapIn (done ++ ns) p.other) (swapIn_name _ p.other) ∧
        (ns.foldl swapPair q).other =
          p.other.mapMaps (swapIn (done ++ ns) p.this) (swapIn_name _ p.this)
  | [], done, q, _, _, hthis, hother => by simpa using ⟨hthis, hother⟩
  | n :: ns, done, q, hfound, hnd, hthis, hother => by
      obtain ⟨lhs, hl⟩ := Option.isSome_iff_exists.mp (hfound n List.mem_cons_self).1
      obtain ⟨rhs, hr⟩ := Option.isSome_iff_exists.mp (hfound n List.mem_cons_self).2
      have hn : n ∉ done := fun h => (List.nodup_append.mp hnd).2.2 n h n List.mem_cons_self rfl
      -- the pair `n` is found as it was: no earlier swap touched it
      have hstep : q.swapPair n =
          { q with
            this := q.this.setMap (lhs.swap rhs)
            other := q.other.setMap (rhs.swap lhs) } := by
        rw [swapPair, hthis, hother, find_swapIn hn, find_swapIn hn, hl, hr]
      rw [List.foldl_cons, List.append_cons]
      refine foldl_swapPair p ns (done ++ [n]) _
        (fun m hm => hfound m (List.mem_cons_of_mem _ hm)) (by rwa [List.append_cons] at hnd) ?_ ?_
      · rw [hstep, hthis, setMap_swapIn hl hr]
      · rw [hstep, hother, setMap_swapIn hr hl]

theorem foldl_unlockPair (ns : List String) (q : Locked K V C) :
    ns.foldl unlockPair q =
      { q with thisLocked := q.thisLocked.diff ns, otherLocked := q.otherLocked.diff ns } := by
  induction ns generalizing q with
  | nil => rfl
  | cons n ns ih =>
      rw [List.foldl_cons, ih]
      simp [unlockPair]

end Locked

/-- Swapping the pairs of all the private names is taking the private state. -/
theorem swapIn_privateNames (s t : Store K V C) :
    s.mapMaps (swapIn (privateNames s.maps) t) (swapIn_name _ t) = s.takePrivate t := by
  apply Store.mapMaps_congr
  intro m hm
  simp only [swapIn, mem_privateNames hm]

/-- Unlocking the names just locked leaves the locks held before, in some order. -/
theorem append_diff_perm (l ns : List String) : ((l ++ ns).diff ns).Perm l := by
  have hcancel : ∀ ns : List String, (ns ++ l).diff ns = l := by
    intro ns
    induction ns with
    | nil => rfl
    | cons n ns ih => rw [List.diff_cons, List.cons_append, List.erase_cons_head, ih]
  have hcomm : ((l ++ ns).diff ns).Perm ((ns ++ l).diff ns) :=
    List.perm_append_comm.diff_right ns
  rwa [hcancel] at hcomm

/-- **A swap between stores of the same private maps does what it is for.** When the
two stores' private map names are the same, `swap_private_maps` returns, each private
map of either store has taken the rollback counter and roll of its namesake in the
other, nothing else has changed, and every lock it took is released. -/
theorem swapPrivateMaps_same (p : Locked K V C)
    (h : privateNames p.this.maps = privateNames p.other.maps) :
    ∃ p', swapPrivateMaps p = .ok () p' ∧
      p'.this = p.this.takePrivate p.other ∧ p'.other = p.other.takePrivate p.this ∧
      p'.thisLocked.Perm p.thisLocked ∧ p'.otherLocked.Perm p.otherLocked := by
  unfold swapPrivateMaps
  rw [get_bind_apply, set_bind_apply]
  have hpair := pairOther_ok p.other.maps []
    { p with thisLocked := p.thisLocked ++ privateNames p.this.maps }
  rw [List.append_nil, ← h] at hpair
  rw [bind_of_ok hpair]
  refine ⟨_, rfl, ?_⟩
  -- the swap loop, from nothing swapped, then the unlock loop
  obtain ⟨hthis, hother⟩ := Locked.foldl_swapPair p (privateNames p.this.maps) []
    { p with thisLocked := p.thisLocked ++ privateNames p.this.maps,
             otherLocked := p.otherLocked ++ privateNames p.this.maps }
    (fun n hn => ⟨find_isSome_of_mem_privateNames hn,
      find_isSome_of_mem_privateNames (h ▸ hn)⟩)
    (privateNames_nodup p.this)
    (Store.mapMaps_self _ fun m _ => by simp [swapIn]).symm
    (Store.mapMaps_self _ fun m _ => by simp [swapIn]).symm
  obtain ⟨hl₁, hl₂⟩ := Locked.foldl_swapPair_locks (privateNames p.this.maps)
    { p with thisLocked := p.thisLocked ++ privateNames p.this.maps,
             otherLocked := p.otherLocked ++ privateNames p.this.maps }
  simp only [List.nil_append] at hthis hother
  dsimp only
  rw [Locked.foldl_unlockPair]
  refine ⟨?_, ?_, ?_, ?_⟩
  · rw [hthis, swapIn_privateNames]
  · rw [hother, h, swapIn_privateNames]
  · rw [hl₁]
    exact append_diff_perm _ _
  · rw [hl₂]
    exact append_diff_perm _ _

/-- The stores of the source's private recovery swap test: the same private map
`private` and public map `public` on both sides, the private one with a rollback
counter of 2 on the recovered side. -/
def recoveredPublic : Store Nat Nat Unit :=
  ⟨[Map.new "private" .PRIVATE false, Map.new "public" .PUBLIC false], by decide, none, none,
    0, 0, 0, 0⟩

def recoveredPrivate : Store Nat Nat Unit :=
  recoveredPublic.setMap { Map.new "private" .PRIVATE false with rollbackCounter := 2 }

theorem swapPrivateMaps_same_recovered :
    privateNames recoveredPublic.maps = privateNames recoveredPrivate.maps ∧
      ∃ p', swapPrivateMaps
          (⟨recoveredPublic, [], recoveredPrivate, []⟩ : Locked Nat Nat Unit) = .ok () p' ∧
        p'.this = recoveredPublic.takePrivate recoveredPrivate ∧
        p'.other = recoveredPrivate.takePrivate recoveredPublic ∧
        p'.thisLocked.Perm [] ∧ p'.otherLocked.Perm [] :=
  ⟨by decide, swapPrivateMaps_same ⟨recoveredPublic, [], recoveredPrivate, []⟩ (by decide)⟩

end Ccf.Kv
