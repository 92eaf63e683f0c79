import Ccf.Kv.Commit

/-!
# The reorder buffer of `Store::commit`

Transactions reach `Store::commit` in any order, and each call batches every version parked
in a row from `last_replicated + 1`. Whatever the order in which the transactions at
`last_replicated + 1, …, last_replicated + n` arrive, with the consensus accepting every
batch, the batches concatenate to those versions in order, each with its own data and
`globally_committable`, and the history appends their data in that order, each closure run
over the leaves before it (`commitAll_any_order`): the same as if they had arrived in order.

The proof follows the parked versions. After some of the calls, the first `m` versions have
been replicated as in-order arrival would have, and the other arrivals wait in `pending_txs`
under their versions (`Parked`). A call for version `m + 1` flushes it and every parked
version after it in a row (`batchPending_run`); any other call only parks its transaction.

What in-order arrival does not share is the version `add_result` receives: a call records
every result of its batch at its own version (`add_result_caller_version`). So the two runs
agree on the history only with those versions left out (`History.strip`).
-/

namespace Ccf.Kv

variable {K V C R D : Type}

/-! ## Running closures in order -/

/-- What a history recorded, without the versions: its leaves, and each result's request
with the root after its append. -/
def History.strip (h : History R D) : List D × List (R × List D) :=
  (h.leaves, h.results.map fun x => (x.1, x.2.2))

-- Made here once: the equation lemmas that the proofs below unfold.
section
attribute [local simp] History.strip
end

theorem History.strip_addResult (h : History R D) (id : R) (version : Version) (data : D) :
    (h.addResult id version data).strip =
      (h.strip.1 ++ [data], h.strip.2 ++ [(id, h.strip.1 ++ [data])]) := by
  simp [History.strip, History.addResult]

/-- The closures `run`, taken in order from version `first` over the history `h`, the one at
version `w` recording its result at `version w`: the batch entries, and the history after. -/
def runInOrder (version : Version → Version) :
    Version → List (PendingTx R D × Bool) → History R D →
      List (Version × D × Bool) × History R D
  | _, [], h => ([], h)
  | first, (p, c) :: run, h =>
      let (_, reqid, data) := p h.leaves
      let rest := runInOrder version (first + 1) run (h.addResult reqid (version first) data)
      ((first, data, c) :: rest.1, rest.2)

-- Made here once: the equation lemmas that the proofs below unfold.
section
attribute [local simp] runInOrder
end

theorem runInOrder_append (version : Version → Version) :
    ∀ (first : Version) (a b : List (PendingTx R D × Bool)) (h : History R D),
      runInOrder version first (a ++ b) h =
        ((runInOrder version first a h).1 ++
            (runInOrder version (first + a.length) b (runInOrder version first a h).2).1,
          (runInOrder version (first + a.length) b (runInOrder version first a h).2).2)
  | first, [], b, h => by simp [runInOrder]
  | first, (p, c) :: a, b, h => by
      have ih := runInOrder_append version (first + 1) a b
        (h.addResult (p h.leaves).2.1 (version first) (p h.leaves).2.2)
      have hfirst :
          first + 1 + (a.length : Version) = first + ((a.length + 1 : Nat) : Version) := by
        grind
      simp only [List.cons_append, runInOrder, ih, List.length_cons, hfirst]

/-- Which versions the results are recorded at changes neither the batch nor what the
history keeps besides them. -/
theorem runInOrder_strip (version version' : Version → Version) :
    ∀ (first : Version) (run : List (PendingTx R D × Bool)) (h h' : History R D),
      h.strip = h'.strip →
        (runInOrder version first run h).1 = (runInOrder version' first run h').1 ∧
          (runInOrder version first run h).2.strip = (runInOrder version' first run h').2.strip
  | _, [], h, h', hs => ⟨rfl, hs⟩
  | first, (p, c) :: run, h, h', hs => by
      -- the closures see the same leaves on both sides
      have hl : h.leaves = h'.leaves := congrArg Prod.fst hs
      have hnext : (h.addResult (p h.leaves).2.1 (version first) (p h.leaves).2.2).strip =
          (h'.addResult (p h'.leaves).2.1 (version' first) (p h'.leaves).2.2).strip := by
        rw [History.strip_addResult, History.strip_addResult, hs, hl]
      obtain ⟨h1, h2⟩ := runInOrder_strip version version' (first + 1) run _ _ hnext
      simp only [runInOrder]
      rw [hl] at h1 h2 ⊢
      exact ⟨by rw [h1], h2⟩

/-! ## The loop -/

/-- Erase the keys `k, k + 1, …`, `n` of them, in that order. -/
def eraseFrom {β : Version → Type} (k : Version) : Nat → AList β → AList β
  | 0, a => a
  | n + 1, a => eraseFrom (k + 1) n (a.erase k)

-- Made here once: the equation lemmas that the proofs below unfold.
section
attribute [local simp] eraseFrom
end

theorem lookup_eraseFrom {β : Version → Type} (k' : Version) :
    ∀ (k : Version) (n : Nat) (a : AList β),
      (eraseFrom k n a).lookup k' = if k ≤ k' ∧ k' < k + n then none else a.lookup k'
  | k, 0, a => by
      have hout : ¬(k ≤ k' ∧ k' < k + ((0 : Nat) : Version)) := by grind
      rw [if_neg hout, eraseFrom]
  | k, n + 1, a => by
      rw [eraseFrom, lookup_eraseFrom k' (k + 1) n]
      by_cases hk : k' = k
      · -- the first key erased
        subst hk
        have hin : k' ≤ k' ∧ k' < k' + ((n + 1 : Nat) : Version) := by grind
        rw [if_pos hin, AList.lookup_erase]
        split <;> rfl
      · rw [AList.lookup_erase_ne hk]
        by_cases hin : k + 1 ≤ k' ∧ k' < k + 1 + (n : Version)
        · rw [if_pos hin, if_pos (by grind)]
        · rw [if_neg hin, if_neg (by grind)]

theorem add_zero_cast (k : Version) : k + ((0 : Nat) : Version) = k := by grind

/-- **The loop flushes the run.** When the versions from `L + offset` on hold the closures
`run`, one after another, and the next does not, the loop batches exactly that run, in order,
records each result in the history, and erases them; the fuel needs to cover the run only. -/
theorem batchPending_run (version L : Version) :
    ∀ (run : List (PendingTx R D × Bool)) (fuel : Nat) (offset : Version) (r : Replication R D)
      (h : History R D), r.history = some h → run.length ≤ fuel →
      (∀ j : Nat, j ≤ run.length → r.pendingTxs.lookup (L + offset + j) = run[j]?) →
      batchPending version L fuel offset r =
        ((runInOrder (fun _ => version) (L + offset) run h).1,
          { r with
            history := some (runInOrder (fun _ => version) (L + offset) run h).2
            pendingTxs := eraseFrom (L + offset) run.length r.pendingTxs })
  | [], fuel, offset, r, h, hh, _, hrun => by
      have hgap : r.pendingTxs.lookup (L + offset) = none := by
        have h0 := hrun 0 le_rfl
        rwa [add_zero_cast] at h0
      have hr :
          ({ r with history := some h, pendingTxs := r.pendingTxs } : Replication R D) = r := by
        rw [← hh]
      cases fuel with
      | zero => simp only [batchPending, runInOrder, eraseFrom, List.length_nil, hr]
      | succ fuel => simp only [batchPending, hgap, runInOrder, eraseFrom, List.length_nil, hr]
  | (p, c) :: run, 0, offset, r, h, _, hlen, _ => by simp at hlen
  | (p, c) :: run, fuel + 1, offset, r, h, hh, hlen, hrun => by
      have hfirst : r.pendingTxs.lookup (L + offset) = some (p, c) := by
        have h0 := hrun 0 (by simp)
        rwa [add_zero_cast] at h0
      -- the rest of the run is still there, from the next offset, once the first is erased
      have hrest : ∀ j : Nat, j ≤ run.length →
          (r.pendingTxs.erase (L + offset)).lookup (L + (offset + 1) + j) = run[j]? := by
        intro j hj
        have hkey : L + (offset + 1) + (j : Version) = L + offset + ((j + 1 : Nat) : Version) := by
          grind
        rw [AList.lookup_erase_ne (by grind), hkey, hrun (j + 1) (by simp; omega)]
        simp
      have hnext : L + (offset + 1) = L + offset + 1 := by grind
      generalize hres : p h.leaves = res
      obtain ⟨succ, reqid, data⟩ := res
      have ih := batchPending_run version L run fuel (offset + 1)
        { r with
          history := some (h.addResult reqid version data)
          pendingTxs := r.pendingTxs.erase (L + offset) } _ rfl (by simp at hlen; omega) hrest
      rw [hnext] at ih
      simp only [batchPending, hfirst, History.runPending, hh, Option.map_some, Option.getD_some,
        hres, ih, runInOrder, List.length_cons, eraseFrom]

/-- A run of `n` versions in a row, all parked, fits in the fuel `Store::commit` gives the
loop: there are at least `n` entries. -/
theorem run_le_entries {β : Version → Type} (a : AList β) (k : Version) (n : Nat)
    (h : ∀ j : Nat, j < n → (a.lookup (k + j)).isSome) : n ≤ a.entries.length := by
  have hnodup : ((List.range n).map fun j : Nat => k + j).Nodup :=
    List.nodup_range.map fun i j hij => by grind
  have hsub : ((List.range n).map fun j : Nat => k + j) ⊆ a.keys := by
    intro x hx
    obtain ⟨j, hj, rfl⟩ := List.mem_map.mp hx
    exact AList.mem_keys.mp (AList.lookup_isSome.mp (h j (List.mem_range.mp hj)))
  have hlen := (List.subperm_of_subset hnodup hsub).length_le
  simpa [AList.keys, List.keys] using hlen

/-- A list of indices leaves out every index from some point on. -/
theorem exists_bound (seen : List Nat) : ∃ b, ∀ i ∈ seen, i < b := by
  induction seen with
  | nil => exact ⟨0, by simp⟩
  | cons x rest ih =>
      obtain ⟨b, hb⟩ := ih
      refine ⟨max (x + 1) b, fun i hi => ?_⟩
      rcases List.mem_cons.mp hi with rfl | hi
      · omega
      · have := hb i hi
        omega

theorem runInOrder_length (version : Version → Version) :
    ∀ (first : Version) (run : List (PendingTx R D × Bool)) (h : History R D),
      (runInOrder version first run h).1.length = run.length
  | _, [], _ => rfl
  | first, (p, c) :: run, h => by
      simp [runInOrder, runInOrder_length version (first + 1) run]

theorem mem_of_mem_eraseFrom {β : Version → Type} {k k' : Version} {n : Nat} {a : AList β}
    (h : k' ∈ eraseFrom k n a) : k' ∈ a := by
  rw [← AList.lookup_isSome, lookup_eraseFrom] at h
  split at h
  · simp at h
  · exact AList.lookup_isSome.mp h

/-! ## Arrivals in any order -/

section Run

variable (lr : Version) (tx : Nat → PendingTx R D × Bool) (log₀ : List (Version × D × Bool))
  (h₀ : History R D)

/-- The calls of the transactions `tx i`, at the versions `lr + 1 + i`, in the order `order`. -/
def arrivals (order : List Nat) : List (Version × PendingTx R D × Bool) :=
  order.map fun i : Nat => (lr + 1 + (i : Version), (tx i).1, (tx i).2)

/-- In-order arrival of the first `m` transactions: each is its own batch, and records its
result at its own version. -/
def inOrder (m : Nat) : List (Version × D × Bool) × History R D :=
  runInOrder id (lr + 1) ((List.range m).map tx) h₀

-- Made here once: the equation lemmas that the proofs below unfold.
section
attribute [local simp] arrivals inOrder
end

/-- After the calls for the indices `seen`, transaction `i` being at version `lr + 1 + i`:
the first `m` have been replicated as in-order arrival would have, and the other calls seen
wait in `pending_txs` under their versions. -/
structure Parked (seen : List Nat) (m : Nat) (s : Store K V C) (r : Replication R D) : Prop where
  prefix_seen : ∀ i < m, i ∈ seen
  gap : m ∉ seen
  lastReplicated : s.lastReplicated = lr + m
  replicated : r.replicated = some (log₀ ++ (inOrder lr tx h₀ m).1)
  history : ∃ h, r.history = some h ∧ h.strip = (inOrder lr tx h₀ m).2.strip
  parked : ∀ i : Nat,
    r.pendingTxs.lookup (lr + 1 + i) = if i ∈ seen ∧ m ≤ i then some (tx i) else none
  keys : ∀ k ∈ r.pendingTxs, ∃ i : Nat, k = lr + 1 + i

variable {lr tx log₀ h₀}

theorem Parked.init {s : Store K V C} {r : Replication R D} (hs : s.lastReplicated = lr)
    (hr : r.replicated = some log₀) (hh : r.history = some h₀) (hp : r.pendingTxs = ∅) :
    Parked lr tx log₀ h₀ [] 0 s r where
  prefix_seen := by simp
  gap := by simp
  lastReplicated := by simpa using hs
  replicated := by simpa [inOrder, runInOrder] using hr
  history := ⟨h₀, hh, by simp [inOrder, runInOrder]⟩
  parked := by simp [hp]
  keys := by simp [hp]

theorem inOrder_add (m k : Nat) :
    inOrder lr tx h₀ (m + k) =
      ((inOrder lr tx h₀ m).1 ++
          (runInOrder id (lr + 1 + m) ((List.range k).map fun i => tx (m + i))
            (inOrder lr tx h₀ m).2).1,
        (runInOrder id (lr + 1 + m) ((List.range k).map fun i => tx (m + i))
          (inOrder lr tx h₀ m).2).2) := by
  rw [inOrder, List.range_add, List.map_append, runInOrder_append, List.length_map,
    List.length_range, List.map_map]
  rfl

/-- **A call that leaves a gap parks.** A transaction other than the next one to replicate is
parked under its version; nothing is batched. -/
theorem Parked.park {seen : List Nat} {m j : Nat} {s : Store K V C} {r : Replication R D}
    (hp : Parked lr tx log₀ h₀ seen m s r) (hj : j ∉ seen) (hjm : j ≠ m) :
    Parked lr tx log₀ h₀ (seen ++ [j]) m
      (s.commit r (fun _ => true) (lr + 1 + j) (tx j).1 (tx j).2).2.1
      (s.commit r (fun _ => true) (lr + 1 + j) (tx j).1 (tx j).2).2.2 := by
  obtain ⟨h, hh, hstrip⟩ := hp.history
  have hmj : m < j := by
    by_contra hlt
    exact hj (hp.prefix_seen j (by omega))
  have hnew : r.pendingTxs.lookup (lr + 1 + j) = none := by
    rw [hp.parked j, if_neg (by simp [hj])]
  set r₁ := r.park (lr + 1 + j) (tx j).1 (tx j).2 with hr₁
  have hpend : r₁.pendingTxs = r.pendingTxs.insert (lr + 1 + j) (tx j) := by
    simp [r₁, hnew]
  -- the next version to replicate is still missing, so the loop stops at once
  have hrun : ∀ k : Nat, k ≤ ([] : List (PendingTx R D × Bool)).length →
      r₁.pendingTxs.lookup (s.lastReplicated + 1 + k) =
        ([] : List (PendingTx R D × Bool))[k]? := by
    intro k hk
    obtain rfl : k = 0 := by simpa using hk
    have hgap := hp.parked m
    rw [if_neg (by simp [hp.gap])] at hgap
    have hkey : s.lastReplicated + 1 + ((0 : Nat) : Version) = lr + 1 + m := by
      rw [hp.lastReplicated]; grind
    rw [hpend, hkey, AList.lookup_insert_ne (by grind), hgap]
    rfl
  have hh₁ : r₁.history = some h := by simp [r₁, hh]
  have hloop : batchPending (lr + 1 + j) s.lastReplicated r₁.pendingTxs.entries.length 1 r₁ =
      ([], r₁) := by
    rw [batchPending_run (lr + 1 + j) s.lastReplicated [] _ 1 r₁ h hh₁ (Nat.zero_le _) hrun]
    simp only [runInOrder, List.length_nil, eraseFrom]
    rw [← hh₁]
  rw [Store.commit_of_batch hp.replicated hloop]
  simp only [List.isEmpty_nil, if_true]
  refine ⟨fun i hi => List.mem_append_left _ (hp.prefix_seen i hi), ?_, hp.lastReplicated,
    by simp [r₁, hp.replicated], ⟨h, by simp [r₁, hh], hstrip⟩, ?_, ?_⟩
  · simp [hp.gap, Ne.symm hjm]
  · intro i
    rw [hpend]
    by_cases hij : i = j
    · subst hij
      rw [AList.lookup_insert, if_pos ⟨by simp, by omega⟩]
    · rw [AList.lookup_insert_ne (by grind), hp.parked i]
      simp [hij]
  · intro k hk
    rw [hpend, AList.mem_insert] at hk
    rcases hk with rfl | hk
    · exact ⟨j, rfl⟩
    · exact hp.keys k hk

/-- **The call for the next version flushes.** Transaction `m`, the next to replicate, is
batched with the transactions parked after it in a row, up to the first index `m + 1 + k`
not seen; the consensus accepts the batch, and the first `m + 1 + k` are replicated. -/
theorem Parked.flush {seen : List Nat} {m : Nat} {s : Store K V C} {r : Replication R D}
    (hp : Parked lr tx log₀ h₀ seen m s r) :
    ∃ m', Parked lr tx log₀ h₀ (seen ++ [m]) m'
      (s.commit r (fun _ => true) (lr + 1 + m) (tx m).1 (tx m).2).2.1
      (s.commit r (fun _ => true) (lr + 1 + m) (tx m).1 (tx m).2).2.2 := by
  obtain ⟨h, hh, hstrip⟩ := hp.history
  -- the run ends at the first index after `m` that has not been seen
  have hex : ∃ k, m + 1 + k ∉ seen := by
    obtain ⟨b, hb⟩ := exists_bound seen
    exact ⟨b, fun hmem => by have := hb _ hmem; omega⟩
  obtain ⟨k, hk, hbefore⟩ : ∃ k, m + 1 + k ∉ seen ∧ ∀ k' < k, m + 1 + k' ∈ seen :=
    ⟨Nat.find hex, Nat.find_spec hex, fun k' hk' => not_not.mp (Nat.find_min hex hk')⟩
  have hnew : r.pendingTxs.lookup (lr + 1 + m) = none := by
    rw [hp.parked m, if_neg (by simp [hp.gap])]
  set r₁ := r.park (lr + 1 + m) (tx m).1 (tx m).2 with hr₁
  have hpend : r₁.pendingTxs = r.pendingTxs.insert (lr + 1 + m) (tx m) := by
    simp [r₁, hnew]
  have hh₁ : r₁.history = some h := by simp [r₁, hh]
  set run := (List.range (k + 1)).map fun i => tx (m + i) with hrun_def
  have hlen : run.length = k + 1 := by simp [run]
  have hkey : ∀ i : Nat,
      s.lastReplicated + 1 + (i : Version) = lr + 1 + ((m + i : Nat) : Version) := by
    intro i
    rw [hp.lastReplicated]
    grind
  -- after `m` the loop finds `m + 1, …, m + k` parked, and `m + 1 + k` missing
  have hrun : ∀ i : Nat, i ≤ run.length →
      r₁.pendingTxs.lookup (s.lastReplicated + 1 + i) = run[i]? := by
    intro i hi
    rw [hpend, hkey i]
    by_cases hi0 : i = 0
    · subst hi0
      rw [Nat.add_zero, AList.lookup_insert]
      simp [run]
    rw [AList.lookup_insert_ne (by grind), hp.parked (m + i)]
    by_cases hik : i ≤ k
    · have hmem : m + i ∈ seen := by
        have := hbefore (i - 1) (by omega)
        rwa [show m + 1 + (i - 1) = m + i by omega] at this
      rw [if_pos ⟨hmem, by omega⟩]
      simp [run, show i < k + 1 by omega]
    · obtain rfl : i = k + 1 := by omega
      rw [if_neg (by rw [show m + (k + 1) = m + 1 + k by omega]; exact fun h => hk h.1)]
      simp [run]
  have hfuel : run.length ≤ r₁.pendingTxs.entries.length := by
    apply run_le_entries r₁.pendingTxs (s.lastReplicated + 1) run.length
    intro i hi
    rw [hrun i hi.le, List.getElem?_eq_getElem hi]
    rfl
  have hloop := batchPending_run (lr + 1 + m) s.lastReplicated run _ 1 r₁ h hh₁ hfuel hrun
  -- the batch is in-order arrival's next `k + 1` entries
  have hfirst : s.lastReplicated + 1 = lr + 1 + (m : Version) := by
    rw [hp.lastReplicated]
    grind
  obtain ⟨hbatch, hhist⟩ := runInOrder_strip (fun _ => lr + 1 + m) id (s.lastReplicated + 1) run
    h (inOrder lr tx h₀ m).2 hstrip
  rw [hfirst] at hbatch hhist
  have hsplit : inOrder lr tx h₀ (m + (k + 1)) = _ := inOrder_add m (k + 1)
  have hne : (runInOrder (fun _ => lr + 1 + m) (s.lastReplicated + 1) run h).1.isEmpty = false := by
    rw [List.isEmpty_eq_false_iff, ← List.length_pos_iff, runInOrder_length, hlen]
    omega
  rw [Store.commit_of_batch hp.replicated hloop, if_neg (by simp [hne]), if_pos rfl]
  refine ⟨m + (k + 1), ⟨?_, ?_, ?_, ?_, ⟨_, rfl, ?_⟩, ?_, ?_⟩⟩
  · -- every index up to the end of the run has been seen
    intro i hi
    by_cases him : i ≤ m
    · rcases Nat.lt_or_eq_of_le him with hlt | rfl
      · exact List.mem_append_left _ (hp.prefix_seen i hlt)
      · exact List.mem_append_right _ (List.mem_singleton_self _)
    · have := hbefore (i - m - 1) (by omega)
      rw [show m + 1 + (i - m - 1) = i by omega] at this
      exact List.mem_append_left _ this
  · simp only [List.mem_append, List.mem_singleton, not_or]
    exact ⟨by rwa [show m + (k + 1) = m + 1 + k by omega], by omega⟩
  · show s.lastReplicated + _ = _
    rw [runInOrder_length, hlen, hp.lastReplicated]
    grind
  · show some (log₀ ++ _ ++ _) = _
    rw [hfirst, hbatch, hsplit, List.append_assoc]
  · rw [hfirst, hhist, hsplit]
  · intro i
    show (eraseFrom _ _ _).lookup _ = _
    rw [lookup_eraseFrom, hfirst, hlen]
    by_cases hin : m ≤ i ∧ i < m + (k + 1)
    · rw [if_pos (by grind), if_neg (by omega)]
    · rw [if_neg (by grind), hpend, AList.lookup_insert_ne (by grind), hp.parked i]
      by_cases hseen : i ∈ seen
      · by_cases hmi : m ≤ i
        · rw [if_pos ⟨hseen, hmi⟩, if_pos ⟨List.mem_append_left _ hseen, by omega⟩]
        · rw [if_neg (by omega), if_neg (by omega)]
      · have him : i ≠ m := by
          rintro rfl
          omega
        rw [if_neg (by simp [hseen]), if_neg (by simp [hseen, him])]
  · intro k' hk'
    have hmem := mem_of_mem_eraseFrom hk'
    rw [hpend, AList.mem_insert] at hmem
    rcases hmem with rfl | hmem
    · exact ⟨m, rfl⟩
    · exact hp.keys k' hmem

/-- Each call either parks its transaction or flushes a run: over any calls for indices not
seen yet, each once, the state stays parked. -/
theorem Parked.commitAll :
    ∀ (order seen : List Nat) (m : Nat) (s : Store K V C) (r : Replication R D),
      Parked lr tx log₀ h₀ seen m s r → order.Nodup → (∀ j ∈ order, j ∉ seen) →
        ∃ m', Parked lr tx log₀ h₀ (seen ++ order) m'
          (Store.commitAll (fun _ => true) (arrivals lr tx order) s r).1
          (Store.commitAll (fun _ => true) (arrivals lr tx order) s r).2
  | [], seen, m, s, r, hp, _, _ => ⟨m, by simpa [arrivals, Store.commitAll] using hp⟩
  | j :: order, seen, m, s, r, hp, hnd, hfresh => by
      obtain ⟨hj, hnd⟩ := List.nodup_cons.mp hnd
      have hjs : j ∉ seen := hfresh j List.mem_cons_self
      -- the call for `j` flushes when `j` is the next to replicate, and parks otherwise
      obtain ⟨m₁, hp₁⟩ : ∃ m₁, Parked lr tx log₀ h₀ (seen ++ [j]) m₁
          (s.commit r (fun _ => true) (lr + 1 + j) (tx j).1 (tx j).2).2.1
          (s.commit r (fun _ => true) (lr + 1 + j) (tx j).1 (tx j).2).2.2 := by
        by_cases hjm : j = m
        · subst hjm
          exact hp.flush
        · exact ⟨m, hp.park hjs hjm⟩
      have hfresh' : ∀ i ∈ order, i ∉ seen ++ [j] := by
        intro i hi
        simp only [List.mem_append, List.mem_singleton, not_or]
        exact ⟨hfresh i (List.mem_cons_of_mem _ hi), fun hij => hj (hij ▸ hi)⟩
      obtain ⟨m', hp'⟩ := Parked.commitAll order (seen ++ [j]) m₁ _ _ hp₁ hnd hfresh'
      refine ⟨m', ?_⟩
      simpa [arrivals, Store.commitAll, List.append_assoc] using hp'

end Run

/-- **Any arrival order replicates in order.** The transactions at versions `lr + 1, …,
lr + n` call `Store::commit` in any order, on a store with a history and a consensus that
accepts every batch, nothing parked, at `last_replicated = lr`. Afterwards `last_replicated`
is `lr + n`, nothing is left parked, the batches concatenate to the entries in-order arrival
gives (each version with its own data and `globally_committable`), and the history holds the
leaves and the requests it would hold after in-order arrival. -/
theorem commitAll_any_order (lr : Version) (n : Nat) (tx : Nat → PendingTx R D × Bool)
    (order : List Nat) (horder : order.Perm (List.range n)) (log₀ : List (Version × D × Bool))
    (h₀ : History R D) {s s' : Store K V C} {r r' : Replication R D}
    (hs : s.lastReplicated = lr) (hr : r.replicated = some log₀) (hh : r.history = some h₀)
    (hp : r.pendingTxs = ∅)
    (hrun : Store.commitAll (fun _ => true) (arrivals lr tx order)
      s r = (s', r')) :
    s'.lastReplicated = lr + n ∧
      r'.replicated = some (log₀ ++ (runInOrder id (lr + 1) ((List.range n).map tx) h₀).1) ∧
      r'.history.map History.strip =
        some (runInOrder id (lr + 1) ((List.range n).map tx) h₀).2.strip ∧
      ∀ k, r'.pendingTxs.lookup k = none := by
  obtain ⟨m, hm⟩ := Parked.commitAll order [] 0 s r (Parked.init hs hr hh hp)
    (horder.nodup_iff.mpr List.nodup_range) (by simp)
  rw [hrun, List.nil_append] at hm
  have hmem : ∀ i, i ∈ order ↔ i < n := fun i => by rw [horder.mem_iff, List.mem_range]
  -- every index was called, so the replicated prefix is all of them
  have hmn : m = n := by
    have hle : m ≤ n := by
      by_contra hgt
      exact absurd ((hmem n).mp (hm.prefix_seen n (by omega))) (lt_irrefl n)
    have hge : n ≤ m := by
      by_contra hlt
      exact hm.gap ((hmem m).mpr (by omega))
    omega
  subst hmn
  obtain ⟨h, hh', hstrip⟩ := hm.history
  refine ⟨hm.lastReplicated, hm.replicated, by rw [hh', Option.map_some, hstrip]; rfl, ?_⟩
  intro k
  by_contra hk
  obtain ⟨i, rfl⟩ := hm.keys k (AList.lookup_isSome.mp (Option.isSome_iff_ne_none.mpr hk))
  rw [hm.parked i, if_neg (fun hi => by have := (hmem i).mp hi.1; omega)] at hk
  exact hk rfl

/-- Transaction `i` answers request `i + 1` with the data `10 * (i + 1)`. -/
def numbered (i : Nat) : PendingTx Nat Nat × Bool := (.ofData (i + 1) (10 * (i + 1)), false)

/-- A store's replication state with a consensus and an empty history, nothing parked. -/
def replicating : Replication Nat Nat := ⟨0, ∅, some ⟨[], []⟩, some []⟩

/-- The transactions at versions 2 and 1 reach `Store::commit` in that order. -/
def reversedCalls : List (Version × PendingTx Nat Nat × Bool) := arrivals 0 numbered [1, 0]

theorem commitAll_any_order_reversed :
    [1, 0].Perm (List.range 2) ∧
      (Store.commitAll (fun _ => true) reversedCalls (Store.empty none none : Store Nat Nat Unit)
          replicating).1.lastReplicated = 0 + 2 ∧
      (Store.commitAll (fun _ => true) reversedCalls (Store.empty none none : Store Nat Nat Unit)
          replicating).2.replicated =
        some ([] ++ (runInOrder id (0 + 1) ((List.range 2).map numbered) ⟨[], []⟩).1) ∧
      (Store.commitAll (fun _ => true) reversedCalls (Store.empty none none : Store Nat Nat Unit)
          replicating).2.history.map History.strip =
        some (runInOrder id (0 + 1) ((List.range 2).map numbered) ⟨[], []⟩).2.strip ∧
      ∀ k, (Store.commitAll (fun _ => true) reversedCalls
          (Store.empty none none : Store Nat Nat Unit) replicating).2.pendingTxs.lookup k = none :=
  ⟨by decide, commitAll_any_order (s := Store.empty none none) (r := replicating) 0 2 numbered
    [1, 0] (by decide) [] ⟨[], []⟩ rfl rfl rfl rfl rfl⟩

/-- When version 2 arrives before version 1, the call for version 1 batches both, and records
the result of the transaction at version 2 at version 1: `add_result` is given the caller's
version. -/
theorem add_result_caller_version :
    (Store.commitAll (fun _ => true) reversedCalls (Store.empty none none : Store Nat Nat Unit)
        replicating).1.lastReplicated = 2 ∧
      (Store.commitAll (fun _ => true) reversedCalls (Store.empty none none : Store Nat Nat Unit)
        replicating).2.replicated = some [(1, 10, false), (2, 20, false)] ∧
      (Store.commitAll (fun _ => true) reversedCalls (Store.empty none none : Store Nat Nat Unit)
        replicating).2.history.map (·.results) = some [(1, 1, [10]), (2, 1, [10, 20])] := by
  decide

end Ccf.Kv
