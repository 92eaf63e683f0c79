import Ccf.Pbft.KMax
import Ccf.Lib.Quorum
import Ccf.Pbft.Proof.StableEstimator

/-!
# What `K_max` returns

A pass of the `for` loop from the sentinel `s` below `last_max` ends with the greatest of `s` and
the entries strictly between them, and with how often it occurs (`PassFound`, proved entry by
entry in `PassFound.visit`). Each pass of the `while` loop after the first starts from `0` and so
steps down to the next entry below `last_max`, adding its count; the loop carries `Descending`:
`last_max` is an entry, `last_count` counts the entries at or above it, and fewer than `k` lie
above it. When the count reaches `k`, `last_max` is the largest value `k` entries have reached.

That needs `k` entries at `0` or above: a pass that finds no entry between `0` and `last_max`
ends at `0`, which is then counted as often as it occurs. `Stable_estimator::low_estimate` gives
`K_max` the `lp` of every replica, `-1` for those that have not reported, so its vector need not
be `≥ 0`.
-/

namespace Ccf.Pbft

open Quorum

/-! ## One pass -/

section Pass

variable {T : Type} [LinearOrder T]

/-- What a pass from the sentinel `s` below `lastMax` has found over the entries `pre` it has
visited. -/
structure PassFound (s lastMax : T) (pre : List T) (cur : T × Int) : Prop where
  /-- The sentinel, or an entry strictly between the sentinel and `lastMax`. -/
  found : cur.1 = s ∨ (cur.1 ∈ pre ∧ s < cur.1 ∧ cur.1 < lastMax)
  /-- No entry strictly between them is greater. -/
  greatest : ∀ x ∈ pre, s < x → x < lastMax → x ≤ cur.1
  /-- `cur_count` counts it. -/
  count : cur.2 = pre.count cur.1

theorem PassFound.sentinel_le {s L : T} {pre : List T} {cur : T × Int}
    (h : PassFound s L pre cur) : s ≤ cur.1 := by
  rcases h.found with heq | ⟨-, hs, -⟩
  · exact le_of_eq heq.symm
  · exact le_of_lt hs

theorem PassFound.start (s L : T) : PassFound s L [] (s, 0) :=
  ⟨Or.inl rfl, fun _ hx => absurd hx List.not_mem_nil, by simp⟩

/-- One round of the `for` loop keeps what the pass has found. -/
theorem PassFound.visit {s L : T} {pre : List T} {cur : T × Int} (h : PassFound s L pre cur)
    (cv : T) : PassFound s L (pre ++ [cv]) (kMaxVisit L cur cv) := by
  have hmem : ∀ {x}, x ∈ pre ++ [cv] ↔ x ∈ pre ∨ x = cv := by simp
  -- the pass's value so far, now also over `pre ++ [cv]`
  have hfound : cur.1 = s ∨ (cur.1 ∈ pre ++ [cv] ∧ s < cur.1 ∧ cur.1 < L) := by
    rcases h.found with heq | ⟨hm, hs, hL⟩
    · exact Or.inl heq
    · exact Or.inr ⟨hmem.mpr (Or.inl hm), hs, hL⟩
  unfold kMaxVisit
  split_ifs with heq hgt hlt
  · -- the entry equals `cur_max`: counted
    refine ⟨hfound, fun x hx hs hL => ?_, ?_⟩
    · rcases hmem.mp hx with hx | rfl
      · exact h.greatest x hx hs hL
      · exact le_of_eq heq
    · rw [List.count_append, h.count, heq]
      simp
  · -- a greater entry below `last_max`: the pass moves to it
    have hnot : cv ∉ pre := fun hcv => absurd (h.greatest cv hcv
      (lt_of_le_of_lt h.sentinel_le hgt) hlt) (not_le.mpr hgt)
    refine ⟨Or.inr ⟨hmem.mpr (Or.inr rfl), lt_of_le_of_lt h.sentinel_le hgt, hlt⟩,
      fun x hx hs hL => ?_, ?_⟩
    · rcases hmem.mp hx with hx | rfl
      · exact le_of_lt (lt_of_le_of_lt (h.greatest x hx hs hL) hgt)
      · exact le_rfl
    · rw [List.count_append, List.count_eq_zero_of_not_mem hnot]
      simp
  · -- a greater entry at or above `last_max`: skipped
    refine ⟨hfound, fun x hx hs hL => ?_, ?_⟩
    · rcases hmem.mp hx with hx | rfl
      · exact h.greatest x hx hs hL
      · exact absurd hL hlt
    · rw [List.count_append, h.count]
      simp [heq]
  · -- a smaller entry: skipped
    refine ⟨hfound, fun x hx hs hL => ?_, ?_⟩
    · rcases hmem.mp hx with hx | rfl
      · exact h.greatest x hx hs hL
      · exact not_lt.mp hgt
    · rw [List.count_append, h.count]
      simp [heq]

/-- The `for` loop over the rest of the entries keeps it. -/
theorem PassFound.foldl {s L : T} : ∀ (l : List T) {pre : List T} {cur : T × Int},
    PassFound s L pre cur → PassFound s L (pre ++ l) (l.foldl (kMaxVisit L) cur)
  | [], pre, cur, h => by simpa using h
  | cv :: l, pre, cur, h => by
      have := PassFound.foldl l (h.visit cv)
      rwa [List.append_assoc, List.singleton_append] at this

/-- **A pass over the whole vector ends with the greatest of the sentinel and the entries strictly
between it and `last_max`, and its count.** -/
theorem kMaxPass_found (vector : List T) (L s : T) :
    PassFound s L vector (kMaxPass vector vector.length L s) := by
  have h := PassFound.foldl vector (PassFound.start s L)
  rw [List.nil_append] at h
  rwa [kMaxPass, List.take_length]

end Pass

/-! ## The `while` loop -/

section Loop

variable {T : Type} [LinearOrder T] {k : Int} {vector : List T}

/-- Where the `while` loop stands after a pass. -/
structure Descending (k : Int) (vector : List T) (lastMax : T) (lastCount : Int) : Prop where
  /-- `last_max` is an entry. -/
  mem : lastMax ∈ vector
  /-- `last_count` counts the entries at or above it. -/
  count : lastCount = atLeast vector lastMax
  /-- Fewer than `k` entries lie above it. -/
  above_lt : (above vector lastMax : Int) < k

/-- Once `k` entries are counted, `last_max` is the largest value `k` entries have reached. -/
theorem Descending.isGreatest {L : T} {C : Int} (h : Descending k vector L C) (hC : k ≤ C) :
    IsGreatest (reached vector k.toNat) L := by
  have hq := h.count
  have ha := h.above_lt
  exact isGreatest_reached_of_above_lt (by omega) (by omega)

variable [OfNat T 0]

/-- The first pass, from `tmax` and the sentinel `-1`, finds the greatest entry when some entry
is `0` or above: nothing lies above it. -/
theorem firstPass_greatest [Neg T] [OfNat T 1] {tmax : T} (hneg : (-1 : T) < 0)
    (htmax : ∀ x ∈ vector, x < tmax) (hpos : 0 < atLeast vector 0) {p : T × Int}
    (hp : kMaxPass vector vector.length tmax (-1) = p) :
    p.1 ∈ vector ∧ (-1 : T) < p.1 ∧ p.2 = atLeast vector p.1 ∧ above vector p.1 = 0 := by
  have hf := hp ▸ kMaxPass_found vector tmax (-1)
  obtain ⟨x, hx, h0x⟩ : ∃ x ∈ vector, 0 ≤ x := by
    obtain ⟨x, hx, h0x⟩ := List.countP_pos_iff.mp hpos
    exact ⟨x, hx, of_decide_eq_true h0x⟩
  -- that entry lies between the sentinel and `tmax`, so the pass ends at an entry
  have hxp := hf.greatest x hx (lt_of_lt_of_le hneg h0x) (htmax x hx)
  obtain ⟨hm, hs⟩ : p.1 ∈ vector ∧ (-1 : T) < p.1 := by
    rcases hf.found with heq | ⟨hm, hs, -⟩
    · exact absurd (heq ▸ hxp) (not_le.mpr (lt_of_lt_of_le hneg h0x))
    · exact ⟨hm, hs⟩
  -- nothing lies above it, since everything lies below `tmax`
  have hgap : ∀ z ∈ vector, p.1 < z → tmax ≤ z := fun z hz hpz =>
    absurd (hf.greatest z hz (hs.trans hpz) (htmax z hz)) (not_le.mpr hpz)
  have hlt : p.1 < tmax := htmax _ hm
  have hnone : atLeast vector tmax = 0 :=
    List.countP_eq_zero.mpr fun z hz h => absurd (htmax z hz) (not_lt.mpr (of_decide_eq_true h))
  refine ⟨hm, hs, ?_, ?_⟩
  · rw [atLeast_eq_add hlt hgap, hnone, hf.count]
    simp
  · rw [above_eq_atLeast hlt hgap, hnone]

/-- So, with `k` entries at `0` or above, the first pass starts the descent. -/
theorem descending_first [Neg T] [OfNat T 1] {tmax : T} (hneg : (-1 : T) < 0) (hk : 0 < k)
    (htmax : ∀ x ∈ vector, x < tmax) (hP : k ≤ atLeast vector 0) :
    Descending k vector (kMaxPass vector vector.length tmax (-1)).1
      (0 + (kMaxPass vector vector.length tmax (-1)).2) := by
  obtain ⟨hm, -, hcount, habove⟩ := firstPass_greatest hneg htmax (by omega) rfl
  refine ⟨hm, by omega, ?_⟩
  rw [habove]
  exact_mod_cast hk

/-- A later pass, from the sentinel `0`, steps down to the next entry below `last_max` and counts
it. -/
theorem Descending.pass {L : T} {C : Int} (h : Descending k vector L C) (hC : C < k)
    (hP : k ≤ atLeast vector 0) :
    Descending k vector (kMaxPass vector vector.length L 0).1
        (C + (kMaxPass vector vector.length L 0).2) ∧
      C < C + (kMaxPass vector vector.length L 0).2 := by
  have hf := kMaxPass_found vector L 0
  set p := kMaxPass vector vector.length L 0
  have hcount := h.count
  -- `last_max` is above `0`: `k` entries reach `0` but fewer reach `last_max`
  have hL : 0 < L := by
    by_contra hle
    have := atLeast_anti vector (not_lt.mp hle)
    omega
  have hmL : p.1 < L := by
    rcases hf.found with heq | ⟨-, -, hlt⟩
    · rwa [heq]
    · exact hlt
  have hgap : ∀ z ∈ vector, p.1 < z → L ≤ z := fun z hz hpz => not_lt.mp fun hzL =>
    absurd (hf.greatest z hz (lt_of_le_of_lt hf.sentinel_le hpz) hzL) (not_le.mpr hpz)
  have hsplit := atLeast_eq_add hmL hgap
  -- the entry found: one between `0` and `last_max`, or else `0` itself, which then occurs
  have hmem : p.1 ∈ vector := by
    rcases hf.found with heq | ⟨hm, -, -⟩
    · have h0 : 0 < vector.count 0 := by
        rw [heq] at hsplit
        omega
      rw [heq]
      exact List.count_pos_iff.mp h0
    · exact hm
  have hpos : 0 < vector.count p.1 := List.count_pos_iff.mpr hmem
  have hc := hf.count
  refine ⟨⟨hmem, by omega, ?_⟩, by omega⟩
  rw [above_eq_atLeast hmL hgap, ← hcount]
  exact hC

/-- From where a pass leaves it, the loop returns once the counts reach `k`, given more tests of
its condition than the `k - last_count` passes it may still need. -/
theorem kMaxLoop_descending (hP : k ≤ atLeast vector 0) : ∀ (fuel : Nat) {L : T} {C : Int},
    Descending k vector L C → (k - C).toNat < fuel →
    ∃ r C', kMaxLoop k vector vector.length fuel L C 0 = some r ∧ Descending k vector r C' ∧
      k ≤ C'
  | 0, _, _, _, hfuel => absurd hfuel (Nat.not_lt_zero _)
  | fuel + 1, L, C, h, hfuel => by
      rw [kMaxLoop]
      by_cases hC : C < k
      · rw [if_pos hC]
        obtain ⟨hD, hinc⟩ := h.pass hC hP
        generalize kMaxPass vector vector.length L 0 = p at hD hinc ⊢
        obtain ⟨m, c⟩ := p
        exact kMaxLoop_descending hP fuel hD (by omega)
      · rw [if_neg hC]
        exact ⟨L, C, rfl, h, not_lt.mp hC⟩

end Loop

/-! ## When fewer than `k` entries are `0` or above -/

section Stalled

variable {T : Type} [LinearOrder T] [OfNat T 0] {k : Int} {vector : List T}

/-- Where the loop stands when no entry is `0`: at an entry above `0`, or at `0` itself, with
the entries at or above it counted. -/
structure Stalled (vector : List T) (lastMax : T) (lastCount : Int) : Prop where
  /-- `last_max` is an entry above `0`, or `0`. -/
  pos : (lastMax ∈ vector ∧ 0 < lastMax) ∨ lastMax = 0
  /-- `last_count` counts the entries at or above it. -/
  count : lastCount = atLeast vector lastMax

/-- A pass from `0` steps down to the next entry above `0`, or to `0`, which it counts as often
as it occurs: never. -/
theorem Stalled.pass (hzero : (0 : T) ∉ vector) {L : T} {C : Int} (h : Stalled vector L C) :
    Stalled vector (kMaxPass vector vector.length L 0).1
      (C + (kMaxPass vector vector.length L 0).2) := by
  have hf := kMaxPass_found vector L 0
  set p := kMaxPass vector vector.length L 0
  have hcount := h.count
  have hc := hf.count
  have hL : 0 ≤ L := by
    rcases h.pos with ⟨-, hL⟩ | hL
    · exact le_of_lt hL
    · exact le_of_eq hL.symm
  -- no entry lies strictly between what the pass found and `last_max`
  have hgap : ∀ z ∈ vector, p.1 < z → L ≤ z := fun z hz hpz => not_lt.mp fun hzL =>
    absurd (hf.greatest z hz (lt_of_le_of_lt hf.sentinel_le hpz) hzL) (not_le.mpr hpz)
  rcases hf.found with h0 | ⟨hm, hpos, hlt⟩
  · -- at `0`: nothing was found above it, and it is no entry
    have hnone : vector.count p.1 = 0 := by
      rw [h0]
      exact List.count_eq_zero_of_not_mem hzero
    refine ⟨Or.inr h0, ?_⟩
    rcases eq_or_lt_of_le hL with hL0 | hL0
    · rw [← hL0] at hcount
      rw [h0]
      omega
    · have hsplit := atLeast_eq_add (h0 ▸ hL0) hgap
      omega
  · have hsplit := atLeast_eq_add hlt hgap
    exact ⟨Or.inl ⟨hm, hpos⟩, by omega⟩

/-- Stalled below `k`, the loop runs out of tests without returning. -/
theorem kMaxLoop_stalled (hzero : (0 : T) ∉ vector) (hlt : (atLeast vector 0 : Int) < k) :
    ∀ (fuel : Nat) {L : T} {C : Int}, Stalled vector L C →
      kMaxLoop k vector vector.length fuel L C 0 = none
  | 0, _, _, _ => rfl
  | fuel + 1, L, C, h => by
      -- what is counted never reaches the entries at `0` or above
      have hC : C < k := by
        have hcount := h.count
        have hle : atLeast vector L ≤ atLeast vector 0 := by
          apply atLeast_anti
          rcases h.pos with ⟨-, hL⟩ | hL
          · exact le_of_lt hL
          · exact le_of_eq hL.symm
        omega
      rw [kMaxLoop, if_pos hC]
      have hS := h.pass hzero
      generalize kMaxPass vector vector.length L 0 = p at hS ⊢
      obtain ⟨m, c⟩ := p
      exact kMaxLoop_stalled hzero hlt fuel hS

/-- The first pass, from `tmax` and the sentinel `-1`, steps to the greatest entry, which is above
`0` when some entry is `0` or above but none is `0`. -/
theorem stalled_first [Neg T] [OfNat T 1] {tmax : T} (hneg : (-1 : T) < 0)
    (hadj : ∀ x : T, -1 < x → 0 ≤ x) (htmax : ∀ x ∈ vector, x < tmax)
    (hpos : 0 < atLeast vector 0) (hzero : (0 : T) ∉ vector) :
    Stalled vector (kMaxPass vector vector.length tmax (-1)).1
      (0 + (kMaxPass vector vector.length tmax (-1)).2) := by
  obtain ⟨hm, hs, hcount, -⟩ := firstPass_greatest hneg htmax hpos rfl
  -- above `-1` is at `0` or above, and `0` is no entry
  have hp0 := lt_of_le_of_ne (hadj _ hs) fun h => hzero (h ▸ hm)
  exact ⟨Or.inl ⟨hm, hp0⟩, by omega⟩

end Stalled

/-! ## `K_max` -/

/-- **`K_max(k, vector, n, tmax)` returns the largest value that `k` entries of the vector have
reached**, for every vector of `n` entries below `tmax` of which at least `k ≥ 1` are `0` or
above, within any number of passes above `n`. -/
theorem kMax_kth_largest {T : Type} [LinearOrder T] [Neg T] [OfNat T 0] [OfNat T 1]
    (hneg : (-1 : T) < 0) {k : Int} {vector : List T} {n : Nat} {tmax : T}
    (hn : vector.length = n) (hk : 0 < k) (htmax : ∀ x ∈ vector, x < tmax)
    (hP : k ≤ atLeast vector 0) :
    ∃ r, IsGreatest (reached vector k.toNat) r ∧
      ∀ fuel, n < fuel → kMax fuel k vector n tmax = some r := by
  subst hn
  have hlen : atLeast vector 0 ≤ vector.length := List.countP_le_length
  -- from any number of tests above `n`, the loop returns the largest value reached
  have hrun : ∀ fuel, vector.length < fuel → ∃ r,
      kMax fuel k vector vector.length tmax = some r ∧ IsGreatest (reached vector k.toNat) r := by
    intro fuel hfuel
    obtain ⟨fuel, rfl⟩ : ∃ f, fuel = f + 1 := ⟨fuel - 1, by omega⟩
    have hD := descending_first hneg hk htmax hP
    rw [kMax, kMaxLoop, if_pos hk]
    generalize kMaxPass vector vector.length tmax (-1) = p at hD ⊢
    obtain ⟨m, c⟩ := p
    dsimp only at hD ⊢
    -- the first pass counts the greatest entry at least once
    have hpos : 0 < atLeast vector m :=
      List.countP_pos_iff.mpr ⟨m, hD.mem, decide_eq_true le_rfl⟩
    have hc := hD.count
    obtain ⟨r, C', hr, hD', hC'⟩ := kMaxLoop_descending hP fuel hD (by omega)
    exact ⟨r, hr, hD'.isGreatest hC'⟩
  obtain ⟨r, -, hg⟩ := hrun (vector.length + 1) (Nat.lt_succ_self _)
  refine ⟨r, hg, fun fuel hfuel => ?_⟩
  obtain ⟨r', hr', hg'⟩ := hrun fuel hfuel
  rw [hr', hg'.unique hg]

/-- `low_estimate`'s vector after the reports of `staleReports`. -/
theorem lps_staleReports :
    ((StableEstimator.new 4).addAll 1 staleReports).lps = [10, 9, 9, -1] := by
  decide

/-- `low_estimate`'s vector after the reports of `staleReports`: three entries at `0` or above,
for `k = f + 1 = 2`. -/
theorem kMax_kth_largest_staleReports :
    ∃ r, IsGreatest (reached ((StableEstimator.new 4).addAll 1 staleReports).lps (2 : Int).toNat)
        r ∧
      ∀ fuel, 4 < fuel →
        kMax fuel 2 ((StableEstimator.new 4).addAll 1 staleReports).lps 4 seqnoMax = some r := by
  rw [lps_staleReports]
  exact kMax_kth_largest (by decide) (by decide) (by decide) (by simp [seqnoMax]) (by decide)

/-- **`low_estimate` hands `K_max` an entry below `0`.** After the reports of `staleReports` the
estimate is known, so a recovering replica calls `low_estimate`; replica 3 has not reported, and
its `lp` is still the `-1` of `Val::clear`. -/
theorem lowEstimate_vector_negative :
    0 ≤ ((StableEstimator.new 4).addAll 1 staleReports).estimate ∧
      (-1 : Seqno) ∈ ((StableEstimator.new 4).addAll 1 staleReports).lps := by
  rw [lps_staleReports]
  decide

/-- **`K_max` never returns when some but fewer than `k` entries are `0` or above and none is
`0`**: it walks down to the least of them, finds nothing between `0` and it, and from then on
passes over the vector without counting anything. -/
theorem kMax_never_returns {T : Type} [LinearOrder T] [Neg T] [OfNat T 0] [OfNat T 1]
    (hneg : (-1 : T) < 0) (hadj : ∀ x : T, -1 < x → 0 ≤ x) {k : Int} {vector : List T}
    {n : Nat} {tmax : T} (hn : vector.length = n) (htmax : ∀ x ∈ vector, x < tmax)
    (hpos : 0 < atLeast vector 0) (hlt : (atLeast vector 0 : Int) < k)
    (hzero : (0 : T) ∉ vector) : ∀ fuel, kMax fuel k vector n tmax = none
  | 0 => rfl
  | fuel + 1 => by
      subst hn
      have hS := stalled_first hneg hadj htmax hpos hzero
      rw [kMax, kMaxLoop, if_pos (by omega)]
      generalize kMaxPass vector vector.length tmax (-1) = p at hS ⊢
      obtain ⟨m, c⟩ := p
      exact kMaxLoop_stalled hzero hlt fuel hS

/-- No `Seqno` lies strictly between `-1` and `0`. -/
theorem Seqno.nonneg_of_gt_neg_one (x : Seqno) (h : -1 < x) : 0 ≤ x := by
  have h' := Int64.lt_iff_toInt_lt.mp h
  apply Int64.le_iff_toInt_le.mpr
  have h1 : (-1 : Seqno).toInt = -1 := by decide
  have h0 : (0 : Seqno).toInt = 0 := by decide
  omega

/-- Replica 0 reports `lc = lp = 10`; replicas 1 and 2 report `lc = 5` and an `lp` of `-1`. -/
def unpreparedReports : List ReplyStable :=
  [⟨0, 10, 10, true⟩, ⟨1, 5, -1, true⟩, ⟨2, 5, -1, true⟩]

/-- `low_estimate`'s vector after the reports of `unpreparedReports`. -/
theorem lps_unpreparedReports :
    ((StableEstimator.new 4).addAll 1 unpreparedReports).lps = [10, -1, -1, -1] ∧
      ((StableEstimator.new 4).addAll 1 unpreparedReports).nv = 4 := by
  decide

/-- After the reports of `unpreparedReports` the estimate is known, but only replica 0's `lp` is
`0` or above, where `f + 1 = 2` are needed: `low_estimate` never returns. -/
theorem kMax_never_returns_unprepared :
    0 ≤ ((StableEstimator.new 4).addAll 1 unpreparedReports).estimate ∧
      ∀ fuel, ((StableEstimator.new 4).addAll 1 unpreparedReports).lowEstimate 1 fuel = none := by
  refine ⟨by decide, fun fuel => ?_⟩
  have h : kMax fuel (1 + 1) ([10, -1, -1, -1] : List Seqno) 4 seqnoMax = none :=
    kMax_never_returns (by decide) Seqno.nonneg_of_gt_neg_one (by decide) (by simp [seqnoMax])
      (by decide) (by decide) (by decide) fuel
  rw [StableEstimator.lowEstimate, lps_unpreparedReports.1, lps_unpreparedReports.2, h]
  rfl

end Ccf.Pbft
