import Ccf.Lib.Exec

/-!
# Runs over interleaved streams

`Interleaving l l₁ l₂` says that `l` is `l₁` and `l₂` merged, each in its own order: what the
reader of one queue sees of two writers.

A step on a map state may handle the inputs of `l₁` at one key `k`, as `atKey k` of a step on that
entry, and the inputs of `l₂` away from `k`, commuting with any change at `k`. It then runs `l` as
it runs each stream alone: each input gets the output it gets in its own stream's run, and the
map ends with the first run's entry at `k` and the second run's map elsewhere
(`mapM_interleaving`). A stream handled away from `k` leaves the entry at `k` as it was
(`mapM_away`).
-/

namespace List

/-- `l` is an interleaving of `l₁` and `l₂`. -/
inductive Interleaving {α : Type} : List α → List α → List α → Prop
  | nil : Interleaving [] [] []
  | left {a : α} {l l₁ l₂ : List α} : Interleaving l l₁ l₂ → Interleaving (a :: l) (a :: l₁) l₂
  | right {a : α} {l l₁ l₂ : List α} : Interleaving l l₁ l₂ → Interleaving (a :: l) l₁ (a :: l₂)

end List

namespace EStateM

open List

variable {ε κ ν α β : Type} [DecidableEq κ]

section Away

variable {f : α → EStateM ε (κ → ν) β} {k : κ}

/-- Inputs that `f` handles away from `k`, run from a map changed at `k`, end in the map of their
own run with the same change. -/
theorem mapM_away : ∀ {ys : List α},
    (∀ y ∈ ys, ∀ p v, f y (Function.update p k v) = (f y p).mapState (Function.update · k v)) →
    ∀ {q q' : κ → ν} {cs : List β}, ys.mapM f q = .ok cs q' →
      ∀ v, ys.mapM f (Function.update q k v) = .ok cs (Function.update q' k v)
  | [], _, q, q', cs, hys, v => by
      cases hys
      rfl
  | y :: ys, hy, q, q', cs, hys, v => by
      obtain ⟨c, q₁, cs', hc, hrest, rfl⟩ := mapM_cons_of_ok hys
      have hstep : f y (Function.update q k v) = .ok c (Function.update q₁ k v) := by
        rw [hy y (List.mem_cons_self ..), hc]
        rfl
      exact mapM_cons_ok hstep (mapM_away (fun y' hy' => hy y' (List.mem_cons_of_mem y hy')) hrest v)

/-- Such a run leaves the entry at `k` as it was. -/
theorem mapM_away_at {ys : List α}
    (hy : ∀ y ∈ ys, ∀ p v, f y (Function.update p k v) = (f y p).mapState (Function.update · k v))
    {q q' : κ → ν} {cs : List β} (hys : ys.mapM f q = .ok cs q') : q' k = q k := by
  have h := mapM_away hy hys (q k)
  rw [Function.update_eq_self, hys] at h
  -- the run from `q` ends both in `q'` and in `q'` set back to `q k` at `k`
  obtain ⟨-, hq⟩ := Result.ok.inj h
  rw [hq, Function.update_self]

end Away

/-- A run over an interleaving of `xs`, whose inputs `f` handles at the entry `k` as `g` does, and
`ys`, whose inputs `f` handles away from `k`, gives each input the output of its own stream's run,
and ends with the entry of the first run at `k` and the map of the second elsewhere. -/
theorem mapM_interleaving {f : α → EStateM ε (κ → ν) β} {g : α → EStateM ε ν β} {k : κ}
    {l xs ys : List α} (hl : Interleaving l xs ys) (hx : ∀ x ∈ xs, f x = atKey k (g x))
    (hy : ∀ y ∈ ys, ∀ p v, f y (Function.update p k v) = (f y p).mapState (Function.update · k v))
    {v v' : ν} {bs : List β} (hxs : xs.mapM g v = .ok bs v')
    {q q' : κ → ν} {cs : List β} (hys : ys.mapM f q = .ok cs q') :
    ∃ ds, l.mapM f (Function.update q k v) = .ok ds (Function.update q' k v') ∧
      Interleaving (l.zip ds) (xs.zip bs) (ys.zip cs) := by
  induction hl generalizing v bs q cs with
  | nil =>
      cases hxs
      cases hys
      exact ⟨[], rfl, .nil⟩
  | @left a l xs ys _ ih =>
      -- an input of the first stream: its step runs on the entry at `k`
      obtain ⟨b, v₁, bs', hb, hrest, rfl⟩ := mapM_cons_of_ok hxs
      have hstep : f a (Function.update q k v) = .ok b (Function.update q k v₁) := by
        rw [hx a (List.mem_cons_self ..), atKey_update_self, hb]
        simp only [Result.mapState_ok]
      obtain ⟨ds, hds, hzip⟩ := ih (fun x hx' => hx x (List.mem_cons_of_mem a hx')) hy hrest hys
      exact ⟨b :: ds, mapM_cons_ok hstep hds, .left hzip⟩
  | @right a l xs ys _ ih =>
      -- an input of the second stream: its step keeps the entry at `k`
      obtain ⟨c, q₁, cs', hc, hrest, rfl⟩ := mapM_cons_of_ok hys
      have hstep : f a (Function.update q k v) = .ok c (Function.update q₁ k v) := by
        rw [hy a (List.mem_cons_self ..), hc]
        rfl
      obtain ⟨ds, hds, hzip⟩ :=
        ih hx (fun y hy' => hy y (List.mem_cons_of_mem a hy')) hxs hrest
      exact ⟨c :: ds, mapM_cons_ok hstep hds, .right hzip⟩

end EStateM
