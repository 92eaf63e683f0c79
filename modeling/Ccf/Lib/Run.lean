import Mathlib.Data.List.Chain
import Mathlib.Logic.Relation

/-!
# Runs of a transition system

A system is an initial-state predicate and a step relation. A *run* is a
non-empty list of states whose head is initial and whose neighbours are related
by a step; a *reachable* state is the end of some run.

Safety is proved the usual way: an inductive invariant holds of every reachable
state (`Reachable.invariant`). Statements about a whole run — "at no two moments
of any run do two parties both …" — reduce to reachability through `IsRun`: every
state of a run is reachable, and a relation that every step respects (typically
"the ghost history only grows") relates each state of the run to its last one.
-/

namespace Run

variable {S : Type} (init : S → Prop) (step : S → S → Prop)

/-- `s` is reachable from an initial state by a finite number of steps. -/
def Reachable (s : S) : Prop := ∃ s₀, init s₀ ∧ Relation.ReflTransGen step s₀ s

/-- A run: an initial state followed by states each one step after the previous. -/
def IsRun (l : List S) : Prop := ∃ s₀ rest, l = s₀ :: rest ∧ init s₀ ∧ List.IsChain step l

variable {init step}

theorem Reachable.of_init {s : S} (h : init s) : Reachable init step s :=
  ⟨s, h, .refl⟩

theorem Reachable.tail {s s' : S} (h : Reachable init step s) (hs : step s s') :
    Reachable init step s' := by
  obtain ⟨s₀, h₀, hr⟩ := h
  exact ⟨s₀, h₀, hr.tail hs⟩

/-- **Inductive invariants.** A property that holds initially and that every step
from a reachable state preserves holds of every reachable state. -/
theorem Reachable.invariant (P : S → Prop) (h0 : ∀ s, init s → P s)
    (hs : ∀ s s', Reachable init step s → P s → step s s' → P s') {s : S}
    (h : Reachable init step s) : P s := by
  obtain ⟨s₀, h₀, hr⟩ := h
  have key : Reachable init step s ∧ P s := by
    induction hr with
    | refl => exact ⟨.of_init h₀, h0 _ h₀⟩
    | tail _ hst ih => exact ⟨ih.1.tail hst, hs _ _ ih.1 ih.2 hst⟩
  exact key.2

/-- In a chain, every element reaches the last one. -/
theorem reflTransGen_getLast {l : List S} (hl : List.IsChain step l) {x : S} (hx : x ∈ l) :
    Relation.ReflTransGen step x (l.getLast (List.ne_nil_of_mem hx)) := by
  induction l generalizing x with
  | nil => simp at hx
  | cons a t ih =>
      cases t with
      | nil =>
          have hxa : x = a := by simpa using hx
          subst hxa
          exact .refl
      | cons b t' =>
          rw [List.isChain_cons_cons] at hl
          have hlast : (a :: b :: t').getLast (List.ne_nil_of_mem hx)
              = (b :: t').getLast (List.cons_ne_nil b t') := List.getLast_cons _
          rw [hlast]
          rcases List.mem_cons.mp hx with hxa | hxt
          · subst hxa
            exact .head hl.1 (ih hl.2 List.mem_cons_self)
          · exact ih hl.2 hxt

/-- Every state of a run is reachable. -/
theorem IsRun.reachable {l : List S} (h : IsRun init step l) {x : S} (hx : x ∈ l) :
    Reachable init step x := by
  obtain ⟨s₀, rest, rfl, h₀, hc⟩ := h
  -- along the chain, reachability from the head is carried step by step
  have hall := List.IsChain.induction (fun y => Relation.ReflTransGen step s₀ y) _ hc
    (fun _ _ hst hy => hy.tail hst) (fun _ => .refl)
  exact ⟨s₀, h₀, hall x hx⟩

/-- The last state of a run is reachable, and every state of the run reaches it. -/
theorem IsRun.reaches_last {l : List S} (h : IsRun init step l) {x : S} (hx : x ∈ l) :
    Reachable init step (l.getLast (List.ne_nil_of_mem hx))
      ∧ Relation.ReflTransGen step x (l.getLast (List.ne_nil_of_mem hx)) := by
  refine ⟨h.reachable (List.getLast_mem _), ?_⟩
  obtain ⟨s₀, rest, rfl, -, hc⟩ := h
  exact reflTransGen_getLast hc hx

/-! ## Labelled runs

A labelled system's steps carry what an observer sees of them. A run is read as the labels it
shows, and one system *simulates* another when each step from related states is matched by
abstract steps showing the same label, or by none for a step the observer does not see
(`Trace.simulate`): every run of the first then shows what a run of the second shows. -/

section Trace

variable {S L : Type} (step : S → L → S → Prop)

/-- A run from `s` to `s'` whose steps carry the labels `ls`, in order. -/
inductive Trace : S → List L → S → Prop
  | refl (s : S) : Trace s [] s
  | snoc {s s' s'' : S} {ls : List L} {l : L} :
      Trace s ls s' → step s' l s'' → Trace s (ls ++ [l]) s''

variable {step}

theorem Trace.single {s s' : S} {l : L} (h : step s l s') : Trace step s [l] s' := by
  simpa using Trace.snoc (Trace.refl s) h

theorem Trace.append {s s' s'' : S} {ls ls' : List L} (h₁ : Trace step s ls s')
    (h₂ : Trace step s' ls' s'') : Trace step s (ls ++ ls') s'' := by
  induction h₂ with
  | refl => simpa using h₁
  | snoc _ hst ih =>
      rw [← List.append_assoc]
      exact .snoc ih hst

/-- Zero or one step, as its label shows. -/
theorem Trace.of_option {s s' : S} {o : Option L} (h : ∀ l, o = some l → step s l s')
    (hnone : o = none → s = s') : Trace step s o.toList s' := by
  cases o with
  | none => rw [hnone rfl]; exact .refl s'
  | some l => exact .single (h l rfl)

/-- **Simulation.** When each step from a state related to an abstract one is matched by
abstract steps showing its label mapped by `f`, every run is matched by an abstract run
showing its labels mapped by `f`. -/
theorem Trace.simulate {T M : Type} {astep : T → M → T → Prop} (R : S → T → Prop)
    (f : L → Option M)
    (hstep : ∀ s t l s', R s t → step s l s' → ∃ t', R s' t' ∧ Trace astep t (f l).toList t')
    {s s' : S} {t : T} {ls : List L} (hR : R s t) (h : Trace step s ls s') :
    ∃ t', R s' t' ∧ Trace astep t (ls.filterMap f) t' := by
  induction h with
  | refl => exact ⟨t, hR, .refl t⟩
  | @snoc s₁ _ _ l _ hst ih =>
      obtain ⟨t₁, hR₁, ht₁⟩ := ih
      obtain ⟨t₂, hR₂, ht₂⟩ := hstep _ _ _ _ hR₁ hst
      have hlast : [l].filterMap f = (f l).toList := by
        cases hf : f l <;> simp [hf]
      exact ⟨t₂, hR₂, by rw [List.filterMap_append, hlast]; exact ht₁.append ht₂⟩

end Trace

end Run
