import Mathlib.Logic.Function.Basic
import Mathlib.Order.Defs.Unbundled

/-!
# Methods that mutate their object and may throw

A C++ method that updates the fields of its object and may throw is modelled as
a computation in `EStateM ε σ`. A run from a state either returns a value or
throws, and in both cases it *ends in a state*: an exception unwinds the stack
but does not undo the writes made before it. `Result.state` reads that final
state off either outcome.

Specifications are weakest preconditions. `wp x Q E s` says that the run of `x`
from `s` returns a value and a state satisfying `Q`, or throws in a state
satisfying `E`. The `@[simp]` equations below push `wp` through `pure`, `get`,
`modify`, `throw`, sequencing and branching, so that simplifying `wp` of a
method's body executes it symbolically; a call to another method is left as a
`wp` goal and closed with that method's own specification (`wp_of_rel`), never by
unfolding it.

`Rel R x` is the specification most methods get: every run of `x`, returning or
throwing, ends in a state that `R` relates to the one it started in. For a
reflexive and transitive `R` it survives sequencing, branching and loops, so
"these fields are left alone" is proved once per method and then cited.
-/

namespace EStateM

variable {ε σ α β : Type}

/-- The state a run ends in, whether it returned or threw. -/
def Result.state : Result ε σ α → σ
  | .ok _ s => s
  | .error _ s => s

-- Made here once: the equation lemmas that the proofs below unfold.
section
attribute [local simp] Result.state
end

@[simp] theorem Result.state_ok (a : α) (s : σ) :
    (Result.ok a s : Result ε σ α).state = s := rfl

@[simp] theorem Result.state_error (e : ε) (s : σ) :
    (Result.error e s : Result ε σ α).state = s := rfl

/-- The value a run returned, if it did not throw. -/
def Result.value? : Result ε σ α → Option α
  | .ok a _ => some a
  | .error _ _ => none

/-- The exception a run threw, if it did. -/
def Result.error? : Result ε σ α → Option ε
  | .ok _ _ => none
  | .error e _ => some e

/-- Whether a run ended in an exception. -/
def Result.threw : Result ε σ α → Bool
  | .ok _ _ => false
  | .error _ _ => true

/-- The weakest precondition of `x` for postcondition `Q` on returning and `E` on
throwing. -/
def wp (x : EStateM ε σ α) (Q : α → σ → Prop) (E : σ → Prop) (s : σ) : Prop :=
  match x s with
  | .ok a s' => Q a s'
  | .error _ s' => E s'

-- Made here once: the equation lemmas that the proofs below unfold.
section
attribute [local simp] wp
end

section Wp

variable {Q : α → σ → Prop} {E : σ → Prop} {s : σ}

@[simp] theorem wp_pure (a : α) : wp (pure a : EStateM ε σ α) Q E s ↔ Q a s := Iff.rfl

@[simp] theorem wp_get {Q : σ → σ → Prop} : wp (get : EStateM ε σ σ) Q E s ↔ Q s s := Iff.rfl

@[simp] theorem wp_getState {Q : σ → σ → Prop} : wp (EStateM.get : EStateM ε σ σ) Q E s ↔ Q s s :=
  Iff.rfl

@[simp] theorem wp_set {Q : PUnit → σ → Prop} (s' : σ) :
    wp (set s' : EStateM ε σ PUnit) Q E s ↔ Q ⟨⟩ s' := Iff.rfl

@[simp] theorem wp_modify {Q : PUnit → σ → Prop} (f : σ → σ) :
    wp (modify f : EStateM ε σ PUnit) Q E s ↔ Q ⟨⟩ (f s) := Iff.rfl

@[simp] theorem wp_throw (e : ε) : wp (throw e : EStateM ε σ α) Q E s ↔ E s := Iff.rfl

@[simp] theorem wp_bind {Q : β → σ → Prop} (x : EStateM ε σ α) (f : α → EStateM ε σ β) :
    wp (x >>= f) Q E s ↔ wp x (fun a s' => wp (f a) Q E s') E s := by
  unfold wp
  show (match (match x s with | .ok a s' => f a s' | .error e s' => .error e s') with
    | .ok b s' => Q b s' | .error _ s' => E s') ↔ _
  cases x s <;> rfl

@[simp] theorem wp_ite {c : Prop} [Decidable c] (x y : EStateM ε σ α) :
    wp (if c then x else y) Q E s ↔ (if c then wp x Q E s else wp y Q E s) := by
  split <;> rfl

/-- A test, each branch proved under its outcome. -/
theorem wp_ite_of {c : Prop} [Decidable c] {x y : EStateM ε σ α} (hx : c → wp x Q E s)
    (hy : ¬c → wp y Q E s) : wp (if c then x else y) Q E s := by
  split
  · next hc => exact hx hc
  · next hc => exact hy hc

/-- The final state of a run satisfies whatever both postconditions promise of it. -/
theorem wp_state {P : σ → Prop} {x : EStateM ε σ α} (h : wp x (fun _ => P) P s) :
    P (x s).state := by
  unfold wp at h
  split at h <;> simp_all

/-- A run that cannot throw, and whose every return is `b` in a state satisfying `P`,
returns `b` in such a state. -/
theorem value?_of_wp {x : EStateM ε σ α} {b : α} {P : σ → Prop}
    (h : wp x (fun a s' => a = b ∧ P s') (fun _ => False) s) :
    (x s).value? = some b ∧ P (x s).state := by
  unfold wp at h
  revert h
  cases x s <;> simp [Result.value?]

/-- A run that returns `b` ends in a state satisfying what the run promises on returning `b`. -/
theorem state_of_value_eq {x : EStateM ε σ α} {b : α} {P : σ → Prop}
    (h : wp x (fun a s' => a = b → P s') (fun _ => True) s) (hv : (x s).value? = some b) :
    P (x s).state := by
  unfold wp at h
  revert h hv
  cases x s with
  | ok a s' => exact fun h hv => h (Option.some.inj hv)
  | error e s' => exact fun _ hv => by cases hv

/-- A run ends in a state satisfying `P`, or returns a value that `R` relates to the state it
ends in. -/
theorem wp_cases {P : σ → Prop} {R : α → σ → Prop} {x : EStateM ε σ α}
    (h : wp x (fun a s' => P s' ∨ R a s') P s) :
    P (x s).state ∨ ∃ a, (x s).value? = some a ∧ R a (x s).state := by
  unfold wp at h
  revert h
  cases x s with
  | ok a s' =>
      rintro (h | h)
      · exact .inl h
      · exact .inr ⟨a, rfl, h⟩
  | error e s' => exact .inl

theorem wp_trivial {x : EStateM ε σ α} : wp x (fun _ _ => True) (fun _ => True) s := by
  unfold wp
  split <;> trivial

theorem wp_mono {x : EStateM ε σ α} {Q' : α → σ → Prop} {E' : σ → Prop}
    (h : wp x Q E s) (hQ : ∀ a s', Q a s' → Q' a s') (hE : ∀ s', E s' → E' s') :
    wp x Q' E' s := by
  unfold wp at *
  split at h <;> simp_all

end Wp

/-! ## Runs that only read

A computation that reads the state and returns a value without touching it is
described exactly, by the equation `x s = .ok a s`; these lemmas carry such
equations through sequencing and loops. -/

section Ok

variable {s s' : σ}

/-- A call that returned: the rest of the method goes on from where it stopped. -/
theorem bind_of_ok {x : EStateM ε σ α} {f : α → EStateM ε σ β} {a : α}
    (h : x s = .ok a s') : (x >>= f) s = f a s' := by
  show (match x s with | .ok a s => f a s | .error e s => .error e s) = _
  rw [h]

/-- A call that threw: the method throws the same, from where the call stopped. -/
theorem bind_of_error {x : EStateM ε σ α} {f : α → EStateM ε σ β} {e : ε}
    (h : x s = .error e s') : (x >>= f) s = .error e s' := by
  show (match x s with | .ok a s => f a s | .error e s => .error e s) = _
  rw [h]

/-- A call that ends alike from two states: the method ends alike from both. -/
theorem bind_congr_of_eq {x : EStateM ε σ α} {f : α → EStateM ε σ β} {t : σ}
    (h : x s = x t) : (x >>= f) s = (x >>= f) t := by
  change EStateM.bind x f s = EStateM.bind x f t
  unfold EStateM.bind
  rw [h]

/-- A value returned: the rest runs on it, from the same state. -/
theorem pure_bind_apply {a : α} {f : α → EStateM ε σ β} : (pure a >>= f) s = f a s := rfl

/-- Reading the state: the rest runs on the state read, from that state. -/
theorem get_bind_apply {f : σ → EStateM ε σ β} : (get >>= f) s = f s s := rfl

/-- Writing the state: the rest runs from the state written. -/
theorem set_bind_apply {f : PUnit → EStateM ε σ β} : (set s' >>= f) s = f ⟨⟩ s' := rfl

/-- Updating the state: the rest runs from the updated state. -/
theorem modify_bind_apply {g : σ → σ} {f : PUnit → EStateM ε σ β} :
    (modify g >>= f) s = f ⟨⟩ (g s) := rfl

/-- A map whose every call returns `g a` and leaves the state alone. -/
theorem mapM_ok {f : α → EStateM ε σ β} {g : α → β} :
    ∀ {l : List α}, (∀ a ∈ l, f a s = .ok (g a) s) → l.mapM f s = .ok (l.map g) s
  | [], _ => rfl
  | a :: l, h => by
      rw [List.mapM_cons, bind_of_ok (h a (List.mem_cons_self ..)),
        bind_of_ok (mapM_ok fun b hb => h b (List.mem_cons_of_mem a hb))]
      rfl

/-- A fold whose every call returns `g b a` and leaves the state alone. -/
theorem foldlM_ok {f : β → α → EStateM ε σ β} {g : β → α → β} :
    ∀ {l : List α} (init : β), (∀ b, ∀ a ∈ l, f b a s = .ok (g b a) s) →
      l.foldlM f init s = .ok (l.foldl g init) s
  | [], _, _ => rfl
  | a :: l, init, h => by
      rw [List.foldlM_cons, bind_of_ok (h init a (List.mem_cons_self ..))]
      exact foldlM_ok _ fun b c hc => h b c (List.mem_cons_of_mem a hc)

end Ok

/-- Every run of `x` ends in a state that `R` relates to the one it started in. -/
def Rel (R : σ → σ → Prop) (x : EStateM ε σ α) : Prop := ∀ s, wp x (fun _ => R s) (R s) s

section Rel

variable {R R' : σ → σ → Prop}

theorem Rel.state {x : EStateM ε σ α} (h : Rel R x) (s : σ) : R s (x s).state :=
  wp_state (h s)

/-- A call inside a method: what the callee's specification gives is enough to
go on from where the callee stopped. -/
theorem wp_of_rel {x : EStateM ε σ α} {Q : α → σ → Prop} {E : σ → Prop} {s : σ}
    (hx : Rel R x) (hQ : ∀ a s', R s s' → Q a s') (hE : ∀ s', R s s' → E s') : wp x Q E s :=
  wp_mono (hx s) hQ hE

theorem Rel.pure (hR : ∀ s, R s s) (a : α) : Rel R (pure a : EStateM ε σ α) :=
  fun s => hR s

theorem Rel.throw (hR : ∀ s, R s s) (e : ε) : Rel R (throw e : EStateM ε σ α) :=
  fun s => hR s

theorem Rel.modify {f : σ → σ} (h : ∀ s, R s (f s)) : Rel R (modify f : EStateM ε σ PUnit) :=
  fun s => h s

/-- The workhorse: a transitive relation survives sequencing. -/
theorem Rel.bind (hT : ∀ a b c, R a b → R b c → R a c) {x : EStateM ε σ α}
    {f : α → EStateM ε σ β} (hx : Rel R x) (hf : ∀ a, Rel R (f a)) : Rel R (x >>= f) := by
  intro s
  rw [wp_bind]
  refine wp_of_rel hx (fun a s₁ h₁ => ?_) (fun _ h => h)
  exact wp_mono (hf a s₁) (fun _ _ h₂ => hT _ _ _ h₁ h₂) (fun _ h₂ => hT _ _ _ h₁ h₂)

/-- Reading the state, when the rest keeps `R` from wherever it starts. -/
theorem Rel.get_bind {f : σ → EStateM ε σ β} (hf : ∀ t, Rel R (f t)) : Rel R (get >>= f) := by
  intro s
  simpa using hf s s

/-- Reading the state: the rest of the method runs from the very state it read. -/
theorem Rel.get_bind_at {f : σ → EStateM ε σ β} (hf : ∀ t, wp (f t) (fun _ => R t) (R t) t) :
    Rel R (get >>= f) := by
  intro s
  simpa using hf s

/-- Going on from a state already related to the start. -/
theorem Rel.wp_trans (hT : ∀ a b c, R a b → R b c → R a c) {x : EStateM ε σ α} {s s₁ : σ}
    (h₁ : R s s₁) (hx : Rel R x) : wp x (fun _ => R s) (R s) s₁ :=
  wp_of_rel hx (fun _ _ h₂ => hT _ _ _ h₁ h₂) (fun _ h₂ => hT _ _ _ h₁ h₂)

theorem Rel.ite {c : Prop} [Decidable c] {x y : EStateM ε σ α}
    (hx : Rel R x) (hy : Rel R y) : Rel R (if c then x else y) := by
  split
  · exact hx
  · exact hy

/-- A loop over a list, one call per element. -/
theorem Rel.forM (hR : ∀ s, R s s) (hT : ∀ a b c, R a b → R b c → R a c)
    {l : List α} {f : α → EStateM ε σ PUnit} (hf : ∀ a ∈ l, Rel R (f a)) :
    Rel R (l.forM f) := by
  induction l with
  | nil => exact Rel.pure hR _
  | cons a l ih =>
      show Rel R (f a >>= fun _ => l.forM f)
      exact Rel.bind hT (hf a (by simp)) fun _ => ih fun b hb => hf b (by simp [hb])

/-- A fold over a list, one call per element. -/
theorem Rel.foldlM (hR : ∀ s, R s s) (hT : ∀ a b c, R a b → R b c → R a c)
    {l : List α} {f : β → α → EStateM ε σ β} (hf : ∀ b a, Rel R (f b a)) (init : β) :
    Rel R (l.foldlM f init) := by
  induction l generalizing init with
  | nil => exact Rel.pure hR _
  | cons a l ih =>
      rw [List.foldlM_cons]
      exact Rel.bind hT (hf init a) ih

/-- A map over a list, one call per element. -/
theorem Rel.mapM (hR : ∀ s, R s s) (hT : ∀ a b c, R a b → R b c → R a c)
    {l : List α} {f : α → EStateM ε σ β} (hf : ∀ a, Rel R (f a)) :
    Rel R (l.mapM f) := by
  induction l with
  | nil => exact Rel.pure hR _
  | cons a l ih =>
      rw [List.mapM_cons]
      exact Rel.bind hT (hf a) fun _ => Rel.bind hT ih fun _ => Rel.pure hR _

/-- The shape `do` gives `if c then x` in the middle of a method: both branches go
on to the same continuation `j`, from wherever `x` stopped or from the state the
test was made in. -/
theorem wp_ite_join {c : Prop} [Decidable c] {x : EStateM ε σ α} {j : α → EStateM ε σ β}
    (a₀ : α) {Q : β → σ → Prop} {E : σ → Prop} {s : σ} (hx : Rel R x)
    (hE : c → ∀ s₁, R s s₁ → E s₁)
    (hj : ∀ a s₁, (c ∧ R s s₁) ∨ (¬c ∧ s₁ = s) → wp (j a) Q E s₁) :
    wp (if c then x >>= j else j a₀) Q E s := by
  split
  · next hc =>
      rw [wp_bind]
      exact wp_of_rel hx (fun a s₁ h => hj a s₁ (Or.inl ⟨hc, h⟩)) (hE hc)
  · next hc => exact hj a₀ s (Or.inr ⟨hc, rfl⟩)

/-- A relation that only has to hold from states satisfying `P`: assume `P` of the
state the run starts in. -/
theorem Rel.of_pre {P : σ → Prop} {x : EStateM ε σ α}
    (h : ∀ s, P s → wp x (fun _ => R s) (R s) s) : Rel (fun s s' => P s → R s s') x := by
  intro s
  by_cases hs : P s
  · exact wp_mono (h s hs) (fun _ _ h' _ => h') (fun _ h' _ => h')
  · exact wp_mono wp_trivial (fun _ _ _ h' => absurd h' hs) (fun _ _ h' => absurd h' hs)

theorem Rel.mono (h : ∀ s s', R s s' → R' s s') {x : EStateM ε σ α} (hx : Rel R x) :
    Rel R' x := fun s => wp_mono (hx s) (fun _ _ h' => h _ _ h') (fun _ h' => h _ _ h')

/-- `P` holds where a run ends whenever it held where the run started: `Rel (Keep P) x`
says that every run of `x` preserves `P`. -/
def Keep (P : σ → Prop) (s s' : σ) : Prop := P s → P s'

theorem Keep.refl {P : σ → Prop} (s : σ) : Keep P s s := id

theorem Keep.trans {P : σ → Prop} (a b c : σ) (h₁ : Keep P a b) (h₂ : Keep P b c) :
    Keep P a c :=
  fun h => h₂ (h₁ h)

end Rel

/-! ## One entry of a map

A method that works on one entry of a map member, finding it, then inserting or erasing at its
key, is a computation on that entry run at the key by `atKey`. It leaves the other entries alone:
run from a map changed at another key, it ends in its own result with the same change
(`atKey_update_of_ne`). -/

section AtKey

variable {κ ν τ : Type} [DecidableEq κ]

/-- The result of a run with its final state changed by `g`. -/
def Result.mapState (g : σ → τ) : Result ε σ α → Result ε τ α
  | .ok a s => .ok a (g s)
  | .error e s => .error e (g s)

-- Made here once: the equation lemmas that the proofs below unfold.
section
attribute [local simp] Result.mapState
end

@[simp] theorem Result.mapState_ok (g : σ → τ) (a : α) (s : σ) :
    (Result.ok a s : Result ε σ α).mapState g = .ok a (g s) := rfl

@[simp] theorem Result.mapState_error (g : σ → τ) (e : ε) (s : σ) :
    (Result.error e s : Result ε σ α).mapState g = .error e (g s) := rfl

/-- Run `x` on the entry of a map at `k`. -/
def atKey (k : κ) (x : EStateM ε ν α) : EStateM ε (κ → ν) α := fun p =>
  (x (p k)).mapState (Function.update p k)

theorem atKey_apply (k : κ) (x : EStateM ε ν α) (p : κ → ν) :
    atKey k x p = (x (p k)).mapState (Function.update p k) := rfl

/-- From a map whose entry at `k` is `v`, the run is that of `x` from `v`. -/
theorem atKey_update_self (k : κ) (x : EStateM ε ν α) (p : κ → ν) (v : ν) :
    atKey k x (Function.update p k v) = (x v).mapState (Function.update p k) := by
  rw [atKey_apply, Function.update_self]
  cases x v <;> simp only [Result.mapState, Function.update_idem]

/-- A run at `j` does not see a change at another key, and keeps it. -/
theorem atKey_update_of_ne {j k : κ} (h : j ≠ k) (x : EStateM ε ν α) (p : κ → ν) (v : ν) :
    atKey j x (Function.update p k v) = (atKey j x p).mapState (Function.update · k v) := by
  rw [atKey_apply, atKey_apply, Function.update_of_ne h]
  cases x (p j) <;> simp only [Result.mapState, Function.update_comm h]

end AtKey

/-- A map over `a :: l` that returned: the call on `a` returned, then the map over `l`. -/
theorem mapM_cons_of_ok {f : α → EStateM ε σ β} {a : α} {l : List α} {s s' : σ} {bs : List β}
    (h : (a :: l).mapM f s = .ok bs s') :
    ∃ b s₁ bs', f a s = .ok b s₁ ∧ l.mapM f s₁ = .ok bs' s' ∧ bs = b :: bs' := by
  rw [List.mapM_cons] at h
  cases ha : f a s with
  | error e s₁ => rw [bind_of_error ha] at h; cases h
  | ok b s₁ =>
      rw [bind_of_ok ha] at h
      cases hl : l.mapM f s₁ with
      | error e s₂ => rw [bind_of_error hl] at h; cases h
      | ok bs' s₂ =>
          rw [bind_of_ok hl] at h
          cases h
          exact ⟨b, s₁, bs', rfl, hl, rfl⟩

theorem mapM_cons_ok {f : α → EStateM ε σ β} {a : α} {l : List α} {s s₁ s' : σ} {b : β}
    {bs : List β} (ha : f a s = .ok b s₁) (hl : l.mapM f s₁ = .ok bs s') :
    (a :: l).mapM f s = .ok (b :: bs) s' := by
  rw [List.mapM_cons, bind_of_ok ha, bind_of_ok hl]
  rfl

end EStateM

/-!
## Loops that stop at the first `false`

`List.allM p l` runs `p` on the elements of `l` in order and stops at the first that
returns `false`: a C++ `for` loop whose body is `if (!f(x)) return false;`. Loops over a
concatenation, or over lists made of lists, are then one loop over all the elements.
-/

namespace List

variable {m : Type → Type} [Monad m] [LawfulMonad m] {α β : Type}

theorem allM_append (p : α → m Bool) (l₁ l₂ : List α) :
    (l₁ ++ l₂).allM p = l₁.allM p >>= fun ok => if ok then l₂.allM p else pure false := by
  induction l₁ with
  | nil => simp
  | cons a l₁ ih =>
      simp only [List.cons_append, List.allM_cons, ih, bind_assoc]
      congr 1
      funext b
      cases b <;> simp

theorem allM_flatMap (p : α → m Bool) (l : List β) (f : β → List α) :
    (l.flatMap f).allM p = l.allM fun b => (f b).allM p := by
  induction l with
  | nil => simp
  | cons b l ih => simp only [List.flatMap_cons, allM_append, ih, List.allM_cons]

omit [LawfulMonad m] in
theorem allM_map (p : α → m Bool) (f : β → α) (l : List β) : (l.map f).allM p = l.allM (p ∘ f) := by
  induction l with
  | nil => simp
  | cons b l ih => simp only [List.map_cons, List.allM_cons, ih, Function.comp_apply]

theorem allM_singleton (p : α → m Bool) (a : α) : [a].allM p = p a := by
  simp only [List.allM_cons, List.allM_nil]
  conv => rhs; rw [← bind_pure (p a)]
  congr 1
  funext b
  cases b <;> rfl

end List

namespace Except

variable {ε α β : Type}

/-- A sequence that returned: its first step returned, and the rest returned from there. -/
theorem exists_of_bind_eq_ok {x : Except ε α} {f : α → Except ε β} {b : β}
    (h : (x >>= f) = .ok b) : ∃ a, x = .ok a ∧ f a = .ok b := by
  cases x with
  | error e => cases h
  | ok a => exact ⟨a, rfl, h⟩

/-- A fold whose every step on an element of the list returns when `P` holds, and keeps `P`,
returns a value satisfying `P`. -/
theorem foldlM_ok_of {f : β → α → Except ε β} {P : β → Prop} :
    ∀ (l : List α) (init : β), (∀ b, ∀ a ∈ l, P b → ∃ b', f b a = .ok b' ∧ P b') → P init →
      ∃ b, l.foldlM f init = .ok b ∧ P b
  | [], init, _, h => ⟨init, rfl, h⟩
  | a :: l, init, hf, h => by
      obtain ⟨b', hb', hP⟩ := hf init a List.mem_cons_self h
      rw [List.foldlM_cons, hb']
      exact foldlM_ok_of l b' (fun b a' ha' => hf b a' (List.mem_cons_of_mem a ha')) hP

end Except
