import Ccf.Lib.Run

/-!
# Channels with reservations

A FIFO channel whose senders take their place before they have their value: a sender
*reserves* a slot at the back, later *completes* it with its value, and the receiver *takes*
complete slots from the front, never one behind a slot still open. The channel's state is its
slots, oldest first, each open (`none`) or complete.

What this guarantees over a whole run (`Trace.fifo`): the values taken, in the order taken, are
those of the first reservations, in the order they were made, each a value its sender
completed; the slots left are the later reservations, in order. So a value is taken once at
most, never before it is complete, and never ahead of an earlier reservation.
-/

namespace Fifo

variable {S V : Type}

/-- What happens on the channel. -/
inductive Event (S V : Type) where
  | reserve (s : S)
  | complete (s : S) (v : V)
  | take (vs : List V)

/-- The channel's steps on its slots, oldest first. A sender has one slot at a time. -/
inductive Step : List (S × Option V) → Event S V → List (S × Option V) → Prop
  | reserve {q : List (S × Option V)} {s : S} (hs : s ∉ q.map Prod.fst) :
      Step q (.reserve s) (q ++ [(s, none)])
  | complete {q₁ q₂ : List (S × Option V)} {s : S} {v : V} :
      Step (q₁ ++ (s, none) :: q₂) (.complete s v) (q₁ ++ (s, some v) :: q₂)
  | take {pre q : List (S × Option V)} {vs : List V} (hvs : pre.map Prod.snd = vs.map some) :
      Step (pre ++ q) (.take vs) q

/-- The senders of the reservations of a run, in order. -/
def reserved : List (Event S V) → List S :=
  List.filterMap fun
    | .reserve s => some s
    | _ => none

/-- The values taken in a run, in order. -/
def taken : List (Event S V) → List V :=
  List.flatMap fun
    | .take vs => vs
    | _ => []

-- Made here once: the equation lemmas that the proofs below unfold.
section
attribute [local simp] reserved taken
end

@[simp] theorem reserved_nil : reserved ([] : List (Event S V)) = [] := rfl

@[simp] theorem taken_nil : taken ([] : List (Event S V)) = [] := rfl

@[simp] theorem reserved_append (es es' : List (Event S V)) :
    reserved (es ++ es') = reserved es ++ reserved es' := by
  simp [reserved]

@[simp] theorem taken_append (es es' : List (Event S V)) :
    taken (es ++ es') = taken es ++ taken es' := by
  simp [taken]

@[simp] theorem reserved_single (e : Event S V) :
    reserved [e] = match e with | .reserve s => [s] | _ => [] := by
  cases e <;> rfl

@[simp] theorem taken_single (e : Event S V) :
    taken [e] = match e with | .take vs => vs | _ => [] := by
  cases e <;> simp [taken]

/-- The complete slots of a prefix taken whole, as sender and value. -/
def completed (pre : List (S × Option V)) : List (S × V) :=
  pre.filterMap fun p => p.2.map (p.1, ·)

-- Made here once: the equation lemmas that the proofs below unfold.
section
attribute [local simp] completed
end

theorem completed_of_all_some {pre : List (S × Option V)} {vs : List V}
    (hvs : pre.map Prod.snd = vs.map some) :
    (completed pre).map Prod.fst = pre.map Prod.fst ∧ (completed pre).map Prod.snd = vs := by
  induction pre generalizing vs with
  | nil =>
      cases vs with
      | nil => exact ⟨rfl, rfl⟩
      | cons _ _ => simp at hvs
  | cons p pre ih =>
      cases vs with
      | nil => simp at hvs
      | cons v vs =>
          obtain ⟨hp, hrest⟩ : p.2 = some v ∧ pre.map Prod.snd = vs.map some := by simpa using hvs
          obtain ⟨ih₁, ih₂⟩ := ih hrest
          simp [completed, hp] at ih₁ ih₂ ⊢
          exact ⟨ih₁, ih₂⟩

theorem mem_completed {pre : List (S × Option V)} {p : S × V} (h : p ∈ completed pre) :
    (p.1, some p.2) ∈ pre := by
  obtain ⟨q, hq, hqp⟩ := List.mem_filterMap.mp h
  obtain ⟨s, o⟩ := q
  cases o with
  | none => cases hqp
  | some v =>
      cases hqp
      exact hq

/-- What a run from the empty channel has done: the slots taken so far, as sender and value,
and the slots left, make up the reservations in order; each taken or complete slot holds a
value its sender completed. -/
structure Done (es : List (Event S V)) (q : List (S × Option V)) (done : List (S × V)) :
    Prop where
  order : reserved es = done.map Prod.fst ++ q.map Prod.fst
  taken : taken es = done.map Prod.snd
  done_completed : ∀ p ∈ done, Event.complete p.1 p.2 ∈ es
  slot_completed : ∀ p ∈ q, ∀ v, p.2 = some v → Event.complete p.1 v ∈ es

/-- One step of the channel keeps what a run has done, with the slots it takes added. -/
theorem Done.step {es : List (Event S V)} {q q' : List (S × Option V)} {done : List (S × V)}
    {e : Event S V} (hd : Done es q done) (hs : Step q e q') :
    ∃ done', Done (es ++ [e]) q' done' := by
  cases hs with
  | @reserve _ s _ =>
      refine ⟨done, ⟨by simp [hd.order], by simp [hd.taken], ?_, ?_⟩⟩
      · intro p hp
        exact List.mem_append_left _ (hd.done_completed p hp)
      · intro p hp v hv
        rcases List.mem_append.mp hp with hp | hp
        · exact List.mem_append_left _ (hd.slot_completed p hp v hv)
        · simp at hp
          rw [hp] at hv
          cases hv
  | @complete q₁ q₂ s v =>
      refine ⟨done, ⟨by simp [hd.order], by simp [hd.taken], ?_, ?_⟩⟩
      · intro p hp
        exact List.mem_append_left _ (hd.done_completed p hp)
      · -- the completed slot holds the value just given; the others are as they were
        intro p hp v' hv'
        rcases List.mem_append.mp hp with hp | hp
        · exact List.mem_append_left _ (hd.slot_completed p (by simp [hp]) v' hv')
        · rcases List.mem_cons.mp hp with rfl | hp
          · cases hv'
            simp
          · exact List.mem_append_left _ (hd.slot_completed p (by simp [hp]) v' hv')
  | @take pre _ vs hvs =>
      obtain ⟨hfst, hsnd⟩ := completed_of_all_some hvs
      refine ⟨done ++ completed pre, ⟨?_, ?_, ?_, ?_⟩⟩
      · simp [hd.order, hfst]
      · simp [hd.taken, hsnd]
      · intro p hp
        rcases List.mem_append.mp hp with hp | hp
        · exact List.mem_append_left _ (hd.done_completed p hp)
        · exact List.mem_append_left _
            (hd.slot_completed _ (List.mem_append_left _ (mem_completed hp)) p.2 rfl)
      · intro p hp v hv
        exact List.mem_append_left _ (hd.slot_completed p (List.mem_append_right _ hp) v hv)

/-- **The channel is FIFO.** Over any run from the empty channel, the values taken are those of
the first reservations, in order, each a value its sender completed, and the slots left are
the later reservations, in order. -/
theorem Trace.fifo {es : List (Event S V)} {q : List (S × Option V)}
    (h : Run.Trace Step [] es q) : ∃ done, Done es q done := by
  induction h with
  | refl => exact ⟨[], ⟨rfl, rfl, by simp, by simp⟩⟩
  | snoc _ hs ih =>
      obtain ⟨done, hd⟩ := ih
      exact hd.step hs

end Fifo
