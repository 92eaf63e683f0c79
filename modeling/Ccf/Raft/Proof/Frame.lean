import Ccf.Raft.Raft

/-!
# What the Raft machinery leaves alone

Elections are decided by four fields of a node — its term, its vote, its role and
the votes it has collected — and by the `RequestVoteResponse`s that grant a vote.
Most of `Raft` touches neither: replication, batching, commit and rollback move
indices, the ledger and the store, and send messages of every other kind.

This module proves that once, method by method. `Quiet s s'` says that a run
from `s` to `s'` kept the node's `Ballot`, its identity, its configurations and
the set of nodes it knows, and only *added* messages to its outbox, none of them
a granted vote. Each helper method of the class gets one `Rel Quiet` lemma, and
callers cite it instead of unfolding the helper.

`Quiet` is only claimed from a `Settled` state: one configuration, taking effect
at index `0`. That is the situation of a cluster given its configuration with
`add_configuration(0, C)` and never changed, and in it `rollback` and `commit`
never drop a configuration, so they never rebuild the node list.
-/

namespace Ccf.Raft

open EStateM

-- `Raft.ballot` reads fields of `raft::Raft`
set_option linter.dupNamespace false

variable {σ E : Type}

/-- Whether a message is a granted vote. -/
def RaftMsg.isGrant : RaftMsg E → Bool
  | .requestVoteResponse r => r.voteGranted
  | _ => false

-- Made here once: the equation lemmas that the proofs below unfold.
section
attribute [local simp] RaftMsg.isGrant
end

/-- The fields of a node that elections read and write. -/
structure Ballot where
  term : Term
  votedFor : Option NodeId
  state : State
  votes : List NodeId
  deriving DecidableEq, Repr

/-- A node's ballot. -/
def Raft.ballot (r : Raft σ E) : Ballot := ⟨r.currentTerm, r.votedFor, r.state, r.votesForMe⟩

/-- The node has exactly one configuration, effective from index `0`. -/
def Settled (r : Raft σ E) : Prop := ∃ c, r.configurations = [c] ∧ c.idx = 0

-- Made here once: the equation lemmas that the proofs below unfold.
section
attribute [local simp] Raft.ballot Settled
end

/-- Everything but the ballot that a run keeps: identity, configurations and the
known nodes are unchanged, and the outbox only grows, by messages of which the
granted votes satisfy `ok`. -/
structure Frame (ok : NodeId × RaftMsg E → Prop) (s s' : Raft σ E) : Prop where
  localId : s'.localId = s.localId
  configurations : s'.configurations = s.configurations
  keys : s'.nodes.map Prod.fst = s.nodes.map Prod.fst
  sent : ∃ out, s'.sent = s.sent ++ out ∧ ∀ p ∈ out, p.2.isGrant = true → ok p

/-- A run that took no part in elections. -/
def Calm (s s' : Raft σ E) : Prop := s'.ballot = s.ballot ∧ Frame (fun _ => False) s s'

/-- A run that took no part in elections, when started from a settled state. -/
def Quiet (s s' : Raft σ E) : Prop := Settled s → Calm s s'

/-- A run framed by `ok` that ends with a ballot satisfying `P`: the shape of every
method that does take part in elections. -/
def Ends (ok : NodeId × RaftMsg E → Prop) (P : Ballot → Prop) (s s' : Raft σ E) : Prop :=
  Frame ok s s' ∧ P s'.ballot

/-! ## The relations -/

theorem Frame.refl (ok : NodeId × RaftMsg E → Prop) (s : Raft σ E) : Frame ok s s :=
  ⟨rfl, rfl, rfl, [], by simp, by simp⟩

theorem Frame.trans {ok : NodeId × RaftMsg E → Prop} {s₁ s₂ s₃ : Raft σ E}
    (h₁ : Frame ok s₁ s₂) (h₂ : Frame ok s₂ s₃) : Frame ok s₁ s₃ := by
  obtain ⟨o₁, e₁, g₁⟩ := h₁.sent
  obtain ⟨o₂, e₂, g₂⟩ := h₂.sent
  refine ⟨h₂.localId.trans h₁.localId, h₂.configurations.trans h₁.configurations,
    h₂.keys.trans h₁.keys, o₁ ++ o₂, by rw [e₂, e₁, List.append_assoc], ?_⟩
  intro p hp
  rcases List.mem_append.mp hp with hp | hp
  · exact g₁ p hp
  · exact g₂ p hp

/-- A frame that sends no vote is a frame for any allowance of votes. -/
theorem Frame.widen {ok : NodeId × RaftMsg E → Prop} {s s' : Raft σ E}
    (h : Frame (fun _ => False) s s') : Frame ok s s' := by
  obtain ⟨out, e, g⟩ := h.sent
  exact ⟨h.localId, h.configurations, h.keys, out, e, fun p hp hg => (g p hp hg).elim⟩

theorem Frame.settled {ok : NodeId × RaftMsg E → Prop} {s s' : Raft σ E} (h : Frame ok s s')
    (hs : Settled s) : Settled s' := by
  unfold Settled
  rw [h.configurations]
  exact hs

/-- A field update that leaves identity, configurations, nodes and outbox alone. -/
theorem Frame.of_eq (ok : NodeId × RaftMsg E → Prop) {s s' : Raft σ E}
    (hl : s'.localId = s.localId) (hc : s'.configurations = s.configurations)
    (hk : s'.nodes.map Prod.fst = s.nodes.map Prod.fst) (hs : s'.sent = s.sent) : Frame ok s s' :=
  ⟨hl, hc, hk, [], by simp [hs], by simp⟩

/-- A frame from a state that differs from `s` only in fields frames ignore. -/
theorem Frame.after {ok : NodeId × RaftMsg E → Prop} {s s₁ s₂ : Raft σ E} (h : Frame ok s₁ s₂)
    (hl : s₁.localId = s.localId) (hc : s₁.configurations = s.configurations)
    (hk : s₁.nodes.map Prod.fst = s.nodes.map Prod.fst) (hs : s₁.sent = s.sent) : Frame ok s s₂ :=
  (Frame.of_eq ok hl hc hk hs).trans h

theorem Calm.refl (s : Raft σ E) : Calm s s := ⟨rfl, Frame.refl _ s⟩

/-- The fields of the ballot, one by one. -/
theorem Raft.ballot_eq_iff {s s' : Raft σ E} : s'.ballot = s.ballot ↔
    s'.currentTerm = s.currentTerm ∧ s'.votedFor = s.votedFor ∧ s'.state = s.state ∧
      s'.votesForMe = s.votesForMe := by
  simp [Raft.ballot]

@[simp] theorem Raft.ballot_eq_mk {s : Raft σ E} {t : Term} {v : Option NodeId} {st : State}
    {vs : List NodeId} : s.ballot = ⟨t, v, st, vs⟩ ↔
      s.currentTerm = t ∧ s.votedFor = v ∧ s.state = st ∧ s.votesForMe = vs := by
  simp [Raft.ballot]

theorem Calm.trans {s₁ s₂ s₃ : Raft σ E} (h₁ : Calm s₁ s₂) (h₂ : Calm s₂ s₃) : Calm s₁ s₃ :=
  ⟨h₂.1.trans h₁.1, h₁.2.trans h₂.2⟩

theorem Quiet.refl (s : Raft σ E) : Quiet s s := fun _ => ⟨rfl, Frame.refl _ s⟩

theorem Quiet.trans (s₁ s₂ s₃ : Raft σ E) (h₁ : Quiet s₁ s₂) (h₂ : Quiet s₂ s₃) :
    Quiet s₁ s₃ := by
  intro hs
  have c₁ := h₁ hs
  exact c₁.trans (h₂ (c₁.2.settled hs))

theorem Quiet.of_fields {s s' : Raft σ E} (hb : s'.ballot = s.ballot)
    (hl : s'.localId = s.localId) (hc : s'.configurations = s.configurations)
    (hk : s'.nodes.map Prod.fst = s.nodes.map Prod.fst) (hs : s'.sent = s.sent) : Quiet s s' :=
  fun _ => ⟨hb, Frame.of_eq _ hl hc hk hs⟩

/-- `Quiet` specifications are proved from a settled start. -/
theorem Quiet.of_settled {α : Type} {x : RaftM σ E α}
    (h : ∀ s, Settled s → wp x (fun _ => Calm s) (Calm s) s) : Rel Quiet x :=
  Rel.of_pre h

/-- A call to a quiet method from a state reached calmly. -/
theorem Calm.wp_quiet {α : Type} {x : RaftM σ E α} {s s₁ : Raft σ E} (hs : Settled s)
    (h₁ : Calm s s₁) (hx : Rel Quiet x) : wp x (fun _ => Calm s) (Calm s) s₁ :=
  wp_of_rel hx (fun _ _ h₂ => h₁.trans (h₂ (h₁.2.settled hs)))
    (fun _ h₂ => h₁.trans (h₂ (h₁.2.settled hs)))

theorem Calm.of_fields {s s' : Raft σ E} (hb : s'.ballot = s.ballot)
    (hl : s'.localId = s.localId) (hc : s'.configurations = s.configurations)
    (hk : s'.nodes.map Prod.fst = s.nodes.map Prod.fst) (hs : s'.sent = s.sent) : Calm s s' :=
  ⟨hb, Frame.of_eq _ hl hc hk hs⟩

theorem Ends.calm {ok : NodeId × RaftMsg E → Prop} {P : Ballot → Prop} {s s₁ s₂ : Raft σ E}
    (h : Ends ok P s s₁) (h' : Calm s₁ s₂) : Ends ok P s s₂ :=
  ⟨h.1.trans h'.2.widen, h'.1 ▸ h.2⟩

theorem Calm.ends {ok : NodeId × RaftMsg E → Prop} {P : Ballot → Prop} {s s₁ s₂ : Raft σ E}
    (h : Calm s s₁) (h' : Ends ok P s₁ s₂) : Ends ok P s s₂ :=
  ⟨h.2.widen.trans h'.1, h'.2⟩

theorem Ends.mono {ok : NodeId × RaftMsg E → Prop} {P P' : Ballot → Prop} {s s' : Raft σ E}
    (h : Ends ok P s s') (hP : ∀ b, P b → P' b) : Ends ok P' s s' :=
  ⟨h.1, hP _ h.2⟩

/-- A call to a quiet method after a run that ended as `Ends ok P` from `s`. -/
theorem Ends.wp_quiet {α : Type} {ok : NodeId × RaftMsg E → Prop} {P : Ballot → Prop}
    {x : RaftM σ E α} {s s₁ : Raft σ E} {Q : α → Raft σ E → Prop} {F : Raft σ E → Prop}
    (hs : Settled s) (h : Ends ok P s s₁) (hx : Rel Quiet x)
    (hQ : ∀ a s₂, Ends ok P s s₂ → Q a s₂) (hF : ∀ s₂, Ends ok P s s₂ → F s₂) : wp x Q F s₁ :=
  wp_of_rel hx (fun a s₂ h₂ => hQ a s₂ (h.calm (h₂ (h.1.settled hs))))
    (fun s₂ h₂ => hF s₂ (h.calm (h₂ (h.1.settled hs))))

/-! ## Facts about the data -/

@[simp] theorem updateNode_keys (nodes : List (NodeId × NodeState)) (id : NodeId)
    (f : NodeState → NodeState) : (updateNode nodes id f).map Prod.fst = nodes.map Prod.fst := by
  simp only [updateNode, List.map_map]
  apply List.map_congr_left
  intro p _
  simp only [Function.comp_apply]
  split <;> rfl

/-- A node is known exactly when it is one of the keys. -/
theorem lookup_isSome_iff_mem_keys (nodes : List (NodeId × NodeState)) (id : NodeId) :
    (nodes.lookup id).isSome ↔ id ∈ nodes.map Prod.fst := by
  rw [List.lookup_isSome_iff, List.mem_map]
  constructor
  · rintro ⟨p, hp, he⟩
    exact ⟨p, hp, (beq_iff_eq.mp he).symm⟩
  · rintro ⟨p, hp, rfl⟩
    exact ⟨p, hp, beq_self_eq_true _⟩

theorem dropConfigurationsAfter_settled {r : Raft σ E} (h : Settled r) (idx : Index) :
    dropConfigurationsAfter idx r.configurations = r.configurations := by
  obtain ⟨c, hc, h0⟩ := h
  simp [hc, dropConfigurationsAfter, h0]

theorem dropCommittedConfigurations_settled {r : Raft σ E} (h : Settled r) (idx : Index) :
    dropCommittedConfigurations idx r.configurations = r.configurations := by
  obtain ⟨c, hc, _⟩ := h
  simp [hc, dropCommittedConfigurations]

/-! ## The quiet methods -/

section Quiet

theorem liftStore_quiet {α : Type} (x : EStateM String σ α) :
    Rel Quiet (liftStore (E := E) x) := by
  intro s
  unfold wp liftStore
  cases x s.store <;> exact Quiet.of_fields rfl rfl rfl rfl rfl

theorem send_quiet (dst : NodeId) (m : RaftMsg E) (hm : m.isGrant = false) :
    Rel Quiet (send (σ := σ) dst m) := by
  refine Rel.modify fun s _ => ⟨rfl, rfl, rfl, rfl, [(dst, m)], rfl, ?_⟩
  simp [hm]

theorem restartElectionTimeout_quiet (draw : Int) :
    Rel Quiet (restartElectionTimeout (σ := σ) (E := E) draw) :=
  Rel.modify fun _ => Quiet.of_fields rfl rfl rfl rfl rfl

theorem updateBatchSize_quiet : Rel Quiet (updateBatchSize (σ := σ) (E := E)) :=
  Rel.modify fun _ => Quiet.of_fields rfl rfl rfl rfl rfl

theorem sendAppendEntriesRange_quiet (dst : NodeId) (startIdx endIdx : Index) :
    Rel Quiet (sendAppendEntriesRange (σ := σ) (E := E) dst startIdx endIdx) := by
  apply Rel.get_bind
  intro t
  split
  · exact Rel.throw Quiet.refl _
  · exact Rel.bind Quiet.trans
      (Rel.modify fun _ => by exact Quiet.of_fields rfl rfl rfl (by simp) rfl)
      (fun _ => send_quiet _ _ rfl)

theorem confirmedIdx_quiet (c : Configuration) :
    Rel Quiet (confirmedIdx (σ := σ) (E := E) c) := by
  apply Rel.get_bind
  intro t
  refine Rel.bind Quiet.trans (Rel.mapM Quiet.refl Quiet.trans fun node => ?_) fun _ => ?_
  · split
    · exact Rel.pure Quiet.refl _
    · split
      · exact Rel.pure Quiet.refl _
      · exact Rel.throw Quiet.refl _
  · dsimp only
    split
    · exact Rel.pure Quiet.refl _
    · exact Rel.throw Quiet.refl _

theorem sendAppendEntriesResponse_quiet (dst : NodeId) (answer : Bool) :
    Rel Quiet (sendAppendEntriesResponse (σ := σ) (E := E) dst answer) :=
  Rel.get_bind fun _ => send_quiet _ _ rfl

theorem sendRequestVote_quiet (dst : NodeId) :
    Rel Quiet (sendRequestVote (σ := σ) (E := E) dst) :=
  Rel.get_bind fun _ => send_quiet _ _ rfl

/-- A refusal is not a vote. -/
theorem sendRequestVoteResponse_false_quiet (dst : NodeId) :
    Rel Quiet (sendRequestVoteResponse (σ := σ) (E := E) dst false) :=
  Rel.get_bind fun _ => send_quiet _ _ rfl

theorem sendAppendEntriesLoop_quiet (dst : NodeId) (lastIdx batch : Index) (fuel : Nat)
    (startIdx i : Index) :
    Rel Quiet (sendAppendEntriesLoop (σ := σ) (E := E) dst lastIdx batch fuel startIdx i) := by
  induction fuel generalizing startIdx i with
  | zero => exact Rel.pure Quiet.refl _
  | succ n ih =>
      unfold sendAppendEntriesLoop
      exact Rel.ite (Rel.bind Quiet.trans (sendAppendEntriesRange_quiet _ _ _) fun _ => ih _ _)
        (Rel.pure Quiet.refl _)

theorem sendAppendEntries_quiet (dst : NodeId) (startIdx : Index) :
    Rel Quiet (sendAppendEntries (σ := σ) (E := E) dst startIdx) := by
  apply Rel.get_bind
  intro t
  exact Rel.bind Quiet.trans (sendAppendEntriesLoop_quiet _ _ _ _ _ _)
    (fun _ => Rel.ite (sendAppendEntriesRange_quiet _ _ _) (Rel.pure Quiet.refl _))

theorem resetNodes_quiet (next : Index) (ids : List NodeId) :
    Rel Quiet (resetNodes (σ := σ) (E := E) next ids) := by
  induction ids with
  | nil => exact Rel.pure Quiet.refl _
  | cons id ids ih =>
      exact Rel.bind Quiet.trans
        (Rel.modify fun _ => by exact Quiet.of_fields rfl rfl rfl (by simp) rfl)
        fun _ => Rel.bind Quiet.trans (sendAppendEntries_quiet _ _) fun _ => ih

variable [RaftStore σ E]

theorem rollback_quiet (idx : Index) : Rel Quiet (rollback (σ := σ) (E := E) idx) := by
  apply Quiet.of_settled
  intro s hs
  simp only [rollback, wp_bind]
  refine wp_of_rel (liftStore_quiet _) (fun _ s₁ h₁ => ?_) (fun _ h₁ => h₁ hs)
  have c₁ := h₁ hs
  -- the configurations rolled back to are those the node has, so nothing is rebuilt
  have hs₁ := c₁.2.settled hs
  simp only [wp_get, wp_modify, dropConfigurationsAfter_settled hs₁, ne_eq,
    not_true_eq_false, if_false, wp_pure]
  exact c₁.trans (Quiet.of_fields rfl rfl rfl rfl rfl hs₁)

theorem commit_quiet (idx : Index) : Rel Quiet (commit (σ := σ) (E := E) idx) := by
  apply Quiet.of_settled
  intro s hs
  simp only [commit, wp_bind, wp_get]
  split
  · exact ⟨rfl, Frame.refl _ s⟩
  split
  · exact ⟨rfl, Frame.refl _ s⟩
  simp only [wp_bind, wp_modify]
  have c₀ : Calm s { s with commitIdx := idx } := ⟨rfl, Frame.of_eq _ rfl rfl rfl rfl⟩
  refine wp_of_rel (liftStore_quiet _) (fun _ s₁ h₁ => ?_) (fun _ h₁ => c₀.trans (h₁ hs))
  have c₁ := c₀.trans (h₁ hs)
  -- a single configuration is never dropped by a commit
  have hs₁ := c₁.2.settled hs
  simp only [wp_get, dropCommittedConfigurations_settled hs₁, ne_eq,
    not_true_eq_false, if_false, wp_pure]
  exact c₁.trans (Quiet.of_fields rfl rfl rfl rfl rfl hs₁)

theorem commitIfPossible_quiet (idx : Index) :
    Rel Quiet (commitIfPossible (σ := σ) (E := E) idx) := by
  apply Rel.get_bind
  intro t
  refine Rel.ite (Rel.bind Quiet.trans (Rel.modify fun _ => Quiet.of_fields rfl rfl rfl rfl rfl)
    fun _ => ?_) (Rel.pure Quiet.refl _)
  split
  · exact commit_quiet _
  · exact Rel.pure Quiet.refl _

theorem updateCommit_quiet : Rel Quiet (updateCommit (σ := σ) (E := E)) := by
  apply Rel.get_bind
  intro t
  refine Rel.bind Quiet.trans
    (Rel.foldlM Quiet.refl Quiet.trans
      (fun _ c => Rel.bind Quiet.trans (confirmedIdx_quiet c) fun _ => Rel.pure Quiet.refl _) _)
    fun _ => Rel.get_bind fun _ => ?_
  exact Rel.ite (Rel.throw Quiet.refl _) (commitIfPossible_quiet _)

theorem appendEntriesLoop_quiet (fromNode : NodeId) (n : Nat) (i : Index) (isFirstEntry : Bool)
    (data : List E) :
    Rel Quiet (appendEntriesLoop (σ := σ) fromNode n i isFirstEntry data) := by
  induction n generalizing i isFirstEntry data with
  | zero => exact Rel.pure Quiet.refl _
  | succ n ih =>
      apply Rel.get_bind
      intro t
      refine Rel.ite ?skip (Rel.ite ?suspended ?record)
      case skip =>
        -- the entry is already in the log: skip it in the message
        cases data with
        | nil => exact Rel.throw Quiet.refl _
        | cons _ rest => exact ih _ _ _
      case suspended =>
        exact Rel.bind Quiet.trans (sendAppendEntriesResponse_quiet _ _) fun _ =>
          Rel.pure Quiet.refl _
      case record =>
        refine Rel.bind Quiet.trans (Rel.modify fun _ => Quiet.of_fields rfl rfl rfl rfl rfl)
          fun _ => ?_
        cases data with
        | nil => exact Rel.throw Quiet.refl _
        | cons e rest =>
            refine Rel.bind Quiet.trans (Rel.modify fun _ => Quiet.of_fields rfl rfl rfl rfl rfl)
              fun _ => Rel.bind Quiet.trans (liftStore_quiet _) fun p => ?_
            obtain ⟨res, sigTerm⟩ := p
            cases res with
            | FAILED => exact Rel.throw Quiet.refl _
            | PASS => exact ih _ _ _
            | PASS_SIGNATURE =>
                exact Rel.bind Quiet.trans
                  (Rel.modify fun _ => Quiet.of_fields rfl rfl rfl rfl rfl) fun _ => ih _ _ _

theorem acceptAppendEntries_quiet (r : AppendEntries) (prevTerm : Term) (data : List E) :
    Rel Quiet (acceptAppendEntries (σ := σ) r prevTerm data) := by
  refine Rel.ite (sendAppendEntriesResponse_quiet _ _)
    (Rel.bind Quiet.trans (appendEntriesLoop_quiet _ _ _ _ _) fun _ => Rel.ite ?_
      (Rel.pure Quiet.refl _))
  exact Rel.bind Quiet.trans (Rel.modify fun _ => Quiet.of_fields rfl rfl rfl rfl rfl) fun _ =>
    Rel.bind Quiet.trans (sendAppendEntriesResponse_quiet _ _) fun _ =>
      Rel.bind Quiet.trans (commitIfPossible_quiet _) fun _ =>
        Rel.modify fun _ => Quiet.of_fields rfl rfl rfl rfl rfl

theorem replicateLoop_quiet (entries : List (Index × E × Bool)) :
    Rel Quiet (replicateLoop (σ := σ) entries) := by
  induction entries with
  | nil => exact Rel.pure Quiet.refl _
  | cons entry rest ih =>
      obtain ⟨index, data, globallyCommittable⟩ := entry
      apply Rel.get_bind
      intro t
      refine Rel.ite (Rel.pure Quiet.refl _)
        (Rel.bind Quiet.trans (Rel.modify fun _ => Quiet.of_fields rfl rfl rfl rfl rfl)
          fun _ => Rel.get_bind fun _ => ?_)
      dsimp only
      refine Rel.ite ?_ ih
      exact Rel.bind Quiet.trans updateBatchSize_quiet fun _ =>
        Rel.bind Quiet.trans (Rel.modify fun _ => Quiet.of_fields rfl rfl rfl rfl rfl) fun _ =>
          Rel.get_bind fun _ =>
            Rel.bind Quiet.trans
              (Rel.forM Quiet.refl Quiet.trans (fun p _ => sendAppendEntries_quiet p.1 _))
              fun _ => ih

theorem replicate_quiet (entries : List (Index × E × Bool)) :
    Rel Quiet (replicate (σ := σ) entries) := by
  apply Rel.get_bind
  intro t
  refine Rel.ite (Rel.bind Quiet.trans (rollback_quiet _) fun _ => Rel.pure Quiet.refl _)
    (Rel.bind Quiet.trans (replicateLoop_quiet _) fun _ => ?_)
  refine Rel.ite (Rel.pure Quiet.refl _) (Rel.get_bind fun _ => ?_)
  dsimp only
  exact Rel.ite (Rel.bind Quiet.trans updateCommit_quiet fun _ => Rel.pure Quiet.refl _)
    (Rel.pure Quiet.refl _)

end Quiet

end Ccf.Raft
