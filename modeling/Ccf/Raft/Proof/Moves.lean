import Ccf.Raft.Proof.Frame

/-!
# What one call into a node does to elections

Four methods of `Raft` change a node's ballot: `become_follower` steps down to a
term, `become_candidate` stands for the next one, `add_vote_for_me` counts a vote
and may call `become_leader`, which takes office. Each gets a specification here,
proved by executing its body symbolically and citing the `Quiet` lemmas of
`Frame` for everything else it calls.

From them every entry point — `recv_message` for each kind of message,
`periodic` and `replicate` — is shown to make one `Move`: it stays calm, steps
down, grants its vote, campaigns or counts a vote, and nothing else. These five
moves are all the election invariant of `Election` has to be checked against.

Exceptions are part of each specification: a method that throws half way keeps
its writes, so every statement is about the state a run ends in, returned or not.
`become_follower`, for instance, writes its whole ballot before the store's
`rollback` can throw, and `become_leader` may throw in `rollback` before it takes
office, leaving a candidate that has counted its votes.
-/

namespace Ccf.Raft

open EStateM

-- `Raft.quorum` reads fields of `raft::Raft`
set_option linter.dupNamespace false

variable {σ E : Type}

/-- The ballot of a node that stepped down to follower in term `t`. -/
def Ballot.follower (t : Term) : Ballot := ⟨t, none, .Follower, []⟩

/-- `add_vote_for_me`'s threshold, met by `votes`: a strict majority of the other
nodes plus this one. -/
def Raft.quorum (r : Raft σ E) (votes : List NodeId) : Prop :=
  (r.nodes.length + 1) / 2 + 1 ≤ votes.length

-- Made here once: the equation lemmas that the proofs below unfold.
section
attribute [local simp] Ballot.follower Raft.quorum
end

/-- One call into a node, as elections see it. `granted u t` says what the call
may count as the vote of `u` in term `t`. -/
inductive Move (granted : NodeId → Term → Prop) (s s' : Raft σ E) : Prop where
  /-- It took no part in elections. -/
  | calm : Calm s s' → Move granted s s'
  /-- It stepped down to follower in term `t`: a newer term, or its own term when,
  as a candidate, it heard from that term's leader. -/
  | stepDown (t : Term) : s.currentTerm < t ∨ s.currentTerm = t ∧ s.state = .Candidate →
      Ends (fun _ => False) (· = Ballot.follower t) s s' → Move granted s s'
  /-- It granted its vote in term `t` to `c`, after stepping down to `t` if `t` is
  newer. -/
  | vote (t : Term) (c : NodeId) : c ∈ s.nodes.map Prod.fst →
      (s.currentTerm < t ∧ s'.ballot = ⟨t, some c, .Follower, []⟩ ∨
        s.currentTerm = t ∧ (s.votedFor = none ∨ s.votedFor = some c) ∧
          s'.ballot = { s.ballot with votedFor := some c }) →
      Frame (· = (c, .requestVoteResponse ⟨s.localId, t, true⟩)) s s' → Move granted s s'
  /-- It timed out and stood for the next term. -/
  | campaign : s.state ≠ .Leader →
      Ends (fun _ => False)
        (fun b => b = ⟨s.currentTerm + 1, some s.localId, .Candidate, [s.localId]⟩ ∨
          s.quorum [s.localId] ∧ b = ⟨s.currentTerm + 1, some s.localId, .Leader, [s.localId]⟩)
        s s' →
      Move granted s s'
  /-- As a candidate, it counted the vote of `u`. -/
  | count (u : NodeId) : s.state = .Candidate → u ∈ s.nodes.map Prod.fst →
      granted u s.currentTerm →
      Ends (fun _ => False)
        (fun b => b = { s.ballot with votes := s.votesForMe.insert u } ∨
          s.quorum (s.votesForMe.insert u) ∧
            b = { s.ballot with votes := s.votesForMe.insert u, state := .Leader }) s s' →
      Move granted s s'

theorem Move.mono {g g' : NodeId → Term → Prop} {s s' : Raft σ E} (h : ∀ u t, g u t → g' u t) :
    Move g s s' → Move g' s s'
  | .calm c => .calm c
  | .stepDown t ht e => .stepDown t ht e
  | .vote t c hc hb f => .vote t c hc hb f
  | .campaign hl e => .campaign hl e
  | .count u hc hu hg e => .count u hc hu (h u _ hg) e

/-- A quiet call made from a state the node reached calmly. -/
theorem Calm.wp_move {α : Type} {g : NodeId → Term → Prop} {x : RaftM σ E α} {s s₁ : Raft σ E}
    (hs : Settled s) (h₁ : Calm s s₁) (hx : Rel Quiet x) :
    wp x (fun _ => Move g s) (Move g s) s₁ :=
  wp_mono (h₁.wp_quiet hs hx) (fun _ _ h => .calm h) (fun _ h => .calm h)

/-- `send_request_vote_response` sends one message: a granted vote to `dst` from
this node in its term, when the answer is yes. -/
theorem sendRequestVoteResponse_spec (dst : NodeId) (answer : Bool) :
    Rel (fun s s' => s'.ballot = s.ballot ∧ ∀ ok : NodeId × RaftMsg E → Prop,
        ok (dst, .requestVoteResponse ⟨s.localId, s.currentTerm, true⟩) → Frame ok s s')
      (sendRequestVoteResponse (σ := σ) (E := E) dst answer) := by
  intro s
  simp only [sendRequestVoteResponse, send, wp_bind, wp_get, wp_modify]
  refine ⟨rfl, fun ok hok => ⟨rfl, rfl, rfl,
    [(dst, .requestVoteResponse ⟨s.localId, s.currentTerm, answer⟩)], rfl, ?_⟩⟩
  intro p hp hg
  simp only [List.mem_singleton] at hp
  subst hp
  simp only [RaftMsg.isGrant] at hg
  rw [hg]
  exact hok

variable [RaftStore σ E]

/-! ## The methods that change a ballot -/

theorem becomeFollower_spec (draw : Int) (t : Term) :
    Rel (fun s s' => Settled s → Ends (fun _ => False) (· = Ballot.follower t) s s')
      (becomeFollower (σ := σ) (E := E) draw t) := by
  apply Rel.of_pre
  intro s hs
  simp only [becomeFollower, restartElectionTimeout, wp_bind, wp_modify, wp_get]
  -- the ballot is final before anything can throw
  refine Ends.wp_quiet hs ?_ (rollback_quiet _)
    (fun _ s₂ h₂ => h₂.calm (Calm.of_fields rfl rfl rfl rfl rfl)) (fun _ h₂ => h₂)
  exact ⟨Frame.of_eq _ rfl rfl rfl rfl, rfl⟩

theorem becomeLeader_spec :
    Rel (fun s s' => Settled s → Ends (fun _ => False)
        (fun b => b = s.ballot ∨ b = { s.ballot with state := .Leader }) s s')
      (becomeLeader (σ := σ) (E := E)) := by
  apply Rel.of_pre
  intro s hs
  simp -zeta only [becomeLeader, wp_bind, wp_get]
  refine wp_ite_join () (rollback_quiet _) (fun _ s₁ h₁ => ⟨(h₁ hs).2, Or.inl (h₁ hs).1⟩)
    (fun _ s₁ h₁ => ?_)
  -- whether or not it rolled back, the node is where it was as far as elections go
  have c₁ : Calm s s₁ := by
    rcases h₁ with ⟨_, h₁⟩ | ⟨_, h₁⟩
    · exact h₁ hs
    · exact h₁ ▸ Calm.refl s
  simp only [wp_bind, wp_modify, wp_get]
  have e₂ : Ends (fun _ => False) (fun b => b = s.ballot ∨ b = { s.ballot with state := .Leader }) s
      { s₁ with committableIndices := [], state := .Leader, leaderId := some s₁.localId,
                timeoutElapsed := 0 } :=
    ⟨c₁.2.trans (Frame.of_eq _ rfl rfl rfl rfl), Or.inr (by
      obtain ⟨ht, hv, -, hvs⟩ := Raft.ballot_eq_iff.mp c₁.1
      simp [Raft.ballot, ht, hv, hvs])⟩
  split
  · exact Ends.wp_quiet hs e₂ (commit_quiet _) (fun _ _ h => h) (fun _ h => h)
  · exact Ends.wp_quiet hs e₂ (resetNodes_quiet _ _) (fun _ _ h => h) (fun _ h => h)

theorem addVoteForMe_spec (u : NodeId) :
    Rel (fun s s' => Settled s → Ends (fun _ => False)
        (fun b => b = { s.ballot with votes := s.votesForMe.insert u } ∨
          s.quorum (s.votesForMe.insert u) ∧
            b = { s.ballot with votes := s.votesForMe.insert u, state := .Leader }) s s')
      (addVoteForMe (σ := σ) (E := E) u) := by
  apply Rel.of_pre
  intro s hs
  simp only [addVoteForMe, wp_bind, wp_modify, wp_get, wp_ite, wp_pure]
  split
  · next hq =>
      -- enough votes: `become_leader` may still throw before it takes office
      have key : ∀ s₂ : Raft σ E,
          (Settled { s with votesForMe := s.votesForMe.insert u } →
            Ends (fun _ => False) (fun b => b = { s with votesForMe := s.votesForMe.insert u }.ballot ∨
              b = { { s with votesForMe := s.votesForMe.insert u }.ballot with state := .Leader })
              { s with votesForMe := s.votesForMe.insert u } s₂) →
          Ends (fun _ => False) (fun b => b = { s.ballot with votes := s.votesForMe.insert u } ∨
            s.quorum (s.votesForMe.insert u) ∧
              b = { s.ballot with votes := s.votesForMe.insert u, state := .Leader }) s s₂ := by
        intro s₂ h₂
        obtain ⟨f₂, hb₂⟩ := h₂ hs
        refine ⟨f₂.after rfl rfl rfl rfl, ?_⟩
        rcases hb₂ with hb | hb
        · exact Or.inl hb
        · exact Or.inr ⟨hq, hb⟩
      exact wp_of_rel becomeLeader_spec (fun _ s₂ h₂ => key s₂ h₂) key
  · exact ⟨Frame.of_eq _ rfl rfl rfl rfl, Or.inl rfl⟩

theorem becomeCandidate_spec (draw : Int) :
    Rel (fun s s' => Settled s → Ends (fun _ => False)
        (fun b => b = ⟨s.currentTerm + 1, some s.localId, .Candidate, [s.localId]⟩ ∨
          s.quorum [s.localId] ∧ b = ⟨s.currentTerm + 1, some s.localId, .Leader, [s.localId]⟩) s s')
      (becomeCandidate (σ := σ) (E := E) draw) := by
  apply Rel.of_pre
  intro s hs
  simp only [becomeCandidate, restartElectionTimeout, wp_bind, wp_modify, wp_get]
  refine wp_of_rel (addVoteForMe_spec _) (fun _ s₂ h₂ => ?_) (fun s₂ h₂ => ?_)
  all_goals obtain ⟨f₂, hb₂⟩ := h₂ hs
  · refine Ends.wp_quiet hs ⟨f₂.after rfl rfl rfl rfl, ?_⟩
      (Rel.forM Quiet.refl Quiet.trans fun p _ => sendRequestVote_quiet p.1)
      (fun _ _ h => h) (fun _ h => h)
    -- the vote for itself is the only one a new candidate holds
    simpa [Raft.ballot, Raft.quorum] using hb₂
  · refine ⟨f₂.after rfl rfl rfl rfl, ?_⟩
    simpa [Raft.ballot, Raft.quorum] using hb₂

/-- Stepping down from a state reached calmly. -/
theorem Calm.wp_stepDown {α : Type} {g : NodeId → Term → Prop} {s s₁ : Raft σ E} (draw : Int)
    {t : Term} (hs : Settled s) (h₁ : Calm s s₁)
    (ht : s.currentTerm < t ∨ s.currentTerm = t ∧ s.state = .Candidate)
    {x : RaftM σ E α} (hx : Rel Quiet x) :
    wp (becomeFollower draw t) (fun _ s₂ => wp x (fun _ => Move g s) (Move g s) s₂) (Move g s) s₁ :=
  wp_of_rel (becomeFollower_spec draw t)
    (fun _ _ h₂ => Ends.wp_quiet hs (h₁.ends (h₂ (h₁.2.settled hs))) hx
      (fun _ _ h => .stepDown t ht h) (fun _ h => .stepDown t ht h))
    (fun _ h₂ => .stepDown t ht (h₁.ends (h₂ (h₁.2.settled hs))))

/-! ## The entry points -/

theorem recvAppendEntries_move (g : NodeId → Term → Prop) (draw : Int) (r : AppendEntries)
    (data : List E) :
    Rel (fun s s' => Settled s → Move g s s') (recvAppendEntries (σ := σ) draw r data) := by
  apply Rel.of_pre
  intro s hs
  simp only [recvAppendEntries, restartElectionTimeout, wp_bind, wp_get, wp_modify, wp_ite,
    wp_pure]
  have c₁ : Calm s { s with timeoutElapsed := draw } := Calm.of_fields rfl rfl rfl rfl rfl
  split_ifs with hc hcand hlt hgt
  · exact .calm (Calm.refl s)
  · -- a candidate hears from the leader of its own term
    exact c₁.wp_stepDown draw hs (Or.inr hcand) (acceptAppendEntries_quiet _ _ _)
  · exact c₁.wp_stepDown draw hs (Or.inl hlt) (acceptAppendEntries_quiet _ _ _)
  · exact c₁.wp_move hs (sendAppendEntriesResponse_quiet _ _)
  · exact c₁.wp_move hs (acceptAppendEntries_quiet _ _ _)


theorem recvAppendEntriesResponse_move (g : NodeId → Term → Prop) (draw : Int)
    (r : AppendEntriesResponse) :
    Rel (fun s s' => Settled s → Move g s s') (recvAppendEntriesResponse (σ := σ) (E := E) draw r) := by
  apply Rel.of_pre
  intro s hs
  simp -zeta only [recvAppendEntriesResponse, wp_bind, wp_get]
  split
  · exact .calm (Calm.refl s)
  split
  · exact .calm (Calm.refl s)
  · next hl node _ =>
      -- the fall-through: record the match index, then resend or try to commit
      extract_lets update
      have hu : Rel Quiet update :=
        Rel.get_bind fun _ => Rel.bind Quiet.trans
          (Rel.modify fun _ => by exact Quiet.of_fields rfl rfl rfl (by simp) rfl)
          fun _ => Rel.ite (sendAppendEntries_quiet _ _) updateCommit_quiet
      split_ifs with hlt
      · exact wp_of_rel (becomeFollower_spec draw r.term) (fun _ _ h => .stepDown _ (Or.inl hlt) (h hs))
          (fun _ h => .stepDown _ (Or.inl hlt) (h hs))
      all_goals first
        | exact .calm (Calm.refl s)
        | exact (Calm.refl s).wp_move hs hu


theorem recvRequestVote_move (g : NodeId → Term → Prop) (draw : Int) (r : RequestVote) :
    Rel (fun s s' => Settled s → Move g s s') (recvRequestVote (σ := σ) (E := E) draw r) := by
  apply Rel.of_pre
  intro s hs
  simp -zeta only [recvRequestVote, wp_bind, wp_get]
  split
  · exact .calm (Calm.refl s)
  · next hknown =>
    split
    · exact (Calm.refl s).wp_move hs (sendRequestVoteResponse_false_quiet _)
    · next hge =>
      refine wp_ite_join () (becomeFollower_spec draw r.term)
        (fun hlt _ h => .stepDown _ (Or.inl hlt) (h hs)) (fun _ s₁ h₁ => ?_)
      -- from here on the node is in term `r.term`, having stepped down to it or not
      have hkey : r.fromNode ∈ s.nodes.map Prod.fst := by
        rw [← lookup_isSome_iff_mem_keys]
        simpa using hknown
      have hbase : Frame (fun _ => False) s s₁ ∧
          (s.currentTerm < r.term ∧ s₁.ballot = Ballot.follower r.term ∨
            s.currentTerm = r.term ∧ s₁ = s) := by
        rcases h₁ with ⟨hlt, h⟩ | ⟨hnlt, h⟩
        · exact ⟨(h hs).1, Or.inl ⟨hlt, (h hs).2⟩⟩
        · rw [h]
          exact ⟨Frame.refl _ s, Or.inr ⟨le_antisymm (not_lt.mp hge) (not_lt.mp hnlt), rfl⟩⟩
      have quiet : ∀ {α : Type} {x : RaftM σ E α}, Rel Quiet x →
          wp x (fun _ => Move g s) (Move g s) s₁ := by
        intro α x hx
        rcases hbase with ⟨f, ⟨hlt, hb⟩ | ⟨_, h⟩⟩
        · exact Ends.wp_quiet hs ⟨f, hb⟩ hx (fun _ _ h => .stepDown _ (Or.inl hlt) h)
            (fun _ h => .stepDown _ (Or.inl hlt) h)
        · rw [h]
          exact (Calm.refl s).wp_move hs hx
      simp only [restartElectionTimeout, wp_bind, wp_get]
      split_ifs with hrefuse hyes
      · exact quiet (sendRequestVoteResponse_false_quiet _)
      · -- the vote is granted
        simp only [wp_bind, wp_modify]
        have hl : s₁.localId = s.localId := hbase.1.localId
        have ht₁ : s₁.currentTerm = r.term := by
          rcases hbase.2 with ⟨_, hb⟩ | ⟨ht, h⟩
          · exact congrArg Ballot.term hb
          · rw [h]
            exact ht
        refine wp_of_rel (sendRequestVoteResponse_spec _ _) (fun _ s₃ h₃ => ?_) (fun s₃ h₃ => ?_)
        all_goals
          obtain ⟨hb₃, f₃⟩ := h₃
          refine .vote r.term r.fromNode hkey ?_
            (hbase.1.widen.trans ((f₃ _ (by simp [hl, ht₁])).after rfl rfl rfl rfl))
          rcases hbase.2 with ⟨hlt, hb⟩ | ⟨ht, h⟩
          · -- it had stepped down to `r.term`, so its vote was free
            simp only [Raft.ballot, Ballot.follower, Ballot.mk.injEq] at hb
            refine Or.inl ⟨hlt, ?_⟩
            rw [hb₃]
            simp [Raft.ballot, hb.1, hb.2.2.1, hb.2.2.2]
          · -- same term: it had not voted, or had voted for this candidate
            subst h
            rw [not_and_or, not_not, not_not] at hrefuse
            exact Or.inr ⟨ht, hrefuse, hb₃⟩
      · rw [Bool.not_eq_true] at hyes
        rw [hyes]
        exact quiet (sendRequestVoteResponse_false_quiet _)


theorem recvRequestVoteResponse_move (draw : Int) (r : RequestVoteResponse) :
    Rel (fun s s' => Settled s → Move (fun u t => r = ⟨u, t, true⟩) s s')
      (recvRequestVoteResponse (σ := σ) (E := E) draw r) := by
  apply Rel.of_pre
  intro s hs
  simp only [recvRequestVoteResponse, wp_bind, wp_get]
  split_ifs with hcand hknown hlt hne hrefused
  · exact .calm (Calm.refl s)
  · exact .calm (Calm.refl s)
  · exact wp_of_rel (becomeFollower_spec draw r.term)
      (fun _ _ h => .stepDown _ (Or.inl hlt) (h hs)) (fun _ h => .stepDown _ (Or.inl hlt) (h hs))
  · exact .calm (Calm.refl s)
  · exact .calm (Calm.refl s)
  · -- a vote of this term from a known node
    have hkey : r.fromNode ∈ s.nodes.map Prod.fst := by
      rw [← lookup_isSome_iff_mem_keys]
      simpa using hknown
    have hg : r = ⟨r.fromNode, s.currentTerm, true⟩ := by
      obtain ⟨u, t, v⟩ := r
      simp only [Bool.not_eq_true', Bool.not_eq_false] at hrefused
      simp only [not_not] at hne
      simp [hne, hrefused]
    have hc : s.state = .Candidate := not_not.mp hcand
    exact wp_of_rel (addVoteForMe_spec _) (fun _ _ h => .count _ hc hkey hg (h hs))
      (fun _ h => .count _ hc hkey hg (h hs))

theorem periodic_move (g : NodeId → Term → Prop) (draw elapsed : Int) :
    Rel (fun s s' => Settled s → Move g s s') (periodic (σ := σ) (E := E) draw elapsed) := by
  apply Rel.of_pre
  intro s hs
  unfold periodic
  rw [wp_bind, wp_modify, wp_bind, wp_get]
  have c₁ : Calm s { s with timeoutElapsed := s.timeoutElapsed + elapsed } :=
    Calm.of_fields rfl rfl rfl rfl rfl
  split
  · -- a leader's heartbeat
    refine c₁.wp_move hs (Rel.ite ?_ (Rel.pure Quiet.refl _))
    exact Rel.bind Quiet.trans (Rel.modify fun _ => Quiet.of_fields rfl rfl rfl rfl rfl) fun _ =>
      Rel.bind Quiet.trans updateBatchSize_quiet fun _ => Rel.get_bind fun _ =>
        Rel.forM Quiet.refl Quiet.trans fun p _ => sendAppendEntries_quiet p.1 _
  · next hl =>
    split
    · -- an election timeout: stand for the next term
      exact wp_of_rel (becomeCandidate_spec draw) (fun _ _ h => .campaign hl (c₁.ends (h hs)))
        (fun _ h => .campaign hl (c₁.ends (h hs)))
    · exact .calm c₁

theorem replicate_move (g : NodeId → Term → Prop) (entries : List (Index × E × Bool)) :
    Rel (fun s s' => Settled s → Move g s s') (replicate (σ := σ) entries) :=
  Rel.mono (fun _ _ h hs => .calm (h hs)) (replicate_quiet entries)

/-- Every message a node receives makes one move; it may count as a vote only the
vote the message itself grants. -/
theorem recvMessage_move (draw : Int) (m : RaftMsg E) :
    Rel (fun s s' => Settled s → Move (fun u t => m = .requestVoteResponse ⟨u, t, true⟩) s s')
      (recvMessage (σ := σ) draw m) := by
  cases m with
  | appendEntries ae data => exact recvAppendEntries_move _ draw ae data
  | appendEntriesResponse r => exact recvAppendEntriesResponse_move _ draw r
  | requestVote r => exact recvRequestVote_move _ draw r
  | requestVoteResponse r =>
      exact Rel.mono (fun _ _ h hs => (h hs).mono fun u t hr => by rw [hr])
        (recvRequestVoteResponse_move draw r)

end Ccf.Raft
