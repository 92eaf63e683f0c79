import Ccf.Raft.Proof.Moves
import Ccf.Raft.Cluster
import Ccf.Lib.Quorum

/-!
# Election safety

A cluster configured once with `add_configuration(0, conf)` never has two leaders
of one term, whatever the order in which timers fire and messages are delivered,
duplicated or lost (`election_safety`).

The argument is the usual one, on a record of granted votes. The network keeps
every message ever sent, so a granted `RequestVoteResponse` on it is a vote that
stays granted. `Inv` says what a reachable world keeps true of those votes: the
voter has reached the vote's term and, while still in it, is a follower voting
for that candidate (`grant`); so a voter grants one vote per term (`unique`) and
a winner grants none in the term it won (`notLed`). Every win is recorded in the
ghost list `led` with a majority of votes of its term (`led`), and two majorities
of the configuration share a voter, so two wins of one term have one winner
(`Inv.elected_unique`).

`Inv` is checked against the moves of `Proof/Moves.lean` only: each handler of the
node is one of five moves, and each lemma of the second section is one fact about
all five. A node must satisfy `NodeOk` for this: it is a member with the one
configuration, knows the other members, and, when active, has voted for itself.

The subtle case is a candidate that hears an `AppendEntries` of its own term: it
becomes a follower of the same term and forgets its vote for itself, so it may
then vote for another candidate of that term. That vote is harmless because the
candidate did not win the term (`notLed`).
-/

namespace Ccf.Raft

open EStateM Quorum

variable {σ E : Type}

/-- What a member of the cluster keeps true of itself. -/
structure NodeOk (C : Configuration) (n : NodeId) (s : Raft σ E) : Prop where
  localId : s.localId = n
  configurations : s.configurations = [C]
  keys : s.nodes.map Prod.fst = C.nodes.filter (· ≠ n)
  /-- A candidate or a leader has voted for itself. -/
  self : s.state ≠ .Follower → s.votedFor = some n
  votesSub : ∀ u ∈ s.votesForMe, u ∈ C.nodes
  votesNodup : s.votesForMe.Nodup

section NodeOk

variable {C : Configuration} {n : NodeId} {s s' : Raft σ E} {g : NodeId → Term → Prop}

theorem NodeOk.settled (h : NodeOk C n s) (hC : C.idx = 0) : Settled s :=
  ⟨C, h.configurations, hC⟩

/-- The nodes a member knows are the other members. -/
theorem NodeOk.mem_keys (h : NodeOk C n s) {c : NodeId} :
    c ∈ s.nodes.map Prod.fst ↔ c ∈ C.nodes ∧ c ≠ n := by
  rw [h.keys, List.mem_filter, decide_eq_true_iff]

/-- So a member counts its own vote and `(|C| - 1 + 1) / 2 + 1` is a majority of `C`. -/
theorem NodeOk.quorum_iff (h : NodeOk C n s) (hn : n ∈ C.nodes) (votes : List NodeId) :
    s.quorum votes ↔ C.nodes.length / 2 + 1 ≤ votes.length := by
  have herase : C.nodes.filter (· ≠ n) = C.nodes.erase n := by
    rw [C.nodup.erase_eq_filter]
    apply List.filter_congr
    intro x _
    by_cases hx : x = n <;> simp [hx]
  have hlen : (s.nodes.map Prod.fst).length + 1 = C.nodes.length := by
    rw [h.keys, herase, List.length_erase_of_mem hn]
    have := List.length_pos_of_mem hn
    omega
  rw [List.length_map] at hlen
  unfold Raft.quorum
  rw [hlen]

/-- A member that is not a follower cannot vote for another node in its term. -/
theorem NodeOk.follower_of_vote (h : NodeOk C n s) {c : NodeId} (hc : c ∈ s.nodes.map Prod.fst)
    (hv : s.votedFor = none ∨ s.votedFor = some c) : s.state = .Follower := by
  by_contra hs
  have hself := h.self hs
  rcases hv with hv | hv
  · rw [hself] at hv
    cases hv
  · rw [hself, Option.some.injEq] at hv
    exact (h.mem_keys.mp hc).2 hv.symm

/-! ## What a move can do to a member

Each lemma below is one fact about all five moves, proved by one case split;
the invariants of the cluster are then checked against these facts only. -/

/-- Every move keeps the node's identity, configuration and known nodes. -/
theorem Move.frame (hm : Move g s s') : s'.localId = s.localId ∧
    s'.configurations = s.configurations ∧ s'.nodes.map Prod.fst = s.nodes.map Prod.fst := by
  rcases hm with ⟨_, f⟩ | ⟨_, _, f, _⟩ | ⟨_, _, _, _, f⟩ | ⟨_, f, _⟩ | ⟨_, _, _, _, f, _⟩ <;>
    exact ⟨f.localId, f.configurations, f.keys⟩

/-- Only a campaign or a count leaves a node active, and both keep its vote for itself. -/
theorem Move.self (h : NodeOk C n s) (hm : Move g s s') :
    s'.state ≠ .Follower → s'.votedFor = some n := by
  intro hs'
  rcases hm with ⟨hb, _⟩ | ⟨t, _, _, hb⟩ | ⟨t, c, hc, hb, _⟩ | ⟨_, _, hb⟩ | ⟨u, hcand, _, _, _, hb⟩ <;>
    simp only [Raft.ballot, Ballot.follower, Ballot.mk.injEq] at hb
  · rw [hb.2.1]
    exact h.self (hb.2.2.1 ▸ hs')
  · exact absurd hb.2.2.1 hs'
  · rcases hb with ⟨_, _, _, hst, _⟩ | ⟨_, hv, _, _, hst, _⟩
    · exact absurd hst hs'
    · exact absurd (hst.trans (h.follower_of_vote hc hv)) hs'
  · rcases hb with ⟨_, hv, _⟩ | ⟨_, _, hv, _⟩ <;> rw [hv, h.localId]
  · have hv : s'.votedFor = s.votedFor := by rcases hb with ⟨_, hv, _⟩ | ⟨_, _, hv, _⟩ <;> exact hv
    rw [hv]
    exact h.self (by rw [hcand]; simp)

/-- The votes a node holds are members' votes, each once. -/
theorem Move.votes_wf (h : NodeOk C n s) (hn : n ∈ C.nodes) (hm : Move g s s') :
    (∀ u ∈ s'.votesForMe, u ∈ C.nodes) ∧ s'.votesForMe.Nodup := by
  rcases hm with ⟨hb, _⟩ | ⟨t, _, _, hb⟩ | ⟨t, c, hc, hb, _⟩ | ⟨_, _, hb⟩ | ⟨u, hcand, hu, _, _, hb⟩ <;>
    simp only [Raft.ballot, Ballot.follower, Ballot.mk.injEq] at hb
  · rw [hb.2.2.2]
    exact ⟨h.votesSub, h.votesNodup⟩
  · simp [hb.2.2.2]
  · rcases hb with ⟨_, _, _, _, hv⟩ | ⟨_, _, _, _, _, hv⟩ <;> rw [hv]
    · simp
    · exact ⟨h.votesSub, h.votesNodup⟩
  · have hv : s'.votesForMe = [s.localId] := by
      rcases hb with ⟨_, _, _, hv⟩ | ⟨_, _, _, _, hv⟩ <;> exact hv
    simp [hv, h.localId, hn]
  · have hv : s'.votesForMe = s.votesForMe.insert u := by
      rcases hb with ⟨_, _, _, hv⟩ | ⟨_, _, _, _, hv⟩ <;> exact hv
    rw [hv]
    refine ⟨fun v hv' => ?_, h.votesNodup.insert⟩
    rcases List.mem_insert_iff.mp hv' with rfl | hv'
    · exact (h.mem_keys.mp hu).1
    · exact h.votesSub v hv'

theorem Move.nodeOk (h : NodeOk C n s) (hn : n ∈ C.nodes) (hm : Move g s s') :
    NodeOk C n s' := by
  obtain ⟨hl, hc, hk⟩ := hm.frame
  exact ⟨hl.trans h.localId, hc.trans h.configurations, hk.trans h.keys, hm.self h,
    (hm.votes_wf h hn).1, (hm.votes_wf h hn).2⟩

/-- Terms never go down. -/
theorem Move.term_le (hm : Move g s s') : s.currentTerm ≤ s'.currentTerm := by
  rcases hm with ⟨hb, _⟩ | ⟨t, ht, _, hb⟩ | ⟨t, c, _, hb, _⟩ | ⟨_, _, hb⟩ | ⟨u, _, _, _, _, hb⟩ <;>
    simp only [Raft.ballot, Ballot.follower, Ballot.mk.injEq] at hb
  · exact hb.1.ge
  · rw [hb.1]
    rcases ht with ht | ⟨ht, _⟩
    · exact ht.le
    · exact ht.le
  · rcases hb with ⟨ht, hb, _⟩ | ⟨_, _, hb, _⟩
    · rw [hb]
      exact ht.le
    · exact hb.ge
  · rcases hb with ⟨hb, _⟩ | ⟨_, hb, _⟩ <;> rw [hb] <;> exact Nat.le_succ _
  · rcases hb with ⟨hb, _⟩ | ⟨_, hb, _⟩ <;> exact hb.ge

/-- A leader stays leader for the rest of its term. -/
theorem Move.leader_stays (h : NodeOk C n s) (hm : Move g s s') (hl : s.state = .Leader)
    (ht : s'.currentTerm = s.currentTerm) : s'.state = .Leader := by
  rcases hm with ⟨hb, _⟩ | ⟨t, ht', _, hb⟩ | ⟨t, c, hc, hb, _⟩ | ⟨hnl, _, hb⟩ | ⟨u, hcand, _, _, _, hb⟩ <;>
    simp only [Raft.ballot, Ballot.follower, Ballot.mk.injEq] at hb
  · rw [hb.2.2.1, hl]
  · rcases ht' with ht' | ⟨_, hcand⟩
    · rw [hb.1] at ht
      rw [ht] at ht'
      exact absurd ht' (lt_irrefl _)
    · rw [hl] at hcand
      cases hcand
  · rcases hb with ⟨hlt, hb, _⟩ | ⟨_, hv, _⟩
    · rw [hb] at ht
      rw [ht] at hlt
      exact absurd hlt (lt_irrefl _)
    · rw [h.follower_of_vote hc hv] at hl
      cases hl
  · exact absurd hl hnl
  · rw [hl] at hcand
    cases hcand

/-- A follower keeps its vote for the rest of its term. -/
theorem Move.vote_stays (hm : Move g s s') {c : NodeId}
    (hf : s.state = .Follower) (hv : s.votedFor = some c) (ht : s'.currentTerm = s.currentTerm) :
    s'.votedFor = some c ∧ s'.state = .Follower := by
  rcases hm with ⟨hb, _⟩ | ⟨t, ht', _, hb⟩ | ⟨t, c', hc, hb, _⟩ | ⟨_, _, hb⟩ | ⟨u, hcand, _, _, _, hb⟩ <;>
    simp only [Raft.ballot, Ballot.follower, Ballot.mk.injEq] at hb
  · rw [hb.2.1, hb.2.2.1]
    exact ⟨hv, hf⟩
  · rcases ht' with ht' | ⟨_, hcand⟩
    · rw [hb.1] at ht
      rw [ht] at ht'
      exact absurd ht' (lt_irrefl _)
    · rw [hf] at hcand
      cases hcand
  · rcases hb with ⟨hlt, hb, _⟩ | ⟨_, hv', _, hb, hst, _⟩
    · rw [hb] at ht
      rw [ht] at hlt
      exact absurd hlt (lt_irrefl _)
    · -- the guard let it vote again only for the same candidate
      have hcc : c' = c := by
        rcases hv' with hv' | hv'
        · rw [hv] at hv'
          cases hv'
        · rw [hv] at hv'
          exact (Option.some.inj hv').symm
      rw [hb, hst, hcc]
      exact ⟨rfl, hf⟩
  · rcases hb with ⟨hb, _⟩ | ⟨_, hb, _⟩ <;>
    · rw [hb] at ht
      exact absurd ht (Nat.succ_ne_self _)
  · rw [hf] at hcand
    cases hcand

/-- A move from an empty outbox sends a granted vote only as `vote` does: the node's
own, in its new term, to the node it now votes for, as a follower. -/
theorem Move.grant_sent (h : NodeOk C n s) (hm : Move g s s') (hs : s.sent = []) {u c : NodeId}
    {t : Term} (hp : (c, .requestVoteResponse ⟨u, t, true⟩) ∈ s'.sent) :
    u = n ∧ t = s'.currentTerm ∧ s'.votedFor = some c ∧ s'.state = .Follower ∧
      (s.currentTerm = t → (s.votedFor = none ∨ s.votedFor = some c) ∧ s.state = .Follower) := by
  have hg : RaftMsg.isGrant (E := E) (.requestVoteResponse ⟨u, t, true⟩) = true := rfl
  -- every move but `vote` sends no granted vote at all
  have hout : ∀ {ok : NodeId × RaftMsg E → Prop}, Frame ok s s' →
      ok (c, .requestVoteResponse ⟨u, t, true⟩) := by
    intro ok f
    obtain ⟨out, he, hok⟩ := f.sent
    rw [hs, List.nil_append] at he
    exact hok _ (he ▸ hp) hg
  rcases hm with ⟨_, f⟩ | ⟨_, _, f, _⟩ | ⟨t', c', hc, hb, f⟩ | ⟨_, f, _⟩ | ⟨_, _, _, _, f, _⟩
  · exact (hout f).elim
  · exact (hout f).elim
  · have hm := hout f
    simp only [Prod.mk.injEq, RaftMsg.requestVoteResponse.injEq, RequestVoteResponse.mk.injEq,
      and_true] at hm
    obtain ⟨rfl, rfl, rfl⟩ := hm
    simp only [Raft.ballot, Ballot.mk.injEq] at hb
    rcases hb with ⟨hlt, ht, hv, hst, _⟩ | ⟨ht, hv, ht', hv', hst, _⟩
    · exact ⟨h.localId, ht.symm, hv, hst, fun he => absurd (he ▸ hlt) (lt_irrefl _)⟩
    · have hf := h.follower_of_vote hc hv
      exact ⟨h.localId, ht' ▸ ht.symm, hv', hst.trans hf, fun _ => ⟨hv, hf⟩⟩
  · exact (hout f).elim
  · exact (hout f).elim

/-- A node that takes office holds a majority, won in a term it campaigned for. -/
theorem Move.elected (h : NodeOk C n s) (hn : n ∈ C.nodes) (hm : Move g s s')
    (hl : s.state ≠ .Leader) (hl' : s'.state = .Leader) :
    IsMajority C.nodes s'.votesForMe ∧
      (s'.currentTerm = s.currentTerm + 1 ∨ s'.currentTerm = s.currentTerm ∧ s.state = .Candidate) := by
  obtain ⟨hsub, hnd⟩ := hm.votes_wf h hn
  rcases hm with ⟨hb, _⟩ | ⟨t, _, _, hb⟩ | ⟨t, c, hc, hb, _⟩ | ⟨_, _, hb⟩ | ⟨u, hcand, _, _, _, hb⟩ <;>
    simp only [Raft.ballot, Ballot.follower, Ballot.mk.injEq] at hb
  · exact absurd (hb.2.2.1 ▸ hl') hl
  · rw [hb.2.2.1] at hl'
    cases hl'
  · rcases hb with ⟨_, _, _, hst, _⟩ | ⟨_, _, _, _, hst, _⟩
    · rw [hst] at hl'
      cases hl'
    · exact absurd (hst ▸ hl') hl
  · rcases hb with ⟨_, _, hst, _⟩ | ⟨hq, ht, _, _, hv⟩
    · rw [hst] at hl'
      cases hl'
    · rw [hv] at hsub hnd ⊢
      exact ⟨⟨hnd, hsub, (h.quorum_iff hn _).mp hq⟩, Or.inl ht⟩
  · rcases hb with ⟨_, _, hst, _⟩ | ⟨hq, ht, _, _, hv⟩
    · exact absurd (hst ▸ hl') hl
    · rw [hv] at hsub hnd ⊢
      exact ⟨⟨hnd, hsub, (h.quorum_iff hn _).mp hq⟩, Or.inr ⟨ht, hcand⟩⟩

/-- Where the votes of a candidate, or of a node just elected, come from: its own
vote, the vote it was handed, or votes it already held as a candidate of the same
term. -/
theorem Move.votes (h : NodeOk C n s) (hm : Move g s s')
    (hact : s'.state = .Candidate ∨ s.state ≠ .Leader ∧ s'.state = .Leader) :
    ∀ v ∈ s'.votesForMe, v = n ∨ (g v s.currentTerm ∧ s'.currentTerm = s.currentTerm) ∨
      (v ∈ s.votesForMe ∧ s.state = .Candidate ∧ s'.currentTerm = s.currentTerm) := by
  intro v hv
  rcases hm with ⟨hb, _⟩ | ⟨t, _, _, hb⟩ | ⟨t, c, hc, hb, _⟩ | ⟨_, _, hb⟩ | ⟨u, hcand, _, hg, _, hb⟩ <;>
    simp only [Raft.ballot, Ballot.follower, Ballot.mk.injEq] at hb
  · obtain ⟨ht, -, hst, hvs⟩ := hb
    rcases hact with hact | ⟨hl, hl'⟩
    · exact Or.inr (Or.inr ⟨hvs ▸ hv, hst ▸ hact, ht⟩)
    · exact absurd (hst ▸ hl') hl
  · rcases hact with hact | ⟨_, hact⟩ <;> rw [hb.2.2.1] at hact <;> cases hact
  · rcases hb with ⟨_, _, _, hst, _⟩ | ⟨_, hv', _, _, hst, _⟩
    · rcases hact with hact | ⟨_, hact⟩ <;> rw [hst] at hact <;> cases hact
    · rcases hact with hact | ⟨hl, hl'⟩
      · rw [hst, h.follower_of_vote hc hv'] at hact
        cases hact
      · exact absurd (hst ▸ hl') hl
  · have hvs : s'.votesForMe = [s.localId] := by
      rcases hb with ⟨_, _, _, hvs⟩ | ⟨_, _, _, _, hvs⟩ <;> exact hvs
    rw [hvs, List.mem_singleton, h.localId] at hv
    exact Or.inl hv
  · have hvs : s'.votesForMe = s.votesForMe.insert u ∧ s'.currentTerm = s.currentTerm := by
      rcases hb with ⟨ht, _, _, hvs⟩ | ⟨_, ht, _, _, hvs⟩ <;> exact ⟨hvs, ht⟩
    rw [hvs.1] at hv
    rcases List.mem_insert_iff.mp hv with rfl | hv
    · exact Or.inr (Or.inl ⟨hg, hvs.2⟩)
    · exact Or.inr (Or.inr ⟨hv, hcand, hvs.2⟩)

/-- A leader that is still leader after a move is in the same term. -/
theorem Move.leader_term (hm : Move g s s') (hl : s.state = .Leader) (hl' : s'.state = .Leader) :
    s'.currentTerm = s.currentTerm := by
  rcases hm with ⟨hb, _⟩ | ⟨t, _, _, hb⟩ | ⟨t, c, _, hb, _⟩ | ⟨hnl, _, hb⟩ | ⟨u, hcand, _, _, _, hb⟩ <;>
    simp only [Raft.ballot, Ballot.follower, Ballot.mk.injEq] at hb
  · exact hb.1
  · rw [hb.2.2.1] at hl'
    cases hl'
  · rcases hb with ⟨_, _, _, hst, _⟩ | ⟨_, _, ht, _⟩
    · rw [hst] at hl'
      cases hl'
    · exact ht
  · exact absurd hl hnl
  · rw [hl] at hcand
    cases hcand

end NodeOk

/-! ## The invariant of the cluster -/

/-- `u` granted `c` its vote in term `t`: the granted response is on the network. -/
def Granted (w : World σ E) (u c : NodeId) (t : Term) : Prop :=
  ∃ src, (src, c, RaftMsg.requestVoteResponse ⟨u, t, true⟩) ∈ w.sent

/-- The election invariant of a cluster whose members were all given `C`. -/
structure Inv (C : Configuration) (w : World σ E) : Prop where
  node : ∀ n ∈ C.nodes, NodeOk C n (w.nodes n)
  /-- A node outside the configuration never acts, and stays a follower. -/
  outsider : ∀ n ∉ C.nodes, (w.nodes n).state = .Follower
  /-- A granted vote is backed by the voter: a member whose term has reached the
  vote's, and that, while still in it, is a follower voting for that candidate. -/
  grant : ∀ u c t, Granted w u c t → u ∈ C.nodes ∧ t ≤ (w.nodes u).currentTerm ∧
    ((w.nodes u).currentTerm = t → (w.nodes u).votedFor = some c ∧ (w.nodes u).state = .Follower)
  /-- One vote per voter per term. -/
  unique : ∀ u c c' t, Granted w u c t → Granted w u c' t → c = c'
  /-- A node that won a term granted no vote in it. -/
  notLed : ∀ u c t Q, Granted w u c t → (u, t, Q) ∉ w.led
  /-- A candidate holds its own vote and votes granted to it in its term. -/
  votes : ∀ n ∈ C.nodes, (w.nodes n).state = .Candidate →
    ∀ u ∈ (w.nodes n).votesForMe, u = n ∨ Granted w u n (w.nodes n).currentTerm
  /-- Every election was won by a member with a majority of votes of its term, and
  the winner is past that term or still leading in it. -/
  led : ∀ a t Q, (a, t, Q) ∈ w.led → a ∈ C.nodes ∧ IsMajority C.nodes Q ∧
    (∀ u ∈ Q, u = a ∨ Granted w u a t) ∧
    (t < (w.nodes a).currentTerm ∨ t = (w.nodes a).currentTerm ∧ (w.nodes a).state = .Leader)
  /-- A leader's election is on record. -/
  leader : ∀ n, (w.nodes n).state = .Leader → ∃ Q, (n, (w.nodes n).currentTerm, Q) ∈ w.led

/-! ## One member acts -/

section Act

variable {C : Configuration} {w : World σ E} {n : NodeId} {α : Type} {op : RaftM σ E α}
  {g : NodeId → Term → Prop}

theorem NodeOk.with_sent {s : Raft σ E} (h : NodeOk C n s) (l : List (NodeId × RaftMsg E)) :
    NodeOk C n { s with sent := l } :=
  ⟨h.localId, h.configurations, h.keys, h.self, h.votesSub, h.votesNodup⟩

theorem Granted.act {u c : NodeId} {t : Term} (h : Granted w u c t) :
    Granted (w.act n op) u c t := by
  obtain ⟨src, hs⟩ := h
  exact ⟨src, by rw [World.act_sent]; exact List.mem_append_left _ hs⟩

/-- A vote granted after a call was granted before it, or by the call. -/
theorem granted_act {u c : NodeId} {t : Term} (h : Granted (w.act n op) u c t) :
    Granted w u c t ∨ (c, .requestVoteResponse ⟨u, t, true⟩) ∈ (op (w.pre n)).state.sent := by
  obtain ⟨src, hs⟩ := h
  rw [World.act_sent, List.mem_append] at hs
  rcases hs with hs | hs
  · exact Or.inl ⟨src, hs⟩
  · obtain ⟨p, hp, he⟩ := List.mem_map.mp hs
    simp only [Prod.mk.injEq] at he
    obtain ⟨-, h₁, h₂⟩ := he
    rw [← h₁, ← h₂]
    exact Or.inr hp

theorem Inv.act_grant (hI : Inv C w) (hn : n ∈ C.nodes) (hm : Move g (w.pre n) (op (w.pre n)).state) :
    ∀ u c t, Granted (w.act n op) u c t → u ∈ C.nodes ∧
    t ≤ ((w.act n op).nodes u).currentTerm ∧ (((w.act n op).nodes u).currentTerm = t →
      ((w.act n op).nodes u).votedFor = some c ∧ ((w.act n op).nodes u).state = .Follower) := by
  have hpre : NodeOk C n (w.pre n) := (hI.node n hn).with_sent []
  intro u c t hgr
  rcases granted_act hgr with hold | hnew
  · obtain ⟨hu, hle, hcur⟩ := hI.grant u c t hold
    refine ⟨hu, ?_⟩
    by_cases hun : u = n
    · subst hun
      rw [World.act_nodes_self]
      -- the voter's term can only have grown, and within its term its vote stands
      have hle' : (w.nodes u).currentTerm ≤ (op (w.pre u)).state.currentTerm := hm.term_le
      refine ⟨le_trans hle hle', fun ht => ?_⟩
      have ht' : (w.nodes u).currentTerm = t := le_antisymm (ht ▸ hle') hle
      obtain ⟨hv, hf⟩ := hcur ht'
      exact hm.vote_stays hf hv (ht.trans ht'.symm)
    · rw [World.act_nodes_ne _ _ _ hun]
      exact ⟨hle, hcur⟩
  · obtain ⟨rfl, ht, hv, hf, -⟩ := hm.grant_sent hpre rfl hnew
    rw [World.act_nodes_self]
    exact ⟨hn, ht.le, fun _ => ⟨hv, hf⟩⟩

theorem Inv.act_node (hI : Inv C w) (hn : n ∈ C.nodes) (hm : Move g (w.pre n) (op (w.pre n)).state) :
    ∀ m ∈ C.nodes, NodeOk C m ((w.act n op).nodes m) := by
  intro m hm'
  by_cases hmn : m = n
  · subst hmn
    rw [World.act_nodes_self]
    exact (hm.nodeOk ((hI.node m hn).with_sent []) hn).with_sent []
  · rw [World.act_nodes_ne _ _ _ hmn]
    exact hI.node m hm'

theorem Inv.act_outsider (hI : Inv C w) (hn : n ∈ C.nodes) :
    ∀ m ∉ C.nodes, ((w.act n op).nodes m).state = .Follower := by
  intro m hm'
  have hmn : m ≠ n := fun h => hm' (h ▸ hn)
  rw [World.act_nodes_ne _ _ _ hmn]
  exact hI.outsider m hm'

theorem Inv.act_unique (hI : Inv C w) (hn : n ∈ C.nodes) (hm : Move g (w.pre n) (op (w.pre n)).state) :
    ∀ u c c' t, Granted (w.act n op) u c t → Granted (w.act n op) u c' t → c = c' := by
  have hpre : NodeOk C n (w.pre n) := (hI.node n hn).with_sent []
  -- a fresh vote in term `t` agrees with any vote granted before in `t`
  have key : ∀ u c c' t, Granted w u c t →
      (c', .requestVoteResponse ⟨u, t, true⟩) ∈ (op (w.pre n)).state.sent → c = c' := by
    intro u c c' t hold hnew
    obtain ⟨rfl, ht, -, -, hprev⟩ := hm.grant_sent hpre rfl hnew
    obtain ⟨-, hle, hcur⟩ := hI.grant u c t hold
    have ht' : (w.nodes u).currentTerm = t := le_antisymm (ht ▸ hm.term_le) hle
    obtain ⟨hv, -⟩ := hcur ht'
    rcases (hprev ht').1 with hv' | hv'
    · rw [World.pre, hv] at hv'
      cases hv'
    · rw [World.pre, hv] at hv'
      exact Option.some.inj hv'
  intro u c c' t h₁ h₂
  rcases granted_act h₁ with h₁ | h₁ <;> rcases granted_act h₂ with h₂ | h₂
  · exact hI.unique u c c' t h₁ h₂
  · exact key u c c' t h₁ h₂
  · exact (key u c' c t h₂ h₁).symm
  · -- two fresh votes of one call: both name the node it now votes for
    obtain ⟨-, -, hv₁, -⟩ := hm.grant_sent hpre rfl h₁
    obtain ⟨-, -, hv₂, -⟩ := hm.grant_sent hpre rfl h₂
    rw [hv₁] at hv₂
    exact Option.some.inj hv₂

theorem Inv.act_notLed (hI : Inv C w) (hn : n ∈ C.nodes) (hm : Move g (w.pre n) (op (w.pre n)).state) :
    ∀ u c t Q, Granted (w.act n op) u c t → (u, t, Q) ∉ (w.act n op).led := by
  have hpre : NodeOk C n (w.pre n) := (hI.node n hn).with_sent []
  intro u c t Q hgr hled
  rw [World.act_led, List.mem_append] at hled
  rcases granted_act hgr with hold | hnew
  · rcases hled with hled | hled
    · exact hI.notLed u c t Q hold hled
    · -- elected by this call in the term it voted in: it was a follower of that term
      obtain ⟨hl, hl', rfl, rfl, -⟩ := mem_electedOf.mp hled
      obtain ⟨-, hle, hcur⟩ := hI.grant u c _ hold
      have ht' : (w.nodes u).currentTerm = (op (w.pre u)).state.currentTerm :=
        le_antisymm hm.term_le hle
      obtain ⟨-, hf⟩ := hcur ht'
      rcases (hm.elected hpre hn hl hl').2 with ht | ⟨_, hc⟩
      · exact absurd (ht'.trans ht) (Nat.ne_of_lt (Nat.lt_succ_self _))
      · have hc' : (w.nodes u).state = .Candidate := hc
        rw [hf] at hc'
        cases hc'
  · obtain ⟨rfl, ht, -, hf, hprev⟩ := hm.grant_sent hpre rfl hnew
    rcases hled with hled | hled
    · -- it won `t` before: then it led in `t` when it voted
      obtain ⟨-, -, -, hpast⟩ := hI.led u t Q hled
      have hle : (w.nodes u).currentTerm ≤ t := ht ▸ hm.term_le
      rcases hpast with hlt | ⟨ht', hl⟩
      · exact absurd hlt (not_lt.mpr hle)
      · have hf' : (w.nodes u).state = .Follower := (hprev ht'.symm).2
        rw [hf'] at hl
        cases hl
    · rw [(mem_electedOf.mp hled).2.1] at hf
      cases hf

theorem Inv.act_votes (hI : Inv C w) (hn : n ∈ C.nodes) (hm : Move g (w.pre n) (op (w.pre n)).state)
    (hg : ∀ u t, g u t → Granted w u n t) :
    ∀ m ∈ C.nodes, ((w.act n op).nodes m).state = .Candidate →
      ∀ u ∈ ((w.act n op).nodes m).votesForMe, u = m ∨ Granted (w.act n op) u m ((w.act n op).nodes m).currentTerm := by
  have hpre : NodeOk C n (w.pre n) := (hI.node n hn).with_sent []
  intro m hm' hc u hu
  by_cases hmn : m = n
  · subst hmn
    rw [World.act_nodes_self] at hc hu ⊢
    rcases hm.votes hpre (Or.inl hc) u hu with h | ⟨hgu, ht⟩ | ⟨hu', hc', ht⟩
    · exact Or.inl h
    · exact Or.inr (ht ▸ (hg u _ hgu).act)
    · rcases hI.votes m hm' hc' u hu' with h | h
      · exact Or.inl h
      · exact Or.inr (ht ▸ h.act)
  · rw [World.act_nodes_ne _ _ _ hmn] at hc hu ⊢
    rcases hI.votes m hm' hc u hu with h | h
    · exact Or.inl h
    · exact Or.inr h.act

theorem Inv.act_led (hI : Inv C w) (hn : n ∈ C.nodes) (hm : Move g (w.pre n) (op (w.pre n)).state)
    (hg : ∀ u t, g u t → Granted w u n t) :
    ∀ a t Q, (a, t, Q) ∈ (w.act n op).led → a ∈ C.nodes ∧ IsMajority C.nodes Q ∧
      (∀ u ∈ Q, u = a ∨ Granted (w.act n op) u a t) ∧
      (t < ((w.act n op).nodes a).currentTerm ∨
        t = ((w.act n op).nodes a).currentTerm ∧ ((w.act n op).nodes a).state = .Leader) := by
  have hpre : NodeOk C n (w.pre n) := (hI.node n hn).with_sent []
  intro a t Q hled
  rw [World.act_led, List.mem_append] at hled
  rcases hled with hled | hled
  · -- an earlier election: its votes are still on the network
    obtain ⟨ha, hQ, hvotes, hpast⟩ := hI.led a t Q hled
    refine ⟨ha, hQ, fun u hu => (hvotes u hu).imp_right Granted.act, ?_⟩
    by_cases han : a = n
    · subst han
      rw [World.act_nodes_self]
      have hle : (w.nodes a).currentTerm ≤ (op (w.pre a)).state.currentTerm := hm.term_le
      rcases hpast with hlt | ⟨ht, hl⟩
      · exact Or.inl (lt_of_lt_of_le hlt hle)
      · rcases lt_or_eq_of_le hle with hlt | heq
        · exact Or.inl (ht ▸ hlt)
        · -- still in the term it won: still leading
          have hl' := hm.leader_stays hpre hl heq.symm
          exact Or.inr ⟨ht.trans heq, hl'⟩
    · rw [World.act_nodes_ne _ _ _ han]
      exact hpast
  · -- elected by this call
    obtain ⟨hl, hl', rfl, rfl, rfl⟩ := mem_electedOf.mp hled
    obtain ⟨hQ, -⟩ := hm.elected hpre hn hl hl'
    refine ⟨hn, hQ, fun u hu => ?_, ?_⟩
    · rcases hm.votes hpre (Or.inr ⟨hl, hl'⟩) u hu with h | ⟨hgu, ht⟩ | ⟨hu', hc, ht⟩
      · exact Or.inl h
      · exact Or.inr (ht ▸ (hg u _ hgu).act)
      · rcases hI.votes a hn hc u hu' with h | h
        · exact Or.inl h
        · exact Or.inr (ht ▸ h.act)
    · rw [World.act_nodes_self]
      exact Or.inr ⟨rfl, hl'⟩

theorem Inv.act_leader (hI : Inv C w) (hm : Move g (w.pre n) (op (w.pre n)).state) :
    ∀ m, ((w.act n op).nodes m).state = .Leader →
      ∃ Q, (m, ((w.act n op).nodes m).currentTerm, Q) ∈ (w.act n op).led := by
  intro m hl'
  rw [World.act_led]
  by_cases hmn : m = n
  · subst hmn
    rw [World.act_nodes_self] at hl' ⊢
    by_cases hl : (w.nodes m).state = .Leader
    · -- a leader stays in its term, where its election is on record
      obtain ⟨Q, hQ⟩ := hI.leader m hl
      have ht : (op (w.pre m)).state.currentTerm = (w.nodes m).currentTerm := hm.leader_term hl hl'
      exact ⟨Q, List.mem_append_left _ (ht ▸ hQ)⟩
    · exact ⟨_, List.mem_append_right _ (mem_electedOf.mpr ⟨hl, hl', rfl, rfl, rfl⟩)⟩
  · rw [World.act_nodes_ne _ _ _ hmn] at hl' ⊢
    obtain ⟨Q, hQ⟩ := hI.leader m hl'
    exact ⟨Q, List.mem_append_left _ hQ⟩

/-- **The invariant survives any call into a member** that makes a move, when the
votes the call may count are on the network. -/
theorem Inv.act (hI : Inv C w) (hn : n ∈ C.nodes) (hm : Move g (w.pre n) (op (w.pre n)).state)
    (hg : ∀ u t, g u t → Granted w u n t) : Inv C (w.act n op) where
  node := hI.act_node hn hm
  outsider := hI.act_outsider hn
  grant := hI.act_grant hn hm
  unique := hI.act_unique hn hm
  notLed := hI.act_notLed hn hm
  votes := hI.act_votes hn hm hg
  led := hI.act_led hn hm hg
  leader := hI.act_leader hm

end Act

/-! ## The initial state -/

theorem eraseDups_of_nodup {l : List NodeId} (h : l.Nodup) : l.eraseDups = l := by
  induction l with
  | nil => rfl
  | cons a l ih =>
      rw [List.eraseDups_cons, List.filter_eq_self.mpr, ih h.of_cons]
      intro b hb
      have hba : b ≠ a := fun hba => (List.nodup_cons.mp h).1 (hba ▸ hb)
      simp [hba]

/-- The loop of `create_and_remove_node_state` run by a follower over members it
does not know yet: it adds each of them but itself, and cannot throw. -/
theorem addMissingNodes_follower [RaftStore σ E] (ids : List NodeId) (hd : ids.Nodup)
    (r : Raft σ E) (hf : r.state = .Follower) (hfresh : ∀ id ∈ ids, id ∉ r.nodes.map Prod.fst) :
    wp (addMissingNodes ids) (fun _ r' => ∃ extra, r' = { r with nodes := r.nodes ++ extra } ∧
      extra.map Prod.fst = ids.filter (· ≠ r.localId)) (fun _ => False) r := by
  induction ids generalizing r with
  | nil => exact ⟨[], by simp, rfl⟩
  | cons id ids ih =>
      simp only [addMissingNodes, wp_bind, wp_get]
      have hids : ∀ i ∈ ids, i ∉ r.nodes.map Prod.fst := fun i hi => hfresh i (by simp [hi])
      split
      · next hnew =>
        -- a member it does not know: a follower only records it
        simp only [wp_bind, wp_modify, hf, reduceCtorEq, if_false]
        refine wp_mono (ih hd.of_cons _ rfl ?_) ?_ (fun _ h => h)
        · intro i hi
          have hne : i ≠ id := fun h => (List.nodup_cons.mp hd).1 (h ▸ hi)
          simp [hne, hids i hi]
        · rintro _ r' ⟨extra, rfl, hk⟩
          refine ⟨(id, ⟨0, r.lastIdx + 1⟩) :: extra, by simp, ?_⟩
          simp [hk, hnew.1]
      · next hold =>
        -- itself, or a node it already knows: skipped
        have hid : id = r.localId := by
          by_contra hne
          refine hold ⟨hne, ?_⟩
          have hk := hfresh id (by simp)
          rw [← lookup_isSome_iff_mem_keys] at hk
          exact Option.isNone_iff_eq_none.mpr (Option.not_isSome_iff_eq_none.mp hk)
        refine wp_mono (ih hd.of_cons r hf hids) ?_ (fun _ h => h)
        rintro _ r' ⟨extra, rfl, hk⟩
        exact ⟨extra, rfl, by simp [hk, hid]⟩

/-- `add_configuration(0, C)` on a freshly constructed node: it knows exactly the
other members of `C`. -/
theorem addConfiguration_init [RaftStore σ E] (c : Configuration) (store : σ) (id : NodeId)
    (requestTimeout electionTimeout : Int) (publicOnly : Bool) :
    ∃ extra, (addConfiguration c
        (Raft.init store id requestTimeout electionTimeout publicOnly : Raft σ E)).state =
      { (Raft.init store id requestTimeout electionTimeout publicOnly : Raft σ E) with
          configurations := [c], nodes := extra } ∧
      extra.map Prod.fst = c.nodes.filter (· ≠ id) := by
  have h : wp (addConfiguration c) (fun _ r' => ∃ extra,
      r' = { (Raft.init store id requestTimeout electionTimeout publicOnly : Raft σ E) with
          configurations := [c], nodes := extra } ∧ extra.map Prod.fst = c.nodes.filter (· ≠ id))
      (fun _ => False) (Raft.init store id requestTimeout electionTimeout publicOnly) := by
    simp only [addConfiguration, createAndRemoveNodeState, wp_bind, wp_modify, wp_get, Raft.init,
      List.nil_append, List.filter_nil]
    have hactive : activeNodes [c] = c.nodes := by
      simp [activeNodes, eraseDups_of_nodup c.nodup]
    rw [hactive]
    refine wp_mono (addMissingNodes_follower _ c.nodup _ rfl (by simp)) ?_ (fun _ h => h)
    rintro _ r' ⟨extra, rfl, hk⟩
    exact ⟨extra, by simp, hk⟩
  exact wp_state (wp_mono h (fun _ _ h => h) (fun _ h => h.elim))

section Cluster

variable [RaftStore σ E] {C : Configuration}

theorem Inv.init (store : NodeId → σ) (requestTimeout electionTimeout : NodeId → Int) :
    Inv C (World.init C store requestTimeout electionTimeout : World σ E) := by
  -- every node starts as a follower of term 0 that knows the other members
  have hnode : ∀ n, ∃ extra,
      (World.init C store requestTimeout electionTimeout : World σ E).nodes n =
      { (Raft.init (store n) n (requestTimeout n) (electionTimeout n) false : Raft σ E) with
          configurations := [C], nodes := extra } ∧ extra.map Prod.fst = C.nodes.filter (· ≠ n) :=
    fun n => addConfiguration_init C (store n) n (requestTimeout n) (electionTimeout n) false
  have hfollower : ∀ n,
      ((World.init C store requestTimeout electionTimeout : World σ E).nodes n).state =
      .Follower := by
    intro n
    obtain ⟨extra, he, -⟩ := hnode n
    rw [he]
    rfl
  have hsent : (World.init C store requestTimeout electionTimeout : World σ E).sent = [] := rfl
  have hled : (World.init C store requestTimeout electionTimeout : World σ E).led = [] := rfl
  refine ⟨fun n _ => ?_, fun n _ => hfollower n, ?_, ?_, ?_, ?_, ?_, ?_⟩
  · obtain ⟨extra, he, hk⟩ := hnode n
    rw [he]
    exact ⟨rfl, rfl, hk, fun h => absurd rfl h, by simp [Raft.init], by simp [Raft.init]⟩
  · rintro u c t ⟨src, h⟩
    rw [hsent] at h
    cases h
  · rintro u c c' t ⟨src, h⟩
    rw [hsent] at h
    cases h
  · rintro u c t Q ⟨src, h⟩
    rw [hsent] at h
    cases h
  · intro n _ hc
    rw [hfollower] at hc
    cases hc
  · intro a t Q h
    rw [hled] at h
    cases h
  · intro n hl
    rw [hfollower] at hl
    cases hl

/-- **The invariant survives every step of the cluster.** -/
theorem Inv.step (hC : C.idx = 0) {w w' : World σ E} (hI : Inv C w) (hs : Step C.nodes w w') :
    Inv C w' := by
  have hset : ∀ n ∈ C.nodes, Settled (w.pre n) := fun n hn =>
    ((hI.node n hn).with_sent []).settled hC
  cases hs with
  | recv draw hmem hdst =>
      -- a delivered vote is on the network: that is all a count may use
      exact hI.act hdst ((recvMessage_move draw _).state _ (hset _ hdst))
        fun u t he => ⟨_, he ▸ hmem⟩
  | periodic draw elapsed hn =>
      exact hI.act hn ((periodic_move (fun _ _ => False) draw elapsed).state _ (hset _ hn))
        fun _ _ h => h.elim
  | replicate entries hn =>
      exact hI.act hn ((replicate_move (fun _ _ => False) entries).state _ (hset _ hn))
        fun _ _ h => h.elim

theorem Inv.reachable (hC : C.idx = 0) {store : NodeId → σ}
    {requestTimeout electionTimeout : NodeId → Int} {w : World σ E}
    (h : Run.Reachable (· = World.init C store requestTimeout electionTimeout) (Step C.nodes) w) :
    Inv C w :=
  Run.Reachable.invariant (Inv C) (fun _ h₀ => h₀ ▸ Inv.init store requestTimeout electionTimeout)
    (fun _ _ _ hI hs => hI.step hC hs) h

end Cluster

/-- **Two elections of one term have one winner**: their majorities share a voter,
who granted one vote in that term — or is a winner, who granted none. -/
theorem Inv.elected_unique {C : Configuration} {w : World σ E} (hI : Inv C w) {a b : NodeId}
    {t : Term} {Qa Qb : List NodeId} (ha : (a, t, Qa) ∈ w.led) (hb : (b, t, Qb) ∈ w.led) :
    a = b := by
  obtain ⟨-, hQa, hva, -⟩ := hI.led a t Qa ha
  obtain ⟨-, hQb, hvb, -⟩ := hI.led b t Qb hb
  obtain ⟨v, hv₁, hv₂⟩ := Quorum.exists_mem_of_majorities hQa hQb
  rcases hva v hv₁ with rfl | hga <;> rcases hvb v hv₂ with rfl | hgb
  · rfl
  · exact absurd ha (hI.notLed _ b t Qa hgb)
  · exact absurd hb (hI.notLed _ a t Qb hga)
  · exact hI.unique v a b t hga hgb

/-- Elections are never forgotten. -/
theorem Step.led_prefix [RaftStore σ E] {members : List NodeId} {w w' : World σ E}
    (hs : Step members w w') : w.led <+: w'.led := by
  cases hs <;> exact ⟨_, (World.act_led _ _ _).symm⟩

theorem led_prefix_of_reaches [RaftStore σ E] {members : List NodeId} {w w' : World σ E}
    (h : Relation.ReflTransGen (Step members) w w') : w.led <+: w'.led := by
  induction h with
  | refl => exact List.prefix_refl _
  | tail _ hs ih => exact ih.trans hs.led_prefix

/-! ## Election safety -/

/-- **Election safety.** In a run of a cluster configured once with
`add_configuration(0, conf)`, two nodes that are leaders in the same term — at the
same moment or at any two moments — are the same node. -/
theorem election_safety [RaftStore σ E] {conf : Configuration} (hC : conf.idx = 0)
    {store : NodeId → σ} {requestTimeout electionTimeout : NodeId → Int} {ws : List (World σ E)}
    (hrun : IsClusterRun conf store requestTimeout electionTimeout ws) {w₁ w₂ : World σ E}
    (h₁ : w₁ ∈ ws) (h₂ : w₂ ∈ ws) {a b : NodeId} (ha : (w₁.nodes a).state = .Leader)
    (hb : (w₂.nodes b).state = .Leader)
    (ht : (w₁.nodes a).currentTerm = (w₂.nodes b).currentTerm) : a = b := by
  -- each leader's election is on its own state's record, and records only grow
  obtain ⟨Qa, hQa⟩ := (Inv.reachable hC (hrun.reachable h₁)).leader a ha
  obtain ⟨Qb, hQb⟩ := (Inv.reachable hC (hrun.reachable h₂)).leader b hb
  have hr₁ := Run.IsRun.reaches_last hrun h₁
  have hr₂ := Run.IsRun.reaches_last hrun h₂
  have hIa := (led_prefix_of_reaches hr₁.2).subset hQa
  have hIb := (led_prefix_of_reaches hr₂.2).subset hQb
  rw [ht] at hIa
  exact (Inv.reachable hC hr₁.1).elected_unique hIa hIb

/-- Three members configured at index 0, over the test store, with the test driver's
timeouts. -/
def threeNodes : Configuration := ⟨0, [0, 1, 2], by decide⟩

/-- The cluster of `threeNodes` before any call. -/
def startWorld : World LoggingStubStore (List UInt8) :=
  World.init threeNodes (fun n => ⟨n⟩) (fun _ => 10) (fun _ => 100)

/-- Node 0 times out and asks for votes; node 1 grants its vote; node 0 counts it
and leads term 1. -/
def firstElection : List (Call (List UInt8)) :=
  [.periodic 0 0 100,
   .recv 0 1 0 (.requestVote ⟨0, 1, 0, 0⟩),
   .recv 1 0 0 (.requestVoteResponse ⟨1, 1, true⟩)]

theorem election_safety_firstElection :
    threeNodes.idx = 0 ∧
      IsClusterRun threeNodes (fun n => ⟨n⟩) (fun _ => 10) (fun _ => 100)
        (startWorld.play firstElection) ∧
      ((startWorld.after firstElection).nodes 0).state = .Leader ∧ (0 : NodeId) = 0 := by
  have hC : threeNodes.idx = 0 := rfl
  have hrun : IsClusterRun threeNodes (fun n => ⟨n⟩) (fun _ => 10) (fun _ => 100)
      (startWorld.play firstElection) := IsClusterRun.play (by decide)
  have hl : ((startWorld.after firstElection).nodes 0).state = .Leader := by decide
  have hmem := World.after_mem_play startWorld firstElection
  exact ⟨hC, hrun, hl, election_safety hC hrun hmem hmem hl hl rfl⟩

end Ccf.Raft
