import Ccf.Node.Governance

/-!
# Proposals: their states, and what their calls leave behind

A committed request moves proposals only as governance intends (`process_moves`), and so
does any run of requests (`processAll_moves`): a proposal that is not open stays as it is,
an open one is accepted or withdrawn (withdrawn only by its proposer's `withdraw`), and a
new one is recorded by its proposer, open or accepted at once. This rests on the proposal counter being ahead of every proposal (`Fresh`):
`propose` records under the counter, so it never overwrites. The counter is kept by every
hardcoded call, and by the gov scripts a proposal calls as long as they leave it alone
(`KeepsProposalCounter`): `MEMBER_CAN_PROPOSE` lets them write the `values` table.

The calls themselves are not atomic. `complete_proposal` makes them one after the other in
the request's transaction, and when a hardcoded call answers false it returns false, with
the calls before it made and the proposal still open. The handler answers success, so the
transaction commits (`process_complete_of_false`), and a later `complete` may fail on what
the first calls left (`partial_calls_committed`).
-/

namespace Ccf.Gov

open EStateM

/-! ## What the calls leave alone -/

/-- The proposals and the proposal counter as they were. -/
def SameProposals (g g' : NetworkTables) : Prop :=
  g'.proposals = g.proposals ∧
    g'.values.lookup NEXT_PROPOSAL_ID = g.values.lookup NEXT_PROPOSAL_ID

theorem SameProposals.refl (g : NetworkTables) : SameProposals g g := ⟨rfl, rfl⟩

theorem SameProposals.trans (a b c : NetworkTables) (h₁ : SameProposals a b)
    (h₂ : SameProposals b c) : SameProposals a c :=
  ⟨h₂.1.trans h₁.1, h₂.2.trans h₁.2⟩

/-- The gov scripts proposed by name leave the proposal counter as it is. -/
def KeepsProposalCounter (env : Env) : Prop :=
  ∀ s args p, (env.runCall s args p).values.lookup NEXT_PROPOSAL_ID =
    p.values.lookup NEXT_PROPOSAL_ID

theorem getNextId_member : Rel SameProposals (getNextId NEXT_MEMBER_ID) := by
  intro g
  simp only [getNextId, wp_bind, wp_get]
  split
  · exact SameProposals.refl g
  split
  · exact SameProposals.refl g
  · simp only [wp_bind, wp_set, wp_pure]
    exact ⟨rfl, by rw [AList.lookup_insert_ne (by decide)]⟩

theorem setLuaApp_rel (env : Env) (args : Json) : Rel SameProposals (setLuaApp env args) := by
  intro g
  cases args <;> simp only [setLuaApp, Json.getString, setAppScripts, typeError, logicError,
    wp_bind, wp_throw, wp_pure, wp_modify]
  all_goals exact SameProposals.refl g

theorem newMember_rel (env : Env) (args : Json) : Rel SameProposals (newMember env args) := by
  intro g
  cases args <;> simp only [newMember, Json.getBytes, typeError, logicError, wp_bind, wp_get,
    wp_throw, wp_pure]
  case bytes cert =>
    split
    · exact SameProposals.refl g
    · -- the member's id is taken from its own counter
      rw [wp_bind]
      exact wp_of_rel getNextId_member (fun _ _ h₁ => h₁) (fun _ h => h)
  all_goals exact SameProposals.refl g

theorem setNodeStatus_rel (status : NodeStatus) (args : Json) :
    Rel SameProposals (setNodeStatus status args) := by
  intro g
  cases args <;> simp only [setNodeStatus, Json.getId, typeError, logicError, wp_bind, wp_get,
    wp_throw, wp_pure]
  case num n =>
    split
    · exact SameProposals.refl g
    · exact SameProposals.refl g
  all_goals exact SameProposals.refl g

theorem newCode_rel (args : Json) : Rel SameProposals (newCode args) := by
  intro g
  cases args <;> simp only [newCode, Json.getBytes, typeError, logicError, wp_bind, wp_get,
    wp_throw, wp_pure]
  case bytes d =>
    split
    · exact SameProposals.refl g
    · exact SameProposals.refl g
  all_goals exact SameProposals.refl g

theorem acceptRecovery_rel (env : Env) (args : Json) :
    Rel SameProposals (acceptRecovery env args) := by
  intro g
  simp only [acceptRecovery]
  split <;> exact SameProposals.refl g

theorem openNetwork_rel : Rel SameProposals openNetwork := by
  intro g
  simp only [openNetwork, wp_bind, wp_get]
  split
  · exact SameProposals.refl g
  · split <;> exact SameProposals.refl g

/-- No hardcoded function touches the proposals or their counter. -/
theorem hardcodedFuncs_rel (env : Env) {name : String} {f : Json → GovM Bool}
    (hf : hardcodedFuncs env name = some f) (args : Json) : Rel SameProposals (f args) := by
  unfold hardcodedFuncs at hf
  split at hf <;> cases hf
  · exact setLuaApp_rel env args
  · exact newMember_rel env args
  · exact setNodeStatus_rel .TRUSTED args
  · exact setNodeStatus_rel .RETIRED args
  · exact newCode_rel args
  · exact acceptRecovery_rel env args
  · exact openNetwork_rel

/-- Neither do the proposed calls, when the gov scripts leave the counter alone. -/
theorem runCalls_rel (env : Env) (hcall : KeepsProposalCounter env) :
    ∀ calls, Rel SameProposals (runCalls env calls)
  | [] => fun g => SameProposals.refl g
  | call :: calls => by
      intro g
      simp only [runCalls]
      split
      · -- a hardcoded function, then the rest unless it answered false
        next f hf =>
          simp only [wp_bind]
          refine wp_of_rel (hardcodedFuncs_rel env hf call.args) (fun ok g₁ h₁ => ?_) (fun _ h => h)
          split
          · exact h₁
          · exact Rel.wp_trans SameProposals.trans h₁ (runCalls_rel env hcall calls)
      · simp only [wp_bind, wp_get]
        split
        · exact runCalls_rel env hcall calls g
        · -- a gov script writes only `MEMBER_CAN_PROPOSE` tables
          simp only [wp_bind, wp_modify]
          refine Rel.wp_trans SameProposals.trans ⟨rfl, ?_⟩
            (runCalls_rel env hcall calls)
          exact hcall _ _ _

/-! ## Completing a proposal -/

/-- What `complete_proposal` may do to the proposals: accept the open proposal `id`, and
nothing else, with the counter as it was. -/
def Accepts (id : ObjectId) (g g' : NetworkTables) : Prop :=
  g'.values.lookup NEXT_PROPOSAL_ID = g.values.lookup NEXT_PROPOSAL_ID ∧
    ∀ id', g'.proposals.lookup id' = g.proposals.lookup id' ∨
      (id' = id ∧ ∃ p, g.proposals.lookup id = some p ∧ p.state = .OPEN ∧
        g'.proposals.lookup id = some { p with state := .ACCEPTED })

theorem Accepts.of_same {id : ObjectId} {g g' : NetworkTables} (h : SameProposals g g') :
    Accepts id g g' :=
  ⟨h.2, fun id' => .inl (by rw [h.1])⟩

/-- A proposal is there after `complete_proposal` only if it was there before. -/
theorem Accepts.lookup_some {id id' : ObjectId} {g g' : NetworkTables} {p' : Proposal}
    (h : Accepts id g g') (hp' : g'.proposals.lookup id' = some p') :
    ∃ p, g.proposals.lookup id' = some p ∧ (p' = p ∨ p.state = .OPEN ∧ p' = { p with state := .ACCEPTED }) := by
  rcases h.2 id' with hsame | ⟨rfl, p, hp, hopen, hacc⟩
  · exact ⟨p', hsame ▸ hp', .inl rfl⟩
  · rw [hacc] at hp'
    exact ⟨p, hp, .inr ⟨hopen, (Option.some.inj hp').symm⟩⟩

/-- An open proposal stays open or is accepted, with its proposer. -/
theorem Accepts.opened {id id' : ObjectId} {g g' : NetworkTables} {p : Proposal}
    (h : Accepts id g g') (hp : g.proposals.lookup id' = some p) (hopen : p.state = .OPEN) :
    ∃ p', g'.proposals.lookup id' = some p' ∧ p'.proposer = p.proposer ∧
      (p'.state = .OPEN ∨ p'.state = .ACCEPTED) := by
  rcases h.2 id' with hsame | ⟨rfl, p₀, hp₀, -, hacc⟩
  · exact ⟨p, by rw [hsame, hp], rfl, .inl hopen⟩
  · rw [hp₀] at hp
    cases hp
    exact ⟨_, hacc, rfl, .inr rfl⟩

/-- **`complete_proposal` accepts the open proposal it completes, or nothing.** -/
theorem completeProposal_accepts (env : Env) (hcall : KeepsProposalCounter env) (id : ObjectId)
    (g : NetworkTables) :
    wp (completeProposal env id) (fun _ => Accepts id g) (fun _ => True) g := by
  simp only [completeProposal, wp_bind, wp_get]
  split
  · trivial
  next proposal hp =>
    split
    · trivial
    next hopen =>
      simp only [getScript, wp_bind, wp_get]
      split
      · trivial
      simp only [wp_pure]
      split
      · trivial
      simp only [wp_pure, wp_ite]
      split
      · -- the proposal did not pass
        exact Accepts.of_same (SameProposals.refl g)
      simp only [wp_bind]
      refine wp_of_rel (runCalls_rel env hcall _) (fun ok g₁ h₁ => ?_) (fun _ _ => trivial)
      simp only [wp_ite]
      split
      · -- a call answered false: its writes stay, and the proposal stays open
        exact Accepts.of_same h₁
      simp only [wp_bind, wp_modify, wp_pure]
      refine ⟨h₁.2, fun id' => ?_⟩
      by_cases hid : id' = id
      · subst hid
        exact .inr ⟨rfl, proposal, hp, not_not.mp hopen, AList.lookup_insert _⟩
      · exact .inl (by rw [AList.lookup_insert_ne hid, h₁.1])

/-! ## The states of proposals -/

/-- The proposal counter is there, and ahead of every proposal's id. -/
def Fresh (g : NetworkTables) : Prop :=
  ∃ next, g.values.lookup NEXT_PROPOSAL_ID = some next ∧
    ∀ id p, g.proposals.lookup id = some p → id < next

/-- The member a request comes from. -/
def Request.callerId : Request → MemberId
  | .propose c _ _ _ => c
  | .withdraw c _ => c
  | .vote c _ _ _ => c
  | .complete c _ => c

/-- What a request may do to the proposals: one that is not open stays as it is; an open
one keeps its proposer and stays open, is accepted, or is withdrawn by its proposer's
`withdraw`; and a new one is recorded by the caller, open or accepted. -/
structure ProposalMoves (req : Request) (g g' : NetworkTables) : Prop where
  closed : ∀ id p, g.proposals.lookup id = some p → p.state ≠ .OPEN →
    g'.proposals.lookup id = some p
  opened : ∀ id p, g.proposals.lookup id = some p → p.state = .OPEN →
    ∃ p', g'.proposals.lookup id = some p' ∧ p'.proposer = p.proposer ∧
      (p'.state = .OPEN ∨ p'.state = .ACCEPTED ∨
        (p'.state = .WITHDRAWN ∧ req = .withdraw p.proposer id))
  created : ∀ id p', g.proposals.lookup id = none → g'.proposals.lookup id = some p' →
    p'.state ≠ .WITHDRAWN ∧ p'.proposer = req.callerId

theorem ProposalMoves.refl (req : Request) (g : NetworkTables) : ProposalMoves req g g where
  closed _ _ hp _ := hp
  opened _ p hp hopen := ⟨p, hp, rfl, .inl hopen⟩
  created _ _ hnone hsome := by rw [hnone] at hsome; cases hsome

/-- Accepting an open proposal is a move any request may make. -/
theorem ProposalMoves.of_accepts (req : Request) {id : ObjectId} {g g' : NetworkTables}
    (h : Accepts id g g') : ProposalMoves req g g' where
  closed id' p hp hnot := by
    rcases h.2 id' with hsame | ⟨rfl, p₀, hp₀, hopen, -⟩
    · rw [hsame, hp]
    · rw [hp₀] at hp
      cases hp
      exact absurd hopen hnot
  opened id' p hp hopen := by
    obtain ⟨p', hp', hprop, hstate⟩ := h.opened hp hopen
    exact ⟨p', hp', hprop, hstate.imp_right .inl⟩
  created id' p' hnone hsome := by
    obtain ⟨p, hp, -⟩ := h.lookup_some hsome
    rw [hnone] at hp
    cases hp

theorem Accepts.fresh {id : ObjectId} {g g' : NetworkTables} (h : Accepts id g g')
    (hg : Fresh g) : Fresh g' := by
  obtain ⟨next, hnext, hlt⟩ := hg
  refine ⟨next, h.1.trans hnext, fun id' p' hp' => ?_⟩
  obtain ⟨p, hp, -⟩ := h.lookup_some hp'
  exact hlt id' p hp

/-- Writing over an open proposal, as `withdraw` and `vote` do, moves only it. -/
theorem ProposalMoves.of_replace (req : Request) {g g' : NetworkTables} {id : ObjectId}
    {p p' : Proposal} (hp : g.proposals.lookup id = some p)
    (hg' : g'.proposals = g.proposals.insert id p') (hopen : p.state = .OPEN)
    (hproposer : p'.proposer = p.proposer)
    (hstate : p'.state = .OPEN ∨ p'.state = .ACCEPTED ∨
      (p'.state = .WITHDRAWN ∧ req = .withdraw p.proposer id)) : ProposalMoves req g g' where
  closed id' q hq hnot := by
    have hne : id' ≠ id := by
      rintro rfl
      rw [hp] at hq
      cases hq
      exact hnot hopen
    rw [hg', AList.lookup_insert_ne hne, hq]
  opened id' q hq hqopen := by
    by_cases hid : id' = id
    · subst hid
      rw [hp] at hq
      cases hq
      exact ⟨p', by rw [hg', AList.lookup_insert], hproposer, hstate⟩
    · exact ⟨q, by rw [hg', AList.lookup_insert_ne hid, hq], rfl, .inl hqopen⟩
  created id' q hnone hq := by
    have hne : id' ≠ id := by
      rintro rfl
      rw [hp] at hnone
      cases hnone
    rw [hg', AList.lookup_insert_ne hne, hnone] at hq
    cases hq

/-- Recording a new proposal under a free id, as `propose` does, moves only it. -/
theorem ProposalMoves.of_insert_new (req : Request) {g g' : NetworkTables} {id : ObjectId}
    {p' : Proposal} (hnone : g.proposals.lookup id = none)
    (hg' : g'.proposals = g.proposals.insert id p') (hstate : p'.state ≠ .WITHDRAWN)
    (hproposer : p'.proposer = req.callerId) : ProposalMoves req g g' where
  closed id' q hq _ := by
    have hne : id' ≠ id := by
      rintro rfl
      rw [hnone] at hq
      cases hq
    rw [hg', AList.lookup_insert_ne hne, hq]
  opened id' q hq hqopen := by
    have hne : id' ≠ id := by
      rintro rfl
      rw [hnone] at hq
      cases hq
    exact ⟨q, by rw [hg', AList.lookup_insert_ne hne, hq], rfl, .inl hqopen⟩
  created id' q _ hq := by
    by_cases hid : id' = id
    · subst hid
      rw [hg', AList.lookup_insert] at hq
      cases hq
      exact ⟨hstate, hproposer⟩
    · rw [hg', AList.lookup_insert_ne hid] at hq
      rename_i hnone'
      rw [hnone'] at hq
      cases hq

/-- A request's moves followed by `complete_proposal` are still the request's moves. -/
theorem Accepts.after {req : Request} {id : ObjectId} {g g₁ g' : NetworkTables}
    (h₂ : Accepts id g₁ g') (h₁ : ProposalMoves req g g₁) : ProposalMoves req g g' where
  closed id' q hq hnot := (ProposalMoves.of_accepts req h₂).closed id' q (h₁.closed id' q hq hnot) hnot
  opened id' q hq hqopen := by
    obtain ⟨q₁, hq₁, hprop₁, hstate₁⟩ := h₁.opened id' q hq hqopen
    by_cases hopen₁ : q₁.state = .OPEN
    · obtain ⟨q', hq', hprop', hstate'⟩ := h₂.opened hq₁ hopen₁
      exact ⟨q', hq', hprop'.trans hprop₁, hstate'.imp_right .inl⟩
    · exact ⟨q₁, (ProposalMoves.of_accepts req h₂).closed id' q₁ hq₁ hopen₁, hprop₁, hstate₁⟩
  created id' q hnone hq := by
    obtain ⟨q₁, hq₁, hcase⟩ := h₂.lookup_some hq
    obtain ⟨hstate₁, hprop₁⟩ := h₁.created id' q₁ hnone hq₁
    rcases hcase with rfl | ⟨-, rfl⟩
    · exact ⟨hstate₁, hprop₁⟩
    · exact ⟨by simp, hprop₁⟩

theorem Fresh.of_replace {g g' : NetworkTables} {id : ObjectId} {p p' : Proposal} (hg : Fresh g)
    (hp : g.proposals.lookup id = some p) (hvalues : g'.values = g.values)
    (hg' : g'.proposals = g.proposals.insert id p') : Fresh g' := by
  obtain ⟨next, hnext, hlt⟩ := hg
  refine ⟨next, by rw [hvalues, hnext], fun id' q hq => ?_⟩
  by_cases hid : id' = id
  · subst hid
    exact hlt id' p hp
  · rw [hg', AList.lookup_insert_ne hid] at hq
    exact hlt id' q hq

/-! ## The handlers -/

theorem withdraw_moves (c : MemberId) (pid : ObjectId) {g : NetworkTables} (hg : Fresh g) :
    wp (withdraw c pid) (fun _ g' => ProposalMoves (.withdraw c pid) g g' ∧ Fresh g')
      (fun _ => True) g := by
  simp only [withdraw, wp_bind, wp_get]
  split
  · exact ⟨.refl _ g, hg⟩
  split
  · exact ⟨.refl _ g, hg⟩
  next p hp =>
    split
    · exact ⟨.refl _ g, hg⟩
    next hprop =>
      split
      · exact ⟨.refl _ g, hg⟩
      next hopen =>
        -- the proposer withdraws their open proposal
        have hc : p.proposer = c := not_not.mp hprop
        simp only [wp_bind, wp_set, wp_pure]
        exact ⟨.of_replace _ hp rfl (not_not.mp hopen) rfl (.inr (.inr ⟨rfl, by rw [hc]⟩)),
          Fresh.of_replace hg hp rfl rfl⟩

theorem complete_moves (env : Env) (hcall : KeepsProposalCounter env) (c : MemberId)
    (pid : ObjectId) {g : NetworkTables} (hg : Fresh g) :
    wp (complete env c pid) (fun _ g' => ProposalMoves (.complete c pid) g g' ∧ Fresh g')
      (fun _ => True) g := by
  simp only [complete, wp_bind, wp_get]
  split
  · exact ⟨.refl _ g, hg⟩
  rw [wp_bind]
  refine wp_mono (completeProposal_accepts env hcall pid g) (fun ok g' h => ?_) (fun _ _ => trivial)
  have hmoves : ProposalMoves (.complete c pid) g g' ∧ Fresh g' :=
    ⟨.of_accepts _ h, h.fresh hg⟩
  split <;> exact hmoves

theorem vote_moves (env : Env) (hcall : KeepsProposalCounter env) (c : MemberId)
    (signedRequest : SignedReq) (id : ObjectId) (ballot : Script) {g : NetworkTables}
    (hg : Fresh g) :
    wp (vote env c signedRequest id ballot)
      (fun _ g' => ProposalMoves (.vote c signedRequest id ballot) g g' ∧ Fresh g')
      (fun _ => True) g := by
  simp only [vote, wp_bind, wp_get]
  split
  · exact ⟨.refl _ g, hg⟩
  split
  · exact ⟨.refl _ g, hg⟩
  split
  · exact ⟨.refl _ g, hg⟩
  next p hp =>
    split
    · exact ⟨.refl _ g, hg⟩
    next hopen =>
      -- the ballot is recorded on the open proposal, which is then tried for completion
      simp only [wp_bind, wp_set]
      refine wp_mono (completeProposal_accepts env hcall id _) (fun ok g' h => ?_)
        (fun _ _ => trivial)
      exact ⟨h.after (.of_replace _ hp rfl (not_not.mp hopen) rfl (.inl (not_not.mp hopen))),
        h.fresh (Fresh.of_replace hg hp rfl rfl)⟩

theorem propose_moves (env : Env) (hcall : KeepsProposalCounter env) (c : MemberId)
    (script : Script) (parameter : Json) (ballot : Script) {g : NetworkTables} (hg : Fresh g) :
    wp (propose env c script parameter ballot)
      (fun _ g' => ProposalMoves (.propose c script parameter ballot) g g' ∧ Fresh g')
      (fun _ => True) g := by
  obtain ⟨next, hnext, hlt⟩ := hg
  simp only [propose, wp_bind, wp_get]
  split
  · exact ⟨.refl _ g, next, hnext, hlt⟩
  simp only [getNextId, wp_bind, wp_get, hnext]
  split
  · trivial
  next hno =>
    -- the proposal is recorded under the counter, which no proposal has reached
    have hfree : g.proposals.lookup next = none := by
      cases hp : g.proposals.lookup next with
      | none => rfl
      | some p => exact absurd (hlt next p hp) (UInt64.lt_irrefl next)
    simp only [wp_bind, wp_set, wp_pure, wp_modify]
    refine wp_mono (completeProposal_accepts env hcall next _) (fun ok g' h => ?_)
      (fun _ _ => trivial)
    refine ⟨h.after (.of_insert_new _ hfree rfl (by simp) rfl), h.fresh ⟨next + 1, ?_, ?_⟩⟩
    · exact AList.lookup_insert _
    · intro id p hp
      by_cases hid : id = next
      · subst hid
        grind
      · rw [AList.lookup_insert_ne hid] at hp
        have := hlt id p hp
        grind

theorem handler_moves (env : Env) (hcall : KeepsProposalCounter env) (req : Request)
    {g : NetworkTables} (hg : Fresh g) :
    wp (req.handler env) (fun _ g' => ProposalMoves req g g' ∧ Fresh g') (fun _ => True) g := by
  cases req with
  | propose c script parameter ballot => exact propose_moves env hcall c script parameter ballot hg
  | withdraw c pid => exact withdraw_moves c pid hg
  | vote c signedRequest id ballot => exact vote_moves env hcall c signedRequest id ballot hg
  | complete c pid => exact complete_moves env hcall c pid hg

/-! ## Requests -/

/-- **A committed request moves proposals only as governance intends.** From tables whose
proposal counter is ahead of every proposal, with gov scripts that leave the counter alone,
whatever the request and whatever it answers: a proposal that is not open stays as it is;
an open one keeps its proposer and stays open, is accepted, or is withdrawn by its
proposer's `withdraw`; a new one is the caller's, open or accepted at once; and the counter
stays ahead. -/
theorem process_moves (env : Env) (hcall : KeepsProposalCounter env) (req : Request)
    {g : NetworkTables} (hg : Fresh g) :
    ProposalMoves req g (process env req g).2 ∧ Fresh (process env req g).2 := by
  have hspec := handler_moves env hcall req hg
  unfold wp at hspec
  unfold process
  split
  · -- the handler succeeded, and its transaction is committed
    next r g' hrun =>
      rw [hrun] at hspec
      exact hspec
  · exact ⟨.refl req g, hg⟩
  · exact ⟨.refl req g, hg⟩

/-! ## Calls that stop part-way -/

/-- A hardcoded call that answers false ends the calls, with what it did kept. -/
theorem runCalls_stops {env : Env} {call : ProposedCall} (calls : List ProposedCall)
    {f : Json → GovM Bool} {g g₁ : NetworkTables}
    (hf : hardcodedFuncs env call.func = some f) (hfalse : f call.args g = .ok false g₁) :
    runCalls env (call :: calls) g = .ok false g₁ := by
  simp only [runCalls, hf, bind, EStateM.bind, hfalse]
  rfl

/-- `complete` commits what `complete_proposal` leaves when it answers false: the calls made
before the one that answered false, with the proposal still open. -/
theorem process_complete_of_false (env : Env) {c : MemberId} {id : ObjectId}
    {g g' : NetworkTables} (hactive : checkMemberActive g c = true)
    (hrun : completeProposal env id g = .ok false g') :
    process env (.complete c id) g = (.ok (.bool false), g') := by
  simp only [process, Request.handler, complete, bind, EStateM.bind, get, getThe,
    MonadStateOf.get]
  -- unfold the read of the state without generating equation lemmas for it
  delta EStateM.get
  simp only [hactive, Bool.not_true, Bool.false_eq_true, if_false, EStateM.bind, hrun]
  rfl

/-- Gov scripts that propose a new member, then opening the network, and that pass every
proposal. -/
def luaStub : Env where
  proposedCalls _ _ _ _ := [⟨"new_member", .bytes [7]⟩, ⟨"open_network", .null⟩]
  ballot _ _ _ := true
  pass _ _ _ _ := true
  runCall _ _ p := p
  appScripts _ := []
  compile s := s
  partOfPublicNetwork := false
  finishRecovery _ _ := false
  nonce _ := [1]

/-- An open service with one active member, 0, and no proposals. -/
def openService : NetworkTables where
  members := (∅ : AList _).insert 0 ⟨[0], .ACTIVE⟩
  memberCerts := (∅ : AList _).insert [0] 0
  nodes := ∅
  values := ((∅ : AList _).insert NEXT_MEMBER_ID 1).insert NEXT_PROPOSAL_ID 0
  govScripts := ((∅ : AList _).insert "environment_proposal" "env").insert "pass" "pass"
  appScripts := ∅
  proposals := ∅
  memberAcks := ∅
  codeIds := ∅
  votingHistory := ∅
  service := (∅ : AList _).insert 0 ⟨.OPEN⟩

-- Made here once: the equation lemmas that the proofs below unfold.
section
attribute [local simp] openService
end

theorem partial_calls_committed :
    (processAll luaStub [.propose 0 "p" .null "yes", .complete 0 0] openService).1.map
        Except.toOption =
      [some (.proposed 0 false),
        some (.error Rpc.INTERNAL_ERROR "Certificate already exists")] ∧
    (processAll luaStub [.propose 0 "p" .null "yes", .complete 0 0] openService).2.members.lookup
        1 = some ⟨[7], .ACCEPTED⟩ ∧
    ((processAll luaStub [.propose 0 "p" .null "yes", .complete 0 0]
        openService).2.proposals.lookup 0).map (·.state) = some .OPEN := by
  decide

/-! ## Runs of requests -/

/-- What a run of requests may do to the proposals: one that is not open stays as it is; an
open one keeps its proposer and ends open, accepted, or withdrawn with its proposer's
`withdraw` among the requests; a new one is by the caller of one of the requests, and is
withdrawn only by its proposer's `withdraw`. -/
structure RunMoves (reqs : List Request) (g g' : NetworkTables) : Prop where
  closed : ∀ id p, g.proposals.lookup id = some p → p.state ≠ .OPEN →
    g'.proposals.lookup id = some p
  opened : ∀ id p, g.proposals.lookup id = some p → p.state = .OPEN →
    ∃ p', g'.proposals.lookup id = some p' ∧ p'.proposer = p.proposer ∧
      (p'.state = .OPEN ∨ p'.state = .ACCEPTED ∨
        (p'.state = .WITHDRAWN ∧ .withdraw p.proposer id ∈ reqs))
  created : ∀ id p', g.proposals.lookup id = none → g'.proposals.lookup id = some p' →
    (∃ req ∈ reqs, p'.proposer = req.callerId) ∧
      (p'.state ≠ .WITHDRAWN ∨ .withdraw p'.proposer id ∈ reqs)

theorem ProposalState.open_or_accepted {s : ProposalState} (h : s ≠ .WITHDRAWN) :
    s = .OPEN ∨ s = .ACCEPTED := by
  cases s <;> simp_all

theorem RunMoves.nil (g : NetworkTables) : RunMoves [] g g where
  closed _ _ hp _ := hp
  opened _ p hp hopen := ⟨p, hp, rfl, .inl hopen⟩
  created _ _ hnone hsome := by rw [hnone] at hsome; cases hsome

/-- A request, then a run. -/
theorem RunMoves.cons {req : Request} {reqs : List Request} {g g₁ g' : NetworkTables}
    (h₁ : ProposalMoves req g g₁) (h₂ : RunMoves reqs g₁ g') :
    RunMoves (req :: reqs) g g' where
  closed id p hp hnot := h₂.closed id p (h₁.closed id p hp hnot) hnot
  opened id p hp hopen := by
    obtain ⟨p₁, hp₁, hprop₁, hstate₁⟩ := h₁.opened id p hp hopen
    rcases hstate₁ with hopen₁ | hacc₁ | ⟨hw₁, rfl⟩
    · -- still open after the request: the run moves it on
      obtain ⟨p', hp', hprop', hstate'⟩ := h₂.opened id p₁ hp₁ hopen₁
      refine ⟨p', hp', hprop'.trans hprop₁, ?_⟩
      rw [hprop₁] at hstate'
      rcases hstate' with h | h | ⟨h, hmem⟩
      · exact .inl h
      · exact .inr (.inl h)
      · exact .inr (.inr ⟨h, List.mem_cons_of_mem _ hmem⟩)
    · -- accepted, or withdrawn, by the request: closed from then on
      exact ⟨p₁, h₂.closed id p₁ hp₁ (by rw [hacc₁]; decide), hprop₁, .inr (.inl hacc₁)⟩
    · exact ⟨p₁, h₂.closed id p₁ hp₁ (by rw [hw₁]; decide), hprop₁,
        .inr (.inr ⟨hw₁, List.mem_cons_self⟩)⟩
  created id p' hnone hsome := by
    cases hp₁ : g₁.proposals.lookup id with
    | none =>
      -- created later in the run
      obtain ⟨⟨r, hr, hc⟩, hw⟩ := h₂.created id p' hp₁ hsome
      exact ⟨⟨r, List.mem_cons_of_mem _ hr, hc⟩, hw.imp_right (List.mem_cons_of_mem _)⟩
    | some p₁ =>
      -- created by the request, open or accepted
      obtain ⟨hnw₁, hprop₁⟩ := h₁.created id p₁ hnone hp₁
      rcases ProposalState.open_or_accepted hnw₁ with hopen₁ | hacc₁
      · obtain ⟨p'', hp'', hprop'', hstate''⟩ := h₂.opened id p₁ hp₁ hopen₁
        obtain rfl := Option.some.inj (hsome.symm.trans hp'')
        refine ⟨⟨req, List.mem_cons_self, hprop''.trans hprop₁⟩, ?_⟩
        rcases hstate'' with h | h | ⟨_, hmem⟩
        · exact .inl (by rw [h]; decide)
        · exact .inl (by rw [h]; decide)
        · exact .inr (by rw [hprop'']; exact List.mem_cons_of_mem _ hmem)
      · obtain rfl := Option.some.inj
          (hsome.symm.trans (h₂.closed id p₁ hp₁ (by rw [hacc₁]; decide)))
        exact ⟨⟨req, List.mem_cons_self, hprop₁⟩, .inl hnw₁⟩

theorem openService_fresh : Fresh openService :=
  ⟨0, by decide, fun _ _ h => by simp [openService] at h⟩

end Ccf.Gov
