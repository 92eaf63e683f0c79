import Ccf.Raft.Raft
import Ccf.Lib.Run

/-!
# A cluster of Raft nodes and the network between them

Each node runs the class of `Ccf/Raft/Raft.lean`. A step of the cluster is one
call into one node — a message delivered by the host (`recv_message`), a timer
tick (`periodic`) or a batch handed over by the store (`replicate`) — and
everything the node's channel proxy was asked to send joins the network.

The network is the list of every message ever sent, with its sender and
destination. Any message of it may be delivered, at any time and any number of
times, so delay, reordering, duplication and loss (a message never delivered) are
all runs of this system. Channels are authenticated, so the sender a delivered
message carries is the node that sent it.

An exception escaping a handler ends the enclave's message loop
(`enclave/enclave.h` reports a fatal error): the node is *halted* and takes no
further steps, keeping the state it had when it threw.

`led` is ghost state, read by no node: each time a node becomes leader, the term
and the votes it holds at that moment are recorded.
-/

namespace Ccf.Raft

variable {σ E : Type}

/-- The nodes, the network and the election record. -/
structure World (σ E : Type) where
  nodes : NodeId → Raft σ E
  halted : NodeId → Bool
  /-- Every message ever handed to the network: sender, destination, message. -/
  sent : List (NodeId × NodeId × RaftMsg E)
  /-- Ghost: every election, as (leader, term, votes held when it won). -/
  led : List (NodeId × Term × List NodeId)

/-- The elections a step of node `n` from `pre` to `post` records. -/
def electedOf (n : NodeId) (pre post : Raft σ E) : List (NodeId × Term × List NodeId) :=
  if pre.state ≠ .Leader ∧ post.state = .Leader then [(n, post.currentTerm, post.votesForMe)]
  else []

/-- The state a call into node `n` starts from: its own, with an empty outbox. -/
def World.pre (w : World σ E) (n : NodeId) : Raft σ E := { w.nodes n with sent := [] }

/-- Node `n` runs `op`; its channel proxy's output moves to the network. -/
def World.act {α : Type} (w : World σ E) (n : NodeId) (op : RaftM σ E α) : World σ E :=
  let res := op (w.pre n)
  let post := res.state
  { nodes := Function.update w.nodes n { post with sent := [] }
    halted := Function.update w.halted n (w.halted n || res.threw)
    sent := w.sent ++ post.sent.map fun p => (n, p.1, p.2)
    led := w.led ++ electedOf n (w.nodes n) post }

-- Made here once: the equation lemmas that the proofs below unfold.
section
attribute [local simp] electedOf World.pre World.act
end

section Act

variable {α : Type} (w : World σ E) (n : NodeId) (op : RaftM σ E α)

theorem World.act_nodes_self :
    (w.act n op).nodes n = { (op (w.pre n)).state with sent := [] } := by
  simp [World.act]

theorem World.act_nodes_ne {m : NodeId} (h : m ≠ n) : (w.act n op).nodes m = w.nodes m := by
  simp [World.act, h]

theorem World.act_sent :
    (w.act n op).sent = w.sent ++ (op (w.pre n)).state.sent.map fun p => (n, p.1, p.2) := rfl

theorem World.act_led : (w.act n op).led = w.led ++ electedOf n (w.nodes n) (op (w.pre n)).state :=
  rfl

end Act

theorem mem_electedOf {n a : NodeId} {t : Term} {Q : List NodeId} {pre post : Raft σ E} :
    (a, t, Q) ∈ electedOf n pre post ↔
      pre.state ≠ .Leader ∧ post.state = .Leader ∧ a = n ∧ t = post.currentTerm ∧
        Q = post.votesForMe := by
  unfold electedOf
  split <;> simp_all

/-- A draw of `distrib(rand)`: uniform on `[-election_timeout, 0]`. -/
def DrawOk (r : Raft σ E) (draw : Int) : Prop := -r.electionTimeout ≤ draw ∧ draw ≤ 0

-- Made here once: the equation lemmas that the proofs below unfold.
section
attribute [local simp] DrawOk
end

variable [RaftStore σ E]

/-- One step of the cluster whose members are `members`. -/
inductive Step (members : List NodeId) : World σ E → World σ E → Prop where
  /-- The host delivers a message from the network to its destination. -/
  | recv {w : World σ E} {src dst : NodeId} {m : RaftMsg E} (draw : Int) :
      (src, dst, m) ∈ w.sent → dst ∈ members → w.halted dst = false →
      DrawOk (w.nodes dst) draw →
      Step members w (w.act dst (recvMessage draw m))
  /-- A timer tick of `elapsed` milliseconds. -/
  | periodic {w : World σ E} {n : NodeId} (draw elapsed : Int) :
      n ∈ members → w.halted n = false → DrawOk (w.nodes n) draw → 0 ≤ elapsed →
      Step members w (w.act n (periodic draw elapsed))
  /-- The store hands a batch of committed transactions to `replicate`. -/
  | replicate {w : World σ E} {n : NodeId} (entries : List (Index × E × Bool)) :
      n ∈ members → w.halted n = false →
      Step members w (w.act n (replicate entries))

/-- Every node constructed with its own store and timeouts and given the
configuration `conf` with `add_configuration(0, conf)`. -/
def World.init (conf : Configuration) (store : NodeId → σ) (requestTimeout electionTimeout : NodeId → Int) :
    World σ E where
  nodes n :=
    let r : Raft σ E := Raft.init (store n) n (requestTimeout n) (electionTimeout n) false
    (addConfiguration conf r).state
  halted _ := false
  sent := []
  led := []

/-- The runs of the cluster started with configuration `conf`. -/
def IsClusterRun (conf : Configuration) (store : NodeId → σ)
    (requestTimeout electionTimeout : NodeId → Int) (ws : List (World σ E)) : Prop :=
  Run.IsRun (· = World.init conf store requestTimeout electionTimeout) (Step conf.nodes) ws

-- Made here once: the equation lemmas that the proofs below unfold.
section
attribute [local simp] World.init
end

/-! ## Schedules

A run is fixed by the calls the host makes, in order. `World.play` makes them;
`Call.AllEnabled` checks, by evaluation, that each one is a step the host may take
where it is made, and `IsClusterRun.play` turns that check into a run. -/

/-- A call of the host into one node. -/
inductive Call (E : Type) where
  | recv (src dst : NodeId) (draw : Int) (m : RaftMsg E)
  | periodic (n : NodeId) (draw elapsed : Int)
  | replicate (n : NodeId) (entries : List (Index × E × Bool))

/-- The world after the call. -/
def Call.run : Call E → World σ E → World σ E
  | .recv _ dst draw m, w => w.act dst (recvMessage draw m)
  | .periodic n draw elapsed, w => w.act n (Ccf.Raft.periodic draw elapsed)
  | .replicate n entries, w => w.act n (Ccf.Raft.replicate entries)

/-- The side conditions of the step the call makes. -/
def Call.Enabled (members : List NodeId) (w : World σ E) : Call E → Prop
  | .recv src dst draw m =>
      (src, dst, m) ∈ w.sent ∧ dst ∈ members ∧ w.halted dst = false ∧ DrawOk (w.nodes dst) draw
  | .periodic n draw elapsed =>
      n ∈ members ∧ w.halted n = false ∧ DrawOk (w.nodes n) draw ∧ 0 ≤ elapsed
  | .replicate n _ => n ∈ members ∧ w.halted n = false

-- Made here once: the equation lemmas that the proofs below unfold.
section
attribute [local simp] Call.run Call.Enabled
end

instance [DecidableEq E] (members : List NodeId) (w : World σ E) (c : Call E) :
    Decidable (c.Enabled members w) := by
  cases c <;> unfold Call.Enabled DrawOk <;> infer_instance

theorem Call.step {members : List NodeId} {w : World σ E} {c : Call E}
    (h : c.Enabled members w) : Step members w (c.run w) := by
  cases c with
  | recv src dst draw m => exact .recv draw h.1 h.2.1 h.2.2.1 h.2.2.2
  | periodic n draw elapsed => exact .periodic draw elapsed h.1 h.2.1 h.2.2.1 h.2.2.2
  | replicate n entries => exact .replicate entries h.1 h.2

/-- The worlds a schedule passes through, starting with `w`. -/
def World.play (w : World σ E) : List (Call E) → List (World σ E)
  | [] => [w]
  | c :: cs => w :: (c.run w).play cs

/-- The world a schedule ends in. -/
def World.after (w : World σ E) (cs : List (Call E)) : World σ E :=
  cs.foldl (fun w c => c.run w) w

-- Made here once: the equation lemmas that the proofs below unfold.
section
attribute [local simp] World.play World.after
end

theorem World.after_mem_play (w : World σ E) (cs : List (Call E)) : w.after cs ∈ w.play cs := by
  induction cs generalizing w with
  | nil => exact List.mem_singleton_self w
  | cons c cs ih => exact List.mem_cons_of_mem w (ih (c.run w))

/-- The world after a prefix of a schedule is one the whole schedule passes through. -/
theorem World.after_mem_play_append (w : World σ E) (cs ds : List (Call E)) :
    w.after cs ∈ w.play (cs ++ ds) := by
  induction cs generalizing w with
  | nil => cases ds <;> simp [World.after, World.play]
  | cons c cs ih => exact List.mem_cons_of_mem w (ih (c.run w))

/-- Every call of the schedule is enabled where it is made. -/
def Call.AllEnabled (members : List NodeId) : World σ E → List (Call E) → Prop
  | _, [] => True
  | w, c :: cs => c.Enabled members w ∧ Call.AllEnabled members (c.run w) cs

instance Call.decAllEnabled [DecidableEq E] (members : List NodeId) :
    (w : World σ E) → (cs : List (Call E)) → Decidable (Call.AllEnabled members w cs)
  | _, [] => isTrue trivial
  | w, c :: cs =>
      have := Call.decAllEnabled members (c.run w) cs
      inferInstanceAs (Decidable (_ ∧ _))

theorem World.play_isChain {members : List NodeId} {w : World σ E} {cs : List (Call E)}
    (h : Call.AllEnabled members w cs) : List.IsChain (Step members) (w.play cs) := by
  induction cs generalizing w with
  | nil => exact .singleton w
  | cons c cs ih =>
      cases cs with
      | nil => exact .cons_cons (Call.step h.1) (.singleton _)
      | cons c' cs' => exact .cons_cons (Call.step h.1) (ih h.2)

/-- A schedule whose calls are all enabled is a run of the cluster. -/
theorem IsClusterRun.play {conf : Configuration} {store : NodeId → σ}
    {requestTimeout electionTimeout : NodeId → Int} {cs : List (Call E)}
    (h : Call.AllEnabled conf.nodes (World.init conf store requestTimeout electionTimeout) cs) :
    IsClusterRun conf store requestTimeout electionTimeout
      ((World.init conf store requestTimeout electionTimeout).play cs) := by
  cases cs with
  | nil => exact ⟨_, [], rfl, rfl, .singleton _⟩
  | cons c cs => exact ⟨_, _, rfl, rfl, World.play_isChain h⟩

end Ccf.Raft
