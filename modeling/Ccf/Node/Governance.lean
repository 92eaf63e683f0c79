import Ccf.Node.Rpc.Frontend
import Mathlib.Data.List.AList

/-!
# Governance: `MemberRpcFrontend` (`node/rpc/memberfrontend.h`)

Members govern the service by proposals. `propose` records a proposal, `OPEN`, with the
proposer's ballot; `vote` adds a ballot; `withdraw` lets the proposer withdraw an open
proposal; and `propose`, `vote` and `complete` each then try `complete_proposal`. That runs
the proposal's script for the calls it proposes, the ballots of the active members on them,
and the `pass` gov script on the ballots. If the proposal passes, it makes the calls in order,
within the request's transaction, and marks the proposal `ACCEPTED`; but a hardcoded call
that answers false stops it there, and `complete_proposal` answers false.

Requests are taken one at a time: a request's transaction sees the tables as the last
committed transaction left them, and `process_json` commits it exactly when its handler
succeeds (`process`); with no other transaction running, the commit cannot conflict. The
tables the member frontend uses are the record `NetworkTables`, and a handler runs in
`EStateM` over it as it would over its transaction's views. Of the records in those tables
only the fields the frontend reads or writes are kept.

Lua is not modelled: what a script returns is given by `Env`, which assumes, as the scripts
must, that they terminate and return what their callers expect. A gov script proposed by
name may write only the tables of the `MEMBER_CAN_PROPOSE` whitelist, `Proposable`.
`finish_recovery` is given by `Env` too: in the transaction it writes only the secrets table,
which is left out. Parameters arrive parsed, and a vote's signature is checked for presence
only, as in a build without `HTTP`.
-/

namespace Ccf.Gov

open Rpc

/-- `MemberId`, `NodeId`, `ObjectId`: `uint64_t`. -/
abbrev MemberId := UInt64
abbrev NodeId := UInt64
abbrev ObjectId := UInt64

/-- `ValueId`: `uint8_t`; the counters of the `values` table. -/
abbrev ValueId := UInt8

def NEXT_MEMBER_ID : ValueId := 0
def NEXT_PROPOSAL_ID : ValueId := 3

/-- A Lua script, as text or bytecode. -/
abbrev Script := String

/-- `Cert`, `CodeDigest`: byte strings. -/
abbrev Cert := List UInt8
abbrev CodeDigest := List UInt8

/-- `nlohmann::json`, as far as proposal parameters and call arguments are read here: a
number, a string, a byte array, or anything else, which only a script reads. -/
inductive Json where
  | null
  | num (n : Nat)
  | str (s : String)
  | bytes (b : List UInt8)
  deriving DecidableEq, Repr

inductive ProposalState where
  | OPEN
  | ACCEPTED
  | WITHDRAWN
  deriving DecidableEq, Repr

/-- How `fmt` prints a proposal state, by the names of `DECLARE_JSON_ENUM`. -/
def ProposalState.name : ProposalState → String
  | .OPEN => "OPEN"
  | .ACCEPTED => "ACCEPTED"
  | .WITHDRAWN => "WITHDRAWN"

-- Made here once: the equation lemmas that the proofs below unfold.
section
attribute [local simp] ProposalState.name
end

inductive MemberStatus where
  | ACCEPTED
  | ACTIVE
  deriving DecidableEq, Repr

inductive NodeStatus where
  | PENDING
  | TRUSTED
  | RETIRED
  deriving DecidableEq, Repr

inductive CodeStatus where
  | ACCEPTED
  deriving DecidableEq, Repr

inductive ServiceStatus where
  | OPENING
  | OPEN
  | CLOSED
  deriving DecidableEq, Repr

/-- `MemberInfo`, without the key share, which the frontend neither reads nor writes. -/
structure MemberInfo where
  cert : Cert
  status : MemberStatus
  deriving DecidableEq, Repr

/-- `NodeInfo`: its status; the rest of the record only passes through. -/
structure NodeInfo where
  status : NodeStatus
  deriving DecidableEq, Repr

/-- `ServiceInfo`: its status. -/
structure ServiceInfo where
  status : ServiceStatus
  deriving DecidableEq, Repr

/-- `MemberAck`: a signature and the next nonce to sign. -/
structure MemberAck where
  sig : List UInt8
  nextNonce : List UInt8
  deriving DecidableEq, Repr

/-- `SignedReq`: a request and its signature. -/
structure SignedReq where
  sig : List UInt8
  req : List UInt8
  deriving DecidableEq, Repr

/-- `Proposal`. The ballots are by member, each member once. -/
structure Proposal where
  script : Script
  parameter : Json
  proposer : MemberId
  state : ProposalState
  votes : AList fun _ : MemberId => Script
  deriving DecidableEq

/-- `ProposedCall`: a function's name and its arguments. -/
structure ProposedCall where
  func : String
  args : Json
  deriving DecidableEq, Repr

/-- The tables of the `MEMBER_CAN_PROPOSE` whitelist that the member frontend uses. -/
structure Proposable where
  members : AList fun _ : MemberId => MemberInfo
  memberCerts : AList fun _ : Cert => MemberId
  nodes : AList fun _ : NodeId => NodeInfo
  values : AList fun _ : ValueId => UInt64
  govScripts : AList fun _ : String => Script
  appScripts : AList fun _ : String => Script

/-- `NetworkTables`, the tables the member frontend reads and writes. -/
structure NetworkTables extends Proposable where
  proposals : AList fun _ : ObjectId => Proposal
  memberAcks : AList fun _ : MemberId => MemberAck
  codeIds : AList fun _ : CodeDigest => CodeStatus
  votingHistory : AList fun _ : MemberId => SignedReq
  /-- The `service` table, whose one entry is at key 0. -/
  service : AList fun _ : Nat => ServiceInfo

/-- What the model does not run: Lua scripts, the node's state, and the entropy. -/
structure Env where
  /-- A proposal's script on its parameter, with the `environment_proposal` gov script:
  the calls it proposes. Scripts read the tables of `MEMBER_CAN_READ`. -/
  proposedCalls : NetworkTables → Script → Json → Script → List ProposedCall
  /-- A member's ballot on the proposed calls. -/
  ballot : NetworkTables → Script → List ProposedCall → Bool
  /-- The `pass` gov script on the proposed calls and the ballots of the active members. -/
  pass : NetworkTables → Script → List ProposedCall → List (MemberId × Bool) → Bool
  /-- A gov script proposed by name, on the call's arguments. -/
  runCall : Script → Json → Proposable → Proposable
  /-- `lua::Interpreter().invoke<nlohmann::json>(app)`: the app's scripts by name. -/
  appScripts : String → List (String × String)
  /-- `lua::compile`. -/
  compile : String → Script
  /-- `node.is_part_of_public_network()`. -/
  partOfPublicNetwork : Bool
  /-- `node.finish_recovery(tx, args)`: whether it succeeded. -/
  finishRecovery : NetworkTables → Json → Bool
  /-- `rng->random(SIZE_NONCE)` at the creation of a member. -/
  nonce : MemberId → List UInt8

/-- A handler, on its transaction's view of the tables. -/
abbrev GovM := EStateM HandlerException NetworkTables

/-- `jsonrpc::StandardErrorCodes::INVALID_PARAMS`. -/
def INVALID_PARAMS : Int := -32602

/-- `jsonrpc::CCFErrorCodes::INSUFFICIENT_RIGHTS`. -/
def INSUFFICIENT_RIGHTS : Int := -32004

/-- `jsonrpc::CCFErrorCodes::RPC_NOT_SIGNED`. -/
def RPC_NOT_SIGNED : Int := -32006

/-- `jsonrpc::CCFErrorCodes::INVALID_CALLER_ID`. -/
def INVALID_CALLER_ID : Int := -32008

/-- What a member handler answers: `jsonrpc::success` of its result, or `jsonrpc::error`
with a code and a message, to which the reply prefixes the code's name. -/
inductive Reply where
  /-- `Propose::Out`: the new proposal's id and whether it completed. -/
  | proposed (id : ObjectId) (completed : Bool)
  | bool (b : Bool)
  | error (code : Int) (msg : String)
  deriving DecidableEq, Repr

/-- `jsonrpc::success(result)`. -/
def success (r : Reply) : Bool × Reply := (true, r)

/-- `jsonrpc::error(code, msg)`. -/
def error (code : Int) (msg : String) : Bool × Reply := (false, .error code msg)

/-- A `std::logic_error`. -/
def logicError {α : Type} (what : String) : GovM α := throw (.logicError what)

/-- A JSON argument of the wrong type: `nlohmann::json::type_error`, a `std::exception`. -/
def typeError {α : Type} : GovM α := logicError "[json.exception.type_error.302]"

/-- `args.get<uint64_t>()`. -/
def Json.getId : Json → GovM UInt64
  | .num n => pure n.toUInt64
  | _ => typeError

/-- `const std::vector<uint8_t> v = args;`. -/
def Json.getBytes : Json → GovM (List UInt8)
  | .bytes b => pure b
  | _ => typeError

/-- `const std::string s = args;`. -/
def Json.getString : Json → GovM String
  | .str s => pure s
  | _ => typeError

/-- `get_next_id(values, id)`: the counter's value, which is then incremented. -/
def getNextId (id : ValueId) : GovM UInt64 := do
  let g ← get
  match g.values.lookup id with
  | none => logicError "Failed to get next ID."
  | some v =>
      let nextId := v + 1
      if nextId < v then logicError "Overflow in ID"
      else
        set { g with values := g.values.insert id nextId }
        pure v

/-- `check_member_status`: the member exists and has one of the statuses allowed. -/
def checkMemberStatus (g : NetworkTables) (id : MemberId) (allowed : List MemberStatus) : Bool :=
  match g.members.lookup id with
  | none => false
  | some member => allowed.contains member.status

def checkMemberActive (g : NetworkTables) (id : MemberId) : Bool := checkMemberStatus g id [.ACTIVE]

/-- `get_script`: a gov script by name. -/
def getScript (name : String) : GovM Script := do
  match (← get).govScripts.lookup name with
  | none => logicError ("Could not find gov script: " ++ name)
  | some s => pure s

/-! ## The hardcoded functions -/

/-- `set_app_scripts`: remove every app script, then put each of `scripts`, compiled. -/
def setAppScripts (env : Env) (scripts : List (String × String)) : GovM Unit :=
  modify fun g => { g with
    appScripts := scripts.foldl (fun a rs => a.insert rs.1 (env.compile rs.2)) ∅ }

/-- `set_lua_app`. -/
def setLuaApp (env : Env) (args : Json) : GovM Bool := do
  let app ← args.getString
  setAppScripts env (env.appScripts app)
  pure true

/-- `new_member`: a new member, `ACCEPTED`, under the next member id, with its cert, unless
the cert is already a member's. Its ack is initialised from `{rng->random(SIZE_NONCE)}`,
which by brace elision fills the signature of the ack, not its next nonce. -/
def newMember (env : Env) (args : Json) : GovM Bool := do
  let cert ← args.getBytes
  if ((← get).memberCerts.lookup cert).isSome then logicError "Certificate already exists"
  else
    let id ← getNextId NEXT_MEMBER_ID
    modify fun g => { g with
      memberCerts := g.memberCerts.insert cert id
      members := g.members.insert id ⟨cert, .ACCEPTED⟩
      memberAcks := g.memberAcks.insert id ⟨env.nonce id, []⟩ }
    pure true

/-- What `trust_node` and `retire_node` share: set an existing node's status. -/
def setNodeStatus (status : NodeStatus) (args : Json) : GovM Bool := do
  let id ← args.getId
  match (← get).nodes.lookup id with
  | none => logicError ("Node " ++ toString id ++ " does not exist")
  | some info =>
      modify fun g => { g with nodes := g.nodes.insert id { info with status := status } }
      pure true

/-- `trust_node`. -/
def trustNode (args : Json) : GovM Bool := setNodeStatus .TRUSTED args

/-- `retire_node`. -/
def retireNode (args : Json) : GovM Bool := setNodeStatus .RETIRED args

/-- `new_code`: accept a code digest not known yet. -/
def newCode (args : Json) : GovM Bool := do
  let id ← args.getBytes
  if ((← get).codeIds.lookup id).isSome then
    logicError "Code signature already exists with digest"
  else
    modify fun g => { g with codeIds := g.codeIds.insert id .ACCEPTED }
    pure true

/-- `accept_recovery`: `finish_recovery` on a node of the public network, false elsewhere. -/
def acceptRecovery (env : Env) (args : Json) : GovM Bool := do
  if env.partOfPublicNetwork then pure (env.finishRecovery (← get) args) else pure false

/-- `open_network` (`NodeState::open_network`): an opening service becomes open; false when
there is no service or it is not opening. -/
def openNetwork : GovM Bool := do
  match (← get).service.lookup 0 with
  | none => pure false
  | some activeService =>
      if activeService.status ≠ .OPENING then pure false
      else
        modify fun g => { g with
          service := g.service.insert 0 { activeService with status := .OPEN } }
        pure true

/-- `hardcoded_funcs`: the functions a proposal can call by name. -/
def hardcodedFuncs (env : Env) : String → Option (Json → GovM Bool)
  | "set_lua_app" => some (setLuaApp env)
  | "new_member" => some (newMember env)
  | "trust_node" => some trustNode
  | "retire_node" => some retireNode
  | "new_code" => some newCode
  | "accept_recovery" => some (acceptRecovery env)
  | "open_network" => some fun _ => openNetwork
  | _ => none

/-! ## Completing a proposal -/

/-- The loop of `complete_proposal` over the proposed calls: a hardcoded function is called,
and one that answers false stops the loop with false; a gov script of that name is run with
its writes limited to `MEMBER_CAN_PROPOSE`; any other name is skipped. -/
def runCalls (env : Env) : List ProposedCall → GovM Bool
  | [] => pure true
  | call :: calls =>
      match hardcodedFuncs env call.func with
      | some f => do
          if !(← f call.args) then return false
          runCalls env calls
      | none => do
          match (← get).govScripts.lookup call.func with
          | none => runCalls env calls
          | some s =>
              modify fun g => { g with toProposable := env.runCall s call.args g.toProposable }
              runCalls env calls

/-- `complete_proposal`: an open proposal that passes has its calls made and is `ACCEPTED`;
the answer is whether both happened. -/
def completeProposal (env : Env) (id : ObjectId) : GovM Bool := do
  let g ← get
  match g.proposals.lookup id with
  | none => logicError ("No such proposal: " ++ toString id)
  | some proposal =>
      if proposal.state ≠ .OPEN then
        logicError ("Cannot complete non-open proposal - current state is " ++
          proposal.state.name)
      else
        let proposedCalls := env.proposedCalls g proposal.script proposal.parameter
          (← getScript "environment_proposal")
        -- the ballots of the members still active
        let votes := proposal.votes.entries.filterMap fun v =>
          if checkMemberActive g v.1 then some (v.1, env.ballot g v.2 proposedCalls) else none
        let pass := env.pass g (← getScript "pass") proposedCalls votes
        if !pass then return false
        if !(← runCalls env proposedCalls) then return false
        modify fun g => { g with
          proposals := g.proposals.insert id { proposal with state := .ACCEPTED } }
        pure true

/-! ## The handlers -/

/-- `propose`: an active member records a proposal, with their ballot, under the next
proposal id, and tries to complete it. -/
def propose (env : Env) (callerId : MemberId) (script : Script) (parameter : Json)
    (ballot : Script) : GovM (Bool × Reply) := do
  if !checkMemberActive (← get) callerId then return error INSUFFICIENT_RIGHTS ""
  let proposalId ← getNextId NEXT_PROPOSAL_ID
  let proposal : Proposal :=
    ⟨script, parameter, callerId, .OPEN, (∅ : AList _).insert callerId ballot⟩
  modify fun g => { g with proposals := g.proposals.insert proposalId proposal }
  let completed ← completeProposal env proposalId
  pure (success (.proposed proposalId completed))

/-- `withdraw`: the proposer of an open proposal withdraws it. -/
def withdraw (callerId : MemberId) (proposalId : ObjectId) : GovM (Bool × Reply) := do
  let g ← get
  if !checkMemberStatus g callerId [.ACTIVE] then return error INSUFFICIENT_RIGHTS ""
  match g.proposals.lookup proposalId with
  | none => pure (error INVALID_PARAMS ("Proposal " ++ toString proposalId ++ " does not exist"))
  | some proposal =>
      if proposal.proposer ≠ callerId then
        return error INVALID_CALLER_ID ("Proposal " ++ toString proposalId ++
          " can only be withdrawn by proposer " ++ toString proposal.proposer ++
          ", not caller " ++ toString callerId)
      if proposal.state ≠ .OPEN then
        return error INVALID_PARAMS ("Proposal " ++ toString proposalId ++
          " is currently in state " ++ proposal.state.name ++ " - only " ++
          ProposalState.OPEN.name ++ " proposals can be withdrawn")
      set { g with
        proposals := g.proposals.insert proposalId { proposal with state := .WITHDRAWN } }
      pure (success (.bool true))

/-- `vote`: an active member's signed ballot on an open proposal is recorded, with the
signed request in the voting history, and the proposal is tried for completion. -/
def vote (env : Env) (callerId : MemberId) (signedRequest : SignedReq) (id : ObjectId)
    (ballot : Script) : GovM (Bool × Reply) := do
  let g ← get
  if !checkMemberActive g callerId then return error INSUFFICIENT_RIGHTS ""
  if signedRequest.sig.isEmpty then return error RPC_NOT_SIGNED "Votes must be signed"
  match g.proposals.lookup id with
  | none => pure (error INVALID_PARAMS ("Proposal " ++ toString id ++ " does not exist"))
  | some proposal =>
      if proposal.state ≠ .OPEN then
        return error INVALID_PARAMS ("Proposal " ++ toString id ++ " is currently in state " ++
          proposal.state.name ++ " - only " ++ ProposalState.OPEN.name ++
          " proposals can receive votes")
      set { g with
        proposals := g.proposals.insert id
          { proposal with votes := proposal.votes.insert callerId ballot }
        votingHistory := g.votingHistory.insert callerId signedRequest }
      pure (success (.bool (← completeProposal env id)))

/-- `complete`: an active member asks for a proposal to be completed. -/
def complete (env : Env) (callerId : MemberId) (proposalId : ObjectId) : GovM (Bool × Reply) := do
  if !checkMemberActive (← get) callerId then return error INSUFFICIENT_RIGHTS ""
  if !(← completeProposal env proposalId) then return success (.bool false)
  pure (success (.bool true))

-- Made here once: the equation lemmas that the proofs below unfold.
section
attribute [local simp] logicError typeError Json.getId Json.getBytes Json.getString getNextId getScript setAppScripts setLuaApp newMember setNodeStatus newCode acceptRecovery openNetwork hardcodedFuncs runCalls completeProposal propose withdraw vote complete
end

/-! ## Requests -/

/-- A request to the member frontend, by its caller. -/
inductive Request where
  | propose (callerId : MemberId) (script : Script) (parameter : Json) (ballot : Script)
  | withdraw (callerId : MemberId) (proposalId : ObjectId)
  | vote (callerId : MemberId) (signedRequest : SignedReq) (id : ObjectId) (ballot : Script)
  | complete (callerId : MemberId) (proposalId : ObjectId)

/-- The handler a request is dispatched to. -/
def Request.handler (env : Env) : Request → GovM (Bool × Reply)
  | .propose c script parameter ballot => Gov.propose env c script parameter ballot
  | .withdraw c proposalId => Gov.withdraw c proposalId
  | .vote c signedRequest id ballot => Gov.vote env c signedRequest id ballot
  | .complete c proposalId => Gov.complete env c proposalId

/-- The answer of `process_json` to an exception, by the `catch` that takes it. -/
def replyOf (e : HandlerException) : Except String Reply :=
  (catchException e : Except String (Response Reply)).map fun
    | .error code msg => .error code msg
    | .result r _ => r
    | .handlerError r => r

/-- `process_json` on one request, with no other transaction running: the handler's
transaction is committed exactly when the handler succeeds. -/
def process (env : Env) (req : Request) (g : NetworkTables) :
    Except String Reply × NetworkTables :=
  match req.handler env g with
  | .ok (true, r) g' => (.ok r, g')
  | .ok (false, r) _ => (.ok r, g)
  | .error e _ => (replyOf e, g)

/-- Requests processed one after another. -/
def processAll (env : Env) :
    List Request → NetworkTables → List (Except String Reply) × NetworkTables
  | [], g => ([], g)
  | req :: reqs, g =>
      let (r, g) := process env req g
      let rest := processAll env reqs g
      (r :: rest.1, rest.2)

-- Made here once: the equation lemmas that the proofs below unfold.
section
attribute [local simp] Request.handler process
end

end Ccf.Gov
