import Ccf.Kv.Tx

/-!
# The commit loop of `RpcFrontend::process_json` (`node/rpc/frontend.h`)

`process_json` runs the handler of a request on one transaction, `tx`, and commits it.
The handler answers whether it succeeded, with its result or its error, or throws. A
commit that succeeds is answered with the result and the version it committed at; one that
fails to replicate with `TX_FAILED_TO_REPLICATE`; one that conflicts goes round the
`while (true)` loop again, which runs the handler again on the same `tx`. An exception is
answered by the `catch` that takes it.

Other transactions commit to the store while the handler runs: before the commit of
round `n` they have done `others n` to it. The loop is given a bound on its rounds
(`fuel`); without one it is the source's `while (true)`. The store has no consensus here,
as in `Tx.commit`, so the answer carries no term and no global commit, and no signature
is emitted. The checks of `process_json` before the loop (the JSON-RPC version, the
parameters, the method, forwarding from a backup) are left out.
-/

namespace Ccf.Rpc

open Kv

/-- `jsonrpc::StandardErrorCodes::PARSE_ERROR`. -/
def PARSE_ERROR : Int := -32700

/-- `jsonrpc::StandardErrorCodes::INTERNAL_ERROR`. -/
def INTERNAL_ERROR : Int := -32603

/-- `jsonrpc::CCFErrorCodes::TX_FAILED_TO_REPLICATE`. -/
def TX_FAILED_TO_REPLICATE : Int := -32002

/-- What a handler throws, by the `catch` of the loop that takes it. -/
inductive HandlerException where
  | RpcException (errorId : Int) (msg : String)
  /-- A `JsonParseError`: where in the parameters, and what. -/
  | JsonParseError (pointer : String) (what : String)
  | KvSerialiserException (what : String)
  /-- Any other `std::exception`. -/
  | logicError (what : String)
  deriving DecidableEq, Repr

/-- An answer of `process_json`. -/
inductive Response (J : Type) where
  /-- `result_response`, with the `COMMIT` version. -/
  | result (value : J) (commit : Version)
  /-- `error_response` with a code and a message. -/
  | error (code : Int) (msg : String)
  /-- `error_response` with the handler's own error. -/
  | handlerError (value : J)
  deriving DecidableEq, Repr

/-- The `catch` clauses. A serialiser exception is logged with `LOG_FATAL_FMT`, which
throws a `logic_error` out of `process_json`. -/
def catchException {J : Type} : HandlerException → Except String (Response J)
  | .RpcException errorId msg => .ok (.error errorId msg)
  | .JsonParseError pointer what => .ok (.error PARSE_ERROR ("At " ++ pointer ++ ":\n\t" ++ what))
  | .KvSerialiserException what => .error ("Fatal: " ++ what)
  | .logicError what => .ok (.error INTERNAL_ERROR what)

/-- A handler, `func(args)`: it runs on the request's transaction, making its views from
the store as the store then is, and answers whether it succeeded, with its result or its
error. -/
abbrev Handler (K V C J : Type) := Store K V C → EStateM HandlerException (Tx K V) (Bool × J)

variable {K V C J : Type} [DecidableEq K] [Inhabited V]

/-- The `COMMIT` version of the answer: the commit version, else the read version when
nothing was written, else the current version when nothing was read. -/
def commitVersionOf (tx : Tx K V) (s : Store K V C) : Version :=
  let cv := if tx.version = 0 then tx.readVersion else tx.version
  if cv = NoVersion then s.currentVersion else cv

/-- The `while (true)` loop of `process_json`, from round `n`, on the store `s` and the
request's transaction `tx`: the answer, if the rounds allowed give one, and the store. -/
def commitLoop (func : Handler K V C J) (others : Nat → Store K V C → Store K V C) :
    Nat → Nat → Store K V C → Tx K V → Option (Except String (Response J)) × Store K V C
  | 0, _, s, _ => (none, s)
  | fuel + 1, n, s, tx =>
      match func s tx with
      | .error e _ => (some (catchException e), s)
      | .ok (ok, result) tx =>
          if !ok then (some (.ok (.handlerError result)), s)
          else
            let s := others n s
            match Tx.commit (s, tx) with
            | .ok .OK (s', tx') => (some (.ok (.result result (commitVersionOf tx' s'))), s')
            | .ok .CONFLICT (s', tx') => commitLoop func others fuel (n + 1) s' tx'
            | .ok .NO_REPLICATE (s', _) =>
                (some (.ok (.error TX_FAILED_TO_REPLICATE "Transaction failed to replicate.")), s')
            | .error e (s', _) =>
                -- `Tx::commit` throws a `logic_error` on a transaction already committed;
                -- on one it commits, only the serialiser throws
                if tx.committed then (some (.ok (.error INTERNAL_ERROR e)), s')
                else (some (.error ("Fatal: " ++ e)), s')

-- Made here once: the equation lemmas that the proofs below unfold.
section
attribute [local simp] commitLoop
end

end Ccf.Rpc
