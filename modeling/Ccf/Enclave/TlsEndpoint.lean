import Ccf.Lib.Codec

/-!
# TLS sessions in the enclave (`enclave/tlsendpoint.h`, `enclave/tlsframedendpoint.h`)

A client's session ends in the enclave in a `TLSEndpoint`, which owns an mbedtls context. The
host passes the bytes it receives to `recv_buffered`; the context decrypts them, and `read`
takes the plain text out, through `read_buffer`, where a read that wants an exact number of
bytes and gets fewer keeps them for the next one. A `FramedTLSEndpoint` reads frames from the
plain text: a `uint32_t` length, then a request of that many bytes, which it passes to
`handle_data`. Its `send` writes a reply as such a frame.

The context is modelled by what it gives the endpoint. Its plain text is the list of the
application records it has decrypted and not yet handed out: `ctx->read(buf, len)` gives up to
`len` bytes of the first record with any, and `MBEDTLS_ERR_SSL_WANT_READ` when there are none;
`recv_buffered` adds the records the new bytes complete. Records of any sizes, split between
calls in any way, are each a case of this. The handshake is taken to be done: the model starts
from a ready endpoint, and leaves out `do_handshake`, the peer's close notify, and mbedtls's own
errors. On the writing side, the context takes every byte it is given, so `flush` empties
`pending_write`. `handle_data` is a function of the state of what handles the requests: whether
it returned `true` and did not throw.
-/

namespace Ccf.Enclave

/-- `TLSEndpoint::Status`. -/
inductive Status
  | handshake
  | ready
  | closed
  | authfail
  | error
  deriving DecidableEq, Repr

/-- `ctx->read(buf, len)`, over the plain text of the records not yet handed out: some bytes of
the first record with any, or `MBEDTLS_ERR_SSL_WANT_READ`, here `none`. -/
def ctxRead : List (List UInt8) → Nat → Option (List UInt8) × List (List UInt8)
  | [], _ => (none, [])
  | r :: rs, len =>
      if r = [] then ctxRead rs len
      else if len < r.length then (some (r.take len), r.drop len :: rs)
      else (some r, rs)

-- Made here once: the equation lemmas that the proofs below unfold.
section
attribute [local simp] ctxRead
end

/-- A `TLSEndpoint`: its status, `read_buffer`, the context's plain text not yet read,
`pending_write`, the plain text the context was given to send, and the `tls_stop` messages
written to the host. -/
structure Endpoint where
  status : Status
  readBuffer : List UInt8
  records : List (List UInt8)
  pendingWrite : List UInt8
  sent : List UInt8
  toHost : List String
  deriving DecidableEq, Repr

namespace Endpoint

/-- An endpoint whose handshake is done, with nothing read or written. -/
def established : Endpoint := ⟨.ready, [], [], [], [], []⟩

/-- `stop(status_)`: a session that is closed, failed or in error stays so; otherwise it takes the
new status and tells the host. -/
def stop (s : Status) (e : Endpoint) : Endpoint :=
  match e.status with
  | .closed | .authfail | .error => e
  | _ =>
      let e := { e with status := s }
      match s with
      | .closed => { e with toHost := e.toHost ++ ["Session closed"] }
      -- no `break` after this message: the one of `error` follows it
      | .authfail => { e with toHost := e.toHost ++ ["Authentication failed", "Error"] }
      | .error => { e with toHost := e.toHost ++ ["Error"] }
      | _ => e

/-- `close()`. A ready session's `ctx->close()` sends the close notify, which the context takes
at once (it returns 0). -/
def close (e : Endpoint) : Endpoint :=
  match e.status with
  | .handshake => e.stop .closed
  | .ready => e.stop .closed
  | _ => e

/-- `recv_buffered(data, size)`: the records the new bytes complete join the context's plain
text. -/
def recvBuffered (records : List (List UInt8)) (e : Endpoint) : Endpoint :=
  { e with records := e.records ++ records }

/-- `send_buffered(data)`. -/
def sendBuffered (data : List UInt8) (e : Endpoint) : Endpoint :=
  { e with pendingWrite := e.pendingWrite ++ data }

/-- `flush()`: a ready session writes `pending_write` through the context. -/
def flush (e : Endpoint) : Endpoint :=
  if e.status = .ready then { e with pendingWrite := [], sent := e.sent ++ e.pendingWrite }
  else e

/-- The body of `read(up_to, exact)`, with `fuel` for the call it makes again when it was asked
for exactly `up_to` bytes and got some but fewer. -/
def readFuel : Nat → Nat → Bool → Endpoint → List UInt8 × Endpoint
  | 0, _, _, e => ([], e)
  | fuel + 1, upTo, exact, e =>
      if e.status ≠ .ready then ([], e)
      else
        -- what `read_buffer` holds comes first
        let hadBuffer := decide (e.readBuffer ≠ [])
        let offset := if hadBuffer then min upTo e.readBuffer.length else 0
        let data := e.readBuffer.take offset
        let e := { e with readBuffer := e.readBuffer.drop offset }
        if hadBuffer ∧ offset = upTo then (data, e)
        else
          match ctxRead e.records (upTo - offset) with
          | (none, records) =>
              -- `MBEDTLS_ERR_SSL_WANT_READ`: an exact read keeps what it has for the next one
              if exact then ([], { e with readBuffer := data, records := records })
              else (data, { e with records := records })
          | (some got, records) =>
              let e := { e with records := records }
              if got = [] then
                -- 0: the connection is closed
                if exact then ([], e.stop .closed) else (data, e.stop .closed)
              else if exact ∧ (data ++ got).length < upTo then
                readFuel fuel upTo exact { e with readBuffer := data ++ got }
              else (data ++ got, e)

/-- `read(up_to, exact)`. Each call it makes again holds more bytes in `read_buffer`, and fewer
than `up_to`, so `up_to + 1` rounds are enough. -/
def read (upTo : Nat) (exact : Bool) (e : Endpoint) : List UInt8 × Endpoint :=
  readFuel (upTo + 1) upTo exact e

-- Made here once: the equation lemmas that the proofs below unfold.
section
attribute [local simp] stop close recvBuffered sendBuffered flush readFuel read
end

end Endpoint

/-- `(uint32_t)-1`: `msg_size` while no length has been read. -/
def noMsgSize : UInt32 := 0xFFFFFFFF

/-- The `4` bytes of the length of a frame. -/
def sizeOfLength : Nat := 4

/-- `1 << 21`: the arbitrary limit on the size of an RPC. -/
def maxMsgSize : Nat := 1 <<< 21

-- Made here once: the equation lemmas that the proofs below unfold.
section
attribute [local simp] sizeOfLength
end

/-- A `FramedTLSEndpoint`: the endpoint, `msg_size`, the state of what handles the requests, and
the requests passed to `handle_data`, in order. -/
structure Framed (H : Type) where
  ep : Endpoint
  msgSize : UInt32
  handler : H
  handled : List (List UInt8)

namespace Framed

variable {H : Type} (handleData : H → List UInt8 → H × Bool)

/-- `FramedTLSEndpoint(...)` once its handshake is done. -/
def established (h : H) : Framed H := ⟨Endpoint.established, noMsgSize, h, []⟩

/-- The start of the loop of `recv`: read a length when there is none, and say whether to go on,
which it does not when `read` gave nothing. -/
def readLength (f : Framed H) : Framed H × Bool :=
  if f.msgSize = noMsgSize then
    let (len, ep) := f.ep.read sizeOfLength true
    if len = [] then ({ f with ep := ep }, false)
    else ({ f with ep := ep, msgSize := UInt32.ofNat (Codec.ofLe (len.take sizeOfLength)) }, true)
  else (f, true)

/-- The `while (true)` loop of `recv`. -/
def recvLoop : Nat → Framed H → Framed H
  | 0, f => f
  | fuel + 1, f =>
      let (f, go) := readLength f
      if !go then f
      else if maxMsgSize < f.msgSize.toNat then { f with ep := f.ep.close }
      else
        let (req, ep) := f.ep.read f.msgSize.toNat true
        let f := { f with ep := ep }
        if req = [] then f
        else
          let (handler, ok) := handleData f.handler req
          -- a request `handle_data` refuses, or throws on, closes the session; the loop goes on
          recvLoop fuel
            { f with msgSize := noMsgSize, handler := handler, handled := f.handled ++ [req],
                     ep := if ok then f.ep else f.ep.close }

/-- `recv(data, size)`. Each round of the loop that goes round again reads at least a byte, so
the loop ends on its own within twice as many rounds as there are bytes to read, and two more. -/
def recv (records : List (List UInt8)) (f : Framed H) : Framed H :=
  let f := { f with ep := f.ep.recvBuffered records }
  recvLoop handleData (2 * (f.ep.readBuffer.length + f.ep.records.flatten.length) + 2) f

/-- `send(data)`: an empty message is not sent; any other goes as its length, cast to a
`uint32_t`, and its bytes. -/
def send (data : List UInt8) (f : Framed H) : Framed H :=
  if data = [] then f
  else { f with ep := ((f.ep.sendBuffered (Codec.le sizeOfLength data.length)).sendBuffered data).flush }

-- Made here once: the equation lemmas that the proofs below unfold.
section
attribute [local simp] readLength recvLoop send
end

end Framed

end Ccf.Enclave
