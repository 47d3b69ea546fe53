import BakaDns.Decode
import BakaDns.Encode

/-!
# The upstream exchange

`send_question` of `client.c`. What the operating system and the upstream server do is an input:
the id that `rand` gives and the outcome of the exchange.
-/

namespace BakaDns
open CBytes ReadTrace

def clientBufferSize : ℕ := 4096

/-- What happens to the socket and on the wire. -/
inductive Upstream
  | socketFail
  | optionFail
  | recvFail
  | datagram (b : List UInt8)
deriving DecidableEq, Repr

structure Exchange where
  newId : UInt16
  outcome : Upstream
deriving DecidableEq, Repr

/-- The search for an OPT record; `none` is the NULL that `rr_opt` starts with. -/
def findOpt : ℕ → List (Option ResourceRecord) → Except Fault (Option ℕ)
  | 0, _ => .ok none
  | n + 1, some rr :: rrs =>
    if rr.type = rrtypeOpt then .ok (some 0)
    else do
      let i ← findOpt n rrs
      .ok (i.map (· + 1))
  | _ + 1, _ => .error .crash

/-- The EDNS part of `send_question`. With 65535 additional records the counter wraps to zero and
the copying loop runs out of the array. -/
def addOpt (req : Message) : Except Fault Message := do
  match ← findOpt req.header.arcount.toNat req.addition with
  | some i =>
    .ok { req with
      addition := req.addition.modify i fun rr =>
        rr.map fun rr => { rr with ttl := UInt32.ofNat clientBufferSize } }
  | none =>
    if req.header.arcount.toNat = 65535 then .error .crash
    else
      .ok { req with
        header := { req.header with arcount := req.header.arcount + 1 }
        addition := req.addition.take req.header.arcount.toNat ++
          [createResourceRecord [0] rrtypeOpt (UInt16.ofNat clientBufferSize) 0 0 [0]] }

/-- The request as it is sent, with its new id and its OPT record, and what `message_to_u8` makes
of it. The buffer has `CLIENT_BUFFER_SIZE` bytes on the stack; the memory here has no end. -/
def encodeRequest (newId : UInt16) (req : Message) : Except Fault (Message × ℤ × Mem) := do
  let req ← addOpt { req with header := { req.header with id := newId } }
  let (n, buffer) ← messageToU8 req (fun _ => 0) 0
  .ok (req, n, buffer)

/-- `send_question`: its return value, the two messages as it leaves them and the bytes sent. -/
structure SendResult where
  ret : ℤ
  req : Message
  resp : Message
  sent : Option (List UInt8)

def Message.setId (msg : Message) (id : UInt16) : Message :=
  { msg with header := { msg.header with id := id } }

/-- What `send_question` does with the outcome of `recvfrom`. The buffer was zeroed before. -/
def receiveReply (fuel : ℕ) (x : Exchange) (oldId : UInt16) (resp : Message) :
    Except Fault (ℤ × Message) :=
  match x.outcome with
  | .datagram b =>
    match (messageFromBuf fuel (b.take clientBufferSize) (b.take clientBufferSize).length
        resp).result with
    | none => .error .hang
    | some (ret, resp) =>
      if ret < 0 then .ok (-1, resp)
      else if resp.header.id ≠ x.newId then .ok (-1, freeHeapMessage resp)
      else .ok (1, resp.setId oldId)
  | _ => .ok (-1, resp)

def sendQuestion (fuel : ℕ) (x : Exchange) (req resp : Message) : Except Fault SendResult :=
  if x.outcome = .socketFail then .error .exit
  else if x.outcome = .optionFail then .ok ⟨-1, req, resp, none⟩
  else do
    let (sentReq, n, buffer) ← encodeRequest x.newId req
    if n < 0 then .ok ⟨-1, sentReq, resp, none⟩
    else do
      let (ret, resp) ← receiveReply fuel x req.header.id resp
      .ok ⟨ret, sentReq.setId req.header.id, resp, some (buffer.slice 0 n.toNat)⟩

end BakaDns
