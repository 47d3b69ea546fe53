import BakaDns.Cache
import BakaDns.Client
import BakaDns.Database

/-!
# Resolving a query

`resolv_handle` of `resolv.c`. The answer buffer is an array of 100 records that lives through the
whole question loop; reading or writing past its end is a crash, like any access through NULL.
-/

namespace BakaDns
open CBytes

def ancountMax : ℕ := 100

/-- The cache's operations return nothing when they hit a missing node. -/
def orCrash {α : Type} : Option α → Except Fault α
  | none => .error .crash
  | some a => .ok a

/-- The variables of the question loop. -/
structure LookupState where
  cache : RrCache
  ansBuffer : List ResourceRecord
  ansCnt : ℕ

/-- How the question loop ends. -/
inductive LookupEnd
  | found
  | external
  | failure (rcode : UInt8)
deriving DecidableEq, Repr

/-- Records copied to `ans_buffer`, from its start on. -/
def storeRecords (ansBuffer rrs : List ResourceRecord) : Except Fault (List ResourceRecord) :=
  if rrs.length > ancountMax then .error .crash else .ok (rrs ++ ansBuffer.drop rrs.length)

/-- `cache_put_rr` of each record, in order. -/
def cachePutAll (now : ℕ) (cache : RrCache) : List ResourceRecord → Except Fault RrCache
  | [] => .ok cache
  | rr :: rrs => do
    let cache ← orCrash (cachePutRr now cache rr)
    cachePutAll now cache rrs

/-- The index of the first blocked record. -/
def findBlocked : List ResourceRecord → Except Fault (Option ℕ)
  | [] => .ok none
  | rr :: rrs =>
    if rr.rdata = [] then .error .crash
    else if checkBlocked rr then .ok (some 0)
    else do
      let i ← findBlocked rrs
      .ok (i.map (· + 1))

/-- The part of the question loop that asks the database; the flag is false when it has no
records. -/
def lookupDatabase (db : BucketTree) (question : MessageQuestion) (st : LookupState) :
    Except Fault (LookupState × Bool) := do
  let rrs := selectDatabase db question
  let ansBuffer ← storeRecords st.ansBuffer rrs
  if rrs ≠ [] then
    match ← findBlocked rrs with
    -- the inner loop frees the blocked record over and over
    | some i => .ok (⟨st.cache, ansBuffer.modify i freeHeapResourceRecord, 0⟩, true)
    -- the count is assigned here, while a cache hit adds to it
    | none => .ok (⟨st.cache, ansBuffer, rrs.length⟩, true)
  else .ok (⟨st.cache, ansBuffer, st.ansCnt⟩, false)

/-- The body of the question loop for a question with a good name. -/
def lookupQuestion (now : ℕ) (db : BucketTree) (question : MessageQuestion) (st : LookupState) :
    Except Fault (LookupState × Bool) := do
  let found ← orCrash (cacheFindRr st.cache question.qname question.qtype question.qclass)
  let ansBuffer ← storeRecords st.ansBuffer found
  if found ≠ [] then do
    let cache ← cachePutAll now st.cache found
    .ok (⟨cache, ansBuffer, st.ansCnt + found.length⟩, true)
  else lookupDatabase db question { st with ansBuffer := ansBuffer }

/-- The question loop. -/
def lookupLoop (now : ℕ) (db : BucketTree) :
    ℕ → List (Option MessageQuestion) → LookupState → Except Fault (LookupState × LookupEnd)
  | 0, _, st => .ok (st, .found)
  | _ + 1, [], _ => .error .crash
  | _ + 1, none :: _, st => .ok (st, .failure rcodeFormatError)
  | n + 1, some question :: questions, st =>
    if question.qname = [] then .error .crash
    else if domainLen question.qname = none then .ok (st, .failure rcodeFormatError)
    else do
      let (st, answered) ← lookupQuestion now db question st
      if answered then lookupLoop now db n questions st else .ok (st, .external)

/-- The answer before anything is looked up. -/
def initialAnswer (query : Message) : Message :=
  { Message.zero with
    header := { Message.zero.header with
      id := query.header.id
      misc1 := createMisc1 qrResp opcodeQuery aaTrue tcFalse rdFalse
      misc2 := createMisc2 raFalse zFlag rcodeNoError } }

/-- What `resolv_handle` has put together before it encodes the answer. -/
structure Built where
  cache : RrCache
  query : Message
  ans : Message
  ansBuffer : List ResourceRecord
  ansCnt : ℕ
  fin : LookupEnd

/-- The exchange with the external server and its fallback. -/
def askExternal (fuel now : ℕ) (x : Exchange) (query : Message) (st : LookupState) :
    Except Fault Built := do
  let r ← sendQuestion fuel x query (freeHeapMessage (initialAnswer query))
  if r.ret < 0 then
    .ok ⟨st.cache, r.req, { r.resp with
      header := { r.resp.header with ancount := 0, arcount := 0, nscount := 0 } },
      st.ansBuffer, st.ansCnt, .found⟩
  else do
    let answers ← orCrash ((r.resp.answer.take r.resp.header.ancount.toNat).mapM id)
    let cache ← cachePutAll now st.cache answers
    .ok ⟨cache, r.req, r.resp, st.ansBuffer, st.ansCnt, .external⟩

/-- `mq_copy` of each question of the query. -/
def pasteQuestions : ℕ → List (Option MessageQuestion) →
    Except Fault (List (Option MessageQuestion))
  | 0, _ => .ok []
  | n + 1, some question :: questions =>
    if question.qname = [] then .error .crash
    else do
      let rest ← pasteQuestions n questions
      .ok (some (mqCopy question) :: rest)
  | _ + 1, _ => .error .crash

/-- The answer section from `ans_buffer`, then the questions of the query. -/
def completeFound (b : Built) : Except Fault Message := do
  let ancount := UInt16.ofNat b.ansCnt
  if ancount.toNat > ancountMax then .error .crash
  else do
    let question ← pasteQuestions b.query.header.qdcount.toNat b.query.question
    .ok { b.ans with
      header := { b.ans.header with ancount := ancount, qdcount := b.query.header.qdcount }
      answer := (b.ansBuffer.take ancount.toNat).map some
      question := question }

/-- An answer that only reports a failure. -/
def completeFailure (b : Built) (rcode : UInt8) : Except Fault Message := do
  let question ← pasteQuestions b.query.header.qdcount.toNat b.query.question
  .ok { freeHeapMessage b.ans with
    header := { b.ans.header with
      misc2 := createMisc2 raFalse zFlag rcode
      ancount := 0
      arcount := 0
      nscount := 0
      qdcount := b.query.header.qdcount }
    question := question }

/-- The message that is encoded. -/
def completeAnswer (b : Built) : Except Fault Message :=
  match b.fin with
  | .found => completeFound b
  | .external => .ok b.ans
  | .failure rcode => completeFailure b rcode

/-- The question loop, which is left out for an opcode other than QUERY. -/
def lookupQuery (now : ℕ) (db : BucketTree) (cache : RrCache) (query : Message) :
    Except Fault (LookupState × LookupEnd) :=
  let st : LookupState := ⟨cache, List.replicate ancountMax ResourceRecord.zero, 0⟩
  if opcodeOf query.header.misc1 ≠ opcodeQuery then .ok (st, .external)
  else lookupLoop now db query.header.qdcount.toNat query.question st

/-- Everything up to the encoding, for a query that is a request. -/
def buildAnswer (fuel now : ℕ) (db : BucketTree) (x : Exchange) (cache : RrCache)
    (query : Message) : Except Fault Built := do
  let (st, fin) ← lookupQuery now db cache query
  match fin with
  | .external => askExternal fuel now x query st
  | fin => .ok ⟨st.cache, query, initialAnswer query, st.ansBuffer, st.ansCnt, fin⟩

/-- The return value of `resolv_handle`, the cache and the query as it leaves them, the message it
encoded, if it got there, and whether that message came from the external server. -/
structure ResolvResult where
  ret : ℤ
  cache : RrCache
  query : Message
  answer : Option Message
  external : Bool
  sendbuf : Mem
  ansSize : ℤ

/-- `resolv_handle`. `now` is the time of the call and `sendbuf` the buffer it writes to. -/
def resolvHandle (fuel now : ℕ) (db : BucketTree) (x : Exchange) (sendbuf : Mem)
    (cache : RrCache) (query : Message) : Except Fault ResolvResult :=
  if qrOf query.header.misc1 ≠ qrReq then .ok ⟨-1, cache, query, none, false, sendbuf, 0⟩
  else do
    let b ← buildAnswer fuel now db x cache query
    let ans ← completeAnswer b
    let (msgsize, sendbuf) ← messageToU8 ans sendbuf 0
    .ok ⟨if msgsize < 0 then -1 else 1, b.cache, b.query, some ans, b.fin = .external, sendbuf,
      msgsize⟩

end BakaDns
