import BakaDns.MessageBlocks
import BakaDns.ResolvRuns

/-!
# The blocks of the resolver

`resolv_handle` and what it calls, with the pointers of everything that it copies. The values come
from the model without pointers; what is added here is which block each of them is in.
-/

namespace BakaDns
open Blocks ReadTrace

/-- A node that `create_cache_node` has made. When `rr_copy` stops early its element shares the
blocks of the record it was made from. -/
structure NodePtrs where
  node : Addr
  element : Addr
  record : RecordPtrs
  shared : Bool

/-- `rr_copy` of a record with the pointers `src`. -/
def copyRecord (src : RecordPtrs) (rr : ResourceRecord) : Mem Fault RecordPtrs :=
  if domainLen rr.name = none then pure src
  else do
    let name ← malloc
    if rr.rdlength = 0 then pure ⟨some name, none⟩
    else
      let rdata ← malloc
      pure ⟨some name, some rdata⟩

/-- `mq_copy`, on the question and its pointers. -/
def copyQuestion (src : MessageQuestion × QuestionPtrs) : Mem Fault QuestionPtrs :=
  if domainLen src.1.qname = none then pure src.2
  else do
    let qname ← malloc
    pure ⟨qname⟩

/-- The copies that `cache_find_rr` or `tree_search` writes to `ans_buffer`, from its start on.
`stored` tells the pointers of a stored record. -/
def copyRecords (stored : ResourceRecord → RecordPtrs) :
    List ResourceRecord → List RecordPtrs → Mem Fault (List RecordPtrs)
  | [], buffer => pure buffer
  | rr :: rrs, buffer => do
    let copy ← copyRecord (stored rr) rr
    let rest ← copyRecords stored rrs (buffer.drop 1)
    pure (copy :: rest)

/-- `create_cache_node`. -/
def createNode (src : RecordPtrs) (rr : ResourceRecord) : Mem Fault NodePtrs := do
  let node ← malloc
  let element ← malloc
  let record ← copyRecord src rr
  pure ⟨node, element, record, domainLen rr.name = none⟩

/-- `cache_put_rr` of each record, in order: the nodes that are new. -/
def cachePutBlocks (now : ℕ) :
    RrCache → List (ResourceRecord × RecordPtrs) → Mem Fault (List NodePtrs)
  | _, [] => pure []
  | cache, (rr, src) :: rest => do
    let old ← lift (orCrash (cacheMatchLn cache rr))
    let cache ← lift (orCrash (cachePutRr now cache rr))
    match old with
    | some _ => cachePutBlocks now cache rest
    | none => do
      let node ← createNode src rr
      let nodes ← cachePutBlocks now cache rest
      pure (node :: nodes)

/-- `free_heap_resource_record` of one record, `n` times. -/
def freeRepeatedly : ℕ → RecordPtrs → Mem Fault RecordPtrs
  | 0, r => pure r
  | n + 1, r => do
    let r ← r.free
    freeRepeatedly n r

/-- The variables of the question loop, the pointers in `ans_buffer` and the nodes that have come
into the cache. -/
structure LookupBlocks where
  st : LookupState
  buffer : List RecordPtrs
  nodes : List NodePtrs

/-- The body of the question loop. -/
def lookupQuestionBlocks (now : ℕ) (db : BucketTree) (stored : ResourceRecord → RecordPtrs)
    (question : MessageQuestion) (l : LookupBlocks) : Mem Fault (LookupBlocks × Bool) := do
  let (st, answered) ← lift (lookupQuestion now db question l.st)
  let found ← lift (orCrash (cacheFindRr l.st.cache question.qname question.qtype question.qclass))
  let buffer ← copyRecords stored found l.buffer
  if found ≠ [] then
    let nodes ← cachePutBlocks now l.st.cache (found.zip buffer)
    pure (⟨st, buffer, l.nodes ++ nodes⟩, answered)
  else
    let rrs := selectDatabase db question
    let buffer ← copyRecords stored rrs buffer
    match ← lift (findBlocked rrs) with
    | none => pure (⟨st, buffer, l.nodes⟩, answered)
    | some i =>
      let r ← freeRepeatedly rrs.length (buffer.getD i RecordPtrs.null)
      pure (⟨st, buffer.set i r, l.nodes⟩, answered)

/-- The question loop. -/
def lookupLoopBlocks (now : ℕ) (db : BucketTree) (stored : ResourceRecord → RecordPtrs) :
    ℕ → List (Option MessageQuestion) → LookupBlocks → Mem Fault (LookupBlocks × LookupEnd)
  | 0, _, l => pure (l, .found)
  | _ + 1, [], _ => lift (.error .crash)
  | _ + 1, none :: _, l => pure (l, .failure rcodeFormatError)
  | n + 1, some question :: questions, l =>
    if domainLen question.qname = none then pure (l, .failure rcodeFormatError)
    else do
      let (l, answered) ← lookupQuestionBlocks now db stored question l
      if answered then lookupLoopBlocks now db stored n questions l else pure (l, .external)

def lookupQueryBlocks (now : ℕ) (db : BucketTree) (stored : ResourceRecord → RecordPtrs)
    (cache : RrCache) (query : Message) : Mem Fault (LookupBlocks × LookupEnd) :=
  let l : LookupBlocks :=
    ⟨⟨cache, List.replicate ancountMax ResourceRecord.zero, 0⟩,
      List.replicate ancountMax RecordPtrs.null, []⟩
  if opcodeOf query.header.misc1 ≠ opcodeQuery then pure (l, .external)
  else lookupLoopBlocks now db stored query.header.qdcount.toNat query.question l

/-- What `send_question` does with a reply. -/
def receiveReplyBlocks (fuel : ℕ) (x : Exchange) (resp : Message) (m : MessagePtrs) :
    Mem Fault MessagePtrs :=
  match x.outcome with
  | .datagram b =>
    match (messageFromBuf fuel (b.take clientBufferSize) (b.take clientBufferSize).length
        resp).result with
    | none => lift (.error .hang)
    | some (ret, resp) => do
      let m ← mallocMessage ret resp m
      if ret < 0 then pure m
      else if resp.header.id ≠ x.newId then m.free resp.header
      else pure m
  | _ => pure m

/-- `send_question`: the pointers of the request and of the reply. -/
def sendQuestionBlocks (fuel : ℕ) (x : Exchange) (req resp : Message)
    (reqPtrs respPtrs : MessagePtrs) : Mem Fault (SendResult × MessagePtrs × MessagePtrs) := do
  let r ← lift (sendQuestion fuel x req resp)
  if x.outcome = .optionFail then pure (r, reqPtrs, respPtrs)
  else do
    let reqPtrs ← addOptBlocks req reqPtrs
    if r.sent = none then pure (r, reqPtrs, respPtrs)
    else do
      let respPtrs ← receiveReplyBlocks fuel x resp respPtrs
      pure (r, reqPtrs, respPtrs)

/-- What `resolv_handle` has put together, with the pointers of the two messages and of
`ans_buffer`. -/
structure BuiltBlocks where
  built : Built
  query : MessagePtrs
  ans : MessagePtrs
  buffer : List RecordPtrs
  nodes : List NodePtrs

/-- The pointers of the records of a section. -/
def sectionRecords (s : SectionPtrs RecordPtrs) : List RecordPtrs :=
  ((s.map Prod.snd).getD []).reduceOption.map Prod.snd

/-- The exchange with the external server. -/
def askExternalBlocks (fuel now : ℕ) (x : Exchange) (query : Message) (queryPtrs : MessagePtrs)
    (l : LookupBlocks) : Mem Fault BuiltBlocks := do
  let ans := initialAnswer query
  let ansPtrs ← MessagePtrs.null.free ans.header
  let b ← lift (askExternal fuel now x query l.st)
  let (r, queryPtrs, ansPtrs) ←
    sendQuestionBlocks fuel x query (freeHeapMessage ans) queryPtrs ansPtrs
  if r.ret < 0 then pure ⟨b, queryPtrs, ansPtrs, l.buffer, l.nodes⟩
  else do
    let answers := (r.resp.answer.take r.resp.header.ancount.toNat).reduceOption
    let nodes ← cachePutBlocks now l.st.cache (answers.zip (sectionRecords ansPtrs.answer))
    pure ⟨b, queryPtrs, ansPtrs, l.buffer, l.nodes ++ nodes⟩

/-- Everything up to the encoding. -/
def buildAnswerBlocks (fuel now : ℕ) (db : BucketTree) (x : Exchange)
    (stored : ResourceRecord → RecordPtrs) (cache : RrCache) (query : Message)
    (queryPtrs : MessagePtrs) : Mem Fault BuiltBlocks := do
  let (l, fin) ← lookupQueryBlocks now db stored cache query
  match fin with
  | .external => askExternalBlocks fuel now x query queryPtrs l
  | fin =>
    pure ⟨⟨l.st.cache, query, initialAnswer query, l.st.ansBuffer, l.st.ansCnt, fin⟩, queryPtrs,
      MessagePtrs.null, l.buffer, l.nodes⟩

/-- The answer section: its records take over the pointers in `ans_buffer`. -/
def answerBlocks (count : UInt16) (buffer : List RecordPtrs) (old : SectionPtrs RecordPtrs) :
    Mem Fault (SectionPtrs RecordPtrs) :=
  if count = 0 then pure old
  else do
    let array ← malloc
    let cells ← mallocEntries pure (buffer.take count.toNat)
    pure (some (array, cells))

def questionPtrs (m : MessagePtrs) : List QuestionPtrs :=
  ((m.question.map Prod.snd).getD []).reduceOption.map Prod.snd

/-- The copied question section. Without questions `malloc` is asked for no bytes, and still
returns a block. -/
def pasteBlocks (query : Message) (queryPtrs : MessagePtrs) :
    Mem Fault (SectionPtrs QuestionPtrs) := do
  let array ← malloc
  let cells ← mallocEntries copyQuestion
    ((query.question.take query.header.qdcount.toNat).reduceOption.zip (questionPtrs queryPtrs))
  pure (some (array, cells))

/-- The pointers of the message that is encoded. -/
def completeBlocks (b : BuiltBlocks) : Mem Fault MessagePtrs := do
  match b.built.fin with
  | .external => pure b.ans
  | .found =>
    let answer ← answerBlocks (UInt16.ofNat b.built.ansCnt) b.buffer b.ans.answer
    let question ← pasteBlocks b.built.query b.query
    pure { b.ans with question := question, answer := answer }
  | .failure _ =>
    let ans ← b.ans.free b.built.ans.header
    let question ← pasteBlocks b.built.query b.query
    pure { ans with question := question }

/-- What `resolv_handle` leaves: its result, the pointers of the request and the new nodes of the
cache. -/
structure ResolvBlocks where
  result : ResolvResult
  query : MessagePtrs
  nodes : List NodePtrs

/-- `resolv_handle`. The answer that it cannot encode stays allocated. -/
def resolvHandleBlocks (fuel now : ℕ) (db : BucketTree) (x : Exchange) (sendbuf : CBytes.Mem)
    (stored : ResourceRecord → RecordPtrs) (cache : RrCache) (query : Message)
    (queryPtrs : MessagePtrs) : Mem Fault ResolvBlocks := do
  let r ← lift (resolvHandle fuel now db x sendbuf cache query)
  if qrOf query.header.misc1 ≠ qrReq then pure ⟨r, queryPtrs, []⟩
  else do
    let b ← buildAnswerBlocks fuel now db x stored cache query queryPtrs
    let ans ← lift (completeAnswer b.built)
    let ansPtrs ← completeBlocks b
    if r.ret < 0 then pure ⟨r, b.query, b.nodes⟩
    else do
      let _ ← ansPtrs.free ans.header
      pure ⟨r, b.query, b.nodes⟩

/-! The blocks that are held on the way. -/

def bufferBlocks (buffer : List RecordPtrs) : Multiset Addr := (buffer.map RecordPtrs.blocks).sum

/-- The blocks of a node that are its own. -/
def NodePtrs.blocks (n : NodePtrs) : Multiset Addr :=
  {n.node} + ({n.element} + if n.shared then 0 else n.record.blocks)

def nodeBlocks (nodes : List NodePtrs) : Multiset Addr := (nodes.map NodePtrs.blocks).sum

def LookupBlocks.blocks (l : LookupBlocks) : Multiset Addr :=
  bufferBlocks l.buffer + nodeBlocks l.nodes

section Copies

variable {now : ℕ} {stored : ResourceRecord → RecordPtrs} {rrs : List ResourceRecord}
  {buffer : List RecordPtrs} {cache cache' : RrCache} {s t : Multiset Addr}

theorem bufferBlocks_append (as bs : List RecordPtrs) :
    bufferBlocks (as ++ bs) = bufferBlocks as + bufferBlocks bs := by
  rw [bufferBlocks, List.map_append, List.sum_append]
  rfl

theorem nodeBlocks_append (as bs : List NodePtrs) :
    nodeBlocks (as ++ bs) = nodeBlocks as + nodeBlocks bs := by
  rw [nodeBlocks, List.map_append, List.sum_append]
  rfl

theorem bufferBlocks_split (buffer : List RecordPtrs) (n : ℕ) :
    bufferBlocks buffer = bufferBlocks (buffer.take n) + bufferBlocks (buffer.drop n) := by
  rw [← bufferBlocks_append, List.take_append_drop]

theorem turns_copyRecord (src : RecordPtrs) {rr : ResourceRecord} (hname : domainLen rr.name ≠ none)
    (s : Multiset Addr) :
    Turns (copyRecord src rr) s fun c s' => HandsOut c.blocks 0 s s' := by
  rw [copyRecord, if_neg hname]
  refine (turns_malloc fun name _ => handsOut_one name s).bind fun name s₁ h₁ => ?_
  split
  · exact turns_pure (h₁.of_eq (add_zero _).symm rfl)
  · refine (turns_malloc fun rdata _ => handsOut_one rdata s₁).bind fun rdata s₂ h₂ => ?_
    exact turns_pure (h₁.trans h₂)

theorem turns_copyRecords (hnames : ∀ rr ∈ rrs, domainLen rr.name ≠ none)
    (buffer : List RecordPtrs) (s : Multiset Addr) :
    Turns (copyRecords stored rrs buffer) s fun buffer' s' => ∃ copies : List RecordPtrs,
      buffer' = copies ++ buffer.drop rrs.length ∧ copies.length = rrs.length ∧
        HandsOut (bufferBlocks copies) 0 s s' := by
  induction rrs generalizing buffer s with
  | nil => exact turns_pure ⟨[], rfl, rfl, HandsOut.refl s⟩
  | cons rr rrs ih =>
    refine (turns_copyRecord _ (hnames rr List.mem_cons_self) s).bind fun c s₁ h₁ => ?_
    have hrest := ih (fun r hr => hnames r (List.mem_cons_of_mem rr hr)) (buffer.drop 1) s₁
    refine hrest.bind ?_
    rintro rest s₂ ⟨copies, rfl, hlen, h₂⟩
    refine turns_pure ⟨c :: copies, ?_, congrArg (· + 1) hlen, h₁.trans h₂⟩
    rw [List.drop_drop, List.length_cons, Nat.add_comm 1, List.cons_append]

/-- The copies take the place of what was in the buffer, which is lost. -/
theorem turns_overwrite (hnames : ∀ rr ∈ rrs, domainLen rr.name ≠ none)
    (hs : s = bufferBlocks buffer + t) :
    Turns (copyRecords stored rrs buffer) s fun buffer' s' =>
      rrs.length ≤ buffer'.length ∧ buffer.length ≤ buffer'.length ∧
        ∃ lost, s' = bufferBlocks buffer' + (lost + t) := by
  refine (turns_copyRecords hnames buffer s).mono ?_
  rintro _ s' ⟨copies, rfl, hlen, h⟩
  refine ⟨?_, ?_, bufferBlocks (buffer.take rrs.length), ?_⟩
  · rw [List.length_append, hlen]
    exact Nat.le_add_right _ _
  · rw [List.length_append, List.length_drop, hlen]
    omega
  · rw [h.eq, hs, bufferBlocks_append, bufferBlocks_split buffer rrs.length]
    abel

theorem turns_createNode (src : RecordPtrs) (rr : ResourceRecord) (s : Multiset Addr) :
    Turns (createNode src rr) s fun n s' => HandsOut n.blocks 0 s s' := by
  refine (turns_malloc fun node _ => handsOut_one node s).bind fun node s₁ h₁ => ?_
  refine (turns_malloc fun element _ => handsOut_one element s₁).bind fun element s₂ h₂ => ?_
  by_cases hname : domainLen rr.name = none
  · rw [copyRecord, if_pos hname, pure_bind]
    refine turns_pure ((h₁.trans h₂).of_eq ?_ rfl)
    simp [NodePtrs.blocks, hname]
  · refine (turns_copyRecord src hname s₂).bind fun record s₃ h₃ => turns_pure ?_
    refine ((h₁.trans h₂).trans h₃).of_eq ?_ rfl
    rw [NodePtrs.blocks, if_neg (by simp [hname]), add_assoc]

theorem turns_cachePut {ps : List (ResourceRecord × RecordPtrs)}
    (h : cachePutAll now cache (ps.map Prod.fst) = .ok cache') (s : Multiset Addr) :
    Turns (cachePutBlocks now cache ps) s fun nodes s' => HandsOut (nodeBlocks nodes) 0 s s' := by
  induction ps generalizing cache s with
  | nil => exact turns_pure (HandsOut.refl s)
  | cons p ps ih =>
    obtain ⟨rr, src⟩ := p
    obtain ⟨cache₁, hput, h⟩ := bind_eq_ok.1 h
    obtain ⟨old, hmatch⟩ : ∃ old, orCrash (cacheMatchLn cache rr) = .ok old := by
      cases hm : cacheMatchLn cache rr with
      | none =>
        rw [cachePutRr, hm] at hput
        cases hput
      | some old => exact ⟨old, rfl⟩
    refine turns_lift hmatch (turns_lift hput ?_)
    cases old with
    | some a => exact ih h s
    | none =>
      refine (turns_createNode src rr s).bind fun n s₁ h₁ => (ih h s₁).bind fun nodes s₂ h₂ => ?_
      exact turns_pure (h₁.trans h₂)

theorem turns_freeRepeatedly {n : ℕ} (hn : n ≠ 0) (r : RecordPtrs) (hs : s = r.blocks + t) :
    Turns (freeRepeatedly n r) s fun r' s' => r' = RecordPtrs.null ∧ s' = t := by
  have hnull : ∀ n, Turns (freeRepeatedly n RecordPtrs.null) t fun r' s' =>
      r' = RecordPtrs.null ∧ s' = t := by
    intro n
    induction n with
    | zero => exact turns_pure ⟨rfl, rfl⟩
    | succ n ih =>
      refine (RecordPtrs.null.frees.turns (zero_add t).symm).bind ?_
      rintro _ _ ⟨rfl, rfl⟩
      exact ih
  obtain ⟨n, rfl⟩ := Nat.exists_eq_succ_of_ne_zero hn
  refine (r.frees.turns hs).bind ?_
  rintro _ _ ⟨rfl, rfl⟩
  exact hnull n

end Copies

/-- One record of the buffer apart from the others. -/
theorem bufferBlocks_set (buffer : List RecordPtrs) (i : ℕ) :
    bufferBlocks buffer = (buffer.getD i RecordPtrs.null).blocks +
      bufferBlocks (buffer.set i RecordPtrs.null) := by
  induction buffer generalizing i with
  | nil => rfl
  | cons r buffer ih =>
    cases i with
    | zero =>
      change r.blocks + bufferBlocks buffer = r.blocks + (0 + bufferBlocks buffer)
      rw [zero_add]
    | succ i =>
      change r.blocks + bufferBlocks buffer = (buffer.getD i RecordPtrs.null).blocks +
        (r.blocks + bufferBlocks (buffer.set i RecordPtrs.null))
      rw [ih i]
      abel

section Lookup

variable {now insertFuel : ℕ} {db : BucketTree} {hashFun : List UInt8 → UInt32}
  {relay : List ResourceRecord} {stored : ResourceRecord → RecordPtrs} {q : MessageQuestion}
  {l : LookupBlocks} {xs : List (LinkedHeap.Addr × CacheEntry)} {st' : LookupState}
  {s t : Multiset Addr}

/-- A question that gets to the cache can be written: the loop has looked at its name. -/
theorem turns_lookupQuestion (hdb : insertAll insertFuel (treeInit hashFun) relay = some db)
    (hrep : CacheRep l.st.cache xs) (hq : q.Encodes) {answered : Bool}
    (h : lookupQuestion now db q l.st = .ok (st', answered)) (hs : s = l.blocks + t) :
    Turns (lookupQuestionBlocks now db stored q l) s fun r s' => r.1.st = st' ∧ r.2 = answered ∧
      l.buffer.length ≤ r.1.buffer.length ∧ ∃ lost, s' = r.1.blocks + (lost + t) := by
  have hnames := fun rr hrr => (localRecords_encodes hdb hq (recordsOf xs) rr hrr).2.1
  have hfind : orCrash (cacheFindRr l.st.cache q.qname q.qtype q.qclass) =
      .ok (cachedFor (recordsOf xs) q) := congrArg orCrash (hrep.find _ _ _)
  have hheld : s = bufferBlocks l.buffer + (nodeBlocks l.nodes + t) := by
    rw [hs, LookupBlocks.blocks, add_assoc]
  refine turns_lift h (turns_lift hfind ?_)
  by_cases hnil : cachedFor (recordsOf xs) q = []
  · -- the copying from the cache did nothing
    rw [localRecords, if_pos hnil] at hnames
    rw [hnil, copyRecords, pure_bind, if_neg (not_not.2 rfl)]
    refine (turns_overwrite hnames hheld).bind ?_
    rintro buffer s₁ ⟨-, hlonger, lost, hs₁⟩
    have hblocks : s₁ = (⟨st', buffer, l.nodes⟩ : LookupBlocks).blocks + (lost + t) := by
      rw [hs₁, LookupBlocks.blocks]
      abel
    rw [lookupQuestion_miss hrep hnil] at h
    obtain ⟨ansBuffer, -, h⟩ := bind_eq_ok.1 h
    by_cases hrrs : selectDatabase db q = []
    · rw [hrrs]
      exact turns_lift rfl (turns_pure ⟨rfl, rfl, hlonger, lost, hblocks⟩)
    · rw [if_pos hrrs] at h
      obtain ⟨blocked, hblocked, -⟩ := bind_eq_ok.1 h
      refine turns_lift hblocked ?_
      cases blocked with
      | none => exact turns_pure ⟨rfl, rfl, hlonger, lost, hblocks⟩
      | some i =>
        have hone : s₁ = (buffer.getD i RecordPtrs.null).blocks +
            (bufferBlocks (buffer.set i RecordPtrs.null) + (lost + (nodeBlocks l.nodes + t))) := by
          rw [hs₁, bufferBlocks_set buffer i, add_assoc]
        have htimes : (selectDatabase db q).length ≠ 0 := mt List.length_eq_zero_iff.1 hrrs
        refine (turns_freeRepeatedly htimes _ hone).bind ?_
        rintro _ s₂ ⟨rfl, rfl⟩
        refine turns_pure ⟨rfl, rfl, hlonger.trans_eq List.length_set.symm, lost, ?_⟩
        rw [LookupBlocks.blocks]
        abel
  · rw [localRecords, if_neg hnil] at hnames
    refine (turns_overwrite hnames hheld).bind ?_
    rintro buffer s₁ ⟨hlen, hlonger, lost, hs₁⟩
    obtain ⟨found, hfound, h⟩ := bind_eq_ok.1 h
    cases hfind.symm.trans hfound
    obtain ⟨ansBuffer, -, h⟩ := bind_eq_ok.1 h
    rw [if_pos hnil] at h
    obtain ⟨cache', hput, h⟩ := bind_eq_ok.1 h
    cases h
    rw [if_pos hnil]
    rw [← List.map_fst_zip hlen] at hput
    refine (turns_cachePut hput s₁).bind fun nodes s₂ h₂ => turns_pure ⟨rfl, rfl, hlonger, lost, ?_⟩
    rw [h₂.eq, hs₁, LookupBlocks.blocks, nodeBlocks_append]
    abel

/-- The question loop as a whole. -/
theorem turns_lookupLoop (hdb : insertAll insertFuel (treeInit hashFun) relay = some db)
    (hrep : CacheRep l.st.cache xs) {n : ℕ} {qs : List (Option MessageQuestion)} {fin : LookupEnd}
    (h : lookupLoop now db n qs l.st = .ok (st', fin)) (hs : s = l.blocks + t) :
    Turns (lookupLoopBlocks now db stored n qs l) s fun r s' => r.1.st = st' ∧ r.2 = fin ∧
      l.buffer.length ≤ r.1.buffer.length ∧ ∃ lost, s' = r.1.blocks + (lost + t) := by
  induction n generalizing qs l xs s t with
  | zero =>
    cases h
    exact turns_pure ⟨rfl, rfl, le_rfl, 0, by rw [hs, zero_add]⟩
  | succ n ih =>
    match qs with
    | [] => cases h
    | none :: qs =>
      cases h
      exact turns_pure ⟨rfl, rfl, le_rfl, 0, by rw [hs, zero_add]⟩
    | some q :: qs =>
      rw [lookupLoop] at h
      split at h
      · cases h
      · next hname =>
        rw [lookupLoopBlocks]
        split at h
        · next hlen =>
          cases h
          rw [if_pos hlen]
          exact turns_pure ⟨rfl, rfl, le_rfl, 0, by rw [hs, zero_add]⟩
        · next hlen =>
          rw [if_neg hlen]
          obtain ⟨⟨st₁, answered⟩, hquestion, h⟩ := bind_eq_ok.1 h
          obtain ⟨⟨ys, hrep₁, -⟩, -⟩ := lookupQuestion_ok hrep hquestion
          refine (turns_lookupQuestion hdb hrep ⟨hname, hlen⟩ hquestion hs).bind ?_
          rintro ⟨l₁, a⟩ s₁ ⟨rfl, rfl, hlonger, lost, hs₁⟩
          cases a with
          | false =>
            cases h
            exact turns_pure ⟨rfl, rfl, hlonger, lost, hs₁⟩
          | true =>
            refine (ih hrep₁ h hs₁).mono ?_
            rintro r s' ⟨hst, hfin, hlonger', lost', hs'⟩
            exact ⟨hst, hfin, hlonger.trans hlonger', lost' + lost, by rw [hs', add_assoc]⟩

theorem turns_lookupQuery (hdb : insertAll insertFuel (treeInit hashFun) relay = some db)
    {cache : RrCache} (hrep : CacheRep cache xs) {query : Message} {fin : LookupEnd}
    (h : lookupQuery now db cache query = .ok (st', fin)) :
    Turns (lookupQueryBlocks now db stored cache query) s fun r s' => r.1.st = st' ∧ r.2 = fin ∧
      ancountMax ≤ r.1.buffer.length ∧ ∃ lost, s' = r.1.blocks + (lost + s) := by
  have hempty : s = (⟨⟨cache, List.replicate ancountMax ResourceRecord.zero, 0⟩,
      List.replicate ancountMax RecordPtrs.null, []⟩ : LookupBlocks).blocks + s := by
    have hbuffer : bufferBlocks (List.replicate ancountMax RecordPtrs.null) = 0 := by
      rw [bufferBlocks, List.map_replicate, List.sum_replicate]
      exact smul_zero _
    rw [LookupBlocks.blocks, hbuffer]
    exact (zero_add s).symm
  rw [lookupQuery] at h
  unfold lookupQueryBlocks
  split at h
  · next hopcode =>
    cases h
    rw [if_pos hopcode]
    refine turns_pure ⟨rfl, rfl, List.length_replicate.ge, 0, ?_⟩
    rw [zero_add]
    exact hempty
  · next hopcode =>
    rw [if_neg hopcode]
    refine (turns_lookupLoop hdb hrep h hempty).mono ?_
    rintro r s' ⟨hst, hfin, hlonger, hlost⟩
    exact ⟨hst, hfin, List.length_replicate.ge.trans hlonger, hlost⟩

end Lookup

/-! The exchange with the external server. -/

section Exchange

variable {fuel now : ℕ} {x : Exchange} {req : Message} {m : MessagePtrs} {header : MessageHeader}
  {s t : Multiset Addr}

theorem turns_receiveReply {id : UInt16} {ret : ℤ} {resp : Message}
    (h : receiveReply fuel x id { Message.zero with header := header } = .ok (ret, resp))
    (s : Multiset Addr) :
    Turns (receiveReplyBlocks fuel x { Message.zero with header := header } MessagePtrs.null) s
      fun m s' => m.Of resp ∧ (ret < 0 → m = MessagePtrs.null) ∧
        ∃ lost, s' = m.blocks + (lost + s) := by
  unfold receiveReply at h
  unfold receiveReplyBlocks
  -- without a datagram nothing is received
  have hnone : Except.ok (-1, { Message.zero with header := header }) =
      (Except.ok (ret, resp) : Except Fault (ℤ × Message)) →
        Turns (pure MessagePtrs.null : Mem Fault MessagePtrs) s fun m s' => m.Of resp ∧
          (ret < 0 → m = MessagePtrs.null) ∧ ∃ lost, s' = m.blocks + (lost + s) := by
    intro h
    cases h
    exact turns_pure ⟨MessagePtrs.null_of header, fun _ => rfl, 0, by simp⟩
  cases hx : x.outcome with
  | socketFail =>
    rw [hx] at h
    exact hnone h
  | optionFail =>
    rw [hx] at h
    exact hnone h
  | recvFail =>
    rw [hx] at h
    exact hnone h
  | datagram b =>
    rw [hx] at h
    dsimp only at h ⊢
    cases hdecodes : (messageFromBuf fuel (b.take clientBufferSize)
        (b.take clientBufferSize).length { Message.zero with header := header }).result with
    | none =>
      rw [hdecodes] at h
      cases h
    | some p =>
      obtain ⟨ret', resp'⟩ := p
      rw [hdecodes] at h
      dsimp only at h ⊢
      refine (turns_mallocDecoded hdecodes s).bind ?_
      rintro m s₁ ⟨hm, hnull, lost, hs₁, -⟩
      by_cases hret : ret' < 0
      · rw [if_pos hret] at h ⊢
        cases h
        exact turns_pure ⟨hm, fun _ => hnull hret, lost, hs₁⟩
      · rw [if_neg hret] at h ⊢
        by_cases hid : resp'.header.id ≠ x.newId
        · rw [if_pos hid] at h ⊢
          cases h
          refine (hm.frees.turns hs₁).mono ?_
          rintro m' s' ⟨rfl, rfl⟩
          exact ⟨MessagePtrs.null_of resp'.header, fun _ => rfl, lost, (zero_add _).symm⟩
        · rw [if_neg hid] at h ⊢
          cases h
          exact turns_pure ⟨⟨hm.question, hm.answer, hm.authority, hm.addition⟩,
            fun hneg => absurd hneg (by decide), lost, hs₁⟩

theorem turns_sendQuestion (hm : m.Of req) {r : SendResult}
    (h : sendQuestion fuel x req { Message.zero with header := header } = .ok r)
    (hs : s = m.blocks + t) :
    Turns (sendQuestionBlocks fuel x req { Message.zero with header := header } m
        MessagePtrs.null) s fun o s' => o.1 = r ∧ o.2.1.Of r.req ∧ o.2.2.Of r.resp ∧
      (r.ret < 0 → o.2.2 = MessagePtrs.null) ∧
        ∃ lost, s' = o.2.1.blocks + (o.2.2.blocks + (lost + t)) := by
  refine turns_lift h ?_
  rw [sendQuestion] at h
  split at h
  · cases h
  · split at h
    · next hoption =>
      cases h
      rw [if_pos hoption]
      exact turns_pure ⟨rfl, hm, MessagePtrs.null_of header, fun _ => rfl, 0, by simpa using hs⟩
    · next hoption =>
      rw [if_neg hoption]
      obtain ⟨⟨sentReq, n, buffer⟩, hencode, h⟩ := bind_eq_ok.1 h
      obtain ⟨sentReq', hadd, hencode⟩ := bind_eq_ok.1 hencode
      obtain ⟨⟨n', buffer'⟩, -, hencode⟩ := bind_eq_ok.1 hencode
      cases hencode
      have hid : m.Of { req with header := { req.header with id := x.newId } } :=
        ⟨hm.question, hm.answer, hm.authority, hm.addition⟩
      refine (turns_addOptBlocks hid hadd hs).bind ?_
      rintro m' s₁ ⟨hm', hs₁⟩
      dsimp only at h
      split at h
      · cases h
        exact turns_pure ⟨rfl, hm', MessagePtrs.null_of header, fun _ => rfl, 0, by simpa using hs₁⟩
      · obtain ⟨⟨ret, resp⟩, hreply, h⟩ := bind_eq_ok.1 h
        cases h
        refine (turns_receiveReply hreply s₁).bind ?_
        rintro a s₂ ⟨ha, hnull, lost, hs₂⟩
        refine turns_pure ⟨rfl, ⟨hm'.question, hm'.answer, hm'.authority, hm'.addition⟩, ha, hnull,
          lost, ?_⟩
        rw [hs₂, hs₁]
        abel

theorem IsSection.eq_nil {α β : Type} {count : UInt16} {xs : List (Option β)}
    (h : IsSection count xs (none : SectionPtrs α)) : xs = [] := by
  cases h with
  | null hxs => exact hxs

/-- What is known of the messages before the answer is completed. -/
structure BuiltBlocks.Holds (o : BuiltBlocks) (b : Built) : Prop where
  built : o.built = b
  query : o.query.Of b.query
  ans : o.ans.Of b.ans
  null : b.fin ≠ .external → o.ans = MessagePtrs.null
  buffer : ancountMax ≤ o.buffer.length

/-- What the messages, the buffer and the cache hold. -/
def BuiltBlocks.blocks (o : BuiltBlocks) : Multiset Addr :=
  o.query.blocks + (o.ans.blocks + (bufferBlocks o.buffer + nodeBlocks o.nodes))

theorem turns_askExternal {query : Message} {l : LookupBlocks} {b : Built} (hm : m.Of query)
    (h : askExternal fuel now x query l.st = .ok b) (hbuffer : ancountMax ≤ l.buffer.length)
    (hs : s = m.blocks + (l.blocks + t)) :
    Turns (askExternalBlocks fuel now x query m l) s fun o s' => o.Holds b ∧
      ∃ lost, s' = o.blocks + (lost + t) := by
  have hnull : MessagePtrs.null.Of (initialAnswer query) :=
    MessagePtrs.null_of (initialAnswer query).header
  refine (hnull.frees.turns (zero_add s).symm).bind ?_
  rintro _ _ ⟨rfl, rfl⟩
  refine turns_lift h ?_
  obtain ⟨r, hsend, h⟩ := bind_eq_ok.1 h
  have hsend : sendQuestion fuel x query
      { Message.zero with header := (initialAnswer query).header } = .ok r := hsend
  refine (turns_sendQuestion hm hsend hs).bind ?_
  rintro ⟨r', qm, am⟩ s₁ ⟨rfl, hqm, ham, hret, lost, hs₁⟩
  dsimp only at h hs₁ hqm ham hret ⊢
  split at h
  · next hneg =>
    cases h
    obtain rfl := hret hneg
    rw [if_pos hneg]
    refine turns_pure ⟨⟨rfl, hqm, ⟨?_, ?_, ?_, ?_⟩, fun _ => rfl, hbuffer⟩, lost, ?_⟩
    · exact .null ham.question.eq_nil
    · exact .null ham.answer.eq_nil
    · exact .null ham.authority.eq_nil
    · exact .null ham.addition.eq_nil
    · rw [hs₁, BuiltBlocks.blocks, LookupBlocks.blocks]
      abel
  · next hneg =>
    obtain ⟨answers, hanswers, h⟩ := bind_eq_ok.1 h
    obtain ⟨cache', hput, h⟩ := bind_eq_ok.1 h
    cases h
    rw [if_neg hneg, reduceOption_of_mapM_id (orCrash_eq_ok.1 hanswers)]
    have hlen : answers.length ≤ (sectionRecords am.answer).length := by
      have hrecords : (sectionRecords am.answer).length = r'.resp.answer.length :=
        ham.answer.length_ptrs
      rw [← reduceOption_of_mapM_id (orCrash_eq_ok.1 hanswers), hrecords]
      exact (List.reduceOption_length_le _).trans (List.length_take_le' _ _)
    rw [← List.map_fst_zip hlen] at hput
    refine (turns_cachePut hput s₁).bind fun nodes s₂ h₂ => turns_pure ?_
    refine ⟨⟨rfl, hqm, ham, fun hfin => absurd rfl hfin, hbuffer⟩, lost, ?_⟩
    rw [h₂.eq, hs₁, BuiltBlocks.blocks, LookupBlocks.blocks, nodeBlocks_append]
    abel

/-- Everything up to the encoding. -/
theorem turns_buildAnswer {insertFuel : ℕ} {hashFun : List UInt8 → UInt32} {db : BucketTree}
    {relay : List ResourceRecord} {stored : ResourceRecord → RecordPtrs} {cache : RrCache}
    {xs : List (LinkedHeap.Addr × CacheEntry)} {query : Message} {b : Built}
    (hdb : insertAll insertFuel (treeInit hashFun) relay = some db) (hrep : CacheRep cache xs)
    (hm : m.Of query) (h : buildAnswer fuel now db x cache query = .ok b) (hs : s = m.blocks + t) :
    Turns (buildAnswerBlocks fuel now db x stored cache query m) s fun o s' => o.Holds b ∧
      ∃ lost, s' = o.blocks + (lost + t) := by
  obtain ⟨⟨st, fin⟩, hlookup, h⟩ := bind_eq_ok.1 h
  refine (turns_lookupQuery hdb hrep hlookup).bind ?_
  rintro ⟨l, fin'⟩ s₁ ⟨rfl, rfl, hbuffer, lost, hs₁⟩
  have hheld : s₁ = m.blocks + (l.blocks + (lost + t)) := by
    rw [hs₁, hs]
    abel
  have hdone : s₁ = m.blocks + (0 + (l.blocks + (lost + t))) := by
    rw [hheld, zero_add]
  have hnull : MessagePtrs.null.Of (initialAnswer query) :=
    MessagePtrs.null_of (initialAnswer query).header
  cases fin' with
  | external =>
    refine (turns_askExternal hm h hbuffer hheld).mono ?_
    rintro o s' ⟨ho, lost', hs'⟩
    exact ⟨ho, lost' + lost, by rw [hs', add_assoc]⟩
  | found =>
    cases h
    refine turns_pure ⟨⟨rfl, hm, hnull, fun _ => rfl, hbuffer⟩, lost, ?_⟩
    rw [hdone]
    simp only [BuiltBlocks.blocks, LookupBlocks.blocks, MessagePtrs.blocks_null, add_assoc]
  | failure rcode =>
    cases h
    refine turns_pure ⟨⟨rfl, hm, hnull, fun _ => rfl, hbuffer⟩, lost, ?_⟩
    rw [hdone]
    simp only [BuiltBlocks.blocks, LookupBlocks.blocks, MessagePtrs.blocks_null, add_assoc]

end Exchange

end BakaDns
