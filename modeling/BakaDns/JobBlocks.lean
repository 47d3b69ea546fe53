import BakaDns.Provenance
import BakaDns.ResolvBlocks
import BakaDns.Server

/-!
# The blocks of a job

`udp_resolv_and_respond` from the allocation of the request to its last `free`. Whether a job frees
something twice depends on the names that the reply shares with the request.
-/

namespace BakaDns
open Blocks ReadTrace

/-- The end of `udp_resolv_and_respond`, with its argument in the block `args`. -/
def udpFinish (args : Addr) (r : ResolvBlocks) : Mem Fault (List NodePtrs) :=
  if r.result.ret < 0 then do
    free args
    let _ ← r.query.free r.result.query.header
    pure r.nodes
  else do
    let _ ← r.query.free r.result.query.header
    free args
    pure r.nodes

/-- `udp_resolv_and_respond`: the nodes that it leaves in the cache. -/
def udpBlocks (fuel now : ℕ) (db : BucketTree) (x : Exchange)
    (stored : ResourceRecord → RecordPtrs) (cache : RrCache) (rcvbuffer : List UInt8) (nrecv : ℤ)
    (args : Addr) : Mem Fault (List NodePtrs) :=
  match (messageFromBuf fuel rcvbuffer (asUint32 nrecv) Message.zero).result with
  | none => lift (.error .hang)
  | some (ret, msgrcv) =>
    if ret < -1 then do
      let m ← mallocMessage ret msgrcv MessagePtrs.null
      let _ ← m.free msgrcv.header
      free args
      pure []
    else do
      let m ← mallocMessage ret msgrcv MessagePtrs.null
      let r ← resolvHandleBlocks fuel now db x (fun _ => 0) stored cache msgrcv m
      udpFinish args r

/-! The completed answer. Its questions with an overlong name share it with the query. -/

section Complete

variable {α β : Type} {mallocEntry : α → Mem Fault β} {blocks : β → Multiset Addr}
  {taken : α → Multiset Addr} {query : Message} {m : MessagePtrs} {o : BuiltBlocks} {b : Built}
  {ans : Message} {s t : Multiset Addr}

/-- Entries that take over blocks which were there before. -/
theorem turns_takeEntries (hentry : ∀ x s, Turns (mallocEntry x) s fun ptrs s' =>
      ∃ own, blocks ptrs = own + taken x ∧ s' = own + s) (xs : List α) (s : Multiset Addr) :
    Turns (mallocEntries mallocEntry xs) s fun cells s' =>
      ∃ (es : List (Addr × β)) (own : Multiset Addr), cells = es.map some ∧
        es.length = xs.length ∧ (cells.map (cellBlocks blocks)).sum = own + (xs.map taken).sum ∧
          s' = own + s := by
  induction xs generalizing s with
  | nil => exact turns_pure ⟨[], 0, rfl, rfl, rfl, (zero_add s).symm⟩
  | cons x xs ih =>
    refine (turns_malloc fun a _ => handsOut_one a s).bind fun a s₁ h₁ => ?_
    refine (hentry x s₁).bind ?_
    rintro ptrs s₂ ⟨own, hown, hs₂⟩
    refine (ih s₂).bind ?_
    rintro _ s₃ ⟨es, rest, rfl, hlen, hrest, hs₃⟩
    refine turns_pure ⟨(a, ptrs) :: es, {a} + (own + rest), rfl, congrArg (· + 1) hlen, ?_, ?_⟩
    · rw [List.map_cons, List.sum_cons, hrest, cellBlocks, hown, List.map_cons, List.sum_cons]
      abel
    · rw [hs₃, hs₂, h₁.eq]
      abel

theorem turns_answerBlocks {count : UInt16} {buffer : List RecordPtrs}
    (hcount : count.toNat ≤ buffer.length) (s : Multiset Addr) :
    Turns (answerBlocks count buffer none) s fun answer s' => IsCounted count answer ∧
      ∃ own, sectionBlocks RecordPtrs.blocks answer =
        own + bufferBlocks (buffer.take count.toNat) ∧ s' = own + s := by
  unfold answerBlocks
  split
  · next hzero =>
    refine turns_pure ⟨isCounted_none, 0, ?_, (zero_add s).symm⟩
    rw [hzero]
    rfl
  · refine (turns_malloc fun a _ => handsOut_one a s).bind fun a s₁ h₁ => ?_
    have hentry : ∀ (r : RecordPtrs) (s : Multiset Addr), Turns (pure r : Mem Fault RecordPtrs) s
        fun ptrs s' => ∃ own, ptrs.blocks = own + r.blocks ∧ s' = own + s :=
      fun r s => turns_pure ⟨0, (zero_add _).symm, (zero_add s).symm⟩
    refine (turns_takeEntries hentry _ s₁).bind ?_
    rintro _ s₂ ⟨es, own, rfl, hlen, hown, hs₂⟩
    rw [List.length_take, Nat.min_eq_left hcount] at hlen
    refine turns_pure ⟨isCounted_some hlen, {a} + own, ?_, ?_⟩
    · rw [sectionBlocks, hown, add_assoc]
      rfl
    · rw [hs₂, h₁.eq]
      abel

/-- What the copy of a question shares with its original. -/
def sharedName (p : MessageQuestion × QuestionPtrs) : Multiset Addr :=
  if domainLen p.1.qname = none then p.2.blocks else 0

/-- What the copied questions share with those of the query. -/
def sharedNames (query : Message) (m : MessagePtrs) : Multiset Addr :=
  (((query.question.take query.header.qdcount.toNat).reduceOption.zip
    (questionPtrs m)).map sharedName).sum

theorem turns_copyQuestion (p : MessageQuestion × QuestionPtrs) (s : Multiset Addr) :
    Turns (copyQuestion p) s fun ptrs s' =>
      ∃ own, ptrs.blocks = own + sharedName p ∧ s' = own + s := by
  unfold copyQuestion sharedName
  split
  · exact turns_pure ⟨0, (zero_add _).symm, (zero_add s).symm⟩
  · refine (turns_malloc fun a _ => handsOut_one a s).bind fun a s₁ h₁ => ?_
    exact turns_pure ⟨{a}, (add_zero _).symm, h₁.eq⟩

/-- Every question that the loop of `mq_copy` comes to is there. -/
theorem pasteQuestions_length {n : ℕ} {qs qs' : List (Option MessageQuestion)}
    (h : pasteQuestions n qs = .ok qs') : (qs.take n).reduceOption.length = n := by
  induction n generalizing qs qs' with
  | zero => rfl
  | succ n ih =>
    match qs with
    | [] => cases h
    | none :: qs => cases h
    | some q :: qs =>
      rw [pasteQuestions] at h
      split at h
      · cases h
      · obtain ⟨rest, hrest, -⟩ := bind_eq_ok.1 h
        rw [List.take_succ_cons, List.reduceOption_cons_of_some, List.length_cons, ih hrest]

theorem length_questionPtrs (hm : m.Of query) :
    (questionPtrs m).length = query.question.length := hm.question.length_ptrs

theorem turns_pasteBlocks (hm : m.Of query) {qs : List (Option MessageQuestion)}
    (h : pasteQuestions query.header.qdcount.toNat query.question = .ok qs) (s : Multiset Addr) :
    Turns (pasteBlocks query m) s fun question s' => IsCounted query.header.qdcount question ∧
      ∃ own, sectionBlocks QuestionPtrs.blocks question = own + sharedNames query m ∧
        s' = own + s := by
  have hcount := pasteQuestions_length h
  have hle : query.header.qdcount.toNat ≤ (questionPtrs m).length := by
    rw [length_questionPtrs hm, ← hcount]
    exact (List.reduceOption_length_le _).trans (List.length_take_le' _ _)
  refine (turns_malloc fun a _ => handsOut_one a s).bind fun a s₁ h₁ => ?_
  refine (turns_takeEntries turns_copyQuestion _ s₁).bind ?_
  rintro _ s₂ ⟨es, own, rfl, hlen, hown, hs₂⟩
  rw [List.length_zip, hcount, Nat.min_eq_left hle] at hlen
  refine turns_pure ⟨isCounted_some hlen, {a} + own, ?_, ?_⟩
  · rw [sectionBlocks, hown, add_assoc]
    rfl
  · rw [hs₂, h₁.eq]
    abel

/-- What the completed answer shares with the query. -/
def sharedWith (b : Built) (m : MessagePtrs) : Multiset Addr :=
  if b.fin = .external then 0 else sharedNames b.query m

theorem turns_complete (ho : o.Holds b) (h : completeAnswer b = .ok ans) (hs : s = o.blocks + t) :
    Turns (completeBlocks o) s fun am s' => am.Counted ans.header ∧
      ∃ own lost, am.blocks = own + sharedWith b o.query ∧
        s' = own + (o.query.blocks + (nodeBlocks o.nodes + (lost + t))) := by
  obtain ⟨rfl, hquery, hans, hnull, hbuffer⟩ := ho
  unfold completeBlocks
  cases hfin : o.built.fin with
  | external =>
    rw [completeAnswer, hfin] at h
    cases h
    refine turns_pure ⟨hans.counted, o.ans.blocks, bufferBlocks o.buffer, ?_, ?_⟩
    · rw [sharedWith, if_pos hfin, add_zero]
    · rw [hs, BuiltBlocks.blocks]
      abel
  | found =>
    have hne : o.built.fin ≠ .external := by simp [hfin]
    rw [completeAnswer, hfin] at h
    dsimp only [completeFound] at h
    split at h
    · cases h
    · next hcount =>
      obtain ⟨qs, hpaste, h⟩ := bind_eq_ok.1 h
      cases h
      have hle := (Nat.not_lt.1 hcount).trans hbuffer
      rw [hnull hne]
      refine (turns_answerBlocks hle s).bind ?_
      rintro answer s₁ ⟨hanswer, own, hown, hs₁⟩
      refine (turns_pasteBlocks hquery hpaste s₁).bind ?_
      rintro question s₂ ⟨hquestion, own', hown', hs₂⟩
      refine turns_pure ⟨⟨hquestion, hanswer, isCounted_none, isCounted_none⟩,
        own + own' + bufferBlocks (o.buffer.take (UInt16.ofNat o.built.ansCnt).toNat),
        bufferBlocks (o.buffer.drop (UInt16.ofNat o.built.ansCnt).toNat), ?_, ?_⟩
      · rw [sharedWith, if_neg hne]
        simp only [MessagePtrs.blocks, hown, hown', sectionBlocks_none, MessagePtrs.null]
        abel
      · rw [hs₂, hs₁, hs, BuiltBlocks.blocks, hnull hne, MessagePtrs.blocks_null,
          bufferBlocks_split o.buffer (UInt16.ofNat o.built.ansCnt).toNat]
        abel
  | failure rcode =>
    have hne : o.built.fin ≠ .external := by simp [hfin]
    rw [completeAnswer, hfin] at h
    obtain ⟨qs, hpaste, h⟩ := bind_eq_ok.1 h
    cases h
    refine (hans.frees.turns (t := o.query.blocks + (bufferBlocks o.buffer +
      (nodeBlocks o.nodes + t))) ?_).bind ?_
    · rw [hs, BuiltBlocks.blocks]
      abel
    · rintro _ s₁ ⟨rfl, hs₁⟩
      refine (turns_pasteBlocks hquery hpaste s₁).bind ?_
      rintro question s₂ ⟨hquestion, own, hown, hs₂⟩
      refine turns_pure ⟨⟨hquestion, isCounted_none, isCounted_none, isCounted_none⟩, own,
        bufferBlocks o.buffer, ?_, ?_⟩
      · rw [sharedWith, if_neg hne]
        simp only [MessagePtrs.blocks, hown, sectionBlocks_none, MessagePtrs.null]
        abel
      · rw [hs₂, hs₁]
        abel

end Complete

/-! The whole job. -/

section Job

variable {query : Message} {m : MessagePtrs} {b : Built}

/-- The reply was put together here, with a question in it whose name is too long to be copied. -/
def CarriesOverlong (b : Built) : Prop :=
  b.fin ≠ .external ∧ ∃ q, some q ∈ b.query.question.take b.query.header.qdcount.toNat ∧
    domainLen q.qname = none

theorem sharedName_eq_zero {p : MessageQuestion × QuestionPtrs} :
    sharedName p = 0 ↔ domainLen p.1.qname ≠ none := by
  unfold sharedName
  split
  · next h => exact iff_of_false (Multiset.singleton_ne_zero _) (not_not.2 h)
  · next h => exact iff_of_true rfl h

theorem sum_sharedName_le (qs : List MessageQuestion) (ps : List QuestionPtrs) :
    ((qs.zip ps).map sharedName).sum ≤ (ps.map QuestionPtrs.blocks).sum := by
  induction qs generalizing ps with
  | nil => exact Multiset.zero_le _
  | cons q qs ih =>
    cases ps with
    | nil => exact Multiset.zero_le _
    | cons p ps =>
      rw [List.zip_cons_cons, List.map_cons, List.sum_cons, List.map_cons, List.sum_cons]
      refine add_le_add ?_ (ih ps)
      unfold sharedName
      split
      · exact le_rfl
      · exact Multiset.zero_le _

theorem sum_questionPtrs_le (m : MessagePtrs) :
    ((questionPtrs m).map QuestionPtrs.blocks).sum ≤ m.blocks := by
  refine le_trans ?_ (Multiset.le_add_right _ _)
  unfold questionPtrs
  cases m.question with
  | none => exact Multiset.zero_le _
  | some question =>
    obtain ⟨array, cells⟩ := question
    refine le_trans ?_ (Multiset.le_add_left _ _)
    change ((cells.reduceOption.map Prod.snd).map QuestionPtrs.blocks).sum ≤ _
    induction cells with
    | nil => exact Multiset.zero_le _
    | cons cell cells ih =>
      cases cell with
      | none =>
        rw [List.reduceOption_cons_of_none, List.map_cons, List.sum_cons]
        exact ih.trans (Multiset.le_add_left _ _)
      | some cell =>
        rw [List.reduceOption_cons_of_some, List.map_cons, List.map_cons, List.sum_cons,
          List.map_cons, List.sum_cons]
        exact add_le_add (Multiset.le_add_left _ _) ih

theorem sharedWith_le (b : Built) (m : MessagePtrs) : sharedWith b m ≤ m.blocks := by
  unfold sharedWith
  split
  · exact Multiset.zero_le _
  · exact (sum_sharedName_le _ _).trans (sum_questionPtrs_le m)

theorem sharedWith_eq_zero (hm : m.Of b.query) : sharedWith b m = 0 ↔ ¬ CarriesOverlong b := by
  unfold sharedWith
  split
  · next hfin => exact iff_of_true rfl fun h => h.1 hfin
  · next hfin =>
    have hle : (b.query.question.take b.query.header.qdcount.toNat).reduceOption.length ≤
        (questionPtrs m).length := by
      rw [length_questionPtrs hm]
      exact (List.reduceOption_length_le _).trans (List.length_take_le' _ _)
    rw [sharedNames, List.sum_eq_zero_iff]
    constructor
    · rintro hzero ⟨-, q, hq, hlen⟩
      rw [← List.reduceOption_mem_iff, ← List.map_fst_zip hle] at hq
      obtain ⟨p, hp, rfl⟩ := List.mem_map.1 hq
      exact sharedName_eq_zero.1 (hzero _ (List.mem_map_of_mem hp)) hlen
    · intro hnone y hy
      obtain ⟨p, hp, rfl⟩ := List.mem_map.1 hy
      refine sharedName_eq_zero.2 fun hlen => hnone ⟨hfin, p.1, ?_, hlen⟩
      exact List.reduceOption_mem_iff.1 (List.of_mem_zip hp).1

variable {fuel now insertFuel : ℕ} {db : BucketTree} {x : Exchange} {cache cache' : RrCache}
  {hashFun : List UInt8 → UInt32} {relay : List ResourceRecord}
  {stored : ResourceRecord → RecordPtrs} {xs : List (LinkedHeap.Addr × CacheEntry)}
  {sendbuf : CBytes.Mem} {r : ResolvResult} {s t : Multiset Addr}

/-- `resolv_handle` ends with freeing names that the query still points to. -/
def FreesNames (fuel now : ℕ) (db : BucketTree) (x : Exchange) (cache : RrCache)
    (query : Message) : Prop :=
  ∃ b r, buildAnswer fuel now db x cache query = .ok b ∧ CarriesOverlong b ∧
    resolvHandle fuel now db x (fun _ => 0) cache query = .ok r ∧ 0 ≤ r.ret

/-- Of the blocks of the query, those of `shared` are gone when `resolv_handle` comes back. -/
theorem turns_resolvHandle (hdb : insertAll insertFuel (treeInit hashFun) relay = some db)
    (hrep : CacheRep cache xs) (hm : m.Of query)
    (h : resolvHandle fuel now db x (fun _ => 0) cache query = .ok r) (hs : s = m.blocks + t) :
    Turns (resolvHandleBlocks fuel now db x (fun _ => 0) stored cache query m) s fun o s' =>
      o.result = r ∧ o.query.Of r.query ∧ ∃ shared rest lost, o.query.blocks = shared + rest ∧
        s' = rest + (nodeBlocks o.nodes + (lost + t)) ∧ (∀ a ∈ shared, a ∉ s') ∧
          (shared = 0 ↔ ¬ FreesNames fuel now db x cache query) := by
  have hgiven := h
  refine turns_lift h ?_
  rw [resolvHandle] at h
  split at h
  · next hqr =>
    cases h
    rw [if_pos hqr]
    refine turns_pure ⟨rfl, hm, 0, m.blocks, 0, (zero_add _).symm, ?_, fun a ha => ?_, ?_⟩
    · simpa [nodeBlocks] using hs
    · exact absurd ha (Multiset.notMem_zero a)
    · refine iff_of_true rfl ?_
      rintro ⟨b, r, -, -, hr, hret⟩
      rw [hgiven] at hr
      cases hr
      have hneg : ¬(0 : ℤ) ≤ -1 := by decide
      exact hneg hret
  · next hqr =>
    rw [if_neg hqr]
    obtain ⟨b, hbuild, h⟩ := bind_eq_ok.1 h
    obtain ⟨ans, hcomplete, h⟩ := bind_eq_ok.1 h
    obtain ⟨⟨msgsize, buffer⟩, hencode, h⟩ := bind_eq_ok.1 h
    refine (turns_buildAnswer hdb hrep hm hbuild hs).bind ?_
    rintro o s₁ ⟨ho, lost, hs₁⟩
    rw [ho.built]
    refine turns_lift hcomplete ((turns_complete ho hcomplete hs₁).bind ?_)
    rintro am s₂ ⟨hcounted, own, lost', ham, hs₂⟩
    have hquery : o.query.Of r.query := by
      cases h
      exact ho.query
    have hfrees : FreesNames fuel now db x cache query ↔ CarriesOverlong b ∧ 0 ≤ r.ret := by
      constructor
      · rintro ⟨b', r', hb', hcarries, hr', hret⟩
        cases hbuild.symm.trans hb'
        cases hgiven.symm.trans hr'
        exact ⟨hcarries, hret⟩
      · rintro ⟨hcarries, hret⟩
        exact ⟨b, r, hbuild, hcarries, hgiven, hret⟩
    by_cases hret : r.ret < 0
    · rw [if_pos hret]
      refine turns_pure ⟨rfl, hquery, 0, o.query.blocks, own + (lost' + lost), (zero_add _).symm,
        ?_, fun a ha => ?_, iff_of_true rfl fun hf => ?_⟩
      · rw [hs₂]
        abel
      · exact absurd ha (Multiset.notMem_zero a)
      · exact absurd (hfrees.1 hf).2 (not_le.2 hret)
    · rw [if_neg hret]
      obtain ⟨rest, hrest⟩ := le_iff_exists_add.1 (sharedWith_le b o.query)
      refine Turns.of_nodup fun hnodup => ?_
      have hheld : s₂ = am.blocks + (rest + (nodeBlocks o.nodes + ((lost' + lost) + t))) := by
        rw [hs₂, ham, hrest]
        abel
      refine (hcounted.frees.turns hheld).bind ?_
      rintro _ s₃ ⟨rfl, hs₃⟩
      refine turns_pure ⟨rfl, hquery, sharedWith b o.query, rest, lost' + lost, hrest, hs₃, ?_, ?_⟩
      · intro a ha ha'
        rw [hheld, ← hs₃] at hnodup
        have hmem : a ∈ am.blocks := by
          rw [ham]
          exact Multiset.mem_add.2 (.inr ha)
        exact Multiset.disjoint_left.1 (Multiset.disjoint_of_nodup_add hnodup) hmem ha'
      · rw [sharedWith_eq_zero ho.query, hfrees, not_and]
        exact ⟨fun hn hc => absurd hc hn, fun hn hc => hn hc (not_lt.1 hret)⟩

/-- The argument is gone after its `free`. -/
theorem turns_freeArgs {args : Addr} (nodes : List NodePtrs) (hs : s = {args} + t) :
    Turns (do
      free args
      pure nodes : Mem Fault (List NodePtrs)) s
      fun nodes' s' => nodes' = nodes ∧ s' = t ∧ args ∉ s' := by
  refine Turns.of_nodup fun hnodup => ?_
  rw [hs, Multiset.singleton_add] at hnodup
  refine ((frees_free args).turns hs).bind ?_
  rintro _ s' ⟨-, rfl⟩
  exact turns_pure ⟨rfl, rfl, (Multiset.nodup_cons.1 hnodup).1⟩

/-- The last exit of either job frees the query and the argument. -/
theorem turns_freeBoth {args : Addr} {o : ResolvBlocks} (ho : o.query.Of o.result.query)
    (hs : s = {args} + (o.query.blocks + t)) :
    Turns (do
      let _ ← o.query.free o.result.query.header
      free args
      pure o.nodes) s fun nodes s' => nodes = o.nodes ∧ s' = t ∧ args ∉ s' := by
  have hquery : s = o.query.blocks + ({args} + t) := by
    rw [hs]
    abel
  refine (ho.frees.turns hquery).bind ?_
  rintro _ s₁ ⟨-, hs₁⟩
  exact turns_freeArgs o.nodes hs₁

/-- A message some of whose blocks are gone cannot be freed. -/
theorem MessagePtrs.Of.fails_free (hm : m.Of query) {shared rest : Multiset Addr}
    (hblocks : m.blocks = shared + rest) (hgone : ∀ a ∈ shared, a ∉ s) (hshared : shared ≠ 0) :
    Fails (m.free query.header) s := by
  refine hm.frees.fails fun hle => ?_
  obtain ⟨a, ha⟩ := Multiset.exists_mem_of_ne_zero hshared
  have hmem : a ∈ m.blocks := by
    rw [hblocks]
    exact Multiset.mem_add.2 (.inl ha)
  exact hgone a ha (Multiset.mem_of_le hle hmem)

/-- The end of the job fails exactly when some of the query's blocks are gone. -/
theorem udpFinish_frees {o : ResolvBlocks} (ho : o.query.Of o.result.query) (args : Addr)
    {shared rest : Multiset Addr} (hblocks : o.query.blocks = shared + rest)
    (hs : s = {args} + (rest + t)) (hgone : ∀ a ∈ shared, a ∉ s) :
    (shared = 0 → Turns (udpFinish args o) s fun nodes s' => nodes = o.nodes ∧ s' = t) ∧
      (shared ≠ 0 → 0 ≤ o.result.ret → Fails (udpFinish args o) s) := by
  unfold udpFinish
  constructor
  · rintro rfl
    rw [zero_add] at hblocks
    rw [← hblocks] at hs
    split
    · refine ((frees_free args).turns hs).bind ?_
      rintro _ s₁ ⟨-, hs₁⟩
      refine (ho.frees.turns hs₁).bind ?_
      rintro _ s₂ ⟨-, rfl⟩
      exact turns_pure ⟨rfl, rfl⟩
    · refine (turns_freeBoth ho hs).mono ?_
      rintro nodes s' ⟨hnodes, hs', -⟩
      exact ⟨hnodes, hs'⟩
  · intro hshared hret
    rw [if_neg (not_lt.2 hret)]
    exact (ho.fails_free hblocks hgone hshared).bind _

theorem messageFromBuf_ret_ge {size : ℕ} {buf : List UInt8} {ret : ℤ} {msg msg' : Message}
    (h : (messageFromBuf fuel buf size msg).result = some (ret, msg')) : ¬ret < -1 := by
  by_cases hneg : ret < 0
  · by_cases hsize : size < sizeofMessageHeader
    · rw [messageFromBuf_short hsize] at h
      cases h
      decide
    · by_cases htc : tcOf (headerAt buf).misc1 = 0
      · have hone := messageFromBuf_ret hsize htc h
        omega
      · rw [messageFromBuf_truncated hsize htc] at h
        cases h
        decide
  · omega

/-- From the argument of a job and a packet to the result of `resolv_handle`. -/
theorem turns_decodeAndHandle (hdb : insertAll insertFuel (treeInit hashFun) relay = some db)
    (hrep : CacheRep cache xs) {buf : List UInt8} {size : ℕ} {ret₀ : ℤ}
    (hdecodes : (messageFromBuf fuel buf size Message.zero).result = some (ret₀, query))
    (hr : resolvHandle fuel now db x (fun _ => 0) cache query = .ok r)
    (stored : ResourceRecord → RecordPtrs) (args : Addr) (s : Multiset Addr) :
    Turns (do
      let m ← mallocMessage ret₀ query MessagePtrs.null
      resolvHandleBlocks fuel now db x (fun _ => 0) stored cache query m) ({args} + s)
      fun o s' => o.result = r ∧ o.query.Of o.result.query ∧ ∃ shared rest lost,
        o.query.blocks = shared + rest ∧
          s' = {args} + (rest + (nodeBlocks o.nodes + (lost + s))) ∧ (∀ a ∈ shared, a ∉ s') ∧
            (shared = 0 ↔ ¬ FreesNames fuel now db x cache query) := by
  have hzero : (messageFromBuf fuel buf size
      { Message.zero with header := Message.zero.header }).result = some (ret₀, query) := hdecodes
  refine (turns_mallocDecoded hzero ({args} + s)).bind ?_
  rintro m s₁ ⟨hm, -, lost, hs₁, -⟩
  refine (turns_resolvHandle hdb hrep hm hr hs₁).mono ?_
  rintro o s₂ ⟨rfl, ho, shared, rest, lost', hblocks, hs₂, hgone, hshared⟩
  refine ⟨rfl, ho, shared, rest, lost' + lost, hblocks, ?_, hgone, hshared⟩
  rw [hs₂]
  abel

/-- When the handler comes back, a UDP job either gives back everything that it has not lost or put
into the cache, and touches no block of anybody else, or it frees a name a second time. The second
happens exactly when the encoded reply was put together here for a query with an overlong name:
`mq_copy` has left the reply with the pointer of the query, and both messages are freed. -/
theorem udpJob_frees_iff (hdb : insertAll insertFuel (treeInit hashFun) relay = some db)
    (hrep : CacheRep cache xs) {rcvbuffer : List UInt8} {nrecv ret ret₀ : ℤ}
    (hdecodes : (messageFromBuf fuel rcvbuffer (asUint32 nrecv) Message.zero).result =
      some (ret₀, query))
    (h : (udpResolvAndRespond fuel now db x cache rcvbuffer nrecv).outcome = .ok (ret, cache'))
    (stored : ResourceRecord → RecordPtrs) (args : Addr) (s : Multiset Addr) :
    (¬ FreesNames fuel now db x cache query →
      Turns (udpBlocks fuel now db x stored cache rcvbuffer nrecv args) ({args} + s)
        fun nodes s' => ∃ lost, s' = nodeBlocks nodes + (lost + s)) ∧
    (FreesNames fuel now db x cache query →
      Fails (udpBlocks fuel now db x stored cache rcvbuffer nrecv args) ({args} + s)) := by
  have hret₀ := messageFromBuf_ret_ge hdecodes
  obtain ⟨r, hr⟩ : ∃ r, resolvHandle fuel now db x (fun _ => 0) cache query = .ok r := by
    rw [udpResolvAndRespond, hdecodes] at h
    dsimp only at h
    rw [if_neg hret₀, udpRespond] at h
    cases hr : resolvHandle fuel now db x (fun _ => 0) cache query with
    | error fault =>
      rw [hr] at h
      cases h
    | ok r => exact ⟨r, rfl⟩
  unfold udpBlocks
  rw [hdecodes]
  dsimp only
  rw [if_neg hret₀, ← bind_assoc]
  have hturns := turns_decodeAndHandle hdb hrep hdecodes hr stored args s
  constructor
  · intro hfree
    refine hturns.bind ?_
    rintro o s₂ ⟨rfl, ho, shared, rest, lost, hblocks, hheld, hgone, hshared⟩
    refine ((udpFinish_frees ho args hblocks hheld hgone).1 (hshared.2 hfree)).mono ?_
    rintro nodes s' ⟨rfl, rfl⟩
    exact ⟨lost, rfl⟩
  · intro hfree
    refine hturns.fails ?_
    rintro o s₂ ⟨rfl, ho, shared, rest, lost, hblocks, hheld, hgone, hshared⟩
    have hret : 0 ≤ o.result.ret := by
      obtain ⟨b, r, -, -, hr', hret⟩ := hfree
      cases hr.symm.trans hr'
      exact hret
    exact (udpFinish_frees ho args hblocks hheld hgone).2 (fun hz => hshared.1 hz hfree) hret

/-- A query for an address of a name of 256 bytes. -/
def overlongRequest : List UInt8 :=
  [0, 9, 1, 0, 0, 1, 0, 0, 0, 0, 0, 0] ++ longName ++ [0, 0, 1, 0, 1]

def overlongMessage : Message :=
  ⟨⟨9, 1, 0, 1, 0, 0, 0⟩, [some ⟨longName ++ [0], rrtypeA, rrclassIn⟩], [], [], []⟩

theorem overlongMessage_freesNames :
    FreesNames 512 0 (treeInit rrHash) ⟨7, .recvFail⟩ (initCache 0) overlongMessage := by
  have hbuild : (buildAnswer 512 0 (treeInit rrHash) ⟨7, .recvFail⟩ (initCache 0)
      overlongMessage).toOption.map (fun b => (b.fin, b.query)) =
        some (.failure rcodeFormatError, overlongMessage) := by decide +kernel
  have hresolv : (resolvHandle 512 0 (treeInit rrHash) ⟨7, .recvFail⟩ (fun _ => 0) (initCache 0)
      overlongMessage).toOption.map (fun r => r.ret) = some 1 := by decide +kernel
  obtain ⟨b, hb, hfacts⟩ := ok_of_toOption_map hbuild
  obtain ⟨r, hr, hret⟩ := ok_of_toOption_map hresolv
  obtain ⟨hfin, hquery⟩ := Prod.mk.inj hfacts
  refine ⟨b, r, hb, ⟨?_, ⟨longName ++ [0], rrtypeA, rrclassIn⟩, ?_, ?_⟩, hr, ?_⟩
  · rw [hfin]
    exact LookupEnd.noConfusion
  · rw [hquery]
    exact List.mem_singleton_self _
  · decide +kernel
  · rw [hret]
    decide

/-- A query for an address of `a`. -/
def shortRequest : List UInt8 := [0, 9, 1, 0, 0, 1, 0, 0, 0, 0, 0, 0, 1, 97, 0, 0, 1, 0, 1]

def shortMessage : Message :=
  ⟨⟨9, 1, 0, 1, 0, 0, 0⟩, [some ⟨[1, 97, 0], rrtypeA, rrclassIn⟩], [], [], []⟩

/-- It is forwarded. -/
theorem shortMessage_not_freesNames :
    ¬ FreesNames 64 0 (treeInit rrHash) shortReply (initCache 0) shortMessage := by
  have hbuild : (buildAnswer 64 0 (treeInit rrHash) shortReply (initCache 0)
      shortMessage).toOption.map (fun b => b.fin) = some .external := by decide +kernel
  obtain ⟨b, hb, hfin⟩ := ok_of_toOption_map hbuild
  rintro ⟨b', r, hb', hcarries, -⟩
  cases hb.symm.trans hb'
  exact hcarries.1 hfin

/-- A query that is forwarded and whose reply is cached frees everything once, one with an overlong
name does not. -/
theorem udpJob_frees_iff_overlong :
    Turns (udpBlocks 64 0 (treeInit rrHash) shortReply (fun _ => RecordPtrs.null) (initCache 0)
        shortRequest shortRequest.length 1) ({1} + {2})
      (fun nodes s' => ∃ lost, s' = nodeBlocks nodes + (lost + {2})) ∧
    Fails (udpBlocks 512 0 (treeInit rrHash) ⟨7, .recvFail⟩ (fun _ => RecordPtrs.null)
      (initCache 0) overlongRequest overlongRequest.length 1) ({1} + {2}) := by
  have hdb : insertAll 0 (treeInit rrHash) [] = some (treeInit rrHash) := rfl
  constructor
  · have hdecodes : (messageFromBuf 64 shortRequest (asUint32 shortRequest.length)
        Message.zero).result = some (1, shortMessage) := by decide +kernel
    have hreturns : (udpResolvAndRespond 64 0 (treeInit rrHash) shortReply (initCache 0)
        shortRequest shortRequest.length).outcome.toOption.map Prod.fst = some 1 := by
      decide +kernel
    obtain ⟨⟨ret, cache'⟩, hout, -⟩ := ok_of_toOption_map hreturns
    exact (udpJob_frees_iff hdb (initCache_rep 0) hdecodes hout (fun _ => RecordPtrs.null) 1 {2}).1
      shortMessage_not_freesNames
  · have hdecodes : (messageFromBuf 512 overlongRequest (asUint32 overlongRequest.length)
        Message.zero).result = some (1, overlongMessage) := by decide +kernel
    have hreturns : (udpResolvAndRespond 512 0 (treeInit rrHash) ⟨7, .recvFail⟩ (initCache 0)
        overlongRequest overlongRequest.length).outcome.toOption.map Prod.fst = some 1 := by
      decide +kernel
    obtain ⟨⟨ret, cache'⟩, hout, -⟩ := ok_of_toOption_map hreturns
    exact (udpJob_frees_iff hdb (initCache_rep 0) hdecodes hout (fun _ => RecordPtrs.null) 1 {2}).2
      overlongMessage_freesNames

end Job

end BakaDns
