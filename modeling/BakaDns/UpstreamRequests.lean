import BakaDns.EncodeErrors

/-!
# The request in its buffer

`send_question` encodes a request with its OPT record into a buffer of 4096 bytes. Which requests
fit, whatever arrays they come with, and what the client then gets of the external server's reply.
-/

namespace BakaDns
open CBytes ReadTrace LinkedHeap

/-- The sizes of the entries of a request, its OPT record included. -/
def Message.requestSizes (req : Message) : List (Option ℕ) :=
  req.sections.elim [] fun s => s.sizes ++ optSize s

section Counted

variable {α : Type} {toU8 : α → Mem → ℤ → Except Fault (ℤ × Mem)} {n : ℕ} {xs : List (Option α)}

theorem counted_modify (n i : ℕ) (xs : List (Option α)) (f : α → α) :
    counted n (xs.modify i (Option.map f)) = (counted n xs).map fun ys => ys.modify i f := by
  induction n generalizing i xs with
  | zero => simp [counted]
  | succ n ih =>
    rcases xs with _ | ⟨_ | x, xs⟩
    · simp [counted]
    · cases i <;> simp [counted]
    · cases i with
      | zero => simp [counted, Function.comp_def]
      | succ i => simp [counted, ih, Function.comp_def]

/-- An entry appended behind the counted ones is counted as well. -/
theorem counted_concat (n : ℕ) (xs : List (Option α)) (x : α) :
    counted (n + 1) (xs.take n ++ [some x]) = (counted n xs).map fun ys => ys ++ [x] := by
  induction n generalizing xs with
  | zero => simp [counted]
  | succ n ih =>
    rcases xs with _ | ⟨_ | y, xs⟩
    · simp [counted]
    · simp [counted]
    · rw [List.take_succ_cons, List.cons_append, counted, ih]
      simp [counted, Function.comp_def]

theorem findOpt_counted {xs : List (Option ResourceRecord)} {ys : List ResourceRecord}
    (h : counted n xs = some ys) :
    findOpt n xs = .ok (ys.findIdx? fun rr => rr.type = rrtypeOpt) := by
  have hsame : findOpt n xs = findOpt n (ys.map some) := by
    induction n generalizing xs ys with
    | zero => cases h; rfl
    | succ n ih =>
      rcases xs with _ | ⟨_ | x, xs⟩
      · cases h
      · cases h
      · obtain ⟨zs, hzs, rfl⟩ := Option.map_eq_some_iff.1 h
        simp only [List.map_cons, findOpt, ih hzs]
  rw [hsame, ← length_counted h, findOpt_eq]

/-- A section that was written to its end holds no NULL, and every entry was one that its encoder
takes. -/
theorem counted_of_sectionToU8 {ok : α → Prop}
    (hok : ∀ x mem dest r, toU8 x mem dest = .ok r → ok x) {mem mem' : Mem} {dest size : ℤ}
    (h : sectionToU8 toU8 n xs mem dest = .ok (true, mem', size)) :
    ∃ ys, counted n xs = some ys ∧ ∀ y ∈ ys, ok y := by
  induction n generalizing xs mem dest size with
  | zero => exact ⟨[], rfl, List.forall_mem_nil _⟩
  | succ n ih =>
    rcases xs with _ | ⟨_ | x, xs⟩
    · cases h
    · cases h
    · obtain ⟨⟨tmp, mem₁⟩, hx, h⟩ := bind_eq_ok.1 h
      obtain ⟨⟨valid, mem₂, rest⟩, hxs, h⟩ := bind_eq_ok.1 h
      cases h
      obtain ⟨ys, hys, hall⟩ := ih hxs
      exact ⟨x :: ys, by rw [counted, hys]; rfl, List.forall_mem_cons.2 ⟨hok x _ _ _ hx, hall⟩⟩

/-- One section of an encoding that comes to its end. -/
theorem counted_of_step {ok : α → Prop}
    (hok : ∀ x mem dest r, toU8 x mem dest = .ok r → ok x) {mem : Mem} {dest : ℤ} {r : ℤ × Mem}
    {rest : Bool × Mem × ℤ → Except Fault (ℤ × Mem)}
    (h : (sectionToU8 toU8 n xs mem dest >>= fun w =>
      if ¬w.1 then pure (-1, w.2.1) else rest w) = .ok r) (hr : 0 ≤ r.1) :
    ∃ ys w, counted n xs = some ys ∧ (∀ y ∈ ys, ok y) ∧ rest w = .ok r := by
  obtain ⟨⟨valid, mem', size⟩, hw, h⟩ := bind_eq_ok.1 h
  cases valid with
  | false =>
    cases h
    cases hr
  | true =>
    obtain ⟨ys, hys, hall⟩ := counted_of_sectionToU8 hok hw
    exact ⟨ys, _, hys, hall, h⟩

end Counted

section Request

variable {m req sent : Message} {s s' : Sections} {newId : UInt16}

theorem present_of_msgQuestionToU8 (q : MessageQuestion) (mem : Mem) (dest : ℤ) (r : ℤ × Mem)
    (h : msgQuestionToU8 q mem dest = .ok r) : q.qname ≠ [] := by
  intro hnil
  rw [msgQuestionToU8, hnil] at h
  cases h

theorem present_of_msgRrToU8 (rr : ResourceRecord) (mem : Mem) (dest : ℤ) (r : ℤ × Mem)
    (h : msgRrToU8 rr mem dest = .ok r) :
    rr.Present := by
  rw [msgRrToU8] at h
  split at h
  · cases h
  · next hname =>
    refine ⟨hname, fun hshort hlen hnil => ?_⟩
    obtain ⟨n, hn⟩ := Option.ne_none_iff_exists'.1 hshort
    simp only [hn, if_neg hlen, if_pos hnil] at h
    cases h

/-- What the encoder writes to the end, it can count. -/
theorem sections_of_messageToU8 {mem mem' : Mem} {n : ℤ}
    (h : messageToU8 m mem 0 = .ok (n, mem')) (hn : 0 ≤ n) :
    ∃ s, m.sections = some s ∧ s.Present := by
  simp only [messageToU8] at h
  obtain ⟨question, q, hqs, hquestion, h⟩ := counted_of_step present_of_msgQuestionToU8 h hn
  obtain ⟨answer, an, hans, hanswer, h⟩ := counted_of_step present_of_msgRrToU8 h hn
  obtain ⟨authority, ns, hnss, hauthority, h⟩ := counted_of_step present_of_msgRrToU8 h hn
  obtain ⟨addition, ar, hars, haddition, -⟩ := counted_of_step present_of_msgRrToU8 h hn
  refine ⟨⟨question, answer, authority, addition⟩, ?_,
    ⟨hquestion, hanswer, hauthority, haddition⟩⟩
  rw [Message.sections, hqs, hans, hnss, hars]
  rfl

/-- The EDNS part, told on the counted records of the additional section. -/
theorem addOpt_sections (h : addOpt req = .ok sent) (hs : sent.sections = some s') :
    ∃ s, req.sections = some s ∧ s' = s.setAddition (withOpt setOptTtl s.addition) := by
  obtain ⟨hq, han, hns, har⟩ := sections_eq_some hs
  obtain ⟨found, hfind, h⟩ := bind_eq_ok.1 h
  have hreq : ∀ addition, sent.question = req.question → sent.answer = req.answer →
      sent.authority = req.authority → sent.header.qdcount = req.header.qdcount →
      sent.header.ancount = req.header.ancount → sent.header.nscount = req.header.nscount →
      counted req.header.arcount.toNat req.addition = some addition →
      req.sections = some { s' with addition := addition } := by
    intro addition h₁ h₂ h₃ h₄ h₅ h₆ hcounted
    rw [h₁, h₄] at hq
    rw [h₂, h₅] at han
    rw [h₃, h₆] at hns
    rw [Message.sections, hq, han, hns, hcounted]
    rfl
  cases found with
  | some i =>
    cases h
    change counted _ (req.addition.modify i (Option.map setOptTtl)) = _ at har
    rw [counted_modify] at har
    obtain ⟨addition, hcounted, haddition⟩ := Option.map_eq_some_iff.1 har
    refine ⟨_, hreq addition rfl rfl rfl rfl rfl rfl hcounted, ?_⟩
    rw [findOpt_counted hcounted] at hfind
    rw [Sections.setAddition, ← modify_findIdx addition (Except.ok.inj hfind), haddition]
  | none =>
    change (if req.header.arcount.toNat = 65535 then _ else _) = _ at h
    split at h
    · cases h
    · next hne =>
      cases h
      have hcount : (req.header.arcount + 1).toNat = req.header.arcount.toNat + 1 := by
        have := req.header.arcount.toNat_lt
        rw [UInt16.toNat_add, UInt16.toNat_one]
        omega
      change counted (req.header.arcount + 1).toNat
        (req.addition.take req.header.arcount.toNat ++ [some optRecord]) = _ at har
      rw [hcount, counted_concat] at har
      obtain ⟨addition, hcounted, haddition⟩ := Option.map_eq_some_iff.1 har
      refine ⟨_, hreq addition rfl rfl rfl rfl rfl rfl hcounted, ?_⟩
      rw [findOpt_counted hcounted] at hfind
      have hnone := firstOpt_eq_none (Except.ok.inj hfind)
      rw [Sections.setAddition, withOpt_of_none hnone, haddition]

theorem staysInside_iff_sections {limit : ℕ} (hlimit : 12 ≤ limit) (h : m.sections = some s)
    (hs : s.Present) : StaysInside limit m ↔ Inside limit 12 s.sizes := by
  rw [← staysInside_iff hlimit (toMessage_holds h) hs]
  simp only [StaysInside, messageToU8_toMessage h]

/-- A request that can be sent is encoded inside of its buffer exactly when its entries have room
there, the OPT record included. -/
theorem requestStaysInside_iff_sizes (h : Sendable newId req) :
    RequestStaysInside newId req ↔ Inside clientBufferSize 12 req.requestSizes := by
  obtain ⟨sent, n, buffer, henc, hn⟩ := h
  obtain ⟨sent', hopt, henc⟩ := bind_eq_ok.1 henc
  obtain ⟨⟨n', buffer'⟩, hencode, henc⟩ := bind_eq_ok.1 henc
  cases henc
  obtain ⟨s', hs', hpresent⟩ := sections_of_messageToU8 hencode hn
  obtain ⟨s, hs, rfl⟩ := addOpt_sections hopt hs'
  have hsections : req.sections = some s := hs
  have hheader : 12 ≤ clientBufferSize := by decide
  have hinside := staysInside_iff_sections hheader hs' hpresent
  have hsent : addOpt (req.setId newId) = .ok sent := hopt
  rw [sizes_withOpt] at hinside
  rw [Message.requestSizes, hsections, Option.elim_some, ← hinside, RequestStaysInside, hsent]
  exact ⟨fun h => h _ rfl, fun h sent' heq => Except.ok.inj heq ▸ h⟩

end Request

section Transparent

variable {fuel : ℕ} {db : BucketTree} {x : Exchange} {cache : RrCache} {query m : Message}
  {q : MessageQuestion} {xs : List (Addr × CacheEntry)} {b : List UInt8}

/-- The call writes a message of at most `sendSize` bytes into the send buffer, which decodes to the
message `m` under the id of the query; and `m` itself, encoded, decodes to `m`. -/
def Relays (fuel now sendSize : ℕ) (db : BucketTree) (x : Exchange) (sendbuf : Mem)
    (cache : RrCache) (query m : Message) : Prop :=
  ∃ r, resolvHandle fuel now db x sendbuf cache query = .ok r ∧ r.ret = 1 ∧
    0 ≤ r.ansSize ∧ r.ansSize ≤ sendSize ∧
    (∀ i, i < 0 ∨ (sendSize : ℤ) ≤ i → r.sendbuf i = sendbuf i) ∧
    (∀ fuel', 255 ≤ fuel' → (messageFromBuf fuel' (r.sendbuf.slice 0 r.ansSize.toNat)
      r.ansSize.toNat Message.zero).result = some (1, m.setId query.header.id)) ∧
    ∃ n mem, messageToU8 m sendbuf 0 = .ok (n, mem) ∧
      ∀ fuel', 255 ≤ fuel' →
        (messageFromBuf fuel' (mem.slice 0 n.toNat) n.toNat Message.zero).result = some (1, m)

/-- A forwarded query stays inside the buffer of `send_question` and its client gets the message
that the reply decodes to, exactly when the query with its OPT record has room in that buffer. -/
theorem resolvHandle_transparent_iff {sendSize : ℕ} (hrep : CacheRep cache xs)
    (h : IsForwarded (recordsOf xs) db x.newId query q) (hx : x.outcome = .datagram b)
    (hreply : IsTransparentReply fuel x.newId sendSize b m) (now : ℕ) (sendbuf : Mem) :
    (RequestStaysInside x.newId query ∧ Relays fuel now sendSize db x sendbuf cache query m) ↔
      Inside clientBufferSize 12 query.requestSizes := by
  rw [← requestStaysInside_iff_sizes h.sendable]
  exact and_iff_left (resolvHandle_transparent hrep h hx hreply now sendbuf)

/-- A short query and a compressed reply. -/
theorem resolvHandle_transparent_iff_sample :
    RequestStaysInside 7 sampleQuery ∧
      Relays 16 0 4096 (treeInit rrHash) ⟨7, .datagram compressedReply⟩ (fun _ => 0) (initCache 0)
        sampleQuery compressedMessage := by
  have hfits : Inside clientBufferSize 12 sampleQuery.requestSizes := by decide
  have hx : (Exchange.mk 7 (.datagram compressedReply)).outcome = .datagram compressedReply := rfl
  exact (resolvHandle_transparent_iff (initCache_rep 0) sampleQuery_isForwarded hx
    compressedReply_transparent 0 fun _ => 0).2 hfits

theorem fullRequest_isForwarded :
    IsForwarded (recordsOf []) (treeInit rrHash) 7 fullRequest ⟨[1, 97, 0], rrtypeA, rrclassIn⟩ := by
  have hforwards : Forwards (recordsOf []) (treeInit rrHash) fullRequest :=
    .inr ⟨by decide, .inl (by decide)⟩
  have hsendable : Sendable 7 fullRequest := by
    have hsize : requestSize fullSections = 4102 := by
      rw [requestSize, ← length_messageWire fullRequest.header, ← fullDatagram, length_fullDatagram]
      rfl
    have henc := encodeRequest_eq fullRequest_holds fullSections_wire.encodes (by decide) 7
    rw [hsize] at henc
    exact ⟨_, _, _, henc, by decide⟩
  exact ⟨by decide, by decide, rfl, by decide, hforwards, hsendable⟩

/-- The query of 4091 bytes is forwarded, and its OPT record is written past the end. -/
theorem fullRequest_not_transparent :
    (messageFromBuf 255 fullDatagram fullDatagram.length Message.zero).result =
        some (1, fullRequest) ∧
      IsForwarded (recordsOf []) (treeInit rrHash) 7 fullRequest
        ⟨[1, 97, 0], rrtypeA, rrclassIn⟩ ∧
      IsTransparentReply 16 7 4096 compressedReply compressedMessage ∧
      ¬RequestStaysInside 7 fullRequest := by
  refine ⟨fullDatagram_decodes, fullRequest_isForwarded, compressedReply_transparent, ?_⟩
  rw [requestStaysInside_iff_sizes fullRequest_isForwarded.sendable]
  decide +kernel

end Transparent

end BakaDns
