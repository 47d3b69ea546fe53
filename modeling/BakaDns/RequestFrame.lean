import BakaDns.EncodeErrors

/-!
# What becomes of the request

`send_question` works on the message of its caller: it puts a new id and an OPT record into it,
encodes it, and puts the old id back once the datagram has been sent.
-/

namespace BakaDns
open CBytes

variable {fuel : ℕ} {x : Exchange} {req sent resp : Message} {s : Sections} {r : SendResult}

/-- The additional section, with its count, as it was, with an OPT record behind the counted
entries, or with the class and TTL of one OPT record changed. -/
inductive OptChange (n : ℕ) (addition : List (Option ResourceRecord)) :
    ℕ → List (Option ResourceRecord) → Prop
  | same : OptChange n addition n addition
  | gained (opt : ResourceRecord) (hopt : opt.type = rrtypeOpt) :
      OptChange n addition (n + 1) (addition.take n ++ [some opt])
  | updated (i : ℕ) (rr : ResourceRecord) (rrclass : UInt16) (ttl : UInt32) (hi : i < n)
      (hrr : addition[i]? = some (some rr)) (hopt : rr.type = rrtypeOpt) :
      OptChange n addition n (addition.set i (some { rr with rrclass := rrclass, ttl := ttl }))

/-- What `send_question` may do to its request. -/
structure Message.Intact (req req' : Message) : Prop where
  header : req'.header = { req.header with arcount := req'.header.arcount }
  question : req'.question = req.question
  answer : req'.answer = req.answer
  authority : req'.authority = req.authority
  addition : OptChange req.header.arcount.toNat req.addition req'.header.arcount.toNat req'.addition

theorem findOpt_none {n : ℕ} {rrs : List (Option ResourceRecord)} (h : findOpt n rrs = .ok none) :
    ∃ ys, counted n rrs = some ys ∧ firstOpt ys = none := by
  induction n generalizing rrs with
  | zero => exact ⟨[], rfl, rfl⟩
  | succ n ih =>
    rcases rrs with _ | ⟨_ | rr, rrs⟩
    · cases h
    · cases h
    · rw [findOpt] at h
      split at h
      · cases h
      · next hne =>
        obtain ⟨i, hi, h⟩ := bind_eq_ok.1 h
        obtain rfl : i = none := Option.map_eq_none_iff.1 (Except.ok.inj h)
        obtain ⟨ys, hys, hfirst⟩ := ih hi
        refine ⟨rr :: ys, by rw [counted, hys]; rfl, ?_⟩
        rw [firstOpt, List.find?_cons_of_neg (by simpa using hne)]
        exact hfirst

/-- The record that is found, and what changing it does to the counted entries. -/
theorem findOpt_some {n i : ℕ} {rrs : List (Option ResourceRecord)}
    (h : findOpt n rrs = .ok (some i)) :
    i < n ∧ (∃ rr, rrs[i]? = some (some rr) ∧ rr.type = rrtypeOpt) ∧
      counted n (rrs.modify i (Option.map setOptTtl)) =
        (counted n rrs).map (withOpt setOptTtl) := by
  induction n generalizing rrs i with
  | zero => cases h
  | succ n ih =>
    rcases rrs with _ | ⟨_ | rr, rrs⟩
    · cases h
    · cases h
    · rw [findOpt] at h
      split at h
      · next hopt =>
        cases h
        refine ⟨Nat.succ_pos n, ⟨rr, rfl, hopt⟩, ?_⟩
        cases hc : counted n rrs with
        | none => simp [counted, hc]
        | some ys => simp [counted, hc, withOpt, hopt]
      · next hne =>
        obtain ⟨j, hj, h⟩ := bind_eq_ok.1 h
        obtain ⟨k, rfl, rfl⟩ := Option.map_eq_some_iff.1 (Except.ok.inj h)
        obtain ⟨hk, hrr, hmod⟩ := ih hj
        refine ⟨Nat.succ_lt_succ hk, hrr, ?_⟩
        simp only [List.modify_succ_cons, counted, hmod, Option.map_map]
        congr 1
        funext ys
        simp [withOpt, hne]

theorem counted_take_append {α : Type} {n : ℕ} {xs : List (Option α)} {ys : List α}
    (h : counted n xs = some ys) (y : α) :
    counted (n + 1) (xs.take n ++ [some y]) = some (ys ++ [y]) := by
  induction n generalizing xs ys with
  | zero =>
    cases h
    rfl
  | succ n ih =>
    rcases xs with _ | ⟨_ | x, xs⟩
    · cases h
    · cases h
    · obtain ⟨zs, hzs, rfl⟩ := Option.map_eq_some_iff.1 h
      rw [List.take_succ_cons, List.cons_append, counted, ih hzs]
      rfl

/-- The sections of a message whose additional section has been changed. -/
theorem sections_setAddition {f : List ResourceRecord → List ResourceRecord}
    (hheader : sent.header = { req.header with arcount := sent.header.arcount })
    (hq : sent.question = req.question) (han : sent.answer = req.answer)
    (hns : sent.authority = req.authority)
    (har : counted sent.header.arcount.toNat sent.addition =
      (counted req.header.arcount.toNat req.addition).map f) :
    sent.sections = req.sections.map fun s => s.setAddition (f s.addition) := by
  have hqd : sent.header.qdcount = req.header.qdcount := by rw [hheader]
  have hanc : sent.header.ancount = req.header.ancount := by rw [hheader]
  have hnsc : sent.header.nscount = req.header.nscount := by rw [hheader]
  simp only [Message.sections, hq, han, hns, har, hqd, hanc, hnsc, bind]
  rcases counted req.header.qdcount.toNat req.question with _ | question
  · rfl
  rcases counted req.header.ancount.toNat req.answer with _ | answer
  · rfl
  rcases counted req.header.nscount.toNat req.authority with _ | authority
  · rfl
  rcases counted req.header.arcount.toNat req.addition with _ | addition
  · rfl
  · rfl

/-- The EDNS part of `send_question`. -/
theorem addOpt_intact (h : addOpt req = .ok sent) :
    req.Intact sent ∧ sent.sections =
      req.sections.map fun s => s.setAddition (withOpt setOptTtl s.addition) := by
  obtain ⟨found, hfind, h⟩ := bind_eq_ok.1 h
  cases found with
  | some i =>
    obtain ⟨hi, ⟨rr, hrr, hopt⟩, hcounted⟩ := findOpt_some hfind
    cases h
    have hset : req.addition.modify i (Option.map setOptTtl) =
        req.addition.set i (some (setOptTtl rr)) := by
      rw [List.modify_eq_set_getElem?, hrr]
      rfl
    refine ⟨⟨rfl, rfl, rfl, rfl, ?_⟩, sections_setAddition rfl rfl rfl rfl hcounted⟩
    exact hset ▸ OptChange.updated i rr _ _ hi hrr hopt
  | none =>
    obtain ⟨ys, hys, hfirst⟩ := findOpt_none hfind
    dsimp only at h
    split at h
    · cases h
    · next hlt =>
      cases h
      have hsucc : (req.header.arcount + 1).toNat = req.header.arcount.toNat + 1 := by
        have := UInt16.toNat_lt req.header.arcount
        rw [UInt16.toNat_add, UInt16.toNat_one, Nat.mod_eq_of_lt (by omega)]
      have hopt : createResourceRecord [0] rrtypeOpt (UInt16.ofNat clientBufferSize) 0 0 [0] =
          some optRecord := by decide
      rw [hopt]
      refine ⟨⟨rfl, rfl, rfl, rfl, ?_⟩, sections_setAddition rfl rfl rfl rfl ?_⟩
      · dsimp only
        rw [hsucc]
        exact .gained optRecord rfl
      · dsimp only
        rw [hsucc, counted_take_append hys, hys, Option.map_some, withOpt_of_none hfirst]

theorem msgQuestionToU8_size {q : MessageQuestion} {mem : Mem} {dest : ℤ} {w : ℤ × Mem}
    (h : msgQuestionToU8 q mem dest = .ok w) : w.1 = movement [questionSize q] := by
  rw [msgQuestionToU8] at h
  split at h
  · cases h
  · split at h
    · next hn =>
      cases h
      rw [questionSize, hn]
      rfl
    · next n hn =>
      cases h
      rw [questionSize, hn, Option.map_some, movement_some, Nat.cast_add, Nat.cast_ofNat]

theorem msgRrToU8_size {rr : ResourceRecord} {mem : Mem} {dest : ℤ} {w : ℤ × Mem}
    (h : msgRrToU8 rr mem dest = .ok w) : w.1 = movement [rrSize rr] := by
  rw [msgRrToU8] at h
  split at h
  · cases h
  · split at h
    · next hn =>
      cases h
      rw [rrSize, hn]
      rfl
    · next n hn =>
      rw [rrSize, hn, Option.map_some, movement_some]
      dsimp only at h
      split at h
      · next h0 =>
        cases h
        simp [h0]
      · split at h
        · cases h
        · cases h
          simp

/-- The size of one section, when the encoder came through it. -/
theorem sectionToU8_size {α : Type} {toU8 : α → Mem → ℤ → Except Fault (ℤ × Mem)}
    {size : α → Option ℕ}
    (hsize : ∀ x mem dest w, toU8 x mem dest = .ok w → w.1 = movement [size x])
    {n : ℕ} {xs : List (Option α)} {ys : List α} (hys : counted n xs = some ys) {mem : Mem}
    {dest : ℤ} {w : Bool × Mem × ℤ} (h : sectionToU8 toU8 n xs mem dest = .ok w) :
    w.1 = true ∧ w.2.2 = movement (ys.map size) := by
  induction n generalizing xs ys mem dest w with
  | zero =>
    cases hys
    cases h
    exact ⟨rfl, rfl⟩
  | succ n ih =>
    rcases xs with _ | ⟨_ | x, xs⟩
    · cases hys
    · cases hys
    · obtain ⟨zs, hzs, rfl⟩ := Option.map_eq_some_iff.1 hys
      obtain ⟨u, hu, h⟩ := bind_eq_ok.1 h
      obtain ⟨v, hv, h⟩ := bind_eq_ok.1 h
      cases h
      obtain ⟨hvalid, hrest⟩ := ih hzs hv
      refine ⟨hvalid, ?_⟩
      have hcons := movement_append [size x] (zs.map size)
      rw [List.singleton_append] at hcons
      rw [List.map_cons, hcons, ← hsize x _ _ u hu, ← hrest]

/-- One section of the encoder: it holds a NULL and nothing more is read, or it adds its size. -/
theorem sectionToU8_step {α : Type} {toU8 : α → Mem → ℤ → Except Fault (ℤ × Mem)}
    {size : α → Option ℕ}
    (hsize : ∀ x mem dest w, toU8 x mem dest = .ok w → w.1 = movement [size x])
    {n : ℕ} {xs : List (Option α)} {mem : Mem} {dest : ℤ} {r : ℤ × Mem}
    {rest : Bool × Mem × ℤ → Except Fault (ℤ × Mem)}
    (h : (sectionToU8 toU8 n xs mem dest >>= fun w =>
      if ¬w.1 then pure (-1, w.2.1) else rest w) = .ok r) :
    (counted n xs = none ∧ r.1 = -1) ∨
      ∃ ys w, counted n xs = some ys ∧ w.2.2 = movement (ys.map size) ∧ rest w = .ok r := by
  obtain ⟨w, hw, h⟩ := bind_eq_ok.1 h
  rcases hc : counted n xs with _ | ys
  · rw [sectionToU8_not_counted hc hw] at h
    cases h
    exact .inl ⟨rfl, rfl⟩
  · obtain ⟨hvalid, hmove⟩ := sectionToU8_size hsize hc hw
    rw [if_neg (not_not.2 hvalid)] at h
    exact .inr ⟨ys, w, rfl, hmove, h⟩

/-- The value `message_to_u8` returns for any message it gets through: -1 for a NULL, else the sum
of the sizes. -/
theorem messageToU8_ret {m : Message} {mem : Mem} {dest : ℤ} {w : ℤ × Mem}
    (h : messageToU8 m mem dest = .ok w) :
    w.1 = match m.sections with
      | none => -1
      | some s => ((s.encodedSize : ℤ) - s.overlongCount).bmod (2 ^ 32) := by
  have hqsize := fun q mem dest w => @msgQuestionToU8_size q mem dest w
  have hrrsize := fun rr mem dest w => @msgRrToU8_size rr mem dest w
  simp only [messageToU8, msgHeaderToU8_eq] at h
  rcases sectionToU8_step hqsize h with ⟨hqd, hret⟩ | ⟨question, q, hqd, hq', h⟩
  · simp [Message.sections, hqd, hret]
  rcases sectionToU8_step hrrsize h with ⟨han, hret⟩ | ⟨answer, an, han, han', h⟩
  · simp [Message.sections, hqd, han, hret]
  rcases sectionToU8_step hrrsize h with ⟨hns, hret⟩ | ⟨authority, ns, hns, hns', h⟩
  · simp [Message.sections, hqd, han, hns, hret]
  rcases sectionToU8_step hrrsize h with ⟨har, hret⟩ | ⟨addition, ar, har, har', h⟩
  · simp [Message.sections, hqd, han, hns, har, hret]
  cases h
  have hsec : m.sections = some ⟨question, answer, authority, addition⟩ := by
    simp [Message.sections, hqd, han, hns, har]
  rw [hsec]
  dsimp only
  rw [← encodedSize_sub_overlongCount, Sections.sizes, movement_append, movement_append,
    movement_append, hq', han', hns', har']
  dsimp only
  congr 1
  omega

/-- The size of the request with its OPT record, overlong names taken off, is not negative as an
`int`. -/
def Sections.FitsInt (s : Sections) : Prop :=
  ((s.encodedSize + (if firstOpt s.addition = none then 11 else 0) : ℤ) - s.overlongCount) %
    2 ^ 32 < 2 ^ 31

theorem fitsInt_iff (s : Sections) :
    s.FitsInt ↔ 0 ≤ (((s.setAddition (withOpt setOptTtl s.addition)).encodedSize : ℤ) -
      (s.setAddition (withOpt setOptTtl s.addition)).overlongCount).bmod (2 ^ 32) := by
  rw [Sections.FitsInt, Sections.encodedSize, Sections.encodedSize, Sections.overlongCount,
    Sections.overlongCount, sizes_withOpt, List.reduceOption_append, List.sum_append,
    List.count_append, optSize, Int.bmod_def]
  by_cases hopt : firstOpt s.addition = none
  · have hsum : ([some 11] : List (Option ℕ)).reduceOption.sum = 11 := by decide
    have hcount : ([some 11] : List (Option ℕ)).count none = 0 := by decide
    rw [if_pos hopt, if_pos hopt, hsum, hcount]
    omega
  · have hsum : ([] : List (Option ℕ)).reduceOption.sum = 0 := by decide
    have hcount : ([] : List (Option ℕ)).count none = 0 := by decide
    rw [if_neg hopt, if_neg hopt, hsum, hcount]
    omega

/-- The request goes out exactly when it holds no NULL and its size is not negative. -/
theorem encodeRequest_sign {newId : UInt16} {n : ℤ} {buffer : Mem}
    (h : encodeRequest newId req = .ok (sent, n, buffer)) :
    (req.setId newId).Intact sent ∧ (0 ≤ n ↔ ∃ s, req.sections = some s ∧ s.FitsInt) := by
  obtain ⟨sent', hopt, h⟩ := bind_eq_ok.1 h
  obtain ⟨w, henc, h⟩ := bind_eq_ok.1 h
  cases h
  obtain ⟨hintact, hsec⟩ := addOpt_intact hopt
  have hid : (req.setId newId).sections = req.sections := rfl
  rw [Message.setId] at hid
  refine ⟨hintact, ?_⟩
  rw [messageToU8_ret henc, hsec, hid]
  rcases req.sections with _ | s
  · simp
  · simp only [Option.map_some, Option.some.injEq, exists_eq_left']
    exact (fitsInt_iff s).symm

theorem intact_setId {newId : UInt16} (h : (req.setId newId).Intact sent) :
    req.Intact (sent.setId req.header.id) where
  header := by
    have hheader := h.header
    simp only [Message.setId] at hheader ⊢
    rw [hheader]
  question := h.question
  answer := h.answer
  authority := h.authority
  addition := h.addition

theorem intact_iff {newId : UInt16} (h : (req.setId newId).Intact sent) :
    req.Intact sent ↔ newId = req.header.id := by
  have hid : sent.header.id = newId := by rw [h.header]; rfl
  constructor
  · intro hintact
    rw [← hid, hintact.header]
  · rintro rfl
    exact h

/-- On every path that returns, the request is intact exactly when the option could not be set,
the new id is the old one, or the request could be encoded. -/
theorem sendQuestion_intact_iff (h : sendQuestion fuel x req resp = .ok r) :
    req.Intact r.req ↔ x.outcome = .optionFail ∨ x.newId = req.header.id ∨
      ∃ s, req.sections = some s ∧ s.FitsInt := by
  rw [sendQuestion] at h
  split at h
  · cases h
  · split at h
    · next hx =>
      cases h
      exact iff_of_true ⟨rfl, rfl, rfl, rfl, .same⟩ (.inl hx)
    · next hx =>
      obtain ⟨⟨sent, n, buffer⟩, henc, h⟩ := bind_eq_ok.1 h
      obtain ⟨hintact, hsign⟩ := encodeRequest_sign henc
      rw [or_iff_right hx, ← hsign]
      dsimp only at h
      split at h
      · next hneg =>
        cases h
        rw [intact_iff hintact, or_iff_left (Int.not_le.2 hneg)]
      · next hpos =>
        obtain ⟨v, -, h⟩ := bind_eq_ok.1 h
        cases h
        exact iff_of_true (intact_setId hintact) (.inr (Int.not_lt.1 hpos))

theorem sendQuestion_intact_iff_sample :
    ∃ r, sendQuestion 16 ⟨7, .recvFail⟩ sampleQuery Message.zero = .ok r ∧
      sampleQuery.Intact r.req := by
  have hrun : (sendQuestion 16 ⟨7, .recvFail⟩ sampleQuery Message.zero).toOption.map
      (fun r => r.ret) = some (-1) := by decide +kernel
  obtain ⟨r, hr, -⟩ := ok_of_toOption_map hrun
  refine ⟨r, hr, (sendQuestion_intact_iff hr).2 (.inr (.inr ⟨_, sampleQuery_sections, ?_⟩))⟩
  unfold Sections.FitsInt
  decide +kernel

/-- A STATUS request with 24 questions for overlong names. The name has to be in the datagram only
once. -/
def overlongStatus : Message where
  header := ⟨0x1234, 0x10, 0, 24, 0, 0, 0⟩
  question := List.replicate 24 (some ⟨List.replicate 255 97 ++ [0], rrtypeA, rrclassIn⟩)
  answer := []
  authority := []
  addition := []

/-- The request is left under the new id. -/
theorem overlongStatus_not_intact :
    ∃ r, sendQuestion 16 ⟨7, .recvFail⟩ overlongStatus Message.zero = .ok r ∧ r.ret = -1 ∧
      r.req.header.id = 7 ∧ ¬overlongStatus.Intact r.req := by
  have hrun : (sendQuestion 16 ⟨7, .recvFail⟩ overlongStatus Message.zero).toOption.map
      (fun r => (r.ret, r.req.header.id)) = some (-1, 7) := by decide +kernel
  obtain ⟨r, hr, hres⟩ := ok_of_toOption_map hrun
  obtain ⟨hret, hid⟩ := Prod.mk.inj hres
  refine ⟨r, hr, hret, hid, fun hintact => ?_⟩
  have hold : r.req.header.id = 0x1234 := by
    rw [hintact.header]
    rfl
  rw [hid] at hold
  exact absurd hold (by decide)

end BakaDns
