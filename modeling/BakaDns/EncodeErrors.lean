import BakaDns.EncodeBounds

/-!
# What the encoder's errors become

The -1 that a question or record with an overlong name gives is added to the size of its section
like any other size. `message_to_u8` returns the sum, and its callers only look at the sign.
-/

namespace BakaDns
open CBytes

/-- The first `n` entries of an array, when there are so many and none of them is NULL. -/
def counted {α : Type} : ℕ → List (Option α) → Option (List α)
  | 0, _ => some []
  | n + 1, some x :: xs => (counted n xs).map fun ys => x :: ys
  | _ + 1, _ => none

/-- The entries that the header counts, when the section pointers are present. -/
def Message.sections (m : Message) : Option Sections := do
  let question ← counted m.header.qdcount.toNat m.question
  let answer ← counted m.header.ancount.toNat m.answer
  let authority ← counted m.header.nscount.toNat m.authority
  let addition ← counted m.header.arcount.toNat m.addition
  some ⟨question, answer, authority, addition⟩

/-- Some name is longer than 255 bytes. -/
def Sections.Overlong (s : Sections) : Prop :=
  (∃ q ∈ s.question, domainLen q.qname = none) ∨
    ∃ rr ∈ s.answer ++ (s.authority ++ s.addition), domainLen rr.name = none

/-- How many names are overlong. -/
def Sections.overlongCount (s : Sections) : ℕ := s.sizes.count none

/-- The bytes of the header and of the entries whose names are not overlong. -/
def Sections.encodedSize (s : Sections) : ℕ := 12 + s.sizes.reduceOption.sum

/-- By how much entries of the sizes given move the cursor. -/
def movement (sizes : List (Option ℕ)) : ℤ := sizes.reduceOption.sum - sizes.count none

section Counted

variable {α : Type} {toU8 : α → Mem → ℤ → Except Fault (ℤ × Mem)} {n : ℕ} {xs : List (Option α)}
  {ys : List α}

theorem length_counted (h : counted n xs = some ys) : ys.length = n := by
  induction n generalizing xs ys with
  | zero =>
    cases h
    rfl
  | succ n ih =>
    rcases xs with _ | ⟨_ | x, xs⟩
    · cases h
    · cases h
    · obtain ⟨zs, hzs, rfl⟩ := Option.map_eq_some_iff.1 h
      rw [List.length_cons, ih hzs]

/-- What stands behind the counted entries is not looked at. -/
theorem sectionToU8_counted (h : counted n xs = some ys) (mem : Mem) (dest : ℤ) :
    sectionToU8 toU8 n xs mem dest = sectionToU8 toU8 n (ys.map some) mem dest := by
  induction n generalizing xs ys mem dest with
  | zero =>
    cases h
    rfl
  | succ n ih =>
    rcases xs with _ | ⟨_ | x, xs⟩
    · cases h
    · cases h
    · obtain ⟨zs, hzs, rfl⟩ := Option.map_eq_some_iff.1 h
      simp only [List.map_cons, sectionToU8, ih hzs]

/-- A NULL among the counted entries is noticed. -/
theorem sectionToU8_not_counted (h : counted n xs = none) {mem : Mem} {dest : ℤ}
    {r : Bool × Mem × ℤ} (hr : sectionToU8 toU8 n xs mem dest = .ok r) : r.1 = false := by
  induction n generalizing xs mem dest r with
  | zero => cases h
  | succ n ih =>
    rcases xs with _ | ⟨_ | x, xs⟩
    · cases hr
      rfl
    · cases hr
      rfl
    · obtain ⟨w, -, hr⟩ := bind_eq_ok.1 hr
      obtain ⟨v, hv, hr⟩ := bind_eq_ok.1 hr
      cases hr
      have hvalid : v.1 = false := ih (Option.map_eq_none_iff.1 h) hv
      exact hvalid

end Counted

section Sizes

variable {s : Sections}

theorem movement_append (xs ys : List (Option ℕ)) :
    movement (xs ++ ys) = movement xs + movement ys := by
  simp only [movement, List.reduceOption_append, List.sum_append, List.count_append, Nat.cast_add]
  omega

theorem movement_some (n : ℕ) : movement [some n] = n := by
  simp [movement, List.reduceOption_cons_of_some]

theorem advances_eq_movement (entries : List (Option (List UInt8))) :
    advances entries = movement (entries.map (Option.map List.length)) := by
  induction entries with
  | nil => rfl
  | cons x entries ih =>
    have hcons := movement_append [x.map List.length] (entries.map (Option.map List.length))
    rw [List.singleton_append] at hcons
    rw [advances, List.map_cons, List.sum_cons, List.map_cons, hcons, ← ih, advances]
    cases x with
    | none => rfl
    | some bs => rw [Option.map_some, movement_some, advance]

theorem encodedSize_sub_overlongCount (s : Sections) :
    12 + movement s.sizes = (s.encodedSize : ℤ) - s.overlongCount := by
  rw [movement, Sections.encodedSize, Sections.overlongCount, Nat.cast_add, Nat.cast_ofNat]
  omega

theorem overlongCount_pos : 0 < s.overlongCount ↔ s.Overlong := by
  rw [Sections.overlongCount, List.count_pos_iff]
  simp [Sections.sizes, Sections.Overlong, questionSize, rrSize, or_and_right, exists_or]

theorem Sections.Present.encodes (hs : s.Present) (h : ¬s.Overlong) : s.Encodes := by
  simp only [Sections.Overlong, not_or, not_exists, not_and, List.mem_append] at h
  obtain ⟨hq, hrr⟩ := h
  refine ⟨fun q hmem => ⟨hs.question q hmem, hq q hmem⟩, fun rr hmem => ?_, fun rr hmem => ?_,
    fun rr hmem => ?_⟩
  · have hshort := hrr rr (.inl hmem)
    exact ⟨(hs.answer rr hmem).1, hshort, (hs.answer rr hmem).2 hshort⟩
  · have hshort := hrr rr (.inr (.inl hmem))
    exact ⟨(hs.authority rr hmem).1, hshort, (hs.authority rr hmem).2 hshort⟩
  · have hshort := hrr rr (.inr (.inr hmem))
    exact ⟨(hs.addition rr hmem).1, hshort, (hs.addition rr hmem).2 hshort⟩

theorem length_flatMap_of_sizes {α : Type} {wire : α → List UInt8} {size : α → Option ℕ}
    {xs : List α} (h : ∀ x ∈ xs, size x = some (wire x).length) :
    (xs.flatMap wire).length = (xs.map size).reduceOption.sum := by
  induction xs with
  | nil => rfl
  | cons x xs ih =>
    rw [List.flatMap_cons, List.length_append, ih fun y hy => h y (List.mem_cons_of_mem x hy),
      List.map_cons, h x List.mem_cons_self, List.reduceOption_cons_of_some, List.sum_cons]

theorem Sections.Encodes.length_wire (hs : s.Encodes) : 12 + s.wire.length = s.encodedSize := by
  have hq : ∀ q ∈ s.question, questionSize q = some (questionWire q).length := by
    intro q hmem
    obtain ⟨n, hn⟩ := Option.ne_none_iff_exists'.1 (hs.question q hmem).2
    simp only [← length_questionEntry, questionEntry, hn, Option.map_some]
  have hrr : ∀ rr : ResourceRecord, rr.Encodes → rrSize rr = some (rrWire rr).length := by
    intro rr henc
    obtain ⟨n, hn⟩ := Option.ne_none_iff_exists'.1 henc.2.1
    simp only [← length_rrEntry, rrEntry, hn, Option.map_some]
  have han := length_flatMap_of_sizes fun rr hmem => hrr rr (hs.answer rr hmem)
  have hns := length_flatMap_of_sizes fun rr hmem => hrr rr (hs.authority rr hmem)
  have har := length_flatMap_of_sizes fun rr hmem => hrr rr (hs.addition rr hmem)
  simp only [Sections.wire, Sections.encodedSize, Sections.sizes, List.length_append,
    length_flatMap_of_sizes hq, han, hns, har, List.reduceOption_append, List.sum_append]

end Sizes

section Errors

variable {m : Message} {s : Sections}

/-- The message that has just the counted entries in its arrays. -/
def Sections.toMessage (s : Sections) (header : MessageHeader) : Message :=
  ⟨header, s.question.map some, s.answer.map some, s.authority.map some, s.addition.map some⟩

theorem sections_eq_some (h : m.sections = some s) :
    counted m.header.qdcount.toNat m.question = some s.question ∧
      counted m.header.ancount.toNat m.answer = some s.answer ∧
      counted m.header.nscount.toNat m.authority = some s.authority ∧
      counted m.header.arcount.toNat m.addition = some s.addition := by
  simp only [Message.sections, bind, Option.bind_eq_some_iff] at h
  obtain ⟨question, hq, answer, han, authority, hns, addition, har, h⟩ := h
  cases h
  exact ⟨hq, han, hns, har⟩

theorem toMessage_holds (h : m.sections = some s) : (s.toMessage m.header).Holds s := by
  obtain ⟨hq, han, hns, har⟩ := sections_eq_some h
  exact ⟨rfl, rfl, rfl, rfl, (length_counted hq).symm, (length_counted han).symm,
    (length_counted hns).symm, (length_counted har).symm⟩

theorem messageToU8_toMessage (h : m.sections = some s) (mem : Mem) (dest : ℤ) :
    messageToU8 m mem dest = messageToU8 (s.toMessage m.header) mem dest := by
  obtain ⟨hq, han, hns, har⟩ := sections_eq_some h
  simp only [messageToU8, Sections.toMessage, sectionToU8_counted hq, sectionToU8_counted han,
    sectionToU8_counted hns, sectionToU8_counted har]

/-- What the caller of the encoder relies on: an overlong name is an error, any other message is
written as a whole and its size returned, and a positive size always comes with the whole message. -/
structure Message.ReportsErrors (m : Message) (s : Sections) : Prop where
  error : s.Overlong → ∀ mem, ∃ mem', messageToU8 m mem 0 = .ok (-1, mem')
  size : ¬s.Overlong → ∀ mem, messageToU8 m mem 0 =
    .ok ((headerWire m.header ++ s.wire).length, mem.write 0 (headerWire m.header ++ s.wire))
  complete : ∀ mem n mem', messageToU8 m mem 0 = .ok (n, mem') → 0 < n →
    mem' = mem.write 0 (headerWire m.header ++ s.wire)

/-- The value returned, overlong names or not. -/
theorem messageToU8_present (h : m.sections = some s) (hs : s.Present) (mem : Mem) :
    ∃ mem', messageToU8 m mem 0 =
      .ok (((s.encodedSize : ℤ) - s.overlongCount).bmod (2 ^ 32), mem') := by
  have hrun := messageToU8_entries (toMessage_holds h) hs mem
  rw [← messageToU8_toMessage h, advances_eq_movement, length_entries,
    encodedSize_sub_overlongCount] at hrun
  exact ⟨_, hrun⟩

/-- Without overlong names the whole message is written. -/
theorem messageToU8_complete (h : m.sections = some s) (hs : s.Present) (hover : ¬s.Overlong)
    (mem : Mem) :
    messageToU8 m mem 0 = .ok ((s.encodedSize : ℤ).bmod (2 ^ 32),
      mem.write 0 (headerWire m.header ++ s.wire)) ∧
        (headerWire m.header ++ s.wire).length = s.encodedSize := by
  have hrun := messageToU8_eq (toMessage_holds h) (hs.encodes hover) mem 0
  rw [← messageToU8_toMessage h] at hrun
  have hsize := (hs.encodes hover).length_wire
  rw [hsize] at hrun
  rw [length_messageWire]
  exact ⟨hrun, hsize⟩

/-- The errors of the encoder are reported exactly when there are none and the size fits into an
`int`, or when the ones there are happen to add up to -1. -/
theorem reportsErrors_iff (h : m.sections = some s) (hs : s.Present) :
    m.ReportsErrors s ↔ (¬s.Overlong ∧ s.encodedSize < 2 ^ 31) ∨
      (s.Overlong ∧ s.overlongCount ≡ s.encodedSize + 1 [MOD 2 ^ 32]) := by
  by_cases hover : s.Overlong
  · have hret : ((s.encodedSize : ℤ) - s.overlongCount).bmod (2 ^ 32) = -1 ↔
        s.overlongCount ≡ s.encodedSize + 1 [MOD 2 ^ 32] := by
      rw [Nat.ModEq, Int.bmod_def]
      omega
    rw [← hret]
    constructor
    · intro hrep
      obtain ⟨mem', herr⟩ := hrep.error hover fun _ => 0
      obtain ⟨mem'', hrun⟩ := messageToU8_present h hs fun _ => 0
      rw [hrun] at herr
      exact .inr ⟨hover, (Prod.mk.inj (Except.ok.inj herr)).1⟩
    · rintro (⟨hno, -⟩ | ⟨-, hneg⟩)
      · exact absurd hover hno
      · refine ⟨fun _ mem => ?_, fun hno => absurd hover hno, fun mem n mem' hmem hn => ?_⟩
        · obtain ⟨mem', hrun⟩ := messageToU8_present h hs mem
          rw [hneg] at hrun
          exact ⟨mem', hrun⟩
        · obtain ⟨mem'', hrun⟩ := messageToU8_present h hs mem
          rw [hneg, hmem] at hrun
          obtain rfl := (Prod.mk.inj (Except.ok.inj hrun)).1
          omega
  · have hrun := messageToU8_complete h hs hover
    have hret : (s.encodedSize : ℤ).bmod (2 ^ 32) = s.encodedSize ↔ s.encodedSize < 2 ^ 31 := by
      rw [Int.bmod_def]
      omega
    rw [← hret]
    constructor
    · intro hrep
      have hsize := hrep.size hover fun _ => 0
      rw [(hrun _).1, (hrun fun _ => 0).2] at hsize
      exact .inl ⟨hover, (Prod.mk.inj (Except.ok.inj hsize)).1⟩
    · rintro (⟨-, hfit⟩ | ⟨hyes, -⟩)
      · refine ⟨fun hyes => absurd hyes hover, fun _ mem => ?_, fun mem n mem' hmem _ => ?_⟩
        · rw [(hrun mem).1, (hrun mem).2, hfit]
        · rw [(hrun mem).1] at hmem
          exact (Prod.mk.inj (Except.ok.inj hmem)).2.symm
      · exact absurd hyes hover

/-- A query for a name of 255 bytes and its terminator. -/
def overlongSections : Sections where
  question := [⟨List.replicate 255 97 ++ [0], rrtypeA, rrclassIn⟩]
  answer := []
  authority := []
  addition := []

def overlongQuery : Message := overlongSections.toMessage ⟨0x1234, 1, 0, 1, 0, 0, 0⟩

theorem overlongSections_present : overlongSections.Present where
  question q hq := by
    obtain rfl := List.mem_singleton.1 hq
    exact List.append_ne_nil_of_right_ne_nil _ (List.cons_ne_nil 0 [])
  answer rr hrr := by cases hrr
  authority rr hrr := by cases hrr
  addition rr hrr := by cases hrr

theorem overlongQuery_sections : overlongQuery.sections = some overlongSections := by
  decide +kernel

theorem overlongSections_counts :
    overlongSections.overlongCount = 1 ∧ overlongSections.encodedSize = 12 := by
  decide +kernel

theorem overlongSections_overlong : overlongSections.Overlong :=
  overlongCount_pos.1 (by rw [overlongSections_counts.1]; exact Nat.one_pos)

theorem sampleQuery_sections :
    sampleQuery.sections = some ⟨[⟨[1, 97, 0], rrtypeA, rrclassIn⟩], [], [], []⟩ := by
  decide +kernel

theorem reportsErrors_iff_sample :
    sampleQuery.ReportsErrors ⟨[⟨[1, 97, 0], rrtypeA, rrclassIn⟩], [], [], []⟩ ∧
      ¬overlongQuery.ReportsErrors overlongSections := by
  obtain ⟨hcount, hsize⟩ := overlongSections_counts
  constructor
  · apply (reportsErrors_iff sampleQuery_sections ?_).2
    · left
      rw [← overlongCount_pos]
      decide +kernel
    · refine ⟨?_, ?_, ?_, ?_⟩ <;> simp
  · rw [reportsErrors_iff overlongQuery_sections overlongSections_present, hcount, hsize]
    rintro (⟨hno, -⟩ | ⟨-, hmod⟩)
    · exact hno overlongSections_overlong
    · exact absurd hmod (by decide)

/-- The overlong query is encoded as 11 bytes. -/
theorem overlongQuery_not_reportsErrors :
    overlongQuery.sections = some overlongSections ∧ overlongSections.Present ∧
      overlongSections.Overlong ∧ (∃ mem, messageToU8 overlongQuery (fun _ => 0) 0 = .ok (11, mem)) ∧
      ¬overlongQuery.ReportsErrors overlongSections := by
  obtain ⟨hcount, hsize⟩ := overlongSections_counts
  obtain ⟨mem, hrun⟩ := messageToU8_present overlongQuery_sections overlongSections_present
    fun _ => 0
  rw [hcount, hsize] at hrun
  refine ⟨overlongQuery_sections, overlongSections_present, overlongSections_overlong, ⟨mem, hrun⟩,
    fun hrep => ?_⟩
  obtain ⟨mem', herr⟩ := hrep.error overlongSections_overlong fun _ => 0
  rw [hrun] at herr
  exact absurd (Prod.mk.inj (Except.ok.inj herr)).1 (by decide)

end Errors

end BakaDns
