import BakaDns.RoundTrip
import BakaDns.Trees

/-!
# Compressed names

A name is a run of label bytes that a zero or a pointer ends, and a pointer leads to another run.
The expanded name is the label bytes of the runs on this chain. `read_domain` keeps its length,
its output and the bytes it passes in three variables, and looks at every byte of a label.
-/

namespace BakaDns
open CBytes ReadTrace

/-- `read_domain` with the variables of its loop: `src`, the memory behind `dest`, `dest`,
`buf_domain_len` and `*_offset`. The result is the memory, the return value and `*_offset`. -/
def readDomainLoop (base : List UInt8) : ℕ → ℕ → Mem → ℤ → ℤ → ℤ → Option (Mem × ℤ × ℤ)
  | 0, _, _, _, _, _ => none
  | fuel + 1, src, mem, dest, bufDomainLen, offset =>
    let c := byteAt base src
    if c = 0 then
      some (mem, bufDomainLen, offset + 1)
    else if isPointer c then do
      -- the call has a length and an offset of its own, and the offset is dropped
      let (mem, ret, _) ←
        readDomainLoop base fuel (pointerTarget c (byteAt base (src + 1))) mem dest 1 0
      let dlen := ret - 1
      some (mem, bufDomainLen + dlen, offset + 1 + 1)
    else
      readDomainLoop base fuel (src + 1) (mem.write dest [c]) (dest + 1) (bufDomainLen + 1)
        (offset + 1)

/-- The label bytes from `p` on, up to a zero or a pointer. -/
def labelRun (buf : List UInt8) (p : ℕ) : List UInt8 :=
  (buf.drop p).takeWhile fun c => c ≠ 0 ∧ isPointer c = false

/-- The label bytes of the first `n` runs on the chain of pointers from `p`. -/
def expandRuns (buf : List UInt8) : ℕ → ℕ → List UInt8
  | 0, _ => []
  | n + 1, p => labelRun buf p ++ ((jump buf p).elim [] fun q => expandRuns buf n q)

/-- The expanded name. A chain that only goes down has at most `p + 1` runs. -/
def expand (buf : List UInt8) (p : ℕ) : List UInt8 := expandRuns buf (p + 1) p

/-- A name inside the buffer whose pointers go strictly down, short enough for `domainbuf`. -/
structure IsCompressedName (buf : List UInt8) (p : ℕ) : Prop where
  inside : ∀ k q, hop buf p k = some q → q + nameSize buf q ≤ buf.length
  down : ∀ k q t, hop buf p k = some q → jump buf q = some t → t < q
  short : (expand buf p).length < domainBufLen

section Runs

variable {buf : List UInt8} {p n : ℕ}

theorem labelRun_terminator (h : byteAt buf p = 0) : labelRun buf p = [] := by
  by_cases hp : p < buf.length
  · rw [byteAt, List.getD_eq_getElem _ _ hp] at h
    simp [labelRun, List.drop_eq_getElem_cons hp, h]
  · simp [labelRun, List.drop_eq_nil_of_le (Nat.le_of_not_lt hp)]

theorem labelRun_pointer (h : isPointer (byteAt buf p) = true) : labelRun buf p = [] := by
  have h0 : byteAt buf p ≠ 0 := by
    intro h0
    simp [h0, isPointer] at h
  simp [labelRun, drop_eq_byteAt_cons h0, h]

theorem labelRun_label (h : IsLabelByte (byteAt buf p)) :
    labelRun buf p = byteAt buf p :: labelRun buf (p + 1) := by
  obtain ⟨h0, hp⟩ := (isLabelByte_iff _).1 h
  rw [labelRun, drop_eq_byteAt_cons h0, List.takeWhile_cons_of_pos (by simp [h0, hp])]
  rfl

theorem expandRuns_terminator (h : byteAt buf p = 0) : expandRuns buf (n + 1) p = [] := by
  simp [expandRuns, labelRun_terminator h, (name_terminator h).2]

theorem expandRuns_pointer (h : isPointer (byteAt buf p) = true) :
    expandRuns buf (n + 1) p =
      expandRuns buf n (pointerTarget (byteAt buf p) (byteAt buf (p + 1))) := by
  simp [expandRuns, labelRun_pointer h, (name_pointer h).2]

theorem expandRuns_label (h : IsLabelByte (byteAt buf p)) :
    expandRuns buf (n + 1) p = byteAt buf p :: expandRuns buf (n + 1) (p + 1) := by
  simp [expandRuns, labelRun_label h, (name_label h).2]

/-- A name where it is written: its label bytes, and one byte for a zero or two for a pointer. -/
theorem nameSize_eq (buf : List UInt8) (p : ℕ) :
    nameSize buf p = (labelRun buf p).length + if (jump buf p).isSome then 2 else 1 := by
  generalize hn : nameSize buf p = n
  induction n generalizing p with
  | zero => have := nameSize_pos buf p; omega
  | succ n ih =>
    rcases byte_cases (byteAt buf p) with hc | hc | hc
    · obtain ⟨hs, hj⟩ := name_terminator hc
      simp [labelRun_terminator hc, hj, ← hn, hs]
    · obtain ⟨hs, hj⟩ := name_pointer hc
      simp [labelRun_pointer hc, hj, ← hn, hs]
    · obtain ⟨hs, hj⟩ := name_label hc
      have hrest := ih (p + 1) (by omega)
      rw [labelRun_label hc, hj, List.length_cons, hrest]
      omega

end Runs

/-! Reading a name whose chain of pointers ends. -/

section Reading

variable {buf : List UInt8} {p q k : ℕ}

/-- The variables of the loop are what it stored so far: the rest of the run adds its bytes. -/
theorem readDomainLoop_eq (base : List UInt8) (fuel src : ℕ) (mem : Mem)
    (dest bufDomainLen offset : ℤ) :
    readDomainLoop base fuel src mem dest bufDomainLen offset =
      (readDomain base fuel src).result.map fun r =>
        (mem.write dest r.1, bufDomainLen + r.1.length, offset + r.2) := by
  induction fuel generalizing src mem dest bufDomainLen offset with
  | zero => rfl
  | succ fuel ih =>
    rcases byte_cases (byteAt base src) with hc | hc | hc
    · simp [readDomainLoop, hc, readDomain_terminator hc]
    · have h0 : byteAt base src ≠ 0 := by
        intro h0
        simp [h0, isPointer] at hc
      rw [readDomain_pointer hc]
      simp only [readDomainLoop, h0, if_false, hc, if_true, ih, result_bind, result_load,
        Option.bind_some, result_pure]
      cases (readDomain base fuel
          (pointerTarget (byteAt base src) (byteAt base (src + 1)))).result with
      | none => rfl
      | some r =>
        simp only [Option.map_some, Option.bind_eq_bind, Option.bind_some, Option.some.injEq,
          Prod.mk.injEq, true_and]
        exact ⟨by omega, by omega⟩
    · obtain ⟨h0, hp⟩ := (isLabelByte_iff _).1 hc
      have hstep : ∀ bs : List UInt8, (mem.write dest [byteAt base src]).write (dest + 1) bs =
          mem.write dest (byteAt base src :: bs) := fun bs => mem.write_write dest [_] bs
      rw [readDomain_label hc]
      simp only [readDomainLoop, h0, if_false, hp, Bool.false_eq_true, ih, hstep, result_bind,
        result_load, Option.bind_some, result_pure]
      cases (readDomain base fuel (src + 1)).result with
      | none => rfl
      | some r =>
        simp only [Option.map_some, Option.bind_some, Option.some.injEq, Prod.mk.injEq, true_and,
          List.length_cons, Nat.cast_add, Nat.cast_one]
        exact ⟨by omega, by omega⟩

/-- With a chain that ends, `read_domain` stores the label bytes of its runs. -/
theorem returns_expandRuns (h : hop buf p k = none) :
    Returns (fun fuel => readDomain buf fuel p) (expandRuns buf k p, nameSize buf p) := by
  generalize hn : nameSize buf p = n
  induction k generalizing p n with
  | zero => simp [hop] at h
  | succ k ihk =>
    induction n generalizing p with
    | zero => have := nameSize_pos buf p; omega
    | succ n ihn =>
      rcases byte_cases (byteAt buf p) with hc | hc | hc
      · refine ⟨1, ?_⟩
        rw [expandRuns_terminator hc, ← hn, (name_terminator hc).1]
        simp [readDomain_terminator hc]
      · rw [hop_pointer hc] at h
        obtain ⟨m, hm⟩ := ihk h _ rfl
        refine ⟨m + 1, ?_⟩
        rw [expandRuns_pointer hc, ← hn, (name_pointer hc).1]
        simp [readDomain_pointer hc, hm]
      · rw [hop_label hc] at h
        rw [(name_label hc).1, Nat.add_right_cancel_iff] at hn
        obtain ⟨m, hm⟩ := ihn h hn
        refine ⟨m + 1, ?_⟩
        rw [expandRuns_label hc]
        simp [readDomain_label hc, hm]

/-- Along a chain that only goes down, every pointer lowers the position. -/
theorem IsCompressedName.hop_le (h : IsCompressedName buf p) (hk : hop buf p k = some q) :
    q + k ≤ p := by
  induction k generalizing q with
  | zero =>
    obtain rfl : p = q := by simpa [hop] using hk
    exact Nat.le_refl _
  | succ k ih =>
    rw [hop_add, Option.bind_eq_some_iff] at hk
    obtain ⟨r, hr, hjump⟩ := hk
    have hle := ih hr
    have hlt := h.down k r q hr (by simpa [hop] using hjump)
    omega

theorem IsCompressedName.hop_ends (h : IsCompressedName buf p) : hop buf p (p + 1) = none := by
  apply Option.eq_none_iff_forall_ne_some.2
  intro q hq
  have := h.hop_le hq
  omega

theorem IsCompressedName.returns (h : IsCompressedName buf p) :
    Returns (fun fuel => readDomain buf fuel p) (expand buf p, nameSize buf p) :=
  returns_expandRuns h.hop_ends

/-- Once the chain has ended, further runs add nothing. -/
theorem expandRuns_of_ends (h : hop buf p k = none) {n : ℕ} (hn : k ≤ n) :
    expandRuns buf n p = expandRuns buf k p := by
  induction k generalizing p n with
  | zero => simp [hop] at h
  | succ k ih =>
    obtain ⟨n, rfl⟩ : ∃ n', n = n' + 1 := ⟨n - 1, by omega⟩
    cases hj : jump buf p with
    | none => simp [expandRuns, hj]
    | some q =>
      rw [hop, hj, Option.bind_some] at h
      simp only [expandRuns, hj, Option.elim_some]
      rw [ih h (by omega)]

theorem length_expandRuns_mono {m n : ℕ} (h : m ≤ n) :
    (expandRuns buf m p).length ≤ (expandRuns buf n p).length := by
  induction m generalizing p n with
  | zero => exact Nat.zero_le _
  | succ m ih =>
    obtain ⟨n, rfl⟩ : ∃ n', n = n' + 1 := ⟨n - 1, by omega⟩
    cases hj : jump buf p with
    | none => simp [expandRuns, hj]
    | some q =>
      have hrest := ih (p := q) (n := n) (by omega)
      simp only [expandRuns, hj, Option.elim_some, List.length_append]
      omega

theorem IsCompressedName.expandRuns_short (h : IsCompressedName buf p) (n : ℕ) :
    (expandRuns buf n p).length < domainBufLen := by
  have hmono : (expandRuns buf n p).length ≤ (expandRuns buf (max n (p + 1)) p).length :=
    length_expandRuns_mono (Nat.le_max_left n (p + 1))
  rw [expandRuns_of_ends h.hop_ends (Nat.le_max_right n (p + 1))] at hmono
  exact Nat.lt_of_le_of_lt hmono h.short

/-- The root name. -/
theorem isCompressedName_root (h : byteAt buf p = 0) (hp : p < buf.length) :
    IsCompressedName buf p ∧ expand buf p = [] := by
  obtain ⟨hsize, hjump⟩ := name_terminator h
  have hchain : ∀ k q, hop buf p k = some q → q = p := by
    intro k q hk
    cases k with
    | zero => exact (Option.some.inj hk).symm
    | succ k => simp [hop, hjump] at hk
  have hname : expand buf p = [] := expandRuns_terminator h
  refine ⟨⟨?_, ?_, ?_⟩, hname⟩
  · intro k q hk
    rw [hchain k q hk, hsize]
    omega
  · intro k q t hk ht
    rw [hchain k q hk, hjump] at ht
    cases ht
  · rw [hname]
    decide

/-- Whatever pointers a name is written with, `read_domain` comes back, stores the label bytes
along the chain, returns their number plus one and advances `*_offset` by the bytes the name takes
where it starts. -/
theorem readDomainLoop_compressed (h : IsCompressedName buf p) (mem : Mem) (dest offset : ℤ) :
    ∃ fuel, ∀ fuel', fuel ≤ fuel' →
      readDomainLoop buf fuel' p mem dest 1 offset =
        some (mem.write dest (expand buf p), ((expand buf p).length : ℤ) + 1,
          offset + ((labelRun buf p).length + if (jump buf p).isSome then 2 else 1 : ℕ)) := by
  obtain ⟨fuel, hfuel⟩ := h.returns
  refine ⟨fuel, ?_⟩
  intro fuel' hle
  have hmono := (readDomain_mono buf p).eq_of_returns hfuel hle
  rw [readDomainLoop_eq, hmono, hfuel, Option.map_some, ← nameSize_eq, add_comm 1]

end Reading

/-- Two names, the second of which is the first behind one more label. -/
def sharedSuffix : List UInt8 := [3, 99, 111, 109, 0, 1, 97, 0xC0, 0]

theorem sharedSuffix_isCompressedName : IsCompressedName sharedSuffix 5 := by
  have h₁ : hop sharedSuffix 5 1 = some 0 := by decide
  have h₂ : hop sharedSuffix 5 2 = none := by decide
  have hchain : ∀ k q, hop sharedSuffix 5 k = some q → (k = 0 ∧ q = 5) ∨ (k = 1 ∧ q = 0) := by
    intro k q h
    rcases k with _ | _ | k
    · rw [hop, Option.some.injEq] at h
      exact .inl ⟨rfl, h.symm⟩
    · rw [h₁, Option.some.injEq] at h
      exact .inr ⟨rfl, h.symm⟩
    · rw [Nat.add_assoc, Nat.add_comm, hop_add, h₂] at h
      cases h
  refine ⟨?_, ?_, by decide⟩
  · intro k q h
    rcases hchain k q h with ⟨-, rfl⟩ | ⟨-, rfl⟩ <;> decide
  · intro k q t h ht
    rcases hchain k q h with ⟨-, rfl⟩ | ⟨-, rfl⟩
    · have hj : jump sharedSuffix 5 = some 0 := by decide
      rw [hj, Option.some.injEq] at ht
      omega
    · have hj : jump sharedSuffix 0 = none := by decide
      rw [hj] at ht
      cases ht

theorem readDomainLoop_compressed_sample :
    ∃ fuel, readDomainLoop sharedSuffix fuel 5 (fun _ => 0) 0 1 0 =
      some (Mem.write (fun _ => 0) 0 [1, 97, 3, 99, 111, 109], 7, 4) := by
  have hname : expand sharedSuffix 5 = [1, 97, 3, 99, 111, 109] := by decide
  have hrun : labelRun sharedSuffix 5 = [1, 97] := by decide
  have hjump : jump sharedSuffix 5 = some 0 := by decide
  obtain ⟨fuel, hfuel⟩ :=
    readDomainLoop_compressed sharedSuffix_isCompressedName (fun _ => 0) 0 0
  refine ⟨fuel, ?_⟩
  rw [hfuel fuel (Nat.le_refl fuel), hname, hrun, hjump]
  rfl

/-! Names whose labels hold any octets. -/

/-- The label-wise decoder of RFC 1035: an octet is looked at only where a label starts. There it
is the final zero, the first half of a pointer or the length of a label; the forms `01` and `10`
of its upper bits are reserved. The result is the expanded name and the bytes it takes at `p`. -/
def rfcName (buf : List UInt8) : ℕ → ℕ → Option (List UInt8 × ℕ)
  | 0, _ => none
  | fuel + 1, p =>
    let c := byteAt buf p
    if c = 0 then some ([], 1)
    else if isPointer c then do
      let (rest, _) ← rfcName buf fuel (pointerTarget c (byteAt buf (p + 1)))
      some (rest, 2)
    else if c.toNat ≤ 63 then do
      let (rest, size) ← rfcName buf fuel (p + (c.toNat + 1))
      some (c :: copyOut (buf.drop (p + 1)) c.toNat ++ rest, c.toNat + 1 + size)
    else none

/-- The labels of a name that a DNS message may hold: any octets but zero. -/
structure IsOctetName (ls : List (List UInt8)) : Prop where
  label : ∀ l ∈ ls, 0 < l.length ∧ l.length ≤ 63
  octet : ∀ l ∈ ls, ∀ c ∈ l, c ≠ 0
  short : (labelsWire ls ++ [0]).length ≤ domainLenMax

/-- `read_domain` reads at `p` what the label-wise decoder reads: the labels as they are written,
up to and with the final zero. -/
structure ReadsLabelwise (buf : List UInt8) (p : ℕ) (ls : List (List UInt8)) : Prop where
  reads : Returns (fun fuel => readDomain buf fuel p) (labelsWire ls, (labelsWire ls ++ [0]).length)
  agrees : ∀ r, Returns (fun fuel => readDomain buf fuel p) r ↔ ∃ fuel, rfcName buf fuel p = some r

section Octets

variable {buf : List UInt8} {p : ℕ} {l : List UInt8} {ls : List (List UInt8)}

theorem length_octet_spec (hl : 0 < l.length ∧ l.length ≤ 63) :
    (UInt8.ofNat l.length).toNat = l.length ∧ IsLabelByte (UInt8.ofNat l.length) := by
  have hnat : (UInt8.ofNat l.length).toNat = l.length := by
    rw [UInt8.toNat_ofNat']
    omega
  refine ⟨hnat, ?_⟩
  rw [IsLabelByte, hnat]
  omega

/-- One label is passed over without a look at its octets. -/
theorem rfcName_label (hl : 0 < l.length ∧ l.length ≤ 63) (h : HasAt buf p (labelWire l))
    (fuel : ℕ) : rfcName buf (fuel + 1) p = (rfcName buf fuel (p + (labelWire l).length)).map
      fun r => (labelWire l ++ r.1, (labelWire l).length + r.2) := by
  obtain ⟨hnat, hbyte⟩ := length_octet_spec hl
  obtain ⟨h0, hp⟩ := (isLabelByte_iff _).1 hbyte
  have hc : byteAt buf p = UInt8.ofNat l.length := h.byteAt_eq
  have hl' : HasAt buf (p + 1) l := @HasAt.right _ [UInt8.ofNat l.length] _ _ h
  have hcopy := hl'.copyOut_eq
  simp only [rfcName, hc, h0, if_false, hp, Bool.false_eq_true, hnat, hl.2, if_true, hcopy,
    length_labelWire]
  cases rfcName buf fuel (p + (l.length + 1)) with
  | none => rfl
  | some r => rfl

/-- The label-wise decoder copies the labels verbatim. -/
theorem rfcName_labels (hls : ∀ l ∈ ls, 0 < l.length ∧ l.length ≤ 63)
    (h : HasAt buf p (labelsWire ls ++ [0])) {fuel : ℕ} (hfuel : ls.length < fuel) :
    rfcName buf fuel p = some (labelsWire ls, (labelsWire ls ++ [0]).length) := by
  induction ls generalizing p fuel with
  | nil =>
    obtain ⟨fuel, rfl⟩ : ∃ n, fuel = n + 1 := ⟨fuel - 1, by simp at hfuel; omega⟩
    have hc : byteAt buf p = 0 := h.byteAt_eq
    simp [rfcName, hc, labelsWire]
  | cons l ls ih =>
    obtain ⟨fuel, rfl⟩ : ∃ n, fuel = n + 1 := ⟨fuel - 1, by simp at hfuel; omega⟩
    rw [labelsWire_cons, List.append_assoc] at h
    have hrest := ih (fun k hk => hls k (List.mem_cons_of_mem l hk)) h.right
      (by simpa using hfuel : ls.length < fuel)
    rw [rfcName_label (hls l List.mem_cons_self) h.left, hrest, labelsWire_cons]
    simp only [Option.map_some, List.length_append, Nat.add_assoc]

theorem rfcName_unique {m n : ℕ} {r s : List UInt8 × ℕ} (hm : rfcName buf m p = some r)
    (hn : rfcName buf n p = some s) : r = s := by
  induction m generalizing n p r s with
  | zero => exact absurd hm nofun
  | succ m ih =>
    obtain ⟨n, rfl⟩ : ∃ n', n = n' + 1 := by
      cases n with
      | zero => exact absurd hn nofun
      | succ n => exact ⟨n, rfl⟩
    simp only [rfcName] at hm hn
    split at hm
    · next h0 =>
      rw [if_pos h0] at hn
      exact Option.some.inj (hm.symm.trans hn)
    · next h0 =>
      rw [if_neg h0] at hn
      split at hm
      · next hp =>
        rw [if_pos hp] at hn
        obtain ⟨r', hr', hr⟩ := Option.bind_eq_some_iff.1 hm
        obtain ⟨s', hs', hs⟩ := Option.bind_eq_some_iff.1 hn
        rw [ih hr' hs'] at hr
        exact Option.some.inj (hr.symm.trans hs)
      · next hp =>
        rw [if_neg hp] at hn
        split at hm
        · next hl =>
          rw [if_pos hl] at hn
          obtain ⟨r', hr', hr⟩ := Option.bind_eq_some_iff.1 hm
          obtain ⟨s', hs', hs⟩ := Option.bind_eq_some_iff.1 hn
          rw [ih hr' hs'] at hr
          exact Option.some.inj (hr.symm.trans hs)
        · exact absurd hm nofun

theorem isLabelByte_labelsWire (h : IsOctetName ls) (hls : ∀ l ∈ ls, ∀ c ∈ l, c.toNat < 0xC0) :
    ∀ c ∈ labelsWire ls, IsLabelByte c := by
  intro c hc
  obtain ⟨l, hl, hc⟩ := List.mem_flatMap.1 hc
  rcases List.mem_cons.1 hc with rfl | hc
  · exact (length_octet_spec (h.label l hl)).2
  · have h0 : c.toNat ≠ 0 := fun h0 => h.octet l hl c hc (UInt8.toNat_inj.1 h0)
    have hlt := hls l hl c hc
    rw [IsLabelByte]
    omega

/-- `read_domain` agrees with the label-wise decoder on an uncompressed name exactly when no octet
of a label looks like the start of a pointer. -/
theorem readsLabelwise_iff (hls : IsOctetName ls) (h : HasAt buf p (labelsWire ls ++ [0])) :
    ReadsLabelwise buf p ls ↔ ∀ l ∈ ls, ∀ c ∈ l, c.toNat < 0xC0 := by
  have hrfc := rfcName_labels hls.label h (Nat.lt_succ_self ls.length)
  constructor
  · intro hr l hl c hc
    obtain ⟨fuel, hfuel⟩ := hr.reads
    have hmem : c ∈ labelsWire ls := List.mem_flatMap.2 ⟨l, hl, List.mem_cons_of_mem _ hc⟩
    exact (readDomain_isLabelByte hfuel c hmem).2
  · intro hlow
    have hread : Returns (fun fuel => readDomain buf fuel p)
        (labelsWire ls, (labelsWire ls ++ [0]).length) := by
      refine ⟨(labelsWire ls).length + 1, ?_⟩
      rw [List.length_append, List.length_singleton]
      exact h.readDomain_eq (isLabelByte_labelsWire hls hlow) (Nat.lt_succ_self _)
    refine ⟨hread, ?_⟩
    intro r
    constructor
    · intro hr
      obtain rfl := (readDomain_mono buf p).returns_unique hread hr
      exact ⟨_, hrfc⟩
    · rintro ⟨fuel, hfuel⟩
      obtain rfl := rfcName_unique hrfc hfuel
      exact hread

theorem readsLabelwise_iff_sample : ReadsLabelwise [2, 97, 0xBF, 0] 0 [[97, 0xBF]] := by
  have hname : IsOctetName [[97, 0xBF]] := by
    refine ⟨by decide, ?_, by decide⟩
    simp
  have hat : HasAt [2, 97, 0xBF, 0] 0 (labelsWire [[97, 0xBF]] ++ [0]) := List.prefix_rfl
  apply (readsLabelwise_iff hname hat).2
  simp

/-- A name with the one label `C0 03`. -/
def highOctets : List UInt8 := [2, 0xC0, 3, 0]

/-- The label is well formed, but its first octet is taken for a pointer and the name is cut. -/
theorem highOctets_not_readsLabelwise :
    IsOctetName [[0xC0, 3]] ∧ HasAt highOctets 0 (labelsWire [[0xC0, 3]] ++ [0]) ∧
      ¬ ReadsLabelwise highOctets 0 [[0xC0, 3]] := by
  refine ⟨⟨by decide, by simp, by decide⟩, List.prefix_rfl, ?_⟩
  intro h
  have hcut : (readDomain highOctets 3 0).result = some ([2], 3) := by decide +kernel
  have := (readDomain_mono highOctets 0).returns_unique h.reads ⟨3, hcut⟩
  exact absurd this (by decide)

end Octets

end BakaDns
