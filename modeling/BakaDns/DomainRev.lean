import BakaDns.TreePaths

/-!
# The stack of `domain_rev`

`domain_rev` pushes a name onto 512 signed `char`s, each label in front of its length, and pops the
labels again. Here are its loops with the conversions and the index arithmetic of the C code, and
the indices of the stack that they use.
-/

namespace BakaDns
open CBytes

/-- `stack` and `sptr`, and the indices of `stack` that were read or written so far. -/
structure RevState where
  stack : ℤ → Int8
  sptr : ℤ
  used : List ℤ

def RevState.init : RevState := ⟨fun _ => 0, 0, []⟩

/-- `stack[sptr++] = c`. -/
def RevState.push (st : RevState) (c : UInt8) : RevState where
  stack := Function.update st.stack st.sptr c.toInt8
  sptr := st.sptr + 1
  used := st.used ++ [st.sptr]

/-- The first loop of `domain_rev`. `none` is a loop that has not ended within the fuel. -/
def revPushLoop : ℕ → List UInt8 → RevState → Option RevState
  | 0, _, _ => none
  | fuel + 1, src, st =>
    let n := src.headD 0
    if n = 0 then some st
    else
      let st := (List.range' 1 n.toNat).foldl (fun st i => st.push (byteAt src i)) st
      revPushLoop fuel (src.drop (n.toNat + 1)) (st.push n)

/-- The index `sptr - n + i - 1`. The difference of the first two is an `int`, which becomes a
`size_t` when `i` is added to it. -/
def revIndex (sptr : ℤ) (n : UInt8) (i : ℕ) : ℤ :=
  (UInt64.ofInt (sptr - n.toNat) + UInt64.ofNat i - 1).toNat

/-- The second loop and the final zero: what was written to `dest`. -/
def revPopLoop : ℕ → RevState → List UInt8 → Option (List UInt8 × RevState)
  | 0, _, _ => none
  | fuel + 1, st, dest =>
    if 0 < st.sptr then
      let n := (st.stack st.sptr).toUInt8
      if n = 0 then some (dest ++ [0], { st with used := st.used ++ [st.sptr] })
      else
        let indices := (List.range' 1 n.toNat).map (revIndex st.sptr n)
        revPopLoop fuel
          { st with
            sptr := st.sptr - (n.toNat + 1)
            used := st.used ++ st.sptr :: indices }
          (dest ++ n :: indices.map fun i => (st.stack i).toUInt8)
    else some (dest ++ [0], st)

/-- `domain_rev`: the bytes written to `dest`, and the stack as it is left. -/
def domainRevRun (src : List UInt8) : Option (List UInt8 × RevState) := do
  let st ← revPushLoop (src.length + 1) src .init
  let st := { st with sptr := st.sptr - 1 }
  revPopLoop (st.sptr.toNat + 1) st []

/-- The stack below `sptr`. -/
structure RevState.Holds (st : RevState) (s : List UInt8) : Prop where
  sptr : st.sptr = s.length
  cells : ∀ i : ℕ, i < s.length → st.stack i = (byteAt s i).toInt8
  used : ∀ i ∈ st.used, 0 ≤ i ∧ i < s.length

variable {st : RevState} {s src dest l t : List UInt8} {ls : List (List UInt8)} {n fuel : ℕ}

theorem holds_init : RevState.init.Holds [] where
  sptr := rfl
  cells i hi := by simp at hi
  used i hi := by simp [RevState.init] at hi

theorem byteAt_append_of_lt {i : ℕ} (hi : i < s.length) : byteAt (s ++ t) i = byteAt s i := by
  simp [byteAt, List.getElem?_append_left hi]

theorem RevState.Holds.push (h : st.Holds s) (c : UInt8) : (st.push c).Holds (s ++ [c]) where
  sptr := by simp [RevState.push, h.sptr]
  cells i hi := by
    simp only [RevState.push, h.sptr]
    rcases Nat.lt_or_ge i s.length with hlt | hge
    · have hne : (i : ℤ) ≠ s.length := by omega
      simp only [Function.update_of_ne hne, byteAt_append_of_lt hlt]
      exact h.cells i hlt
    · obtain rfl : i = s.length := by simp at hi; omega
      simp [byteAt]
  used i hi := by
    simp only [RevState.push, List.mem_append, List.mem_singleton, h.sptr] at hi
    simp only [List.length_append, List.length_singleton, Nat.cast_add, Nat.cast_one]
    rcases hi with hi | rfl
    · have := h.used i hi
      omega
    · omega

theorem RevState.Holds.pushAll (h : st.Holds s) (bytes : List UInt8) :
    (bytes.foldl RevState.push st).Holds (s ++ bytes) := by
  induction bytes generalizing st s with
  | nil => simpa using h
  | cons c bytes ih => simpa using ih (h.push c)

theorem map_byteAt_range' (src : List UInt8) (k n : ℕ) :
    (List.range' k n).map (byteAt src) = copyOut (src.drop k) n := by
  induction n generalizing k with
  | zero => simp [copyOut]
  | succ n ih =>
    have hhead : (src.drop k).headD 0 = byteAt src k := by
      simp [byteAt, List.headD_eq_head?_getD, List.head?_drop]
    simp only [List.range'_succ, List.map_cons, ih, copyOut_succ, hhead, List.tail_drop]

/-- The first loop pushes the labels that the length octets announce. -/
theorem revPushLoop_holds (hn : src.length ≤ n) (h : st.Holds s) :
    ∃ st', revPushLoop (n + 1) src st = some st' ∧
      st'.Holds (s ++ labelStack (labelBlocks n src)) := by
  induction n generalizing src st s with
  | zero =>
    obtain rfl : src = [] := by simpa using hn
    exact ⟨st, rfl, by simpa [labelBlocks, labelStack] using h⟩
  | succ n ih =>
    rw [revPushLoop, labelBlocks]
    by_cases h0 : src.headD 0 = 0
    · exact ⟨st, if_pos h0, by rwa [if_pos h0, labelStack, List.flatMap_nil, List.append_nil]⟩
    · have hrest : (src.drop ((src.headD 0).toNat + 1)).length ≤ n := by
        simp only [List.length_drop]
        omega
      have hpush := (h.pushAll (copyOut src.tail (src.headD 0).toNat)).push (src.headD 0)
      obtain ⟨st', hloop, hst'⟩ := ih hrest hpush
      refine ⟨st', ?_, ?_⟩
      · have hbytes := map_byteAt_range' src 1 (src.headD 0).toNat
        simp only [if_neg h0, ← List.drop_one, ← hbytes, List.foldl_map] at hloop ⊢
        exact hloop
      · simp only [if_neg h0]
        simpa [labelStack] using hst'

/-- The index does not wrap around while the label lies above the bottom of the stack. -/
theorem revIndex_eq {sptr : ℤ} {n : UInt8} {i : ℕ} (hn : n.toNat ≤ sptr) (hsptr : sptr < 2 ^ 32)
    (hi : 1 ≤ i) (hin : i ≤ n.toNat) : revIndex sptr n i = sptr - n.toNat + i - 1 := by
  have hlt := n.toNat_lt
  obtain ⟨k, hk⟩ := Int.eq_ofNat_of_zero_le (Int.sub_nonneg.2 hn)
  have hofInt : UInt64.ofInt k = UInt64.ofNat k := by
    have hmod : ((k : ℤ) % 2 ^ 64).toNat = k := by omega
    simp only [UInt64.ofInt, hmod]
  have hone : (1 : UInt64) ≤ UInt64.ofNat k + UInt64.ofNat i := by
    rw [UInt64.le_iff_toNat_le, UInt64.toNat_add, UInt64.toNat_ofNat', UInt64.toNat_ofNat']
    simp
    omega
  rw [revIndex, hk, hofInt, UInt64.toNat_sub_of_le _ _ hone, UInt64.toNat_add,
    UInt64.toNat_ofNat', UInt64.toNat_ofNat']
  simp
  omega

/-- A label that lies on the stack below its length. -/
theorem map_stack_label (hl : IsLabel l)
    (hcells : ∀ i : ℕ, i < l.length → st.stack (s.length + i) = (byteAt l i).toInt8)
    (hsptr : st.sptr = s.length + l.length) (hsize : s.length + l.length < 2 ^ 32) :
    ((List.range' 1 l.length).map (revIndex st.sptr (UInt8.ofNat l.length))).map
      (fun i => (st.stack i).toUInt8) = l := by
  have hn := hl.toNat_ofNat
  apply List.ext_getElem
  · simp
  · intro i h₁ h₂
    have hindex : revIndex st.sptr (UInt8.ofNat l.length) (1 + i) = s.length + i := by
      rw [revIndex_eq (by omega) (by omega) (by omega) (by omega)]
      omega
    simp only [List.getElem_map, List.getElem_range', Nat.one_mul, hindex, hcells i h₂,
      UInt8.toUInt8_toInt8]
    simp [byteAt, h₂]

/-- The stack from `sptr` down, as the second loop walks it. -/
structure RevState.Top (st : RevState) (s : List UInt8) : Prop where
  sptr : st.sptr = s.length - 1
  cells : ∀ i : ℕ, i < s.length → st.stack i = (byteAt s i).toInt8

/-- What lies on the stack from the top down: a length, the label and the labels below it. -/
theorem RevState.Top.label {c : UInt8} (h : st.Top (s ++ (l ++ [c]))) :
    st.sptr = s.length + l.length ∧ (st.stack st.sptr).toUInt8 = c ∧
      (∀ i : ℕ, i < l.length → st.stack (s.length + i) = (byteAt l i).toInt8) ∧
      ∀ i : ℕ, i < s.length → st.stack i = (byteAt s i).toInt8 := by
  have hlength : (s ++ (l ++ [c])).length = s.length + l.length + 1 := by
    simp [Nat.add_assoc]
  have hsptr : st.sptr = s.length + l.length := by
    have := h.sptr
    omega
  refine ⟨hsptr, ?_, ?_, ?_⟩
  · have hcell := h.cells (s.length + l.length) (by omega)
    push_cast at hcell
    simp [hsptr, hcell, byteAt]
  · intro i hi
    have hcell := h.cells (s.length + i) (by omega)
    push_cast at hcell
    simp [hcell, byteAt, List.getElem?_append_right, List.getElem?_append_left hi]
  · intro i hi
    have hcell := h.cells i (by omega)
    simpa only [byteAt_append_of_lt hi] using hcell

/-- One iteration of the second loop pops the label on top, and stays above the bottom. -/
theorem revPopLoop_label (hl : IsLabel l) (h : st.Top (labelStack (ls ++ [l])))
    (hsize : (labelStack (ls ++ [l])).length < 2 ^ 32) :
    ∃ st', st'.Top (labelStack ls) ∧
      (∀ fuel dest,
        revPopLoop (fuel + 1) st dest = revPopLoop fuel st' (dest ++ labelWire l)) ∧
      ∀ i ∈ st'.used, i ∈ st.used ∨ 0 ≤ i ∧ i < (labelStack (ls ++ [l])).length := by
  have hstack : labelStack (ls ++ [l]) = labelStack ls ++ (l ++ [UInt8.ofNat l.length]) := by
    simp [labelStack]
  have hlength : (labelStack (ls ++ [l])).length = (labelStack ls).length + l.length + 1 := by
    simp [hstack, Nat.add_assoc]
  rw [hstack] at h
  obtain ⟨htop, hlast, hlabel, hbelow⟩ := h.label
  have hpos := hl.1
  have hn := hl.toNat_ofNat
  have habove : 0 < st.sptr := by omega
  have hbytes := map_stack_label hl hlabel htop (by omega)
  have hindices : ∀ i ∈ (List.range' 1 l.length).map (revIndex st.sptr (UInt8.ofNat l.length)),
      0 ≤ i ∧ i < (labelStack (ls ++ [l])).length := by
    intro i hi
    obtain ⟨j, hj, rfl⟩ := List.mem_map.1 hi
    simp only [List.mem_range'_1] at hj
    have hindex := @revIndex_eq st.sptr (UInt8.ofNat l.length) j (by omega) (by omega) (by omega)
      (by omega)
    omega
  refine ⟨{ st with
    sptr := st.sptr - (l.length + 1)
    used := st.used ++ st.sptr ::
      (List.range' 1 l.length).map (revIndex st.sptr (UInt8.ofNat l.length)) },
    ⟨?_, hbelow⟩, fun fuel dest => ?_, ?_⟩
  · simp only
    omega
  · simp only [revPopLoop, if_pos habove, hlast, if_neg hl.ofNat_ne_zero, hn, hbytes, labelWire]
  · intro i hi
    rcases List.mem_append.1 hi with hi | hi
    · exact .inl hi
    · rcases List.mem_cons.1 hi with rfl | hi
      · exact .inr ⟨habove.le, by omega⟩
      · exact .inr (hindices i hi)

/-- The second loop pops the labels from the last one on. -/
theorem revPopLoop_labels (hls : ∀ l ∈ ls, IsLabel l) (h : st.Top (labelStack ls))
    (hsize : (labelStack ls).length < 2 ^ 32) (hfuel : ls.length < fuel) :
    ∃ st', revPopLoop fuel st dest = some (dest ++ (labelsWire ls.reverse ++ [0]), st') ∧
      ∀ i ∈ st'.used, i ∈ st.used ∨ 0 ≤ i ∧ i < (labelStack ls).length := by
  induction ls using List.reverseRecOn generalizing fuel st dest with
  | nil =>
    obtain ⟨fuel, rfl⟩ : ∃ m, fuel = m + 1 := ⟨fuel - 1, by simp at hfuel; omega⟩
    have hbottom : ¬0 < st.sptr := by simp [h.sptr, labelStack]
    exact ⟨st, by simp [revPopLoop, hbottom, labelsWire], fun i hi => .inl hi⟩
  | append_singleton ls l ih =>
    obtain ⟨fuel, rfl⟩ : ∃ m, fuel = m + 1 := ⟨fuel - 1, by simp at hfuel; omega⟩
    have hlength : (labelStack ls).length ≤ (labelStack (ls ++ [l])).length := by
      simp [labelStack]
    obtain ⟨st₁, hst₁, hround, hused₁⟩ := revPopLoop_label (hls l (by simp)) h hsize
    obtain ⟨st', hloop, hused⟩ := @ih st₁ (dest ++ labelWire l) fuel
      (fun k hk => hls k (by simp [hk])) hst₁ (by omega) (by simpa using hfuel)
    refine ⟨st', ?_, ?_⟩
    · apply (hround fuel dest).trans (hloop.trans _)
      simp [labelsWire]
    · intro i hi
      rcases hused i hi with hi | hi
      · exact hused₁ i hi
      · omega

theorem length_labelStack (ls : List (List UInt8)) :
    (labelStack ls).length = (labelsWire ls).length := by
  simp [labelStack, labelsWire, List.length_flatMap]

theorem length_labelsWire_reverse (ls : List (List UInt8)) :
    (labelsWire ls.reverse).length = (labelsWire ls).length := by
  simp [labelsWire, List.length_flatMap]

/-- On any name whose labels fit onto the stack, the loops write what `domainRev` says, and use no
index outside of the stack. -/
theorem domainRevRun_eq
    (hsize : (labelStack (labelBlocks src.length src)).length ≤ domainBufLen) :
    ∃ st, domainRevRun src = some (domainRev src, st) ∧
      ∀ i ∈ st.used, 0 ≤ i ∧ i < domainBufLen := by
  have hls := labelBlocks_isLabel src.length src
  have hrounds := two_mul_length_le_labelsWire hls
  obtain ⟨st, hpush, hst⟩ := revPushLoop_holds (le_refl src.length) holds_init
  simp only [List.nil_append] at hst
  rw [← length_labelStack] at hrounds
  have hsptr := hst.sptr
  have h512 : domainBufLen = 512 := rfl
  let top : RevState := { st with sptr := st.sptr - 1 }
  have htop : top.Top (labelStack (labelBlocks src.length src)) := ⟨by simp [top, hsptr], hst.cells⟩
  have hfuel : (labelBlocks src.length src).length < top.sptr.toNat + 1 := by
    simp only [top]
    omega
  obtain ⟨st', hpop, hused⟩ := @revPopLoop_labels top [] _ _ hls htop (by omega) hfuel
  refine ⟨st', ?_, ?_⟩
  · rw [domainRev_blocks, domainRevRun, hpush]
    exact hpop
  · intro i hi
    rcases hused i hi with hi | hi
    · have := hst.used i hi
      omega
    · omega

/-- The labels of a name in wire form. -/
theorem labelBlocks_labelsWire (hls : ∀ l ∈ ls, IsLabel l) (t : List UInt8) (hn : ls.length < n) :
    labelBlocks n (labelsWire ls ++ 0 :: t) = ls := by
  induction ls generalizing n with
  | nil => cases n <;> simp [labelBlocks, labelsWire]
  | cons l ls ih =>
    obtain ⟨n, rfl⟩ : ∃ m, n = m + 1 := ⟨n - 1, by omega⟩
    have hl := hls l List.mem_cons_self
    have hrest := ih (fun k hk => hls k (List.mem_cons_of_mem l hk)) (by simpa using hn)
    have hdrop := drop_labelWire hl (labelsWire ls ++ 0 :: t)
    have hcopy : copyOut (l ++ (labelsWire ls ++ 0 :: t)) l.length = l := by
      rw [copyOut_of_le (by simp), List.take_left]
    have hsize := labelSize_labelWire hl (labelsWire ls ++ 0 :: t)
    rw [hsize] at hdrop
    rw [labelsWire_cons, List.append_assoc, labelBlocks]
    simp only [labelWire, List.cons_append, List.headD_cons, if_neg hl.ofNat_ne_zero,
      List.tail_cons, hl.toNat_ofNat, hcopy] at hdrop ⊢
    rw [hdrop, hrest]

/-- `domain_rev` on the wire form of a name, whatever stands behind it in its block. -/
theorem domainRevRun_wire (hls : ∀ l ∈ ls, IsLabel l)
    (hsize : (labelsWire ls).length ≤ domainBufLen) (t : List UInt8) :
    ∃ st, domainRevRun (labelsWire ls ++ 0 :: t) = some (labelsWire ls.reverse ++ [0], st) ∧
      ∀ i ∈ st.used, 0 ≤ i ∧ i < domainBufLen := by
  have hrounds := two_mul_length_le_labelsWire hls
  have hlength : (labelsWire ls ++ 0 :: t).length = (labelsWire ls).length + (t.length + 1) := by
    simp
  have hblocks := labelBlocks_labelsWire (n := (labelsWire ls ++ 0 :: t).length) hls t (by omega)
  have hrun := @domainRevRun_eq (labelsWire ls ++ 0 :: t)
  rw [domainRev_blocks, hblocks, length_labelStack] at hrun
  exact hrun hsize

/-- `domain_rev` writes the labels in reverse order, in as many bytes, and stays inside its stack.
Twice it gives the name back, and no two names give the same bytes. -/
theorem domainRevRun_labels (hls : ∀ l ∈ ls, IsLabel l)
    (hsize : (labelsWire ls).length ≤ domainBufLen) (t : List UInt8) :
    (∃ st, domainRevRun (labelsWire ls ++ 0 :: t) = some (labelsWire ls.reverse ++ [0], st) ∧
        ∀ i ∈ st.used, 0 ≤ i ∧ i < domainBufLen) ∧
      (labelsWire ls.reverse ++ [0]).length = (labelsWire ls ++ [0]).length ∧
      (domainRevRun (labelsWire ls.reverse ++ [0])).map Prod.fst = some (labelsWire ls ++ [0]) ∧
      ∀ ks u, (∀ k ∈ ks, IsLabel k) → (labelsWire ks).length ≤ domainBufLen →
        (domainRevRun (labelsWire ks ++ 0 :: u)).map Prod.fst =
          (domainRevRun (labelsWire ls ++ 0 :: t)).map Prod.fst → ks = ls := by
  have hreverse : ∀ l ∈ ls.reverse, IsLabel l := fun l hl => hls l (List.mem_reverse.1 hl)
  obtain ⟨st, hrun, hused⟩ := domainRevRun_wire hls hsize t
  refine ⟨⟨st, hrun, hused⟩, ?_, ?_, ?_⟩
  · simp [length_labelsWire_reverse]
  · obtain ⟨st', hrun', -⟩ :=
      domainRevRun_wire hreverse ((length_labelsWire_reverse ls).trans_le hsize) []
    simp [hrun']
  · intro ks u hks hksize h
    obtain ⟨st', hrun', -⟩ := domainRevRun_wire hks hksize u
    simp only [hrun, hrun', Option.map_some, Option.some.injEq] at h
    have hwire := labelsWire_injective (fun k hk => hks k (List.mem_reverse.1 hk)) hreverse h
    exact List.reverse_injective hwire

/-- A label of 200 bytes, whose length is a negative `char`, and one of a single zero byte. -/
theorem domainRevRun_labels_signed :
    ∃ st, domainRevRun (labelsWire [List.replicate 200 7, [0]] ++ [0, 9]) =
        some (labelsWire [[0], List.replicate 200 7] ++ [0], st) ∧
      ∀ i ∈ st.used, 0 ≤ i ∧ i < domainBufLen := by
  have hls : ∀ l ∈ [List.replicate 200 7, [0]], IsLabel l := by
    unfold IsLabel
    decide +kernel
  exact (domainRevRun_labels hls (by decide +kernel) [9]).1

end BakaDns
