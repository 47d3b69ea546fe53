import BakaDns.Decode

/-!
# The layout of a datagram

Where the decoder's cursor goes is decided by the bytes it passes alone: pointers are followed
for the bytes of a name, never for the position behind it. So the positions of all names and
fields can be listed without decoding anything, and termination and read bounds of
`message_from_buf` are statements about that list.
-/

namespace BakaDns
open CBytes ReadTrace

/-- The bytes a name takes where it is written, up to its terminator or pointer. -/
def nameSizeOf : List UInt8 → ℕ
  | [] => 1
  | c :: cs => if c = 0 then 1 else if isPointer c then 2 else nameSizeOf cs + 1

/-- The target of the pointer that ends a name. -/
def jumpOf : List UInt8 → Option ℕ
  | [] => none
  | c :: cs =>
    if c = 0 then none
    else if isPointer c then some (pointerTarget c (cs.headD 0))
    else jumpOf cs

def nameSize (buf : List UInt8) (p : ℕ) : ℕ := nameSizeOf (buf.drop p)

def jump (buf : List UInt8) (p : ℕ) : Option ℕ := jumpOf (buf.drop p)

/-- The position reached from `p` by following `k` pointers, while there are any. -/
def hop (buf : List UInt8) (p : ℕ) : ℕ → Option ℕ
  | 0 => some p
  | k + 1 => (jump buf p).bind fun q => hop buf q k

/-- No position is met twice on the chain of pointers that starts at `p`. -/
def NoRevisit (buf : List UInt8) (p : ℕ) : Prop :=
  ∀ i j a, i < j → hop buf p i = some a → hop buf p j ≠ some a

section Names

variable {buf : List UInt8} {p q i : ℕ}

theorem drop_eq_byteAt_cons (h : byteAt buf p ≠ 0) :
    buf.drop p = byteAt buf p :: buf.drop (p + 1) := by
  have hp : p < buf.length := by
    by_contra hp
    exact h (List.getD_eq_default _ _ (Nat.le_of_not_lt hp))
  rw [List.drop_eq_getElem_cons hp, byteAt, List.getD_eq_getElem _ _ hp]

theorem byteAt_succ_eq_headD : byteAt buf (p + 1) = (buf.drop (p + 1)).headD 0 := by
  rw [byteAt, List.headD_eq_head?_getD, List.head?_drop, List.getD_eq_getElem?_getD]

theorem name_terminator (h : byteAt buf p = 0) : nameSize buf p = 1 ∧ jump buf p = none := by
  by_cases hp : p < buf.length
  · rw [byteAt, List.getD_eq_getElem _ _ hp] at h
    simp [nameSize, jump, List.drop_eq_getElem_cons hp, h, nameSizeOf, jumpOf]
  · simp [nameSize, jump, List.drop_eq_nil_of_le (Nat.le_of_not_lt hp), nameSizeOf, jumpOf]

theorem name_pointer (h : isPointer (byteAt buf p) = true) :
    nameSize buf p = 2 ∧
      jump buf p = some (pointerTarget (byteAt buf p) (byteAt buf (p + 1))) := by
  have h0 : byteAt buf p ≠ 0 := by
    intro h0
    simp [h0, isPointer] at h
  rw [nameSize, jump, drop_eq_byteAt_cons h0, byteAt_succ_eq_headD]
  simp [nameSizeOf, jumpOf, h0, h]

theorem name_label (h : IsLabelByte (byteAt buf p)) :
    nameSize buf p = nameSize buf (p + 1) + 1 ∧ jump buf p = jump buf (p + 1) := by
  obtain ⟨h0, hp⟩ := (isLabelByte_iff _).1 h
  rw [nameSize, jump, drop_eq_byteAt_cons h0]
  simp [nameSizeOf, jumpOf, h0, hp, nameSize, jump]

theorem nameSize_pos (buf : List UInt8) (p : ℕ) : 0 < nameSize buf p := by
  rcases byte_cases (byteAt buf p) with h | h | h
  · simp [name_terminator h]
  · simp [name_pointer h]
  · simp [name_label h]

theorem hop_label (h : IsLabelByte (byteAt buf p)) (k : ℕ) :
    hop buf p (k + 1) = hop buf (p + 1) (k + 1) := by
  simp only [hop, (name_label h).2]

theorem hop_pointer (h : isPointer (byteAt buf p) = true) (k : ℕ) :
    hop buf p (k + 1) = hop buf (pointerTarget (byteAt buf p) (byteAt buf (p + 1))) k := by
  simp only [hop, (name_pointer h).2, Option.bind_some]

theorem hop_add (k l : ℕ) : hop buf p (k + l) = (hop buf p k).bind fun q => hop buf q l := by
  induction k generalizing p with
  | zero => simp [hop]
  | succ k ih =>
    rw [Nat.succ_add]
    cases hj : jump buf p with
    | none => simp [hop, hj]
    | some q => simp [hop, hj, ih]

theorem jump_lt (h : jump buf p = some q) : q < 0x4000 := by
  generalize hn : nameSize buf p = n
  induction n generalizing p with
  | zero => have := nameSize_pos buf p; omega
  | succ n ih =>
    rcases byte_cases (byteAt buf p) with hc | hc | hc
    · simp [(name_terminator hc).2] at h
    · rw [(name_pointer hc).2, Option.some.injEq] at h
      subst q
      exact pointerTarget_lt _ _
    · rw [(name_label hc).1, Nat.add_right_cancel_iff] at hn
      rw [(name_label hc).2] at h
      exact ih h hn

/-- A chain of pointers ends exactly when it meets no position twice: its targets are 14-bit. -/
theorem hop_ends_iff : (∃ k, hop buf p k = none) ↔ NoRevisit buf p := by
  constructor
  · rintro ⟨k, hk⟩ i j a hij hi hj
    -- the stretch from `i` to `j` repeats, so the chain would never end
    obtain ⟨d, rfl⟩ := Nat.exists_eq_add_of_lt hij
    have hloop : hop buf a (d + 1) = some a := by
      rw [Nat.add_assoc, hop_add, hi] at hj
      exact hj
    have hrep : ∀ n, hop buf p (i + n * (d + 1)) = some a := by
      intro n
      induction n with
      | zero => simpa using hi
      | succ n ih => rw [Nat.succ_mul, ← Nat.add_assoc, hop_add, ih]; exact hloop
    have hlate := hrep k
    have hle : k ≤ i + k * (d + 1) := by nlinarith
    obtain ⟨e, he⟩ := Nat.exists_eq_add_of_le hle
    rw [he, hop_add, hk] at hlate
    simp at hlate
  · intro hno
    by_contra hends
    have hsome : ∀ k, ∃ a, hop buf p k = some a := by
      intro k
      exact Option.ne_none_iff_exists'.1 fun hk => hends ⟨k, hk⟩
    choose pos hpos using hsome
    have hlt : ∀ k, pos (k + 1) < 0x4000 := by
      intro k
      have h := hpos (k + 1)
      rw [hop_add, hpos k] at h
      simp only [Option.bind_some, hop, Option.bind_fun_some] at h
      exact jump_lt h
    obtain ⟨i, j, hij, he⟩ := Finite.exists_ne_map_eq_of_infinite
      fun k => (⟨pos (k + 1), hlt k⟩ : Fin 0x4000)
    have he' : pos (i + 1) = pos (j + 1) := congrArg Fin.val he
    rcases Nat.lt_or_gt_of_ne hij with h | h
    · exact hno (i + 1) (j + 1) _ (by omega) (hpos _) (he' ▸ hpos _)
    · exact hno (j + 1) (i + 1) _ (by omega) (hpos _) (he' ▸ hpos _)

/-! `read_domain` against the chain of pointers. -/

theorem readDomain_mono (buf : List UInt8) (p : ℕ) : Mono fun fuel => readDomain buf fuel p := by
  intro m
  induction m generalizing p with
  | zero => intro n _; exact Extends.stuck _
  | succ m ih =>
    intro n hmn
    obtain ⟨n, rfl⟩ : ∃ n', n = n' + 1 := ⟨n - 1, by omega⟩
    have hmn : m ≤ n := by omega
    change Extends (readDomain buf (m + 1) p) (readDomain buf (n + 1) p)
    rcases byte_cases (byteAt buf p) with hc | hc | hc
    · rw [readDomain_terminator hc, readDomain_terminator hc]
      exact Extends.refl _
    · rw [readDomain_pointer hc, readDomain_pointer hc]
      refine (Extends.refl _).bind fun _ _ => (Extends.refl _).bind fun _ _ => ?_
      exact (ih _ n hmn).bind fun _ _ => Extends.refl _
    · rw [readDomain_label hc, readDomain_label hc]
      refine (Extends.refl _).bind fun _ _ => ?_
      exact (ih _ n hmn).bind fun _ _ => Extends.refl _

/-- A name that was read ends the chain, and its size is the size where it is written. -/
theorem readDomain_result {fuel : ℕ} {r : List UInt8 × ℕ}
    (h : (readDomain buf fuel p).result = some r) :
    r.2 = nameSize buf p ∧ ∃ k, hop buf p k = none := by
  induction fuel generalizing p r with
  | zero => simp [readDomain_zero] at h
  | succ fuel ih =>
    rcases byte_cases (byteAt buf p) with hc | hc | hc
    · rw [readDomain_terminator hc] at h
      obtain ⟨hs, hj⟩ := name_terminator hc
      refine ⟨?_, 1, by simp [hop, hj]⟩
      simp at h
      simp [← h, hs]
    · rw [readDomain_pointer hc] at h
      simp only [result_bind, result_load, Option.bind_some, Option.bind_eq_some_iff,
        result_pure, Option.some.injEq] at h
      obtain ⟨s, hs, rfl⟩ := h
      obtain ⟨-, k, hk⟩ := ih hs
      exact ⟨(name_pointer hc).1.symm, k + 1, by rw [hop_pointer hc]; exact hk⟩
    · rw [readDomain_label hc] at h
      simp only [result_bind, result_load, Option.bind_some, Option.bind_eq_some_iff,
        result_pure, Option.some.injEq] at h
      obtain ⟨s, hs, rfl⟩ := h
      obtain ⟨hsize, k, hk⟩ := ih hs
      refine ⟨by rw [(name_label hc).1, ← hsize], ?_⟩
      cases k with
      | zero => simp [hop] at hk
      | succ k => exact ⟨k + 1, by rw [hop_label hc]; exact hk⟩

theorem readDomain_halts_of_hop {k : ℕ} (h : hop buf p k = none) :
    Halts fun fuel => readDomain buf fuel p := by
  generalize hn : nameSize buf p = n
  induction k generalizing p n with
  | zero => simp [hop] at h
  | succ k ihk =>
    induction n generalizing p with
    | zero => have := nameSize_pos buf p; omega
    | succ n ihn =>
      rcases byte_cases (byteAt buf p) with hc | hc | hc
      · exact ⟨([], 1), 1, by simp [readDomain_terminator hc]⟩
      · rw [hop_pointer hc] at h
        obtain ⟨r, m, hm⟩ := ihk h _ rfl
        exact ⟨(r.1, 2), m + 1, by simp [readDomain_pointer hc, hm]⟩
      · rw [hop_label hc] at h
        rw [(name_label hc).1, Nat.add_right_cancel_iff] at hn
        obtain ⟨r, m, hm⟩ := ihn h hn
        exact ⟨(byteAt buf p :: r.1, r.2 + 1), m + 1, by simp [readDomain_label hc, hm]⟩

/-- Every read lies in the written part of a name on the chain. -/
theorem hop_of_readDomain_reads {fuel : ℕ} (h : i ∈ (readDomain buf fuel p).reads) :
    ∃ k q, hop buf p k = some q ∧ q ≤ i ∧ i < q + nameSize buf q := by
  induction fuel generalizing p with
  | zero => simp [readDomain_zero] at h
  | succ fuel ih =>
    have hpos := nameSize_pos buf p
    rcases byte_cases (byteAt buf p) with hc | hc | hc
    · rw [readDomain_terminator hc] at h
      simp at h
      exact ⟨0, p, rfl, by omega, by omega⟩
    · rw [readDomain_pointer hc] at h
      have hsize := (name_pointer hc).1
      have h' : i = p ∨ i = p + 1 ∨ i ∈ (readDomain buf fuel
          (pointerTarget (byteAt buf p) (byteAt buf (p + 1)))).reads := by
        cases hr : (readDomain buf fuel
          (pointerTarget (byteAt buf p) (byteAt buf (p + 1)))).result <;> simpa [hr] using h
      rcases h' with rfl | rfl | h'
      · exact ⟨0, i, rfl, le_rfl, by omega⟩
      · exact ⟨0, p, rfl, by omega, by omega⟩
      · obtain ⟨k, q, hk, hq⟩ := ih h'
        exact ⟨k + 1, q, by rw [hop_pointer hc]; exact hk, hq⟩
    · rw [readDomain_label hc] at h
      have hsize := (name_label hc).1
      have h' : i = p ∨ i ∈ (readDomain buf fuel (p + 1)).reads := by
        cases hr : (readDomain buf fuel (p + 1)).result <;> simpa [hr] using h
      rcases h' with rfl | h'
      · exact ⟨0, i, rfl, le_rfl, by omega⟩
      · obtain ⟨k, q, hk, hq⟩ := ih h'
        cases k with
        | zero =>
          simp only [hop, Option.some.injEq] at hk
          subst q
          exact ⟨0, p, rfl, by omega, by omega⟩
        | succ k => exact ⟨k + 1, q, by rw [hop_label hc]; exact hk, hq⟩

/-- Every byte of a written part on the chain does get read. -/
theorem readDomain_touches_of_hop {k : ℕ} (hk : hop buf p k = some q) (hle : q ≤ i)
    (hlt : i < q + nameSize buf q) : Touches (fun fuel => readDomain buf fuel p) i := by
  generalize hn : nameSize buf p = n
  induction k generalizing p n with
  | zero =>
    simp only [hop, Option.some.injEq] at hk
    subst q
    induction n generalizing p with
    | zero => omega
    | succ n ih =>
      rcases byte_cases (byteAt buf p) with hc | hc | hc
      · have hs := (name_terminator hc).1
        exact ⟨1, by simp [readDomain_terminator hc]; omega⟩
      · have hs := (name_pointer hc).1
        exact ⟨1, by simp [readDomain_pointer hc]; omega⟩
      · have hs := (name_label hc).1
        by_cases hi : i = p
        · exact ⟨1, by simp [readDomain_label hc, hi]⟩
        · obtain ⟨m, hm⟩ := @ih (p + 1) (by omega) (by omega) (by omega)
          exact ⟨m + 1, by simp [readDomain_label hc, hm]⟩
  | succ k ihk =>
    induction n generalizing p with
    | zero => have := nameSize_pos buf p; omega
    | succ n ihn =>
      rcases byte_cases (byteAt buf p) with hc | hc | hc
      · simp [hop, (name_terminator hc).2] at hk
      · rw [hop_pointer hc] at hk
        obtain ⟨m, hm⟩ := ihk hk _ rfl
        exact ⟨m + 1, by simp [readDomain_pointer hc, hm]⟩
      · rw [hop_label hc] at hk
        rw [(name_label hc).1, Nat.add_right_cancel_iff] at hn
        obtain ⟨m, hm⟩ := ihn hk hn
        exact ⟨m + 1, by simp [readDomain_label hc, hm]⟩

end Names

end BakaDns
