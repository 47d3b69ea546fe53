import Mathlib

/-!
# Byte blocks

C strings, fixed-width big-endian fields and byte memories written through a cursor. A block
is a list of bytes; whatever lies past its end reads as zero.
-/

namespace CBytes

def byteAt (bs : List UInt8) (i : ℕ) : UInt8 := bs.getD i 0

/-- `memcpy` of `n` bytes out of a block. -/
def copyOut (bs : List UInt8) (n : ℕ) : List UInt8 := bs.takeD n 0

/-- `strnlen`: the bytes before the first zero, at most `n` of them. -/
def strnlen : List UInt8 → ℕ → ℕ
  | _, 0 => 0
  | [], _ + 1 => 0
  | c :: cs, n + 1 => if c = 0 then 0 else strnlen cs n + 1

/-- `strncmp(a, b, n) == 0`: equal up to `n` bytes or up to a zero both share. -/
def strncmpEq : List UInt8 → List UInt8 → ℕ → Bool
  | _, _, 0 => true
  | a, b, n + 1 =>
    if a.headD 0 ≠ b.headD 0 then false
    else if a.headD 0 = 0 then true
    else strncmpEq a.tail b.tail n

/-- The string a block holds: its bytes before the first zero. -/
def cstr (bs : List UInt8) : List UInt8 := bs.takeWhile (· ≠ 0)

@[simp] theorem cstr_nil : cstr [] = [] := rfl

theorem cstr_cons (c : UInt8) (cs : List UInt8) :
    cstr (c :: cs) = if c = 0 then [] else c :: cstr cs := by
  by_cases h : c = 0 <;> simp [cstr, h]

theorem cstr_append_zero {s t : List UInt8} (hs : ∀ c ∈ s, c ≠ 0) : cstr (s ++ 0 :: t) = s := by
  induction s with
  | nil => simp [cstr_cons]
  | cons c s ih =>
    have hc : c ≠ 0 := hs c (by simp)
    rw [List.cons_append, cstr_cons, if_neg hc, ih (fun d hd => hs d (by simp [hd]))]

theorem strnlen_eq_min (bs : List UInt8) (n : ℕ) : strnlen bs n = min (cstr bs).length n := by
  induction bs generalizing n with
  | nil => cases n <;> simp [strnlen]
  | cons c cs ih =>
    cases n with
    | zero => simp [strnlen]
    | succ n =>
      by_cases hc : c = 0
      · simp [strnlen, cstr_cons, hc]
      · simp [strnlen, cstr_cons, hc, ih, Nat.add_min_add_right]

/-- `strncmp` sees the two strings cut at `n`, and nothing behind their terminators. -/
theorem strncmpEq_iff (a b : List UInt8) (n : ℕ) :
    strncmpEq a b n = true ↔ (cstr a).take n = (cstr b).take n := by
  induction n generalizing a b with
  | zero => simp [strncmpEq]
  | succ n ih =>
    cases a with
    | nil =>
      cases b with
      | nil => simp [strncmpEq]
      | cons d ds =>
        by_cases hd : d = 0
        · simp [strncmpEq, cstr_cons, hd]
        · simp [strncmpEq, cstr_cons, hd, Ne.symm hd]
    | cons c cs =>
      cases b with
      | nil => by_cases hc : c = 0 <;> simp [strncmpEq, cstr_cons, hc]
      | cons d ds =>
        by_cases hcd : c = d
        · subst hcd
          by_cases hc : c = 0
          · simp [strncmpEq, cstr_cons, hc]
          · simp [strncmpEq, cstr_cons, hc, ih]
        · by_cases hc : c = 0
          · subst hc
            simp [strncmpEq, cstr_cons, hcd, Ne.symm hcd]
          · by_cases hd : d = 0 <;> simp [strncmpEq, cstr_cons, hcd, hc, hd]

theorem strncmpEq_symm {a b : List UInt8} {n : ℕ} (h : strncmpEq a b n = true) :
    strncmpEq b a n = true :=
  (strncmpEq_iff b a n).2 ((strncmpEq_iff a b n).1 h).symm

/-- A bound past the end of one of the strings makes `strncmp` compare whole strings. -/
theorem strncmpEq_iff_cstr {a b : List UInt8} {n : ℕ} (h : (cstr b).length < n) :
    strncmpEq a b n = true ↔ cstr a = cstr b := by
  rw [strncmpEq_iff, List.take_of_length_le (Nat.le_of_lt h)]
  constructor
  · intro he
    have hl := congrArg List.length he
    rw [List.length_take] at hl
    rwa [List.take_of_length_le (by omega)] at he
  · intro he
    rw [he, List.take_of_length_le (Nat.le_of_lt h)]

@[simp] theorem length_copyOut (bs : List UInt8) (n : ℕ) : (copyOut bs n).length = n :=
  List.takeD_length n bs 0

theorem copyOut_of_le {bs : List UInt8} {n : ℕ} (h : n ≤ bs.length) : copyOut bs n = bs.take n :=
  List.takeD_eq_take 0 h

@[simp] theorem copyOut_length (bs : List UInt8) : copyOut bs bs.length = bs := by
  rw [copyOut_of_le le_rfl, List.take_length]

/-- Copying `n` bytes keeps the string as far as those bytes show it. -/
theorem cstr_copyOut (bs : List UInt8) (n : ℕ) : cstr (copyOut bs n) = (cstr bs).take n := by
  induction n generalizing bs with
  | zero => simp [copyOut]
  | succ n ih =>
    cases bs with
    | nil => simp [copyOut, cstr_cons]
    | cons c cs =>
      have := ih cs
      simp only [copyOut] at this
      by_cases hc : c = 0
      · simp [copyOut, cstr_cons, hc]
      · simp [copyOut, cstr_cons, hc, this]

theorem byteAt_zero (bs : List UInt8) : byteAt bs 0 = bs.headD 0 := by
  cases bs <;> rfl

theorem copyOut_succ (bs : List UInt8) (n : ℕ) :
    copyOut bs (n + 1) = bs.headD 0 :: copyOut bs.tail n := by
  rw [copyOut, List.takeD_succ, copyOut, List.headD_eq_head?_getD]

/-- `strncmp` finds two blocks equal when they agree up to the bound, or up to and including a
zero byte in front of it. -/
theorem strncmpEq_iff_copyOut {a b : List UInt8} {n : ℕ} :
    strncmpEq a b n = true ↔ copyOut a n = copyOut b n ∨
      ∃ i < n, byteAt a i = 0 ∧ copyOut a (i + 1) = copyOut b (i + 1) := by
  induction n generalizing a b with
  | zero => simp [strncmpEq, copyOut]
  | succ n ih =>
    rw [strncmpEq]
    split
    · next hne =>
      have hhead : ∀ m, copyOut a (m + 1) ≠ copyOut b (m + 1) := by
        intro m h
        rw [copyOut_succ, copyOut_succ] at h
        exact hne (List.head_eq_of_cons_eq h)
      constructor
      · intro h
        cases h
      · rintro (h | ⟨i, -, -, h⟩)
        · exact absurd h (hhead n)
        · exact absurd h (hhead i)
    · next heq =>
      have hcons : ∀ m, copyOut a (m + 1) = copyOut b (m + 1) ↔
          copyOut a.tail m = copyOut b.tail m := by
        intro m
        rw [copyOut_succ, copyOut_succ, not_not.1 heq, List.cons.injEq]
        exact and_iff_right rfl
      have hbyte : ∀ i, byteAt a (i + 1) = byteAt a.tail i := by
        intro i
        cases a <;> rfl
      split
      · next h0 =>
        have hzero : byteAt a 0 = 0 := (byteAt_zero a).trans h0
        exact iff_of_true rfl (.inr ⟨0, n.succ_pos, hzero, (hcons 0).2 rfl⟩)
      · next h0 =>
        rw [ih, hcons]
        refine or_congr_right ⟨?_, ?_⟩
        · rintro ⟨i, hi, hz, h⟩
          exact ⟨i + 1, Nat.succ_lt_succ hi, (hbyte i).trans hz, (hcons (i + 1)).2 h⟩
        · rintro ⟨i, hi, hz, h⟩
          cases i with
          | zero => exact absurd ((byteAt_zero a).symm.trans hz) h0
          | succ i =>
            exact ⟨i, Nat.lt_of_succ_lt_succ hi, (hbyte i).symm.trans hz, (hcons (i + 1)).1 h⟩

/-! Big-endian fields. -/

def beU16 (b₀ b₁ : UInt8) : UInt16 := UInt16.ofNat (b₀.toNat * 256 + b₁.toNat)

def beU32 (b₀ b₁ b₂ b₃ : UInt8) : UInt32 :=
  UInt32.ofNat (((b₀.toNat * 256 + b₁.toNat) * 256 + b₂.toNat) * 256 + b₃.toNat)

def u16Be (h : UInt16) : List UInt8 := [UInt8.ofNat (h.toNat / 256), UInt8.ofNat h.toNat]

def u32Be (h : UInt32) : List UInt8 :=
  [UInt8.ofNat (h.toNat / 16777216), UInt8.ofNat (h.toNat / 65536),
    UInt8.ofNat (h.toNat / 256), UInt8.ofNat h.toNat]

@[simp] theorem length_u16Be (h : UInt16) : (u16Be h).length = 2 := rfl

@[simp] theorem length_u32Be (h : UInt32) : (u32Be h).length = 4 := rfl

theorem beU16_u16Be (h : UInt16) : beU16 (byteAt (u16Be h) 0) (byteAt (u16Be h) 1) = h := by
  apply UInt16.toNat_inj.mp
  have hlt := h.toNat_lt
  simp only [beU16, byteAt, u16Be, List.getD_cons_zero, List.getD_cons_succ,
    UInt16.toNat_ofNat', UInt8.toNat_ofNat']
  omega

theorem beU32_u32Be (h : UInt32) :
    beU32 (byteAt (u32Be h) 0) (byteAt (u32Be h) 1) (byteAt (u32Be h) 2)
      (byteAt (u32Be h) 3) = h := by
  apply UInt32.toNat_inj.mp
  have hlt := h.toNat_lt
  simp only [beU32, byteAt, u32Be, List.getD_cons_zero, List.getD_cons_succ,
    UInt32.toNat_ofNat', UInt8.toNat_ofNat']
  omega

/-! Memories. Addresses are relative to the start of a buffer and may lie before it. -/

abbrev Mem := ℤ → UInt8

def Mem.write (m : Mem) (dest : ℤ) (bs : List UInt8) : Mem := fun i =>
  if dest ≤ i ∧ i < dest + bs.length then byteAt bs (i - dest).toNat else m i

/-- The `n` bytes from address `dest` on. -/
def Mem.slice (m : Mem) (dest : ℤ) (n : ℕ) : List UInt8 :=
  (List.range n).map fun i : ℕ => m (dest + i)

@[simp] theorem Mem.length_slice (m : Mem) (dest : ℤ) (n : ℕ) : (m.slice dest n).length = n := by
  simp [Mem.slice]

@[simp] theorem Mem.write_nil (m : Mem) (dest : ℤ) : m.write dest [] = m := by
  funext i
  simp only [Mem.write, List.length_nil]
  rw [if_neg (by omega)]

theorem Mem.write_outside (m : Mem) {dest i : ℤ} {bs : List UInt8}
    (h : i < dest ∨ dest + bs.length ≤ i) : m.write dest bs i = m i := by
  rw [Mem.write, if_neg (by omega)]

theorem Mem.write_inside (m : Mem) {bs : List UInt8} {n : ℕ} (h : n < bs.length) :
    m.write 0 bs n = byteAt bs n := by
  rw [Mem.write, if_pos (by omega), sub_zero, Int.toNat_natCast]

/-- Two writes, the second starting where the first ended, are one write. -/
theorem Mem.write_write (m : Mem) (dest : ℤ) (bs cs : List UInt8) :
    (m.write dest bs).write (dest + bs.length) cs = m.write dest (bs ++ cs) := by
  funext i
  simp only [Mem.write, List.length_append, Nat.cast_add, byteAt]
  by_cases h₁ : dest + bs.length ≤ i ∧ i < dest + bs.length + cs.length
  · rw [if_pos h₁, if_pos (by omega), List.getD_append_right _ _ _ _ (by omega)]
    congr 1
    omega
  · rw [if_neg h₁]
    by_cases h₂ : dest ≤ i ∧ i < dest + bs.length
    · rw [if_pos h₂, if_pos (by omega), List.getD_append _ _ _ _ (by omega)]
    · rw [if_neg h₂, if_neg (by omega)]

theorem Mem.slice_write (m : Mem) (dest : ℤ) (bs : List UInt8) :
    (m.write dest bs).slice dest bs.length = bs := by
  apply List.ext_getElem
  · simp
  · intro i h₁ h₂
    simp only [Mem.slice, List.getElem_map, List.getElem_range, Mem.write]
    rw [if_pos (by omega)]
    have hi : (dest + (i : ℤ) - dest).toNat = i := by omega
    simp [byteAt, h₂]

theorem Mem.slice_add (m : Mem) (dest : ℤ) (a b : ℕ) :
    m.slice dest (a + b) = m.slice dest a ++ m.slice (dest + a) b := by
  simp only [Mem.slice, List.range_add, List.map_append, List.map_map, Function.comp_def,
    Nat.cast_add, add_assoc]

/-- A write shows in front of what was there behind it. -/
theorem Mem.slice_write_add (m : Mem) (dest : ℤ) (bs : List UInt8) (n : ℕ) :
    (m.write dest bs).slice dest (bs.length + n) = bs ++ m.slice (dest + bs.length) n := by
  rw [Mem.slice_add, Mem.slice_write]
  congr 1
  apply List.map_congr_left
  intro i _
  exact m.write_outside (Or.inr (by omega))

end CBytes
