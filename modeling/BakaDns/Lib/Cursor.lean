import BakaDns.Lib.Bytes

/-!
# Writing at a cursor

Entries that a program writes one after another from a cursor on, without a bound. An entry that
could not be written gives the error value -1 as its size, and the cursor goes back by one.
-/

namespace CBytes

variable {mem : Mem} {c limit a : ℤ} {entries : List (Option (List UInt8))}

/-- By how much an entry moves the cursor. -/
def advance : Option (List UInt8) → ℤ
  | none => -1
  | some bs => bs.length

def advances (entries : List (Option (List UInt8))) : ℤ := (entries.map advance).sum

/-- The memory after the entries have been written from `c` on. -/
def writeEntries (mem : Mem) (c : ℤ) : List (Option (List UInt8)) → Mem
  | [] => mem
  | none :: entries => writeEntries mem (c - 1) entries
  | some bs :: entries => writeEntries (mem.write c bs) (c + bs.length) entries

/-- Some entry is written over address `a`. -/
def Covers (c : ℤ) : List (Option (List UInt8)) → ℤ → Prop
  | [], _ => False
  | none :: entries, a => Covers (c - 1) entries a
  | some bs :: entries, a => (c ≤ a ∧ a < c + bs.length) ∨ Covers (c + bs.length) entries a

/-- Entries of the sizes given, laid end to end from `c`, start at 0 or later and end at `limit`
or earlier. -/
def Inside (limit : ℤ) (c : ℤ) : List (Option ℕ) → Prop
  | [] => True
  | none :: sizes => Inside limit (c - 1) sizes
  | some n :: sizes => (0 ≤ c ∧ c + n ≤ limit) ∧ Inside limit (c + n) sizes

instance Inside.decidable (limit : ℤ) : (c : ℤ) → (sizes : List (Option ℕ)) →
    Decidable (Inside limit c sizes)
  | _, [] => isTrue trivial
  | c, none :: sizes => Inside.decidable limit (c - 1) sizes
  | c, some n :: sizes =>
    have := Inside.decidable limit (c + n) sizes
    inferInstanceAs (Decidable (_ ∧ _))

theorem advances_append (xs ys : List (Option (List UInt8))) :
    advances (xs ++ ys) = advances xs + advances ys := by
  simp [advances]

theorem writeEntries_append (mem : Mem) (c : ℤ) (xs ys : List (Option (List UInt8))) :
    writeEntries mem c (xs ++ ys) = writeEntries (writeEntries mem c xs) (c + advances xs) ys := by
  induction xs generalizing mem c with
  | nil => simp [writeEntries, advances]
  | cons x xs ih =>
    cases x with
    | none =>
      simp only [List.cons_append, writeEntries, ih, advances, List.map_cons, List.sum_cons,
        advance]
      congr 1
      omega
    | some bs =>
      simp only [List.cons_append, writeEntries, ih, advances, List.map_cons, List.sum_cons,
        advance]
      congr 1
      omega

/-- A write over an address decides what stands there. -/
theorem write_inside (mem mem' : Mem) {bs : List UInt8} (hlo : c ≤ a) (hhi : a < c + bs.length) :
    mem.write c bs a = mem'.write c bs a := by
  unfold Mem.write
  rw [if_pos ⟨hlo, hhi⟩, if_pos ⟨hlo, hhi⟩]

/-- An address keeps its byte, or gets one that does not depend on the memory before. -/
theorem writeEntries_cell (mem mem' : Mem) (c a : ℤ) (entries : List (Option (List UInt8))) :
    (¬ Covers c entries a → writeEntries mem c entries a = mem a) ∧
      (Covers c entries a ∨ mem a = mem' a →
        writeEntries mem c entries a = writeEntries mem' c entries a) := by
  induction entries generalizing mem mem' c with
  | nil => exact ⟨fun _ => rfl, fun h => h.resolve_left id⟩
  | cons x entries ih =>
    cases x with
    | none => exact ih mem mem' (c - 1)
    | some bs =>
      obtain ⟨hkeep, hsame⟩ := ih (mem.write c bs) (mem'.write c bs) (c + bs.length)
      constructor
      · intro h
        rw [Covers, not_or] at h
        rw [writeEntries, hkeep h.2]
        exact mem.write_outside (by omega)
      · intro h
        apply hsame
        by_cases hin : c ≤ a ∧ a < c + bs.length
        · exact .inr (write_inside mem mem' hin.1 hin.2)
        · rcases h with h | h
          · exact .inl (h.resolve_left hin)
          · right
            rw [mem.write_outside (by omega), mem'.write_outside (by omega)]
            exact h

/-- Whatever the memory held, an address keeps its byte exactly when no entry covers it. -/
theorem keeps_iff_not_covers :
    (∀ mem, writeEntries mem c entries a = mem a) ↔ ¬ Covers c entries a := by
  constructor
  · intro h hc
    have hsame := (writeEntries_cell (fun _ => 0) (fun _ => 1) c a entries).2 (.inl hc)
    rw [h, h] at hsame
    exact absurd hsame (by decide)
  · intro h mem
    exact (writeEntries_cell mem mem c a entries).1 h

theorem inside_iff_covers (hne : ∀ bs, some bs ∈ entries → bs ≠ []) :
    Inside limit c (entries.map (Option.map List.length)) ↔
      ∀ a, Covers c entries a → 0 ≤ a ∧ a < limit := by
  induction entries generalizing c with
  | nil => simp [Inside, Covers]
  | cons x entries ih =>
    have ih := fun c => ih (c := c) fun bs hbs => hne bs (List.mem_cons_of_mem _ hbs)
    cases x with
    | none => exact ih (c - 1)
    | some bs =>
      have hpos : 0 < bs.length := List.length_pos_iff.2 (hne bs List.mem_cons_self)
      simp only [List.map_cons, Option.map_some, Inside, Covers, ih]
      constructor
      · rintro ⟨hbs, hrest⟩ a (ha | ha)
        · omega
        · exact hrest a ha
      · intro h
        refine ⟨?_, fun a ha => h a (.inr ha)⟩
        have hfirst := h c (.inl (by omega))
        have hlast := h (c + bs.length - 1) (.inl (by omega))
        omega

/-- The writes stay inside the buffer exactly when every entry has room in it. -/
theorem writeEntries_inside_iff (limit c : ℤ) (hne : ∀ bs, some bs ∈ entries → bs ≠ []) :
    (∀ mem a, a < 0 ∨ limit ≤ a → writeEntries mem c entries a = mem a) ↔
      Inside limit c (entries.map (Option.map List.length)) := by
  rw [inside_iff_covers hne]
  constructor
  · intro h a hc
    by_contra hout
    exact keeps_iff_not_covers.1 (fun mem => h mem a (by omega)) hc
  · intro h mem a ha
    exact keeps_iff_not_covers.2 (fun hc => by have := h a hc; omega) mem

end CBytes
