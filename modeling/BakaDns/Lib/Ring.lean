import Mathlib

/-!
# Ring buffers

The occupied window of a ring of `n` slots: `len` slots from `front` on, wrapping around. A push
fills the slot behind the window, a pop gives up its first one.
-/

namespace Ring

variable {α : Type} {slots : ℕ → α} {n front len : ℕ}

/-- The slots in use, oldest first. -/
def window (slots : ℕ → α) (n front len : ℕ) : List α :=
  (List.range len).map fun k => slots ((front + k) % n)

@[simp] theorem length_window : (window slots n front len).length = len := by
  simp [window]

/-- Two offsets below the capacity never share a slot. -/
theorem slot_ne {i j : ℕ} (hij : i < j) (hj : j < n) : (front + i) % n ≠ (front + j) % n := by
  intro h
  have hd : n ∣ front + j - (front + i) := (Nat.modEq_iff_dvd' (by omega)).1 h
  have hle := Nat.le_of_dvd (by omega) hd
  omega

/-- A push leaves the window as it was and adds the slot behind it. -/
theorem window_push (x : α) (h : len < n) :
    window (Function.update slots ((front + len) % n) x) n front (len + 1) =
      window slots n front len ++ [x] := by
  unfold window
  rw [List.range_succ, List.map_append, List.map_singleton, Function.update_self]
  congr 1
  apply List.map_congr_left
  intro k hk
  exact Function.update_of_ne (slot_ne (List.mem_range.1 hk) h) _ _

theorem window_pop :
    window slots n front (len + 1) =
      slots (front % n) :: window slots n ((front + 1) % n) len := by
  unfold window
  rw [List.range_succ_eq_map, List.map_cons, List.map_map, Nat.add_zero]
  congr 1
  apply List.map_congr_left
  intro k _
  have hk : (front + (k + 1)) % n = ((front + 1) % n + k) % n := by
    rw [Nat.mod_add_mod]
    congr 1
    omega
  exact congrArg slots hk

end Ring
