import Mathlib

/-!
# Maps with deadlines

A map that keeps the first value put for a key until a pass finds its deadline over, and lists of
entries that hold such a map.
-/

/-- Values with their deadlines. -/
abbrev TimedMap (K V : Type) := K → Option (V × ℕ)

namespace TimedMap

variable {K V E : Type}

def empty : TimedMap K V := fun _ => none

/-- A key that has a value keeps it, and its deadline. -/
def put [DecidableEq K] (m : TimedMap K V) (k : K) (v : V) (deadline : ℕ) : TimedMap K V :=
  if m k = none then Function.update m k (some (v, deadline)) else m

/-- What is over at the time `now` goes. -/
def expire (m : TimedMap K V) (now : ℕ) : TimedMap K V :=
  fun k => (m k).filter fun e => now < e.2

theorem expire_eq_some {m : TimedMap K V} {now : ℕ} {k : K} {e : V × ℕ} :
    m.expire now k = some e ↔ m k = some e ∧ now < e.2 := by
  rw [expire, Option.filter_eq_some_iff, decide_eq_true_iff]

theorem put_of_some [DecidableEq K] {m : TimedMap K V} {k : K} {e : V × ℕ} (h : m k = some e)
    (v : V) (deadline : ℕ) : m.put k v deadline = m := by
  rw [put, if_neg (by rw [h]; exact Option.some_ne_none e)]

theorem put_of_none [DecidableEq K] {m : TimedMap K V} {k : K} (h : m k = none) (v : V)
    (deadline : ℕ) : m.put k v deadline = Function.update m k (some (v, deadline)) := by
  rw [put, if_pos h]

/-! The entries of a list. -/

section Entries

variable {key : E → K} {value : E → V × ℕ} {es es' : List E} {m : TimedMap K V}

/-- The list has an entry for each key of the map, and no others. -/
def HeldBy (m : TimedMap K V) (key : E → K) (value : E → V × ℕ) (es : List E) : Prop :=
  ∀ k v, m k = some v ↔ ∃ e ∈ es, key e = k ∧ value e = v

theorem heldBy_empty : (empty : TimedMap K V).HeldBy key value [] := by
  intro k v
  simp [empty]

theorem HeldBy.eq_some (h : m.HeldBy key value es) {e : E} (he : e ∈ es) :
    m (key e) = some (value e) := (h _ _).2 ⟨e, he, rfl, rfl⟩

/-- The order does not matter. -/
theorem HeldBy.perm (h : m.HeldBy key value es) (hp : es'.Perm es) : m.HeldBy key value es' := by
  intro k v
  rw [h k v]
  exact exists_congr fun e => and_congr_left fun _ => hp.mem_iff.symm

theorem HeldBy.eq_none (h : m.HeldBy key value es) {k : K} (hk : ∀ e ∈ es, key e ≠ k) :
    m k = none := by
  rw [Option.eq_none_iff_forall_ne_some]
  intro v hv
  obtain ⟨e, he, hkey, -⟩ := (h k v).1 hv
  exact hk e he hkey

/-- A put for a key that is there. -/
theorem HeldBy.put_old [DecidableEq K] (h : m.HeldBy key value es) {e : E} (he : e ∈ es) (v : V)
    (deadline : ℕ) : (m.put (key e) v deadline).HeldBy key value es := by
  rwa [put_of_some (h.eq_some he)]

/-- A put for a new key. -/
theorem HeldBy.put_new [DecidableEq K] (h : m.HeldBy key value es) {e : E} {v : V} {deadline : ℕ}
    (hnew : ∀ e' ∈ es, key e' ≠ key e) (hvalue : value e = (v, deadline)) :
    (m.put (key e) v deadline).HeldBy key value (e :: es) := by
  rw [put_of_none (h.eq_none hnew)]
  intro k v'
  by_cases hk : k = key e
  · subst hk
    rw [Function.update_self, ← hvalue]
    constructor
    · rintro ⟨⟩
      exact ⟨e, List.mem_cons_self, rfl, rfl⟩
    · rintro ⟨e', he', hkey, hv'⟩
      rcases List.mem_cons.1 he' with rfl | he'
      · rw [hv']
      · exact absurd hkey (hnew e' he')
  · rw [Function.update_of_ne hk, h k v']
    constructor
    · rintro ⟨e', he', hrest⟩
      exact ⟨e', List.mem_cons_of_mem _ he', hrest⟩
    · rintro ⟨e', he', hkey, hv'⟩
      rcases List.mem_cons.1 he' with rfl | he'
      · exact absurd hkey.symm hk
      · exact ⟨e', he', hkey, hv'⟩

/-- A pass that removes the entries that are over and changes nothing of the others that counts. -/
theorem HeldBy.expire (h : m.HeldBy key value es) (now : ℕ) {age : E → E}
    (hkey : ∀ e, key (age e) = key e) (hvalue : ∀ e, value (age e) = value e) :
    (m.expire now).HeldBy key value ((es.filter fun e => now < (value e).2).map age) := by
  intro k v
  rw [expire_eq_some, h k v]
  constructor
  · rintro ⟨⟨e, he, hk, rfl⟩, hlive⟩
    refine ⟨age e, List.mem_map_of_mem (List.mem_filter.2 ⟨he, ?_⟩), ?_, hvalue e⟩
    · exact decide_eq_true hlive
    · rw [hkey e, hk]
  · rintro ⟨e', he', hk, rfl⟩
    obtain ⟨e, he, rfl⟩ := List.mem_map.1 he'
    obtain ⟨hmem, hlive⟩ := List.mem_filter.1 he
    rw [hkey e] at hk
    rw [hvalue e]
    exact ⟨⟨e, hmem, hk, rfl⟩, of_decide_eq_true hlive⟩

end Entries

end TimedMap
