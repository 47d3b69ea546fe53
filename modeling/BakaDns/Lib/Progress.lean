import Mathlib

/-!
# Infinite executions

A system that takes steps for ever, and what must happen in it when its processes are scheduled
fairly: invariants, and the rules by which one state of affairs leads to another.
-/

namespace Progress

variable {σ α : Type}

/-- The states over time and the action taken at each moment, if there is one. -/
structure Execution (σ α : Type) where
  state : ℕ → σ
  event : ℕ → Option α

/-- What happens at one moment. -/
inductive Moment (step : σ → α → σ → Prop) (s : σ) : Option α → σ → Prop
  | idle : Moment step s none s
  | act {a : α} {t : σ} (h : step s a t) : Moment step s (some a) t

theorem Moment.step {step : σ → α → σ → Prop} {s t : σ} {a : α}
    (h : Moment step s (some a) t) : step s a t := by
  cases h with
  | act hs => exact hs

theorem Moment.idle_or_act {step : σ → α → σ → Prop} {s t : σ} {e : Option α}
    (h : Moment step s e t) : t = s ∨ ∃ a, step s a t := by
  cases h with
  | idle => exact .inl rfl
  | @act a _ hs => exact .inr ⟨a, hs⟩

structure Valid (init : σ → Prop) (step : σ → α → σ → Prop) (E : Execution σ α) : Prop where
  start : init (E.state 0)
  moment : ∀ n, Moment step (E.state n) (E.event n) (E.state (n + 1))

/-- A process that could move from some time on does so. `mine` are its actions. -/
def WeaklyFair (enabled : σ → Prop) (mine : α → Prop) (E : Execution σ α) : Prop :=
  ∀ m, (∀ n, m ≤ n → enabled (E.state n)) → ∃ n, m ≤ n ∧ ∃ a, E.event n = some a ∧ mine a

/-- Whenever `P` holds, `Q` holds then or later. -/
def LeadsTo (E : Execution σ α) (P Q : σ → Prop) : Prop :=
  ∀ n, P (E.state n) → ∃ m, n ≤ m ∧ Q (E.state m)

variable {E : Execution σ α} {init : σ → Prop} {step : σ → α → σ → Prop}
  {P Q R I enabled : σ → Prop} {mine : α → Prop}

theorem Valid.invariant (h : Valid init step E) (hinit : ∀ s, init s → I s)
    (hstep : ∀ s a t, I s → step s a t → I t) (n : ℕ) : I (E.state n) := by
  induction n with
  | zero => exact hinit _ h.start
  | succ n ih =>
    have hm := h.moment n
    generalize E.state n = s, E.event n = e, E.state (n + 1) = t at hm ih
    cases hm with
    | idle => exact ih
    | act hs => exact hstep _ _ _ ih hs

theorem LeadsTo.of_imp (h : ∀ s, P s → Q s) : LeadsTo E P Q := fun n hp => ⟨n, le_rfl, h _ hp⟩

theorem LeadsTo.trans (hpq : LeadsTo E P Q) (hqr : LeadsTo E Q R) : LeadsTo E P R := by
  intro n hp
  obtain ⟨m, hm, hq⟩ := hpq n hp
  obtain ⟨k, hk, hr⟩ := hqr m hq
  exact ⟨k, hm.trans hk, hr⟩

/-- Two ways to get there. -/
theorem LeadsTo.or (hp : LeadsTo E P R) (hq : LeadsTo E Q R) :
    LeadsTo E (fun s => P s ∨ Q s) R := by
  intro n h
  rcases h with h | h
  · exact hp n h
  · exact hq n h

theorem LeadsTo.exists {ι : Type} {P : ι → σ → Prop} (h : ∀ x, LeadsTo E (P x) Q) :
    LeadsTo E (fun s => ∃ x, P x s) Q := by
  rintro n ⟨x, hp⟩
  exact h x n hp

/-- A fair process gets it done: others leave `P` in place or do it themselves, and the process is
able to move and does it with its next move. -/
theorem Valid.leadsTo (h : Valid init step E) (hfair : WeaklyFair enabled mine E)
    (hI : ∀ n, I (E.state n)) (henabled : ∀ s, I s → P s → enabled s)
    (hothers : ∀ s a t, I s → P s → step s a t → ¬ mine a → P t ∨ Q t)
    (hmine : ∀ s a t, I s → I t → P s → step s a t → mine a → Q t) : LeadsTo E P Q := by
  intro m hp
  by_contra hnever
  have hQ : ∀ n, m ≤ n → ¬ Q (E.state n) := fun n hn hq => hnever ⟨n, hn, hq⟩
  have hone : ∀ n, m ≤ n → P (E.state n) → P (E.state (n + 1)) := by
    intro n hn hpn
    have hm := h.moment n
    have hi := hI n
    have hi' := hI (n + 1)
    have hq := hQ (n + 1) (by omega)
    generalize E.state n = s, E.event n = e, E.state (n + 1) = t at hm hi hi' hpn hq
    cases hm with
    | idle => exact hpn
    | @act a t hs =>
      by_cases ha : mine a
      · exact absurd (hmine _ _ _ hi hi' hpn hs ha) hq
      · exact (hothers _ _ _ hi hpn hs ha).resolve_right hq
  have hP : ∀ n, m ≤ n → P (E.state n) := by
    intro n hn
    induction n, hn using Nat.le_induction with
    | base => exact hp
    | succ n hn ih => exact hone n hn ih
  obtain ⟨n, hn, a, ha, hmn⟩ := hfair m fun n hn => henabled _ (hI n) (hP n hn)
  have hm := h.moment n
  rw [ha] at hm
  exact hQ (n + 1) (by omega) (hmine _ _ _ (hI n) (hI _) (hP n hn) hm.step hmn)

/-- A position that keeps going down gets to the end. -/
theorem LeadsTo.of_descent {P : ℕ → σ → Prop}
    (h : ∀ k, LeadsTo E (P k) fun s => Q s ∨ ∃ j, j < k ∧ P j s) (k : ℕ) : LeadsTo E (P k) Q := by
  induction k using Nat.strong_induction_on with
  | h k ih =>
    intro n hp
    obtain ⟨m, hm, hq | ⟨j, hj, hp⟩⟩ := h k n hp
    · exact ⟨m, hm, hq⟩
    · obtain ⟨r, hr, hq⟩ := ih j hj m hp
      exact ⟨r, hm.trans hr, hq⟩

/-! A finite schedule, after which nothing happens any more. -/

section Play

variable {next : σ → α → Option σ} {s t : σ} {schedule : List α}

def Execution.play (next : σ → α → Option σ) (s : σ) (schedule : List α) : Execution σ α where
  state n := (schedule.take n).foldl (fun s a => (next s a).getD s) s
  event n := schedule[n]?

theorem play_state_of_le (h : schedule.foldlM next s = some t) {n : ℕ}
    (hn : schedule.length ≤ n) : (Execution.play next s schedule).state n = t := by
  unfold Execution.play
  dsimp only
  rw [List.take_of_length_le hn]
  clear hn
  induction schedule generalizing s with
  | nil => exact Option.some.inj h
  | cons a schedule ih =>
    rw [List.foldlM_cons] at h
    obtain ⟨s₁, hs₁, h⟩ := Option.bind_eq_some_iff.1 h
    rw [List.foldl_cons, hs₁]
    exact ih h

theorem play_valid (h : (schedule.foldlM next s).isSome) :
    Valid (fun x => x = s) (fun x a y => next x a = some y) (Execution.play next s schedule) := by
  refine ⟨rfl, fun n => ?_⟩
  induction schedule generalizing s n with
  | nil =>
    have hstate : ∀ m, (Execution.play next s []).state m = s := by
      intro m
      simp [Execution.play]
    rw [hstate, hstate]
    exact .idle
  | cons a schedule ih =>
    rw [List.foldlM_cons] at h
    obtain ⟨t, h⟩ := Option.isSome_iff_exists.1 h
    obtain ⟨s₁, hs₁, h⟩ := Option.bind_eq_some_iff.1 h
    have hshift : ∀ m, (Execution.play next s (a :: schedule)).state (m + 1) =
        (Execution.play next s₁ schedule).state m := by
      intro m
      simp [Execution.play, hs₁]
    cases n with
    | zero =>
      rw [hshift]
      exact .act hs₁
    | succ n =>
      rw [hshift, hshift]
      exact ih (Option.isSome_of_eq_some h) n

/-- A schedule after which a process cannot move is fair to it. -/
theorem play_fair (h : schedule.foldlM next s = some t) (ht : ¬ enabled t) :
    WeaklyFair enabled mine (Execution.play next s schedule) := by
  intro m hm
  apply (ht _).elim
  rw [← play_state_of_le h (le_max_right m schedule.length)]
  exact hm _ (le_max_left m schedule.length)

end Play

end Progress
