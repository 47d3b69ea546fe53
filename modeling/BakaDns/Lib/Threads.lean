import Mathlib

/-!
# Programs of atomic operations

Threads that touch their shared state only through atomic operations: what such a program does when
it runs alone, and what it can be trusted with when others run in between.
-/

namespace Threads

/-- A program ends, fails, or performs one operation and goes on with what that returned. -/
inductive Prog (ε Op : Type) (Res : Op → Type) (α : Type)
  | ret (a : α)
  | fail (e : ε)
  | call (op : Op) (k : Res op → Prog ε Op Res α)

variable {ε Op : Type} {Res : Op → Type} {α β σ τ : Type}

namespace Prog

def bind : Prog ε Op Res α → (α → Prog ε Op Res β) → Prog ε Op Res β
  | ret a, f => f a
  | fail e, _ => fail e
  | call op k, f => call op fun r => (k r).bind f

instance : Monad (Prog ε Op Res) where
  pure := ret
  bind := bind

/-- A computation that does not touch the shared state. -/
def lift : Except ε α → Prog ε Op Res α
  | .ok a => ret a
  | .error e => fail e

/-- A single operation. -/
def perform (op : Op) : Prog ε Op Res (Res op) := call op ret

theorem bind_assoc {γ : Type} (p : Prog ε Op Res α) (f : α → Prog ε Op Res β)
    (g : β → Prog ε Op Res γ) : p >>= f >>= g = p >>= fun a => f a >>= g := by
  induction p with
  | ret a => rfl
  | fail e => rfl
  | call op k ih => exact congrArg (call op) (funext ih)

/-- A program without its result. -/
def forget (p : Prog ε Op Res α) : Prog ε Op Res Unit := p >>= fun _ => ret ()

theorem forget_bind (p : Prog ε Op Res α) (f : α → Prog ε Op Res β) :
    (p >>= f).forget = p >>= fun a => (f a).forget := bind_assoc p f _

/-! A program that runs alone. -/

section Alone

variable {exec : (op : Op) → σ → Except ε (Res op × σ)} {π : σ → τ}

def run (exec : (op : Op) → σ → Except ε (Res op × σ)) :
    Prog ε Op Res α → σ → Except ε (α × σ)
  | ret a, s => .ok (a, s)
  | fail e, _ => .error e
  | call op k, s => exec op s >>= fun r => (k r.1).run exec r.2

theorem run_bind (p : Prog ε Op Res α) (f : α → Prog ε Op Res β) (s : σ) :
    (p >>= f).run exec s = p.run exec s >>= fun r => (f r.1).run exec r.2 := by
  induction p generalizing s with
  | ret a => rfl
  | fail e => rfl
  | call op k ih =>
    change (exec op s >>= fun r => ((k r.1).bind f).run exec r.2) =
      (exec op s >>= fun r => (k r.1).run exec r.2) >>= fun r => (f r.1).run exec r.2
    cases exec op s with
    | error e => rfl
    | ok r => exact ih r.1 r.2

/-- The program does to the part `π` of the state what `m` does. -/
def Implements (exec : (op : Op) → σ → Except ε (Res op × σ)) (π : σ → τ)
    (p : Prog ε Op Res α) (m : τ → Except ε (α × τ)) : Prop :=
  ∀ s, (p.run exec s).map (fun r => (r.1, π r.2)) = m (π s)

theorem implements_ret (a : α) : Implements exec π (ret a) fun t => .ok (a, t) := fun _ => rfl

theorem implements_lift (c : Except ε α) :
    Implements exec π (lift c) fun t => c.map fun a => (a, t) := by
  intro s
  cases c with
  | error e => rfl
  | ok a => rfl

theorem implements_perform {op : Op} {m : τ → Except ε (Res op × τ)}
    (h : ∀ s, (exec op s).map (fun r => (r.1, π r.2)) = m (π s)) :
    Implements exec π (perform op) m := by
  intro s
  rw [← h s]
  change (exec op s >>= fun r => Except.ok (r.1, r.2)).map _ = _
  cases exec op s with
  | error e => rfl
  | ok r => rfl

theorem Implements.bind {p : Prog ε Op Res α} {m : τ → Except ε (α × τ)}
    {f : α → Prog ε Op Res β} {g : α → τ → Except ε (β × τ)} (hp : Implements exec π p m)
    (hf : ∀ a, Implements exec π (f a) (g a)) :
    Implements exec π (p >>= f) fun t => m t >>= fun r => g r.1 r.2 := by
  intro s
  dsimp only
  rw [run_bind, ← hp s]
  cases hrun : p.run exec s with
  | error e => rfl
  | ok r => exact hf r.1 r.2

theorem Implements.congr {p : Prog ε Op Res α} {m m' : τ → Except ε (α × τ)}
    (h : Implements exec π p m) (hm : ∀ t, m t = m' t) : Implements exec π p m' := by
  intro s
  rw [h s, hm]

end Alone

/-! A program among others. What is known of the shared state only grows. -/

section Safe

variable {W : Type} [Preorder W] {pre : W → Op → Prop} {post : W → (op : Op) → Res op → Prop}
  {w w' : W}

/-- Every operation finds its precondition, given that all earlier ones left their postcondition
and that others only add to what is known. -/
def Safe (pre : W → Op → Prop) (post : W → (op : Op) → Res op → Prop) (Q : W → α → Prop) :
    Prog ε Op Res α → W → Prop
  | ret a, w => ∀ w', w ≤ w' → Q w' a
  | fail _, _ => True
  | call op k, w => ∀ w', w ≤ w' → pre w' op ∧
      ∀ r w'', w' ≤ w'' → post w'' op r → Safe pre post Q (k r) w''

theorem Safe.mono {Q : W → α → Prop} {p : Prog ε Op Res α} (h : p.Safe pre post Q w)
    (hle : w ≤ w') : p.Safe pre post Q w' := by
  cases p with
  | ret a => exact fun w'' hw => h w'' (hle.trans hw)
  | fail e => trivial
  | call op k => exact fun w'' hw => h w'' (hle.trans hw)

theorem Safe.weaken_le {Q Q' : W → α → Prop} {p : Prog ε Op Res α} (h : p.Safe pre post Q w)
    (hQ : ∀ w' a, w ≤ w' → Q w' a → Q' w' a) : p.Safe pre post Q' w := by
  induction p generalizing w with
  | ret a => exact fun w' hw => hQ w' a hw (h w' hw)
  | fail e => trivial
  | call op k ih =>
    intro w' hle
    obtain ⟨hpre, hk⟩ := h w' hle
    refine ⟨hpre, fun r w'' hle' hpost => ih r (hk r w'' hle' hpost) fun v a hv => ?_⟩
    exact hQ v a (hle.trans (hle'.trans hv))

theorem Safe.weaken {Q Q' : W → α → Prop} {p : Prog ε Op Res α} (h : p.Safe pre post Q w)
    (hQ : ∀ w a, Q w a → Q' w a) : p.Safe pre post Q' w := h.weaken_le fun w a _ => hQ w a

/-- More is known of what the operations leave. -/
theorem Safe.learn {Q : W → α → Prop} {post' : W → (op : Op) → Res op → Prop}
    {p : Prog ε Op Res α} (h : p.Safe pre post Q w)
    (hpost : ∀ w op r, post' w op r → post w op r) : p.Safe pre post' Q w := by
  induction p generalizing w with
  | ret a => exact h
  | fail e => trivial
  | call op k ih =>
    intro w' hle
    obtain ⟨hpre, hk⟩ := h w' hle
    exact ⟨hpre, fun r w'' hle' hr => ih r (hk r w'' hle' (hpost w'' op r hr))⟩

theorem Safe.bind {Q : W → α → Prop} {R : W → β → Prop} {p : Prog ε Op Res α}
    {f : α → Prog ε Op Res β} (hp : p.Safe pre post Q w)
    (hf : ∀ a w', w ≤ w' → Q w' a → (f a).Safe pre post R w') : (p >>= f).Safe pre post R w := by
  induction p generalizing w with
  | ret a => exact hf a w le_rfl (hp w le_rfl)
  | fail e => trivial
  | call op k ih =>
    intro w' hle
    obtain ⟨hpre, hk⟩ := hp w' hle
    refine ⟨hpre, fun r w'' hle' hpost => ?_⟩
    exact ih r (hk r w'' hle' hpost) fun a v hv hQ => hf a v (hle.trans (hle'.trans hv)) hQ

theorem safe_lift {Q : W → α → Prop} {c : Except ε α}
    (h : ∀ a, c = .ok a → ∀ w', w ≤ w' → Q w' a) :
    (lift c : Prog ε Op Res α).Safe pre post Q w := by
  cases c with
  | error e => trivial
  | ok a => exact h a rfl

theorem safe_perform {op : Op} {Q : W → Res op → Prop} (hpre : ∀ w', w ≤ w' → pre w' op)
    (hpost : ∀ r w', w ≤ w' → post w' op r → ∀ w'', w' ≤ w'' → Q w'' r) :
    (perform op : Prog ε Op Res (Res op)).Safe pre post Q w := by
  intro w' hle
  exact ⟨hpre w' hle, fun r w'' hle' h => hpost r w'' (hle.trans hle') h⟩

/-- One thread of many advances: its operation finds its precondition, and afterwards all threads
are as safe as before. -/
theorem safe_update {ι : Type} [DecidableEq ι] {Q : W → α → Prop}
    {threads : ι → Prog ε Op Res α} {i : ι} {op : Op} {k : Res op → Prog ε Op Res α}
    (h : ∀ j, (threads j).Safe pre post Q w) (hi : threads i = call op k) :
    pre w op ∧ ∀ r w', w ≤ w' → post w' op r →
      ∀ j, (Function.update threads i (k r) j).Safe pre post Q w' := by
  have hcall := h i
  rw [hi] at hcall
  refine ⟨(hcall w le_rfl).1, fun r w' hle hpost j => ?_⟩
  rcases eq_or_ne j i with rfl | hj
  · rw [Function.update_self]
    exact (hcall w le_rfl).2 r w' hle hpost
  · rw [Function.update_of_ne hj]
    exact (h j).mono hle

end Safe

/-! What a program can return, whatever its operations do. -/

section Returns

inductive CanReturn : Prog ε Op Res α → α → Prop
  | ret (a : α) : CanReturn (ret a) a
  | call {op : Op} {k : Res op → Prog ε Op Res α} {a : α} (r : Res op) (h : CanReturn (k r) a) :
      CanReturn (call op k) a

theorem canReturn_ret_iff {a b : α} : (ret b : Prog ε Op Res α).CanReturn a ↔ a = b := by
  constructor
  · intro h
    cases h
    rfl
  · rintro rfl
    exact .ret a

theorem canReturn_call_iff {op : Op} {k : Res op → Prog ε Op Res α} {a : α} :
    (call op k).CanReturn a ↔ ∃ r, (k r).CanReturn a := by
  constructor
  · intro h
    cases h with
    | call r h => exact ⟨r, h⟩
  · rintro ⟨r, h⟩
    exact .call r h

theorem not_canReturn_fail {e : ε} {a : α} : ¬ (fail e : Prog ε Op Res α).CanReturn a := by
  intro h
  cases h

theorem canReturn_bind_iff {p : Prog ε Op Res α} {f : α → Prog ε Op Res β} {b : β} :
    (p >>= f).CanReturn b ↔ ∃ a, p.CanReturn a ∧ (f a).CanReturn b := by
  induction p with
  | ret a =>
    change (f a).CanReturn b ↔ _
    simp [canReturn_ret_iff]
  | fail e =>
    change (fail e : Prog ε Op Res β).CanReturn b ↔ _
    simp [not_canReturn_fail]
  | call op k ih =>
    change (call op fun r => k r >>= f).CanReturn b ↔ _
    simp only [canReturn_call_iff, ih]
    constructor
    · rintro ⟨r, a, hp, hf⟩
      exact ⟨a, ⟨r, hp⟩, hf⟩
    · rintro ⟨a, ⟨r, hp⟩, hf⟩
      exact ⟨r, a, hp, hf⟩

theorem canReturn_lift_iff {c : Except ε α} {a : α} :
    (lift c : Prog ε Op Res α).CanReturn a ↔ c = .ok a := by
  cases c with
  | error e => simp [lift, not_canReturn_fail]
  | ok b => simp [lift, canReturn_ret_iff, eq_comm]

/-- It keeps to the contract that asks for nothing. -/
theorem safe_canReturn (p : Prog ε Op Res α) {W : Type} [Preorder W] (w : W) :
    p.Safe (fun _ _ => True) (fun _ _ _ => True) (fun _ a => p.CanReturn a) w := by
  induction p generalizing w with
  | ret a => exact fun _ _ => .ret a
  | fail e => trivial
  | call op k ih =>
    refine fun w' _ => ⟨trivial, fun r w'' _ _ => ?_⟩
    exact (ih r w'').weaken fun _ a h => .call r h

end Returns

/-! A program whose operations all return what is expected of them. -/

section Expected

variable {r₀ : (op : Op) → Res op} {P : Op → Prop}

/-- The result when every operation returns `r₀`. -/
def eval (r₀ : (op : Op) → Res op) : Prog ε Op Res α → Except ε α
  | ret a => .ok a
  | fail e => .error e
  | call op k => (k (r₀ op)).eval r₀

/-- As long as the operations return `r₀`, the program only uses those in `P`. -/
def Within (r₀ : (op : Op) → Res op) (P : Op → Prop) : Prog ε Op Res α → Prop
  | ret _ => True
  | fail _ => True
  | call op k => P op ∧ (k (r₀ op)).Within r₀ P

theorem eval_bind (p : Prog ε Op Res α) (f : α → Prog ε Op Res β) :
    (p >>= f).eval r₀ = p.eval r₀ >>= fun a => (f a).eval r₀ := by
  induction p with
  | ret a => rfl
  | fail e => rfl
  | call op k ih => exact ih (r₀ op)

theorem eval_lift (c : Except ε α) : (lift c : Prog ε Op Res α).eval r₀ = c := by
  cases c <;> rfl

theorem within_lift (c : Except ε α) : (lift c : Prog ε Op Res α).Within r₀ P := by
  cases c <;> trivial

theorem Within.bind {p : Prog ε Op Res α} {f : α → Prog ε Op Res β} (hp : p.Within r₀ P)
    (hf : ∀ a, p.eval r₀ = .ok a → (f a).Within r₀ P) : (p >>= f).Within r₀ P := by
  induction p with
  | ret a => exact hf a rfl
  | fail e => trivial
  | call op k ih => exact ⟨hp.1, ih (r₀ op) hp.2 hf⟩

/-- Others can change nothing of the result, if the postconditions leave only what is expected. -/
theorem Within.safe {p : Prog ε Op Res α} (hp : p.Within r₀ P) {W : Type} [Preorder W]
    {pre : W → Op → Prop} {post : W → (op : Op) → Res op → Prop}
    (hpre : ∀ w op, P op → pre w op) (hpost : ∀ w op r, P op → post w op r → r = r₀ op) (w : W) :
    p.Safe pre post (fun _ a => p.eval r₀ = .ok a) w := by
  induction p generalizing w with
  | ret a => exact fun _ _ => rfl
  | fail e => trivial
  | call op k ih =>
    refine fun w' _ => ⟨hpre w' op hp.1, fun r w'' _ h => ?_⟩
    obtain rfl := hpost w'' op r hp.1 h
    exact ih (r₀ op) hp.2 w''

/-- Alone, on a state that its operations leave as it is. -/
theorem Within.run {p : Prog ε Op Res α} (hp : p.Within r₀ P)
    {exec : (op : Op) → σ → Except ε (Res op × σ)} {s : σ}
    (hexec : ∀ op, P op → exec op s = .ok (r₀ op, s)) :
    p.run exec s = (p.eval r₀).map fun a => (a, s) := by
  induction p with
  | ret a => rfl
  | fail e => rfl
  | call op k ih =>
    rw [Prog.run, hexec op hp.1]
    exact ih (r₀ op) hp.2

/-- What such a program returns among others it returns alone, if its operations go well in every
good state. -/
theorem Within.replay {p : Prog ε Op Res α} (hp : p.Within r₀ P) {W : Type} [Preorder W]
    {pre : W → Op → Prop} {post : W → (op : Op) → Res op → Prop} {good : σ → Prop}
    {exec : (op : Op) → σ → Except ε (Res op × σ)} (hpre : ∀ w op, pre w op)
    (hpost : ∀ w op r, P op → post w op r →
      r = r₀ op ∧ ∀ s, good s → ∃ s', exec op s = .ok (r₀ op, s') ∧ good s') (w : W) :
    p.Safe pre post (fun _ a => ∀ s, good s → ∃ s', p.run exec s = .ok (a, s')) w := by
  induction p generalizing w with
  | ret a => exact fun _ _ s _ => ⟨s, rfl⟩
  | fail e => trivial
  | call op k ih =>
    refine fun w' _ => ⟨hpre w' op, fun r w'' _ h => ?_⟩
    obtain ⟨rfl, halone⟩ := hpost w'' op r hp.1 h
    refine (ih (r₀ op) hp.2 w'').weaken fun _ a ha s hs => ?_
    obtain ⟨s₁, hexec, hs₁⟩ := halone s hs
    obtain ⟨s', hrun⟩ := ha s₁ hs₁
    refine ⟨s', ?_⟩
    rw [Prog.run, hexec]
    exact hrun

/-- At most one operation tells the program something, and it is the first one. -/
inductive LooksOnce (r₀ : (op : Op) → Res op) (P : Op → Prop) : Prog ε Op Res α → Prop
  | blind {p : Prog ε Op Res α} (h : p.Within r₀ P) : LooksOnce r₀ P p
  | look {op : Op} {k : Res op → Prog ε Op Res α} (h : ∀ r, (k r).Within r₀ P) :
      LooksOnce r₀ P (call op k)

theorem LooksOnce.bind {p : Prog ε Op Res α} {f : α → Prog ε Op Res β} (hp : p.LooksOnce r₀ P)
    (hf : ∀ a, (f a).Within r₀ P) : (p >>= f).LooksOnce r₀ P := by
  cases hp with
  | blind h => exact .blind (h.bind fun a _ => hf a)
  | look h => exact .look fun r => (h r).bind fun a _ => hf a

/-- Whatever such a program returns among others, it returns alone in a state that was there when it
looked. -/
theorem LooksOnce.replay {p : Prog ε Op Res α} (hp : p.LooksOnce r₀ P) {W : Type} [Preorder W]
    {pre : W → Op → Prop} {post : W → (op : Op) → Res op → Prop} {good : σ → Prop}
    {seen : W → σ → Prop} {exec : (op : Op) → σ → Except ε (Res op × σ)} {w : W}
    (hpre : ∀ w op, pre w op)
    (hpost : ∀ w op r, P op → post w op r →
      r = r₀ op ∧ ∀ s, good s → ∃ s', exec op s = .ok (r₀ op, s') ∧ good s')
    (hlook : ∀ w' op r, w ≤ w' → post w' op r →
      ∃ s s', seen w' s ∧ exec op s = .ok (r, s') ∧ good s')
    (hseen : ∃ s, seen w s ∧ good s) (hmono : ∀ w' w'' s, w' ≤ w'' → seen w' s → seen w'' s) :
    p.Safe pre post (fun w' a => ∃ s s', seen w' s ∧ p.run exec s = .ok (a, s')) w := by
  cases hp with
  | blind h =>
    obtain ⟨s, hs, hgood⟩ := hseen
    refine Safe.weaken_le (h.replay hpre hpost w) fun w' a hle ha => ?_
    obtain ⟨s', hrun⟩ := ha s hgood
    exact ⟨s, s', hmono w w' s hle hs, hrun⟩
  | look h =>
    refine fun w' hle => ⟨hpre w' _, fun r w'' hle' hr => ?_⟩
    obtain ⟨s, s₁, hs, hexec, hgood⟩ := hlook w'' _ r (hle.trans hle') hr
    refine Safe.weaken_le ((h r).replay hpre hpost w'') fun v a hv ha => ?_
    obtain ⟨s', hrun⟩ := ha s₁ hgood
    refine ⟨s, s', hmono w'' v s hv hs, ?_⟩
    rw [Prog.run, hexec]
    exact hrun

end Expected

end Prog

/-! Errors that do not occur. -/

section Avoids

variable {e : ε}

/-- A computation that does not end with the error `e`. -/
def Avoids (e : ε) (c : Except ε α) : Prop := c ≠ .error e

theorem avoids_ok (a : α) : Avoids e (.ok a) := nofun

theorem avoids_error {e' : ε} (h : e' ≠ e) : Avoids e (.error e' : Except ε α) := by
  intro he
  exact h (Except.error.inj he)

theorem Avoids.bind {c : Except ε α} {f : α → Except ε β} (hc : Avoids e c)
    (hf : ∀ a, Avoids e (f a)) : Avoids e (c >>= f) := by
  cases c with
  | error e' => exact avoids_error fun he => hc (he ▸ rfl)
  | ok a => exact hf a

namespace Prog

/-- A program that never fails with `e`, whatever its operations return. -/
def Avoids (e : ε) : Prog ε Op Res α → Prop
  | ret _ => True
  | fail e' => e' ≠ e
  | call _ k => ∀ r, (k r).Avoids e

theorem Avoids.bind {p : Prog ε Op Res α} {f : α → Prog ε Op Res β} (hp : p.Avoids e)
    (hf : ∀ a, (f a).Avoids e) : (p >>= f).Avoids e := by
  induction p with
  | ret a => exact hf a
  | fail e' => exact hp
  | call op k ih => exact fun r => ih r (hp r)

theorem avoids_lift {c : Except ε α} (h : Threads.Avoids e c) :
    (lift c : Prog ε Op Res α).Avoids e := by
  cases c with
  | error e' => exact fun he => h (he ▸ rfl)
  | ok a => trivial

theorem avoids_perform (op : Op) : (perform op : Prog ε Op Res (Res op)).Avoids e :=
  fun _ => trivial

/-- Alone it does not fail with `e` either, if its operations do not. -/
theorem Avoids.run {exec : (op : Op) → σ → Except ε (Res op × σ)} {p : Prog ε Op Res α}
    (hp : p.Avoids e) (hexec : ∀ op s, Threads.Avoids e (exec op s)) (s : σ) :
    Threads.Avoids e (p.run exec s) := by
  induction p generalizing s with
  | ret a => exact avoids_ok _
  | fail e' => exact avoids_error hp
  | call op k ih => exact (hexec op s).bind fun r => ih r.1 (hp r.1) r.2

/-- What such a program implements does not fail with `e` on any state it was about. -/
theorem Implements.avoids {exec : (op : Op) → σ → Except ε (Res op × σ)} {π : σ → τ}
    {p : Prog ε Op Res α} {m : τ → Except ε (α × τ)} (h : Implements exec π p m)
    (hp : p.Avoids e) (hexec : ∀ op s, Threads.Avoids e (exec op s)) (s : σ) :
    Threads.Avoids e (m (π s)) := by
  rw [← h s]
  have hrun := hp.run hexec s
  cases hr : p.run exec s with
  | error e' => exact avoids_error fun he => hrun (by rw [hr, he])
  | ok r => exact avoids_ok _

end Prog

end Avoids

end Threads
