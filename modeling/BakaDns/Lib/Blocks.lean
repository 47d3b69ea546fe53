import Mathlib

/-!
# Blocks of memory

The blocks that a program has been given and has not given back. A `free` of anything else stops
it. `Turns` says what a program makes of the blocks that are out, `Frees` that it only gives some
back; each has its rules for `pure`, `bind` and the operations.
-/

namespace Blocks

abbrev Addr := ℕ

/-- A pointer to the start of a block, or NULL. -/
abbrev Ptr := Option Addr

/-- The blocks that are out, and the address of the next one. No address is handed out twice. -/
structure Heap where
  live : Multiset Addr
  brk : Addr
  nodup : live.Nodup
  below : ∀ a ∈ live, a < brk

/-- Why a program stops early. -/
inductive Stop (ε : Type)
  | badFree (a : Addr)
  | fault (e : ε)

abbrev Mem (ε : Type) := StateT Heap (Except (Stop ε))

section Operations

variable {ε α : Type}

theorem Heap.brk_notMem (h : Heap) : h.brk ∉ h.live :=
  fun hmem => Nat.lt_irrefl _ (h.below _ hmem)

def Heap.grow (h : Heap) : Heap where
  live := h.brk ::ₘ h.live
  brk := h.brk + 1
  nodup := Multiset.nodup_cons.2 ⟨h.brk_notMem, h.nodup⟩
  below a ha := by
    rcases Multiset.mem_cons.1 ha with rfl | ha
    · exact Nat.lt_succ_self _
    · exact Nat.lt_succ_of_lt (h.below a ha)

def Heap.release (h : Heap) (a : Addr) : Heap where
  live := h.live.erase a
  brk := h.brk
  nodup := h.nodup.erase a
  below b hb := h.below b (Multiset.mem_of_mem_erase hb)

def malloc : Mem ε Addr := fun h => .ok (h.brk, h.grow)

def free (a : Addr) : Mem ε Unit := fun h =>
  if a ∈ h.live then .ok ((), h.release a) else .error (.badFree a)

/-- `if (p) free(p)`, and `free(p)` where `p` may be NULL. -/
def freePtr : Ptr → Mem ε Unit
  | none => pure ()
  | some a => free a

/-- A computation that has nothing to do with memory. -/
def lift (e : Except ε α) : Mem ε α := fun h =>
  match e with
  | .ok a => .ok (a, h)
  | .error fault => .error (.fault fault)

/-- What a pointer points to. -/
def ptrBlocks : Ptr → Multiset Addr
  | none => 0
  | some a => {a}

end Operations

/-! Programs that turn the blocks that are out into others. -/

section Turning

variable {ε α β : Type} {p : Mem ε α} {q : α → Mem ε β} {s : Multiset Addr}
  {Q : α → Multiset Addr → Prop}

/-- With the blocks `s` out, `p` comes back, with a result and blocks as `Q` says. -/
def Turns (p : Mem ε α) (s : Multiset Addr) (Q : α → Multiset Addr → Prop) : Prop :=
  ∀ h : Heap, h.live = s → ∃ a h', p.run h = .ok (a, h') ∧ Q a h'.live

theorem Turns.mono {Q' : α → Multiset Addr → Prop} (hp : Turns p s Q)
    (hQ : ∀ a s', Q a s' → Q' a s') : Turns p s Q' := by
  intro h hs
  obtain ⟨a, h', hrun, ha⟩ := hp h hs
  exact ⟨a, h', hrun, hQ a h'.live ha⟩

theorem turns_pure {a : α} (hQ : Q a s) : Turns (pure a : Mem ε α) s Q := by
  rintro h rfl
  exact ⟨a, h, rfl, hQ⟩

theorem Turns.bind {R : β → Multiset Addr → Prop} (hp : Turns p s Q)
    (hq : ∀ a s', Q a s' → Turns (q a) s' R) : Turns (p >>= q) s R := by
  intro h hs
  obtain ⟨a, h₁, hrun, ha⟩ := hp h hs
  obtain ⟨b, h₂, hrun', hb⟩ := hq a h₁.live ha h₁ rfl
  refine ⟨b, h₂, ?_, hb⟩
  rw [StateT.run_bind, hrun]
  exact hrun'

theorem turns_malloc {Q : Addr → Multiset Addr → Prop} (hQ : ∀ a, a ∉ s → Q a ({a} + s)) :
    Turns (malloc : Mem ε Addr) s Q := by
  rintro h rfl
  refine ⟨h.brk, h.grow, rfl, ?_⟩
  have hlive : h.grow.live = {h.brk} + h.live := (Multiset.singleton_add _ _).symm
  rw [hlive]
  exact hQ h.brk h.brk_notMem

theorem lift_ok_bind (a : α) (q : α → Mem ε β) : lift (.ok a) >>= q = q a := rfl

/-- A computation that comes out well is replaced by its result. -/
theorem turns_lift {e : Except ε α} {a : α} {R : β → Multiset Addr → Prop} (he : e = .ok a)
    (hq : Turns (q a) s R) : Turns (lift e >>= q) s R := by
  rw [he, lift_ok_bind]
  exact hq

/-- The blocks that are out are all different. -/
theorem Turns.of_nodup (hp : s.Nodup → Turns p s Q) : Turns p s Q := by
  rintro h rfl
  exact hp h.nodup h rfl

end Turning

/-! Blocks that come out, some of which nothing points to any more. -/

section Growing

variable {s s' s'' own own' : Multiset Addr} {n n' : ℕ}

/-- The blocks `own` have come out since `s`, and `n` more that are lost. -/
def HandsOut (own : Multiset Addr) (n : ℕ) (s s' : Multiset Addr) : Prop :=
  ∃ lost, s' = own + (lost + s) ∧ lost.card = n

theorem HandsOut.refl (s : Multiset Addr) : HandsOut 0 0 s s := ⟨0, by simp, rfl⟩

theorem handsOut_one (a : Addr) (s : Multiset Addr) : HandsOut {a} 0 s ({a} + s) :=
  ⟨0, by simp, rfl⟩

theorem HandsOut.trans (h : HandsOut own n s s') (h' : HandsOut own' n' s' s'') :
    HandsOut (own + own') (n + n') s s'' := by
  obtain ⟨lost, rfl, rfl⟩ := h
  obtain ⟨lost', rfl, rfl⟩ := h'
  exact ⟨lost + lost', by abel, Multiset.card_add lost lost'⟩

theorem HandsOut.eq (h : HandsOut own 0 s s') : s' = own + s := by
  obtain ⟨lost, rfl, hlost⟩ := h
  rw [Multiset.card_eq_zero.1 hlost, zero_add]

/-- Blocks that are dropped are lost. -/
theorem HandsOut.drop (h : HandsOut (own + own') n s s') : HandsOut own (n + own'.card) s s' := by
  obtain ⟨lost, rfl, rfl⟩ := h
  exact ⟨own' + lost, by abel, by rw [Multiset.card_add, add_comm]⟩

theorem HandsOut.of_eq (h : HandsOut own n s s') (hown : own = own') (hn : n = n') :
    HandsOut own' n' s s' := hown ▸ hn ▸ h

end Growing

/-! Programs that only give blocks back. -/

section Freeing

variable {ε α β : Type} {p : Mem ε α} {q : α → Mem ε β} {as bs : Multiset Addr} {r : α} {r' : β}

/-- `p` gives back the blocks `as` and returns `r`, or stops at one of them that is not out. -/
structure Frees (p : Mem ε α) (as : Multiset Addr) (r : α) : Prop where
  ok : ∀ h : Heap, as ≤ h.live → ∃ h', p.run h = .ok (r, h') ∧ h'.live = h.live - as
  bad : ∀ h : Heap, ¬ as ≤ h.live → ∃ a, p.run h = .error (.badFree a)

theorem frees_pure (r : α) : Frees (pure r : Mem ε α) 0 r where
  ok h _ := ⟨h, rfl, (tsub_zero _).symm⟩
  bad _ hle := absurd (Multiset.zero_le _) hle

theorem Frees.bind (hp : Frees p as r) (hq : Frees (q r) bs r') :
    Frees (p >>= q) (as + bs) r' where
  ok h hle := by
    obtain ⟨h₁, hrun, hlive⟩ := hp.ok h (le_trans (Multiset.le_add_right as bs) hle)
    have hbs : bs ≤ h₁.live := by
      rw [hlive]
      exact le_tsub_of_add_le_left hle
    obtain ⟨h₂, hrun', hlive'⟩ := hq.ok h₁ hbs
    refine ⟨h₂, ?_, by rw [hlive', hlive, tsub_add_eq_tsub_tsub]⟩
    rw [StateT.run_bind, hrun]
    exact hrun'
  bad h hle := by
    by_cases has : as ≤ h.live
    · obtain ⟨h₁, hrun, hlive⟩ := hp.ok h has
      have hbs : ¬ bs ≤ h₁.live := by
        intro hbs
        rw [hlive] at hbs
        exact hle ((add_le_add_right hbs as).trans_eq (add_tsub_cancel_of_le has))
      obtain ⟨a, hrun'⟩ := hq.bad h₁ hbs
      refine ⟨a, ?_⟩
      rw [StateT.run_bind, hrun]
      exact hrun'
    · obtain ⟨a, hrun⟩ := hp.bad h has
      refine ⟨a, ?_⟩
      rw [StateT.run_bind, hrun]
      rfl

theorem frees_free (a : Addr) : Frees (free a : Mem ε Unit) {a} () where
  ok h hle := by
    have ha : a ∈ h.live := Multiset.singleton_le.1 hle
    exact ⟨h.release a, if_pos ha, (Multiset.sub_singleton _ _).symm⟩
  bad h hle := ⟨a, if_neg fun ha => hle (Multiset.singleton_le.2 ha)⟩

theorem frees_freePtr (p : Ptr) : Frees (freePtr p : Mem ε Unit) (ptrBlocks p) () := by
  cases p with
  | none => exact frees_pure ()
  | some a => exact frees_free a

/-- Blocks that are out can be given back. -/
theorem Frees.turns {s t : Multiset Addr} (hp : Frees p as r) (hs : s = as + t) :
    Turns p s fun r' s' => r' = r ∧ s' = t := by
  rintro h rfl
  have hle : as ≤ h.live := by
    rw [hs]
    exact Multiset.le_add_right as t
  obtain ⟨h', hrun, hlive⟩ := hp.ok h hle
  exact ⟨r, h', hrun, rfl, by rw [hlive, hs, add_tsub_cancel_left]⟩

end Freeing

/-! Programs that free something which is not out. -/

section Failing

variable {ε α β : Type} {p : Mem ε α} {q : α → Mem ε β} {s : Multiset Addr}

/-- With the blocks `s` out, `p` comes to a `free` of a block that is not. -/
def Fails (p : Mem ε α) (s : Multiset Addr) : Prop :=
  ∀ h : Heap, h.live = s → ∃ a, p.run h = .error (.badFree a)

theorem Fails.bind (hp : Fails p s) (q : α → Mem ε β) : Fails (p >>= q) s := by
  intro h hs
  obtain ⟨a, hrun⟩ := hp h hs
  refine ⟨a, ?_⟩
  rw [StateT.run_bind, hrun]
  rfl

theorem Turns.fails {Q : α → Multiset Addr → Prop} (hp : Turns p s Q)
    (hq : ∀ a s', Q a s' → Fails (q a) s') : Fails (p >>= q) s := by
  intro h hs
  obtain ⟨a, h₁, hrun, ha⟩ := hp h hs
  obtain ⟨b, hrun'⟩ := hq a h₁.live ha h₁ rfl
  refine ⟨b, ?_⟩
  rw [StateT.run_bind, hrun]
  exact hrun'

theorem Frees.fails {as : Multiset Addr} {r : α} (hp : Frees p as r) (hle : ¬ as ≤ s) :
    Fails p s := by
  rintro h rfl
  exact hp.bad h hle

end Failing

end Blocks
