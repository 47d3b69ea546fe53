import BakaDns.Lib.Bytes

/-!
# Computations that read a buffer

A `ReadTrace` is a computation over a byte buffer together with the indices it has read. It may
have run out of fuel, in which case it has no result but has still made its reads. A family of
such computations indexed by fuel stands for one program that may run forever.
-/

open CBytes

structure ReadTrace (α : Type) where
  reads : List ℕ
  result : Option α

namespace ReadTrace

variable {α β : Type}

instance : Monad ReadTrace where
  pure a := ⟨[], some a⟩
  bind x f := ⟨x.reads ++ x.result.elim [] fun a => (f a).reads, x.result.bind fun a => (f a).result⟩

/-- Fuel has run out. -/
def stuck : ReadTrace α := ⟨[], none⟩

def load (buf : List UInt8) (i : ℕ) : ReadTrace UInt8 := ⟨[i], some (byteAt buf i)⟩

/-- The `n` bytes from index `p` on. -/
def loadBytes (buf : List UInt8) (p n : ℕ) : ReadTrace (List UInt8) :=
  ⟨List.range' p n, some (copyOut (buf.drop p) n)⟩

/-- A counted loop that moves a cursor: `n` items read by `f`, each giving the next position. -/
def repeatRead (f : ℕ → ReadTrace (α × ℕ)) : ℕ → ℕ → ReadTrace (List α × ℕ)
  | 0, p => pure ([], p)
  | n + 1, p => do
    let (a, q) ← f p
    let (as, r) ← repeatRead f n q
    pure (a :: as, r)

@[simp] theorem result_pure (a : α) : (pure a : ReadTrace α).result = some a := rfl

@[simp] theorem reads_pure (a : α) : (pure a : ReadTrace α).reads = [] := rfl

@[simp] theorem result_bind (x : ReadTrace α) (f : α → ReadTrace β) :
    (x >>= f).result = x.result.bind fun a => (f a).result := rfl

@[simp] theorem reads_bind (x : ReadTrace α) (f : α → ReadTrace β) :
    (x >>= f).reads = x.reads ++ x.result.elim [] fun a => (f a).reads := rfl

@[simp] theorem result_stuck : (stuck : ReadTrace α).result = none := rfl

@[simp] theorem reads_stuck : (stuck : ReadTrace α).reads = [] := rfl

@[simp] theorem result_load (buf : List UInt8) (i : ℕ) :
    (load buf i).result = some (byteAt buf i) := rfl

@[simp] theorem reads_load (buf : List UInt8) (i : ℕ) : (load buf i).reads = [i] := rfl

@[simp] theorem result_loadBytes (buf : List UInt8) (p n : ℕ) :
    (loadBytes buf p n).result = some (copyOut (buf.drop p) n) := rfl

@[simp] theorem reads_loadBytes (buf : List UInt8) (p n : ℕ) :
    (loadBytes buf p n).reads = List.range' p n := rfl

/-! More fuel only extends what a computation did. -/

/-- `y` is `x`, or goes on from where `x` ran out of fuel. -/
def Extends (x y : ReadTrace α) : Prop := x = y ∨ (x.result = none ∧ x.reads <+: y.reads)

theorem Extends.refl (x : ReadTrace α) : Extends x x := Or.inl rfl

theorem Extends.reads_mono {x y : ReadTrace α} (h : Extends x y) : x.reads <+: y.reads := by
  rcases h with rfl | ⟨_, h⟩
  · exact List.prefix_rfl
  · exact h

theorem Extends.eq_of_result {x y : ReadTrace α} (h : Extends x y) {a : α}
    (ha : x.result = some a) : x = y := by
  rcases h with h | ⟨hn, _⟩
  · exact h
  · simp [hn] at ha

theorem Extends.bind {x y : ReadTrace α} {f g : α → ReadTrace β} (hxy : Extends x y)
    (hfg : ∀ a, x.result = some a → Extends (f a) (g a)) : Extends (x >>= f) (y >>= g) := by
  rcases hxy with rfl | ⟨hn, hp⟩
  · cases hx : x.result with
    | none => exact Or.inr ⟨by simp [hx], by simp [hx]⟩
    | some a =>
      rcases hfg a hx with he | ⟨hn, hp⟩
      · left
        change ReadTrace.mk _ _ = ReadTrace.mk _ _
        simp [hx, he]
      · exact Or.inr ⟨by simp [hx, hn], by simpa [hx] using hp⟩
  · refine Or.inr ⟨by simp [hn], ?_⟩
    simpa [hn] using hp.trans (List.prefix_append _ _)

theorem Extends.stuck (y : ReadTrace α) : Extends stuck y := Or.inr ⟨rfl, List.nil_prefix⟩

/-- A program: its runs with more fuel extend its runs with less. -/
def Mono (x : ℕ → ReadTrace α) : Prop := ∀ m n, m ≤ n → Extends (x m) (x n)

theorem Mono.const (x : ReadTrace α) : Mono fun _ => x := fun _ _ _ => Extends.refl x

/-! What a program does with fuel enough. -/

def Returns (x : ℕ → ReadTrace α) (a : α) : Prop := ∃ n, (x n).result = some a

def Halts (x : ℕ → ReadTrace α) : Prop := ∃ a, Returns x a

def Touches (x : ℕ → ReadTrace α) (i : ℕ) : Prop := ∃ n, i ∈ (x n).reads

theorem Mono.bind {x : ℕ → ReadTrace α} {f : ℕ → α → ReadTrace β} (hx : Mono x)
    (hf : ∀ a, Returns x a → Mono fun n => f n a) : Mono fun n => x n >>= f n :=
  fun m n hmn => (hx m n hmn).bind fun a ha => hf a ⟨m, ha⟩ m n hmn

theorem returns_const {x : ReadTrace α} {a : α} :
    Returns (fun _ => x) a ↔ x.result = some a := by simp [Returns]

theorem touches_const {x : ReadTrace α} {i : ℕ} : Touches (fun _ => x) i ↔ i ∈ x.reads := by
  simp [Touches]

theorem Mono.eq_of_returns {x : ℕ → ReadTrace α} (hx : Mono x) {n m : ℕ} {a : α}
    (h : (x n).result = some a) (hnm : n ≤ m) : x m = x n :=
  ((hx n m hnm).eq_of_result h).symm

theorem Mono.returns_unique {x : ℕ → ReadTrace α} (hx : Mono x) {a b : α} (ha : Returns x a)
    (hb : Returns x b) : a = b := by
  obtain ⟨n, hn⟩ := ha
  obtain ⟨m, hm⟩ := hb
  have ha' := hx.eq_of_returns hn (Nat.le_max_left n m)
  have hb' := hx.eq_of_returns hm (Nat.le_max_right n m)
  rw [← ha', hb', hm, Option.some.injEq] at hn
  exact hn.symm

theorem returns_bind {x : ℕ → ReadTrace α} {f : ℕ → α → ReadTrace β} (hx : Mono x)
    (hf : ∀ a, Returns x a → Mono fun n => f n a) {b : β} :
    Returns (fun n => x n >>= f n) b ↔ ∃ a, Returns x a ∧ Returns (fun n => f n a) b := by
  constructor
  · rintro ⟨n, hn⟩
    rw [result_bind, Option.bind_eq_some_iff] at hn
    obtain ⟨a, ha, hb⟩ := hn
    exact ⟨a, ⟨n, ha⟩, ⟨n, hb⟩⟩
  · rintro ⟨a, ⟨m, hm⟩, ⟨n, hn⟩⟩
    refine ⟨max m n, ?_⟩
    have h₁ := hx.eq_of_returns hm (Nat.le_max_left m n)
    have h₂ := (hf a ⟨m, hm⟩).eq_of_returns hn (Nat.le_max_right m n)
    simp [h₁, hm, h₂, hn]

theorem touches_bind {x : ℕ → ReadTrace α} {f : ℕ → α → ReadTrace β} (hx : Mono x)
    (hf : ∀ a, Returns x a → Mono fun n => f n a) {i : ℕ} :
    Touches (fun n => x n >>= f n) i ↔
      Touches x i ∨ ∃ a, Returns x a ∧ Touches (fun n => f n a) i := by
  constructor
  · rintro ⟨n, hn⟩
    rw [reads_bind, List.mem_append] at hn
    rcases hn with hn | hn
    · exact Or.inl ⟨n, hn⟩
    · cases hr : (x n).result with
      | none => simp [hr] at hn
      | some a => exact Or.inr ⟨a, ⟨n, hr⟩, ⟨n, by simpa [hr] using hn⟩⟩
  · rintro (⟨n, hn⟩ | ⟨a, ⟨m, hm⟩, ⟨n, hn⟩⟩)
    · exact ⟨n, by simp [hn]⟩
    · refine ⟨max m n, ?_⟩
      have h₁ := hx.eq_of_returns hm (Nat.le_max_left m n)
      have h₂ := (hf a ⟨m, hm⟩ n _ (Nat.le_max_right m n)).reads_mono.subset hn
      simp [h₁, hm, h₂]

/-! Programs that work through a list of items, some of which may never be finished. -/

section Items

variable {ι : Type} (done : ι → Prop) (uses : ι → ℕ → Prop)

/-- The indices a list of items uses: those of an item count once every earlier one is done. -/
def Uses : List ι → ℕ → Prop
  | [], _ => False
  | it :: is, i => uses it i ∨ (done it ∧ Uses is i)

/-- A program that halts when every item gets done and reads just what the items use. -/
structure Follows (x : ℕ → ReadTrace α) (items : List ι) : Prop where
  mono : Mono x
  halts : Halts x ↔ ∀ it ∈ items, done it
  touches : ∀ i, Touches x i ↔ Uses done uses items i

variable {done uses}

theorem uses_append {is js : List ι} {i : ℕ} :
    Uses done uses (is ++ js) i ↔
      Uses done uses is i ∨ ((∀ it ∈ is, done it) ∧ Uses done uses js i) := by
  induction is with
  | nil => simp [Uses]
  | cons it is ih =>
    simp only [List.cons_append, Uses, ih, List.forall_mem_cons]
    tauto

theorem Follows.nil {x : ReadTrace α} {a : α} (hr : x.result = some a) (hs : x.reads = []) :
    Follows done uses (fun _ => x) [] where
  mono := Mono.const x
  halts := by simpa using ⟨a, returns_const.2 hr⟩
  touches i := by simp [touches_const, hs, Uses]

/-- Items are worked through in the order of the binds; what comes second may depend on the
value the first part returned. -/
theorem Follows.bind {x : ℕ → ReadTrace α} {f : ℕ → α → ReadTrace β} {is js : List ι}
    (hx : Follows done uses x is)
    (hf : ∀ a, Returns x a → Follows done uses (fun n => f n a) js) :
    Follows done uses (fun n => x n >>= f n) (is ++ js) where
  mono := hx.mono.bind fun a ha => (hf a ha).mono
  halts := by
    constructor
    · rintro ⟨b, hb⟩
      obtain ⟨a, ha, hb⟩ := (returns_bind hx.mono fun a ha => (hf a ha).mono).1 hb
      intro it hit
      rcases List.mem_append.1 hit with hit | hit
      · exact hx.halts.1 ⟨a, ha⟩ it hit
      · exact (hf a ha).halts.1 ⟨b, hb⟩ it hit
    · intro h
      obtain ⟨a, ha⟩ := hx.halts.2 fun it hit => h it (List.mem_append_left _ hit)
      obtain ⟨b, hb⟩ := (hf a ha).halts.2 fun it hit => h it (List.mem_append_right _ hit)
      exact ⟨b, (returns_bind hx.mono fun a ha => (hf a ha).mono).2 ⟨a, ha, hb⟩⟩
  touches i := by
    rw [touches_bind hx.mono fun a ha => (hf a ha).mono, uses_append, hx.touches, ← hx.halts]
    constructor
    · rintro (h | ⟨a, ha, h⟩)
      · exact Or.inl h
      · exact Or.inr ⟨⟨a, ha⟩, ((hf a ha).touches i).1 h⟩
    · rintro (h | ⟨⟨a, ha⟩, h⟩)
      · exact Or.inl h
      · exact Or.inr ⟨a, ha, ((hf a ha).touches i).2 h⟩

theorem Follows.cons {x : ℕ → ReadTrace α} {f : ℕ → α → ReadTrace β} {it : ι} {js : List ι}
    (hx : Follows done uses x [it])
    (hf : ∀ a, Returns x a → Follows done uses (fun n => f n a) js) :
    Follows done uses (fun n => x n >>= f n) (it :: js) := hx.bind hf

theorem Follows.map {x : ℕ → ReadTrace α} {g : α → β} {is : List ι}
    (hx : Follows done uses x is) :
    Follows done uses (fun n => x n >>= fun a => pure (g a)) is := by
  have hg : ∀ a, Follows done uses (fun _ => (pure (g a) : ReadTrace β)) [] :=
    fun a => Follows.nil rfl rfl
  simpa using hx.bind (f := fun _ a => pure (g a)) fun a _ => hg a

/-- The items of `n` rounds of a loop whose cursor moves by `next`. -/
def repeatItems (items : ℕ → List ι) (next : ℕ → ℕ) : ℕ → ℕ → List ι
  | 0, _ => []
  | n + 1, p => items p ++ repeatItems items next n (next p)

section Repeat

variable {f : ℕ → ℕ → ReadTrace (α × ℕ)} {items : ℕ → List ι} {next : ℕ → ℕ}

/-- A counted loop returns one entry for every round. -/
theorem mem_result_repeatRead {g : ℕ → ReadTrace (α × ℕ)} {k p : ℕ} {r : List α × ℕ}
    (h : (repeatRead g k p).result = some r) :
    r.1.length = k ∧ ∀ a ∈ r.1, ∃ q e, (g q).result = some (a, e) := by
  induction k generalizing p r with
  | zero =>
    obtain rfl : ([], p) = r := by simpa [repeatRead] using h
    exact ⟨rfl, List.forall_mem_nil _⟩
  | succ k ih =>
    simp only [repeatRead, result_bind, result_pure, Option.bind_eq_some_iff,
      Option.some.injEq] at h
    obtain ⟨a, ha, s, hs, rfl⟩ := h
    obtain ⟨hlen, hrest⟩ := ih hs
    refine ⟨by simp [hlen], ?_⟩
    intro b hb
    rcases List.mem_cons.1 hb with rfl | hb
    · exact ⟨p, a.2, ha⟩
    · exact hrest b hb

/-- A counted loop moves its cursor once in every round. -/
theorem result_repeatRead (hnext : ∀ n p r, (f n p).result = some r → r.2 = next p) {n k p : ℕ}
    {r : List α × ℕ} (h : (repeatRead (f n) k p).result = some r) : r.2 = next^[k] p := by
  induction k generalizing p r with
  | zero =>
    obtain rfl : ([], p) = r := by simpa [repeatRead] using h
    rfl
  | succ k ih =>
    simp only [repeatRead, result_bind, result_pure, Option.bind_eq_some_iff,
      Option.some.injEq] at h
    obtain ⟨a, ha, s, hs, rfl⟩ := h
    have hpos := ih hs
    rw [Function.iterate_succ_apply, ← hnext n p a ha]
    exact hpos

/-- The entries, position by position. -/
theorem forall₂_result_repeatRead (hnext : ∀ n p r, (f n p).result = some r → r.2 = next p)
    {n k p : ℕ} {r : List α × ℕ} (h : (repeatRead (f n) k p).result = some r) :
    List.Forall₂ (fun q a => ∃ e, (f n q).result = some (a, e))
      (repeatItems (fun q => [q]) next k p) r.1 := by
  induction k generalizing p r with
  | zero =>
    obtain rfl : ([], p) = r := by simpa [repeatRead] using h
    exact List.Forall₂.nil
  | succ k ih =>
    simp only [repeatRead, result_bind, result_pure, Option.bind_eq_some_iff,
      Option.some.injEq] at h
    obtain ⟨⟨a, q⟩, ha, s, hs, rfl⟩ := h
    obtain rfl : q = next p := hnext n p (a, q) ha
    exact List.Forall₂.cons ⟨next p, ha⟩ (ih hs)

theorem Follows.repeatRead (hf : ∀ p, Follows done uses (fun n => f n p) (items p))
    (hnext : ∀ n p r, (f n p).result = some r → r.2 = next p) (k p : ℕ) :
    Follows done uses (fun n => repeatRead (f n) k p) (repeatItems items next k p) := by
  induction k generalizing p with
  | zero => exact Follows.nil rfl rfl
  | succ k ih =>
    refine (hf p).bind fun a ha => ?_
    obtain ⟨n, hn⟩ := ha
    obtain ⟨a, q⟩ := a
    obtain rfl : q = next p := hnext n p (a, q) hn
    exact (ih (next p)).map

end Repeat

end Items

end ReadTrace
