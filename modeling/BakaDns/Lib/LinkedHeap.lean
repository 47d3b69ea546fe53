import Mathlib

/-!
# Doubly linked lists on a heap

Nodes with `next` and `last` pointers, and the writes that programs make through them. `Linked`
says which list a chain of nodes spells out; each operation has one lemma about it.
-/

namespace LinkedHeap

abbrev Addr := ℕ

structure Node (α : Type) where
  next : Option Addr
  last : Option Addr
  val : α
deriving Repr

/-- A heap of nodes. An address without one was never allocated, or has been freed. -/
abbrev Heap (α : Type) := Addr → Option (Node α)

section Operations

variable {α : Type}

/-- A write through a pointer; `none` is a write to an address that holds no node. -/
def modifyAt (h : Heap α) (a : Addr) (f : Node α → Node α) : Option (Heap α) :=
  (h a).map fun n => Function.update h a (some (f n))

def setNext (h : Heap α) (a : Addr) (p : Option Addr) : Option (Heap α) :=
  modifyAt h a fun n => { n with next := p }

def setLast (h : Heap α) (a : Addr) (p : Option Addr) : Option (Heap α) :=
  modifyAt h a fun n => { n with last := p }

/-- `if (p) p->last = q`. -/
def setLastIf (h : Heap α) (p q : Option Addr) : Option (Heap α) :=
  match p with
  | none => some h
  | some a => setLast h a q

def alloc (h : Heap α) (a : Addr) (n : Node α) : Heap α := Function.update h a (some n)

def free (h : Heap α) (a : Addr) : Heap α := Function.update h a none

/-- `a->last->next = a->next; if (a->next) a->next->last = a->last`. -/
def unlink (h : Heap α) (a : Addr) : Option (Heap α) := do
  let n ← h a
  let l ← n.last
  let h ← setNext h l n.next
  let n ← h a
  setLastIf h n.next n.last

/-- `d->next = a; if (a->next) a->next->last = a`. -/
def linkFront (h : Heap α) (d a : Addr) : Option (Heap α) := do
  let h ← setNext h d (some a)
  let n ← h a
  setLastIf h n.next (some a)

/-- Moves node `a` from its place to the one behind `d`. -/
def moveFront (h : Heap α) (d a : Addr) : Option (Heap α) := do
  let h ← unlink h a
  let h ← setLast h a (some d)
  let n ← h d
  let h ← setNext h a n.next
  linkFront h d a

end Operations

/-! Chains of nodes and the lists they spell out. -/

section Chains

variable {α : Type} {h h' : Heap α} {prev q : Option Addr} {x y : Addr × α}
  {xs ys : List (Addr × α)}

/-- A pointer to the first node of a chain, or past its end. -/
def headPtr (xs : List (Addr × α)) (q : Option Addr) : Option Addr :=
  match xs with
  | [] => q
  | x :: _ => some x.1

/-- A pointer to the last node of a chain, or to the node in front of it. -/
def lastPtr (prev : Option Addr) : List (Addr × α) → Option Addr
  | [] => prev
  | x :: xs => lastPtr (some x.1) xs

/-- The nodes of `xs` follow one another, after `prev` and before `q`. -/
def Linked (h : Heap α) : Option Addr → List (Addr × α) → Option Addr → Prop
  | _, [], _ => True
  | prev, x :: xs, q => h x.1 = some ⟨headPtr xs q, prev, x.2⟩ ∧ Linked h (some x.1) xs q

def addrs (xs : List (Addr × α)) : List Addr := xs.map Prod.fst

theorem addrs_append (xs ys : List (Addr × α)) : addrs (xs ++ ys) = addrs xs ++ addrs ys :=
  List.map_append

theorem mem_addrs_of_mem (hx : x ∈ xs) : x.1 ∈ addrs xs := List.mem_map_of_mem hx

theorem headPtr_append (xs ys : List (Addr × α)) (q : Option Addr) :
    headPtr (xs ++ ys) q = headPtr xs (headPtr ys q) := by
  cases xs <;> rfl

theorem lastPtr_append (prev : Option Addr) (xs ys : List (Addr × α)) :
    lastPtr prev (xs ++ ys) = lastPtr (lastPtr prev xs) ys := by
  induction xs generalizing prev with
  | nil => rfl
  | cons x xs ih => exact ih (some x.1)

theorem linked_append : Linked h prev (xs ++ ys) q ↔
    Linked h prev xs (headPtr ys q) ∧ Linked h (lastPtr prev xs) ys q := by
  induction xs generalizing prev with
  | nil => exact (iff_of_eq (true_and _)).symm
  | cons x xs ih =>
    rw [List.cons_append, Linked, Linked, ih, headPtr_append, lastPtr, and_assoc]

/-- A chain only depends on its own nodes. -/
theorem Linked.frame (hl : Linked h prev xs q) (hf : ∀ a ∈ addrs xs, h' a = h a) :
    Linked h' prev xs q := by
  induction xs generalizing prev with
  | nil => trivial
  | cons x xs ih =>
    obtain ⟨hx, hxs⟩ := hl
    exact ⟨(hf x.1 List.mem_cons_self).trans hx,
      ih hxs fun a ha => hf a (List.mem_cons_of_mem _ ha)⟩

/-- A chain that ends in NULL spells out one list. -/
theorem Linked.unique {prev' : Option Addr} (hx : Linked h prev xs none)
    (hy : Linked h prev' ys none) (hp : headPtr xs none = headPtr ys none) : xs = ys := by
  induction xs generalizing prev prev' ys with
  | nil =>
    cases ys with
    | nil => rfl
    | cons y ys => cases hp
  | cons x xs ih =>
    cases ys with
    | nil => cases hp
    | cons y ys =>
      have ha : x.1 = y.1 := Option.some.inj hp
      obtain ⟨hx, hxs⟩ := hx
      obtain ⟨hy, hys⟩ := hy
      rw [ha, hy, Option.some.injEq, Node.mk.injEq] at hx
      obtain ⟨hnext, -, hval⟩ := hx
      rw [ih hxs hys hnext.symm, Prod.ext ha hval.symm]

/-- A list with new values at one address. -/
def withVal (a : Addr) (f : α → α) (xs : List (Addr × α)) : List (Addr × α) :=
  xs.map fun x => (x.1, if x.1 = a then f x.2 else x.2)

theorem addrs_withVal (a : Addr) (f : α → α) (xs : List (Addr × α)) :
    addrs (withVal a f xs) = addrs xs := by
  simp [addrs, withVal]

theorem headPtr_withVal (a : Addr) (f : α → α) (xs : List (Addr × α)) (q : Option Addr) :
    headPtr (withVal a f xs) q = headPtr xs q := by
  cases xs <;> rfl

/-- A write to the value of a node leaves the chain as it is, whether the node is in it or not. -/
theorem Linked.modifyVal (hl : Linked h prev xs q) {a : Addr} {f : α → α}
    (hm : modifyAt h a (fun n => { n with val := f n.val }) = some h') :
    Linked h' prev (withVal a f xs) q := by
  obtain ⟨n, hn, rfl⟩ := Option.map_eq_some_iff.1 hm
  induction xs generalizing prev with
  | nil => trivial
  | cons x xs ih =>
    obtain ⟨hx, hxs⟩ := hl
    refine ⟨?_, ih hxs⟩
    change Function.update h a _ x.1 =
      some ⟨headPtr (withVal a f xs) q, prev, if x.1 = a then f x.2 else x.2⟩
    rw [headPtr_withVal]
    by_cases ha : x.1 = a
    · subst ha
      rw [hx, Option.some.injEq] at hn
      subst hn
      rw [Function.update_self, if_pos rfl]
    · rw [Function.update_of_ne ha, if_neg ha]
      exact hx

/-- Distinct nodes: what keeps a write to one of them away from the others. -/
theorem nodup_middle (hn : (addrs (xs ++ x :: ys)).Nodup) :
    (addrs (xs ++ ys)).Nodup ∧ x.1 ∉ addrs (xs ++ ys) := by
  have hperm : (addrs (xs ++ x :: ys)).Perm (x.1 :: addrs (xs ++ ys)) :=
    List.perm_middle.map Prod.fst
  obtain ⟨hx, hrest⟩ := List.nodup_cons.1 (hperm.nodup_iff.1 hn)
  exact ⟨hrest, hx⟩

theorem addrs_disjoint (hn : (addrs (xs ++ ys)).Nodup) {a : Addr} (hx : a ∈ addrs xs)
    (hy : a ∈ addrs ys) : False := by
  rw [addrs_append] at hn
  exact List.disjoint_of_nodup_append hn hx hy

/-- The last node of a chain is sent on to another place. -/
theorem Linked.setNext_last (hl : Linked h prev (x :: xs) q) (hn : (addrs (x :: xs)).Nodup)
    (p : Option Addr) :
    ∃ l h', lastPtr prev (x :: xs) = some l ∧ setNext h l p = some h' ∧
      Linked h' prev (x :: xs) p ∧ ∀ a, a ∉ addrs (x :: xs) → h' a = h a := by
  obtain ⟨us, u, hus⟩ : ∃ us u, x :: xs = us ++ [u] :=
    (List.eq_nil_or_concat' (x :: xs)).resolve_left (List.cons_ne_nil x xs)
  rw [hus] at hl hn ⊢
  obtain ⟨hpre, hu, -⟩ := linked_append.1 hl
  refine ⟨u.1, Function.update h u.1 (some ⟨p, lastPtr prev us, u.2⟩), ?_, ?_, ?_, ?_⟩
  · rw [lastPtr_append]
    rfl
  · rw [setNext, modifyAt, hu]
    rfl
  · refine linked_append.2 ⟨hpre.frame fun a ha => Function.update_of_ne ?_ _ _,
      Function.update_self _ _ _, trivial⟩
    rintro rfl
    exact addrs_disjoint hn ha List.mem_cons_self
  · intro a ha
    refine Function.update_of_ne ?_ _ _
    rintro rfl
    exact ha (mem_addrs_of_mem (List.mem_append_right us List.mem_cons_self))

/-- A chain is hung behind another node. -/
theorem Linked.setLastIf_head (hl : Linked h prev ys none) (hn : (addrs ys).Nodup)
    (p : Option Addr) :
    ∃ h', setLastIf h (headPtr ys none) p = some h' ∧ Linked h' p ys none ∧
      ∀ a, a ∉ addrs ys → h' a = h a := by
  cases ys with
  | nil => exact ⟨h, rfl, trivial, fun _ _ => rfl⟩
  | cons y ys =>
    obtain ⟨hy, hys⟩ := hl
    have hfresh := (List.nodup_cons.1 hn).1
    refine ⟨Function.update h y.1 (some ⟨headPtr ys none, p, y.2⟩), ?_, ⟨?_, hys.frame ?_⟩, ?_⟩
    · change setLast h y.1 p = _
      rw [setLast, modifyAt, hy]
      rfl
    · exact Function.update_self _ _ _
    · intro a ha
      refine Function.update_of_ne ?_ _ _
      rintro rfl
      exact hfresh ha
    · intro a ha
      refine Function.update_of_ne ?_ _ _
      rintro rfl
      exact ha List.mem_cons_self

/-- `unlink` takes a node other than the first out of a chain and touches nothing outside of it. -/
theorem unlink_spec (hl : Linked h prev (x :: xs ++ y :: ys) none)
    (hn : (addrs (x :: xs ++ y :: ys)).Nodup) :
    ∃ h', unlink h y.1 = some h' ∧ Linked h' prev (x :: xs ++ ys) none ∧
      ∀ a, a ∉ addrs (x :: xs ++ ys) → h' a = h a := by
  obtain ⟨hrest, hy⟩ := nodup_middle hn
  obtain ⟨hpre, hmid, hys⟩ := linked_append.1 hl
  rw [addrs_append, List.mem_append, not_or] at hy
  have hnodup := hrest
  rw [addrs_append] at hnodup
  obtain ⟨l, h₁, hlast, hset, hpre₁, hframe₁⟩ :=
    hpre.setNext_last hnodup.of_append_left (headPtr ys none)
  rw [hlast] at hmid
  have hy₁ : h₁ y.1 = some ⟨headPtr ys none, some l, y.2⟩ := (hframe₁ y.1 hy.1).trans hmid
  have hys₁ : Linked h₁ (some y.1) ys none :=
    hys.frame fun a ha => hframe₁ a fun hb => addrs_disjoint hrest hb ha
  obtain ⟨h₂, hset₂, hys₂, hframe₂⟩ := hys₁.setLastIf_head hnodup.of_append_right (some l)
  refine ⟨h₂, ?_, linked_append.2 ⟨hpre₁.frame fun a ha => ?_, ?_⟩, ?_⟩
  · simp only [unlink, hmid, Option.bind_eq_bind, Option.bind_some, hset, hy₁, hset₂]
  · exact hframe₂ a fun hb => addrs_disjoint hrest ha hb
  · rw [hlast]
    exact hys₂
  · intro a ha
    rw [addrs_append, List.mem_append, not_or] at ha
    rw [hframe₂ a ha.2, hframe₁ a ha.1]

/-- `linkFront` puts a prepared node behind the first one. -/
theorem linkFront_spec (hl : Linked h prev (x :: ys) none) (hn : (addrs (x :: ys)).Nodup)
    (hfresh : y.1 ∉ addrs (x :: ys)) (hy : h y.1 = some ⟨headPtr ys none, some x.1, y.2⟩) :
    ∃ h', linkFront h x.1 y.1 = some h' ∧ Linked h' prev (x :: y :: ys) none ∧
      ∀ a, a ∉ addrs (x :: y :: ys) → h' a = h a := by
  obtain ⟨hx, hys⟩ := hl
  obtain ⟨hxys, hnys⟩ := List.nodup_cons.1 hn
  have hne : y.1 ≠ x.1 := fun he => hfresh (he ▸ List.mem_cons_self)
  obtain ⟨h₁, hset, hx₁, hframe₁⟩ : ∃ h₁, setNext h x.1 (some y.1) = some h₁ ∧
      h₁ x.1 = some ⟨some y.1, prev, x.2⟩ ∧ ∀ a, a ≠ x.1 → h₁ a = h a := by
    refine ⟨_, ?_, Function.update_self _ _ _, fun a ha => Function.update_of_ne ha _ _⟩
    rw [setNext, modifyAt, hx]
    rfl
  have hy₁ : h₁ y.1 = some ⟨headPtr ys none, some x.1, y.2⟩ := by rw [hframe₁ y.1 hne, hy]
  have hys₁ : Linked h₁ (some x.1) ys none :=
    hys.frame fun a ha => hframe₁ a fun he => hxys (he ▸ ha)
  obtain ⟨h₂, hset₂, hys₂, hframe₂⟩ := hys₁.setLastIf_head hnys (some y.1)
  have hyys : y.1 ∉ addrs ys := fun ha => hfresh (List.mem_cons_of_mem _ ha)
  refine ⟨h₂, ?_, ⟨(hframe₂ x.1 hxys).trans hx₁, (hframe₂ y.1 hyys).trans hy₁, hys₂⟩, ?_⟩
  · simp only [linkFront, hset, Option.bind_eq_bind, Option.bind_some, hy₁, hset₂]
  · intro a ha
    have hax : a ≠ x.1 := fun he => ha (he ▸ List.mem_cons_self)
    have hays : a ∉ addrs ys := fun hm => ha (List.mem_cons_of_mem _ (List.mem_cons_of_mem _ hm))
    rw [hframe₂ a hays, hframe₁ a hax]

theorem moveFront_spec (hl : Linked h prev (x :: xs ++ y :: ys) none)
    (hn : (addrs (x :: xs ++ y :: ys)).Nodup) :
    ∃ h', moveFront h x.1 y.1 = some h' ∧ Linked h' prev (x :: y :: (xs ++ ys)) none := by
  obtain ⟨hrest, hy⟩ := nodup_middle hn
  obtain ⟨-, hmid, -⟩ := linked_append.1 hl
  obtain ⟨h₁, hunlink, hl₁, hframe₁⟩ := unlink_spec hl hn
  have hy₁ : h₁ y.1 = some ⟨headPtr ys none, lastPtr prev (x :: xs), y.2⟩ :=
    (hframe₁ y.1 hy).trans hmid
  have hne : x.1 ≠ y.1 := fun he => hy (he ▸ List.mem_cons_self)
  have hx₁ : h₁ x.1 = some ⟨headPtr (xs ++ ys) none, prev, x.2⟩ := hl₁.1
  -- the two writes to the node itself
  have hlast : setLast h₁ y.1 (some x.1) =
      some (Function.update h₁ y.1 (some ⟨headPtr ys none, some x.1, y.2⟩)) := by
    rw [setLast, modifyAt, hy₁]
    rfl
  have hnext : setNext (Function.update h₁ y.1 (some ⟨headPtr ys none, some x.1, y.2⟩)) y.1
      (headPtr (xs ++ ys) none) =
      some (Function.update h₁ y.1 (some ⟨headPtr (xs ++ ys) none, some x.1, y.2⟩)) := by
    rw [setNext, modifyAt, Function.update_self]
    exact congrArg some (Function.update_idem _ _ _)
  have hl₂ : Linked (Function.update h₁ y.1 (some ⟨headPtr (xs ++ ys) none, some x.1, y.2⟩)) prev
      (x :: (xs ++ ys)) none := by
    refine Linked.frame hl₁ fun a ha => Function.update_of_ne ?_ _ _
    rintro rfl
    exact hy ha
  obtain ⟨h', hlink, hl', -⟩ := linkFront_spec hl₂ hrest hy (Function.update_self _ _ _)
  refine ⟨h', ?_, hl'⟩
  simp only [moveFront, hunlink, hlast, Option.bind_eq_bind, Option.bind_some,
    Function.update_of_ne hne, hx₁, hnext, hlink]

/-- A new node behind the first one. -/
theorem linkFront_alloc_spec (hl : Linked h prev (x :: ys) none) (hn : (addrs (x :: ys)).Nodup)
    (hfresh : y.1 ∉ addrs (x :: ys)) :
    ∃ h', linkFront (alloc h y.1 ⟨headPtr ys none, some x.1, y.2⟩) x.1 y.1 = some h' ∧
      Linked h' prev (x :: y :: ys) none := by
  have hl₁ : Linked (alloc h y.1 ⟨headPtr ys none, some x.1, y.2⟩) prev (x :: ys) none := by
    refine hl.frame fun a ha => Function.update_of_ne ?_ _ _
    rintro rfl
    exact hfresh ha
  obtain ⟨h', hlink, hl', -⟩ := linkFront_spec hl₁ hn hfresh (Function.update_self _ _ _)
  exact ⟨h', hlink, hl'⟩

end Chains

end LinkedHeap
