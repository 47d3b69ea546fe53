import Mathlib

/-!
# Singly linked chains on a heap

Nodes with one `next` pointer, and arrays of pointers to the first nodes of chains. `Chain` and
`Chains` say which lists they spell out; each operation has one lemma about these lists.
-/

namespace ChainHeap

abbrev Addr := ℕ

structure Cell (α : Type) where
  val : α
  next : Option Addr

/-- A heap of nodes. An address without one was never allocated. -/
abbrev Heap (α : Type) := Addr → Option (Cell α)

section Operations

variable {α : Type}

/-- A write to the value of a node; `none` is a write to an address that holds no node. -/
def setVal (h : Heap α) (a : Addr) (f : α → α) : Option (Heap α) :=
  (h a).map fun c => Function.update h a (some { c with val := f c.val })

def setNext (h : Heap α) (a : Addr) (p : Option Addr) : Option (Heap α) :=
  (h a).map fun c => Function.update h a (some { c with next := p })

/-- The first node from a pointer on whose value satisfies `p`. `none` is a step to an address
without a node, or a walk that has not ended within the fuel. -/
def walk (h : Heap α) (p : α → Bool) : ℕ → Option Addr → Option (Option Addr)
  | _, none => some none
  | 0, some _ => none
  | fuel + 1, some a => do
    let c ← h a
    if p c.val then some (some a) else walk h p fuel c.next

/-- `while (a) { tmp = a->next; a->next = heads[i]; heads[i] = a; a = tmp; }`, where the value of
a node selects the chain. -/
def distribute (index : α → ℕ) : ℕ → Heap α → List (Option Addr) → Option Addr →
    Option (Heap α × List (Option Addr))
  | _, h, heads, none => some (h, heads)
  | 0, _, _, some _ => none
  | fuel + 1, h, heads, some a => do
    let c ← h a
    let q ← heads[index c.val]?
    let h ← setNext h a q
    distribute index fuel h (heads.set (index c.val) (some a)) c.next

end Operations

section Chains

variable {α : Type} {h h' : Heap α} {p q : Option Addr} {a : Addr} {v : α} {f : α → α}
  {heads : List (Option Addr)} {x : Addr × α} {xs : List (Addr × α)}
  {css : List (List (Addr × α))} {i fuel : ℕ} {index : α → ℕ}

/-- A pointer leads through the nodes of a list, and the last of them has none. -/
def Chain (h : Heap α) : Option Addr → List (Addr × α) → Prop
  | p, [] => p = none
  | p, x :: xs => p = some x.1 ∧ ∃ q, h x.1 = some ⟨x.2, q⟩ ∧ Chain h q xs

/-- An array of pointers, one for each chain. -/
structure Chains (h : Heap α) (heads : List (Option Addr)) (css : List (List (Addr × α))) :
    Prop where
  length : heads.length = css.length
  chain : ∀ (i : ℕ) p xs, heads[i]? = some p → css[i]? = some xs → Chain h p xs

def addrs (xs : List (Addr × α)) : List Addr := xs.map Prod.fst

@[simp] theorem addrs_append (xs ys : List (Addr × α)) :
    addrs (xs ++ ys) = addrs xs ++ addrs ys := List.map_append

theorem mem_addrs : a ∈ addrs xs ↔ ∃ v, (a, v) ∈ xs := by
  simp [addrs]

theorem mem_addrs_flatten {xs : List (Addr × α)} (hxs : xs ∈ css) (ha : a ∈ addrs xs) :
    a ∈ addrs css.flatten := by
  obtain ⟨v, hv⟩ := mem_addrs.1 ha
  exact mem_addrs.2 ⟨v, List.mem_flatten.2 ⟨xs, hxs, hv⟩⟩

/-- Chains with distinct addresses have no node in common. -/
theorem notMem_addrs_of_ne {ys : List (Addr × α)} {j : ℕ} (hn : (addrs css.flatten).Nodup)
    (hi : css[i]? = some xs) (hj : css[j]? = some ys) (hne : i ≠ j) (ha : a ∈ addrs xs) :
    a ∉ addrs ys := by
  have hflat : (css.map addrs).flatten.Nodup := by
    have hmap := hn
    rw [addrs, List.map_flatten] at hmap
    exact hmap
  have hpair : css.Pairwise fun c d => (addrs c).Disjoint (addrs d) :=
    List.pairwise_map.1 (List.nodup_flatten.1 hflat).2
  have hget := List.pairwise_iff_getElem.1 hpair
  obtain ⟨hi', rfl⟩ := List.getElem?_eq_some_iff.1 hi
  obtain ⟨hj', rfl⟩ := List.getElem?_eq_some_iff.1 hj
  rcases Nat.lt_or_gt_of_ne hne with hlt | hlt
  · exact fun ha' => hget i j hi' hj' hlt ha ha'
  · exact fun ha' => hget j i hj' hi' hlt ha' ha

/-- Distinct addresses below a bound. -/
theorem length_le_of_lt {n : ℕ} (hn : (addrs xs).Nodup) (hlt : ∀ a ∈ addrs xs, a < n) :
    xs.length ≤ n := by
  have hsub : addrs xs ⊆ List.range n := fun a ha => List.mem_range.2 (hlt a ha)
  have hle := (List.subperm_of_subset hn hsub).length_le
  simpa [addrs] using hle

/-- A chain only depends on its own nodes. -/
theorem Chain.frame (hc : Chain h p xs) (hf : ∀ a ∈ addrs xs, h' a = h a) : Chain h' p xs := by
  induction xs generalizing p with
  | nil => exact hc
  | cons x xs ih =>
    obtain ⟨hp, q, hx, hxs⟩ := hc
    have hhead := hf x.1 List.mem_cons_self
    exact ⟨hp, q, hhead.trans hx, ih hxs fun a ha => hf a (List.mem_cons_of_mem _ ha)⟩

theorem Chains.frame (hcs : Chains h heads css) (hf : ∀ a ∈ addrs css.flatten, h' a = h a) :
    Chains h' heads css where
  length := hcs.length
  chain i p xs hp hxs := by
    apply (hcs.chain i p xs hp hxs).frame
    intro a ha
    exact hf a (mem_addrs_flatten (List.mem_of_getElem? hxs) ha)

theorem Chain.cell (hc : Chain h p xs) (hx : x ∈ xs) : ∃ q, h x.1 = some ⟨x.2, q⟩ := by
  induction xs generalizing p with
  | nil => cases hx
  | cons y xs ih =>
    obtain ⟨-, q, hy, hxs⟩ := hc
    rcases List.mem_cons.1 hx with rfl | hx
    · exact ⟨q, hy⟩
    · exact ih hxs hx

theorem Chains.cell (hcs : Chains h heads css) (hx : x ∈ css.flatten) :
    ∃ q, h x.1 = some ⟨x.2, q⟩ := by
  obtain ⟨xs, hxs, hx⟩ := List.mem_flatten.1 hx
  obtain ⟨i, hi, rfl⟩ := List.mem_iff_getElem.1 hxs
  have hi' : i < heads.length := by
    rw [hcs.length]
    exact hi
  exact (hcs.chain i _ _ (List.getElem?_eq_getElem hi') (List.getElem?_eq_getElem hi)).cell hx

/-! Values. -/

/-- The node at an address gets another value. -/
def setAt (a : Addr) (f : α → α) (x : Addr × α) : Addr × α := if x.1 = a then (x.1, f x.2) else x

@[simp] theorem setAt_fst (a : Addr) (f : α → α) (x : Addr × α) : (setAt a f x).1 = x.1 := by
  unfold setAt
  split <;> rfl

@[simp] theorem setAt_id (a : Addr) : setAt a (id : α → α) = id := by
  funext x
  unfold setAt
  split <;> rfl

@[simp] theorem addrs_map_setAt (a : Addr) (f : α → α) (xs : List (Addr × α)) :
    addrs (xs.map (setAt a f)) = addrs xs := by
  simp [addrs, Function.comp_def]

theorem map_setAt_of_notMem (ha : a ∉ addrs xs) : xs.map (setAt a f) = xs := by
  refine (List.map_congr_left fun x hx => ?_).trans (List.map_id xs)
  have hne : x.1 ≠ a := by
    rintro rfl
    exact ha (mem_addrs.2 ⟨x.2, hx⟩)
  exact if_neg hne

theorem map_map_setAt_of_notMem (ha : a ∉ addrs css.flatten) :
    css.map (List.map (setAt a f)) = css := by
  refine (List.map_congr_left fun xs hxs => ?_).trans (List.map_id css)
  exact map_setAt_of_notMem fun hmem => ha (mem_addrs_flatten hxs hmem)

/-- A write to the value of a node leaves all pointers as they are. -/
theorem Chain.setVal (hc : Chain h p xs) (hset : setVal h a f = some h') :
    Chain h' p (xs.map (setAt a f)) := by
  obtain ⟨c, ha, rfl⟩ := Option.map_eq_some_iff.1 hset
  induction xs generalizing p with
  | nil => exact hc
  | cons x xs ih =>
    obtain ⟨hp, q, hx, hxs⟩ := hc
    refine ⟨by simpa using hp, q, ?_, ih hxs⟩
    by_cases hxa : x.1 = a
    · subst hxa
      obtain rfl : c = ⟨x.2, q⟩ := Option.some.inj (ha.symm.trans hx)
      simp [setAt]
    · simp [setAt, hxa, hx]

theorem Chains.setVal (hcs : Chains h heads css) (hset : setVal h a f = some h') :
    Chains h' heads (css.map (List.map (setAt a f))) where
  length := by simpa using hcs.length
  chain i p xs hp hxs := by
    rw [List.getElem?_map] at hxs
    obtain ⟨ys, hys, rfl⟩ := Option.map_eq_some_iff.1 hxs
    exact (hcs.chain i p ys hp hys).setVal hset

/-- A walk comes to the end of its chain, or to the first node that satisfies `p`. -/
theorem walk_spec {p : α → Bool} (hc : Chain h q xs) (hfuel : xs.length ≤ fuel) :
    walk h p fuel q = some ((xs.find? fun x => p x.2).map Prod.fst) := by
  induction xs generalizing q fuel with
  | nil =>
    cases hc
    cases fuel <;> rfl
  | cons x xs ih =>
    obtain ⟨rfl, q, hx, hxs⟩ := hc
    obtain ⟨fuel, rfl⟩ : ∃ n, fuel = n + 1 := ⟨fuel - 1, by simp at hfuel; omega⟩
    have hrest := ih hxs (by simpa using hfuel)
    cases hp : p x.2 <;> simp [walk, hx, hp, hrest]

/-! Nodes that are put in front of a chain. -/

theorem flatten_modify_cons_perm {b : List (List α)} (hi : i < b.length) (v : α) :
    (b.modify i (v :: ·)).flatten.Perm (v :: b.flatten) := by
  induction b generalizing i with
  | nil => simp at hi
  | cons c b ih =>
    cases i with
    | zero => simp
    | succ i =>
      have h := ih (by simpa using hi)
      rw [List.modify_succ_cons, List.flatten_cons, List.flatten_cons]
      exact (h.append_left c).trans List.perm_middle

/-- A node whose pointer goes to the first node of a chain becomes the first node itself. -/
theorem Chains.push (hcs : Chains h heads css) (hq : heads[i]? = some q)
    (ha : h' a = some ⟨v, q⟩) (hf : ∀ b ∈ addrs css.flatten, h' b = h b) :
    Chains h' (heads.set i (some a)) (css.modify i ((a, v) :: ·)) where
  length := by simpa using hcs.length
  chain j p xs hp hxs := by
    have hframe := hcs.frame hf
    rw [List.getElem?_set] at hp
    rw [List.getElem?_modify] at hxs
    obtain ⟨ys, hys, rfl⟩ := Option.map_eq_some_iff.1 hxs
    by_cases hij : i = j
    · subst hij
      have hi : i < heads.length := (List.getElem?_eq_some_iff.1 hq).1
      simp only [if_true, hi, Option.some.injEq] at hp ⊢
      exact ⟨hp.symm, q, ha, hframe.chain i q ys hq hys⟩
    · simp only [if_neg hij] at hp ⊢
      exact hframe.chain j p ys hp hys

/-- The chains after the nodes of a list were put in front of them, one after another. -/
def distributed {β : Type} (index : β → ℕ) (css : List (List β)) (xs : List β) : List (List β) :=
  xs.foldl (fun css x => css.modify (index x) (x :: ·)) css

section Distributed

variable {β γ : Type} {bs : List β} {bss : List (List β)} {i : β → ℕ}

theorem length_distributed (i : β → ℕ) (bss : List (List β)) (bs : List β) :
    (distributed i bss bs).length = bss.length := by
  induction bs generalizing bss with
  | nil => rfl
  | cons b bs ih => simpa [distributed] using ih (bss.modify (i b) (b :: ·))

theorem distributed_perm (hi : ∀ b ∈ bs, i b < bss.length) :
    (distributed i bss bs).flatten.Perm (bs ++ bss.flatten) := by
  induction bs generalizing bss with
  | nil => exact List.Perm.refl _
  | cons b bs ih =>
    have hpush := flatten_modify_cons_perm (hi b List.mem_cons_self) b
    have hrest : ∀ c ∈ bs, i c < (bss.modify (i b) (b :: ·)).length := by
      intro c hc
      simpa using hi c (List.mem_cons_of_mem b hc)
    exact (ih hrest).trans ((hpush.append_left bs).trans List.perm_middle)

theorem map_modify_cons (f : β → γ) (bss : List (List β)) (n : ℕ) (b : β) :
    (bss.modify n (b :: ·)).map (List.map f) = (bss.map (List.map f)).modify n (f b :: ·) := by
  induction bss generalizing n with
  | nil => simp
  | cons c bss ih => cases n <;> simp [List.modify_succ_cons, ih]

/-- A map that keeps every element in its chain. -/
theorem map_distributed (f : β → γ) {j : γ → ℕ} (hj : ∀ b ∈ bs, j (f b) = i b) :
    (distributed i bss bs).map (List.map f) =
      distributed j (bss.map (List.map f)) (bs.map f) := by
  induction bs generalizing bss with
  | nil => rfl
  | cons b bs ih =>
    have hrest := @ih (bss.modify (i b) (b :: ·)) fun c hc => hj c (List.mem_cons_of_mem b hc)
    simp only [map_modify_cons, ← hj b List.mem_cons_self] at hrest
    simpa only [distributed, List.map_cons, List.foldl_cons, hj b List.mem_cons_self] using hrest

end Distributed

/-- An array of NULL pointers. -/
theorem chains_replicate (h : Heap α) (n : ℕ) :
    Chains h (List.replicate n none) (List.replicate n []) where
  length := by simp
  chain i p xs hp hxs := by
    obtain ⟨-, rfl⟩ := List.mem_replicate.1 (List.mem_of_getElem? hp)
    obtain ⟨-, rfl⟩ := List.mem_replicate.1 (List.mem_of_getElem? hxs)
    rfl

/-- The loop visits every node of the chain once, although it rewrites the pointers that it walks
along, and leaves all other nodes alone. -/
theorem distribute_spec (hc : Chain h p xs) (hcs : Chains h heads css)
    (hn : (addrs (xs ++ css.flatten)).Nodup) (hindex : ∀ x ∈ xs, index x.2 < css.length)
    (hfuel : xs.length ≤ fuel) :
    ∃ h' heads', distribute index fuel h heads p = some (h', heads') ∧
      Chains h' heads' (distributed (fun x => index x.2) css xs) ∧
      ∀ a, a ∉ addrs xs → h' a = h a := by
  induction xs generalizing h p heads css fuel with
  | nil =>
    cases hc
    refine ⟨h, heads, ?_, hcs, fun a _ => rfl⟩
    cases fuel <;> rfl
  | cons x xs ih =>
    obtain ⟨rfl, q, hx, hxs⟩ := hc
    obtain ⟨fuel, rfl⟩ : ∃ n, fuel = n + 1 := ⟨fuel - 1, by simp at hfuel; omega⟩
    have hi := hindex x List.mem_cons_self
    obtain ⟨first, hfirst⟩ : ∃ first, heads[index x.2]? = some first :=
      ⟨_, List.getElem?_eq_getElem (hcs.length.symm ▸ hi)⟩
    obtain ⟨hfresh, hn⟩ := List.nodup_cons.1 hn
    -- the write to `next` is outside of the rest of the chain and of the other chains
    have hother : ∀ b ∈ addrs (xs ++ css.flatten),
        Function.update h x.1 (some ⟨x.2, first⟩) b = h b := by
      intro b hb
      apply Function.update_of_ne
      rintro rfl
      exact hfresh hb
    have hrest : Chain (Function.update h x.1 (some ⟨x.2, first⟩)) q xs :=
      hxs.frame fun b hb => hother b (by simp [hb])
    have hpush : Chains (Function.update h x.1 (some ⟨x.2, first⟩))
        (heads.set (index x.2) (some x.1)) (css.modify (index x.2) (x :: ·)) :=
      hcs.push hfirst (Function.update_self _ _ _) fun b hb => hother b (by simp [hb])
    have hperm : (xs ++ (css.modify (index x.2) (x :: ·)).flatten).Perm
        (x :: (xs ++ css.flatten)) :=
      ((flatten_modify_cons_perm hi x).append_left xs).trans List.perm_middle
    have hnodup : (addrs (xs ++ (css.modify (index x.2) (x :: ·)).flatten)).Nodup :=
      (hperm.map Prod.fst).nodup_iff.2 (List.nodup_cons.2 ⟨hfresh, hn⟩)
    obtain ⟨h', heads', hloop, hcs', hframe⟩ := ih hrest hpush hnodup
      (fun y hy => by simpa using hindex y (List.mem_cons_of_mem x hy)) (by simpa using hfuel)
    refine ⟨h', heads', ?_, hcs', ?_⟩
    · simp only [distribute, hx, setNext, Option.map_some, Option.bind_eq_bind, Option.bind_some,
        hfirst]
      exact hloop
    · intro b hb
      obtain ⟨hne, hb⟩ := not_or.1 (mt List.mem_cons.2 hb)
      exact (hframe b hb).trans (Function.update_of_ne hne _ _)

end Chains

end ChainHeap
