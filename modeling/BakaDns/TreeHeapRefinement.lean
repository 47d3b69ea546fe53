import BakaDns.TreeHeap
import BakaDns.TreeInvariant

/-!
# The heap holds the tree

`IsTree` says which tree an address stands for: every node and every level has one owner. The heap
that `tree_insert` leaves stands for the tree that `treeInsert` returns, and `tree_search` finds the
same in both.
-/

namespace BakaDns
open CBytes ChainHeap

section Trees

variable {h h' : TreeHeap} {a b c : Addr} {tn tn' : TreeNode} {F S : Set Addr} {level : Level}
  {e : NodeElement Addr} {xs : List (Addr × NodeElement Addr)}
  {css : List (List (Addr × NodeElement Addr))} {T : Addr → TreeNode} {G : Addr → Set Addr}
  {target rev : List UInt8} {g : NodeElement Addr → NodeElement Addr}
  {hashFun : List UInt8 → UInt32} {index : ElementIndex} {rr : ResourceRecord} {fuel : ℕ} {ret : ℤ}

/-- Only objects in a set and new ones were written to. -/
structure TreeHeap.Within (S : Set Addr) (h h' : TreeHeap) : Prop where
  brk : h.brk ≤ h'.brk
  nodes : ∀ b, b ∉ S → b < h.brk → h'.nodes b = h.nodes b
  levels : ∀ b, b ∉ S → b < h.brk → h'.levels b = h.levels b

/-- Every object of a tree was allocated. -/
def TreeHeap.Allocated (h : TreeHeap) (F : Set Addr) : Prop := ∀ b ∈ F, b < h.brk

/-- The set of a tree and the objects that were allocated on the way to another heap. -/
def TreeHeap.grow (h h' : TreeHeap) (F : Set Addr) : Set Addr := F ∪ Set.Ico h.brk h'.brk

/-- The objects of a level. -/
def ownAddrs (a : Addr) (css : List (List (Addr × NodeElement Addr))) : Set Addr :=
  {b | b = a ∨ b ∈ addrs css.flatten}

/-- A level on the heap. `G` gives the addresses that the trees below it use: no two of them, and
none of them and the level, have an address in common. -/
structure Level.Spells (level : Level) (h : TreeHeap) (a : Addr) (F : Set Addr)
    (css : List (List (Addr × NodeElement Addr))) (G : Addr → Set Addr) : Prop where
  stored : h.levels a = some level
  holds : level.Holds h.nodes css
  own : ownAddrs a css ⊆ F
  below : ∀ x ∈ css.flatten, ∀ c, x.2.child = some c → G c ⊆ F ∧ Disjoint (ownAddrs a css) (G c)
  apart : ∀ x ∈ css.flatten, ∀ y ∈ css.flatten, x.1 ≠ y.1 → ∀ c d, x.2.child = some c →
    y.2.child = some d → Disjoint (G c) (G d)

/-- The tree that an address stands for. All its objects lie in a set of addresses. -/
inductive IsTree (h : TreeHeap) : Addr → TreeNode → Set Addr → Prop
  | mk {a : Addr} {F : Set Addr} {level : Level} {css : List (List (Addr × NodeElement Addr))}
      (T : Addr → TreeNode) (G : Addr → Set Addr) (spells : level.Spells h a F css G)
      (child : ∀ x ∈ css.flatten, ∀ c, x.2.child = some c → IsTree h c (T c) (G c)) :
      IsTree h a (level.toTree T css) F

/-- The trees below a level. -/
def TreesBelow (h : TreeHeap) (css : List (List (Addr × NodeElement Addr)))
    (T : Addr → TreeNode) (G : Addr → Set Addr) : Prop :=
  ∀ x ∈ css.flatten, ∀ c, x.2.child = some c → IsTree h c (T c) (G c)

theorem TreeHeap.Within.refl (S : Set Addr) (h : TreeHeap) : h.Within S h :=
  ⟨le_refl _, fun _ _ _ => rfl, fun _ _ _ => rfl⟩

theorem TreeHeap.subset_grow (h h' : TreeHeap) (F : Set Addr) : F ⊆ h.grow h' F :=
  Set.subset_union_left

theorem TreeHeap.Within.trans {h₁ : TreeHeap} (hw : h.Within S h₁)
    (hw' : h₁.Within (h.grow h₁ S) h') : h.Within S h' := by
  have hout : ∀ b, b ∉ S → b < h.brk → b ∉ h.grow h₁ S ∧ b < h₁.brk := by
    intro b hb hlt
    refine ⟨?_, hlt.trans_le hw.brk⟩
    rintro (hS | ⟨hle, -⟩)
    · exact hb hS
    · exact absurd hle (not_le.2 hlt)
  refine ⟨hw.brk.trans hw'.brk, fun b hb hlt => ?_, fun b hb hlt => ?_⟩
  · obtain ⟨hb', hlt'⟩ := hout b hb hlt
    exact (hw'.nodes b hb' hlt').trans (hw.nodes b hb hlt)
  · obtain ⟨hb', hlt'⟩ := hout b hb hlt
    exact (hw'.levels b hb' hlt').trans (hw.levels b hb hlt)

theorem TreeHeap.Within.grow_subset {h₁ : TreeHeap} (hw : h.Within S h₁) (hle : h₁.brk ≤ h'.brk) :
    h₁.grow h' (h.grow h₁ F) ⊆ h.grow h' F := by
  rintro b ((hb | ⟨hlo, hhi⟩) | ⟨hlo, hhi⟩)
  · exact .inl hb
  · exact .inr ⟨hlo, hhi.trans_le hle⟩
  · exact .inr ⟨hw.brk.trans hlo, hhi⟩

theorem TreeHeap.Within.mono {S' : Set Addr} (hw : h.Within S h') (hS : S ⊆ S') :
    h.Within S' h' :=
  ⟨hw.brk, fun b hb => hw.nodes b fun hmem => hb (hS hmem),
    fun b hb => hw.levels b fun hmem => hb (hS hmem)⟩

theorem IsTree.mem (hr : IsTree h a tn F) : a ∈ F := by
  cases hr with
  | mk T G sp child => exact sp.own (.inl rfl)

theorem IsTree.mono {F' : Set Addr} (hr : IsTree h a tn F) (hF : F ⊆ F') : IsTree h a tn F' := by
  cases hr with
  | mk T G sp child =>
    refine .mk T G ⟨sp.stored, sp.holds, sp.own.trans hF, fun x hx c hc => ?_, sp.apart⟩ child
    obtain ⟨hG, hdisj⟩ := sp.below x hx c hc
    exact ⟨hG.trans hF, hdisj⟩

/-- A tree only depends on the objects in its set. -/
theorem IsTree.frame (hr : IsTree h a tn F) (hF : h.Allocated F) (hw : h.Within S h')
    (hS : Disjoint S F) : IsTree h' a tn F := by
  induction hr with
  | @mk a F level css T G sp child ih =>
    have hout : ∀ b ∈ F, b ∉ S := fun b hb hbS => Set.disjoint_left.1 hS hbS hb
    refine .mk T G ⟨?_, ?_, sp.own, sp.below, sp.apart⟩ ?_
    · exact (hw.levels _ (hout _ (sp.own (.inl rfl))) (hF _ (sp.own (.inl rfl)))).trans sp.stored
    · apply sp.holds.frame
      intro b hb
      exact hw.nodes b (hout b (sp.own (.inr hb))) (hF b (sp.own (.inr hb)))
    · intro x hx c hc
      obtain ⟨hG, -⟩ := sp.below x hx c hc
      exact ih x hx c hc (fun b hb => hF b (hG hb)) (hS.mono_right hG)

theorem Level.Spells.find (sp : level.Spells h a F css G) (hF : h.Allocated F)
    (target : List UInt8) :
    ∃ xs, css[level.container.index target]? = some xs ∧
      h.nodeFind a target =
        some ((xs.find? fun x => labelMatches target x.2).map Prod.fst) := by
  obtain ⟨head, xs, hhead, hxs, hchain⟩ := sp.holds.chain target
  refine ⟨xs, hxs, ?_⟩
  have hlength : xs.length ≤ h.brk := by
    have hsub := List.sublist_flatten_of_mem (List.mem_of_getElem? hxs)
    have hle := length_le_of_lt sp.holds.distinct fun b hb => hF b (sp.own (.inr hb))
    exact hsub.length_le.trans hle
  have hwalk := @walk_spec _ _ _ _ _ (labelMatches target) hchain hlength
  cases hc : level.container with
  | linkedList first =>
    simp only [hc, Container.heads, Container.index] at hhead
    cases hhead
    simpa [TreeHeap.nodeFind, sp.stored, hc, TreeHeap.llFind] using hwalk
  | bucket heads =>
    simp only [hc, Container.heads, Container.index] at hhead
    simpa [TreeHeap.nodeFind, sp.stored, hc, TreeHeap.hashLlFind, TreeHeap.llFind, hhead]
      using hwalk

/-- The trees below a level do not notice a write to it. -/
theorem Level.Spells.below_frame (sp : level.Spells h a F css G) (hF : h.Allocated F)
    (child : TreesBelow h css T G)
    (hw : h.Within (ownAddrs a css) h') :
    TreesBelow h' css T G := by
  intro x hx c hc
  obtain ⟨hG, hdisj⟩ := sp.below x hx c hc
  exact (child x hx c hc).frame (fun b hb => hF b (hG hb)) hw hdisj

@[simp] theorem ownAddrs_map_setAt (a b : Addr) (g : NodeElement Addr → NodeElement Addr)
    (css : List (List (Addr × NodeElement Addr))) :
    ownAddrs a (css.map (List.map (setAt b g))) = ownAddrs a css := by
  simp [ownAddrs, ← List.map_flatten]

/-- A write to a node touches nothing outside of its level. -/
theorem Level.Spells.setVal (sp : level.Spells h a F css G) (hb : (b, e) ∈ css.flatten)
    (g : NodeElement Addr → NodeElement Addr) :
    ∃ nodes, setVal h.nodes b g = some nodes ∧ ∀ d, d ∉ ownAddrs a css → nodes d = h.nodes d := by
  obtain ⟨q, hcell⟩ := sp.holds.chains.cell hb
  refine ⟨Function.update h.nodes b (some ⟨g e, q⟩), by simp [ChainHeap.setVal, hcell], ?_⟩
  intro d hd
  apply Function.update_of_ne
  rintro rfl
  exact hd (.inr (mem_addrs.2 ⟨e, hb⟩))

/-- A write to a node that leaves its `child` alone. -/
theorem Level.Spells.modify (sp : level.Spells h a F css G) (hF : h.Allocated F)
    (child : TreesBelow h css T G)
    (hb : (b, e) ∈ css.flatten) (hg : ∀ e, (g e).child = e.child) :
    ∃ h', h.modify b g = some h' ∧ h.Within (ownAddrs a css) h' ∧
      IsTree h' a (level.toTree T (css.map (List.map (setAt b g)))) F := by
  obtain ⟨nodes, hset, hout⟩ := sp.setVal hb g
  have hchild : ∀ x, (setAt b g x).2.child = x.2.child := by
    intro x
    simp only [setAt]
    split
    · exact hg x.2
    · rfl
  have hw : h.Within (ownAddrs a css) { h with nodes := nodes } :=
    ⟨le_refl _, fun d hd _ => hout d hd, fun _ _ _ => rfl⟩
  refine ⟨_, by simp [TreeHeap.modify, hset], hw, ?_⟩
  refine .mk T G ⟨sp.stored, sp.holds.setVal hset, ?_, ?_, ?_⟩ ?_
  · simpa using sp.own
  · intro x hx c hc
    obtain ⟨y, hy, rfl⟩ := mem_map_setAt.1 hx
    simpa using sp.below y hy c ((hchild y).symm.trans hc)
  · intro x hx y hy hne c d hc hd
    obtain ⟨x₀, hx₀, rfl⟩ := mem_map_setAt.1 hx
    obtain ⟨y₀, hy₀, rfl⟩ := mem_map_setAt.1 hy
    exact sp.apart x₀ hx₀ y₀ hy₀ (by simpa using hne) c d ((hchild x₀).symm.trans hc)
      ((hchild y₀).symm.trans hd)
  · intro x hx c hc
    obtain ⟨y, hy, rfl⟩ := mem_map_setAt.1 hx
    exact sp.below_frame hF child hw y hy c ((hchild y).symm.trans hc)

theorem TreeHeap.Allocated.disjoint (hF : h.Allocated F) (h' : TreeHeap) :
    Disjoint F (Set.Ico h.brk h'.brk) := by
  apply Set.disjoint_left.2
  rintro b hb ⟨hle, -⟩
  exact absurd (hF b hb) (not_lt.2 hle)

theorem TreeHeap.Allocated.grow (hF : h.Allocated F) (hle : h.brk ≤ h'.brk) :
    h'.Allocated (h.grow h' F) := by
  rintro b (hb | ⟨-, hb⟩)
  · exact (hF b hb).trans_le hle
  · exact hb

/-- One node of a level has got the tree at `d` below it, every other node is as it was. -/
theorem Level.Spells.setChild (sp : level.Spells h a F css G)
    {css' : List (List (Addr × NodeElement Addr))} {F' D : Set Addr} {d : Addr} {t : TreeNode}
    (hstored : h'.levels a = some level) (hholds : level.Holds h'.nodes css')
    (hown : ownAddrs a css' = ownAddrs a css) (hF : F ⊆ F')
    (hcases : ∀ x ∈ css'.flatten, ∀ c, x.2.child = some c →
      x.1 = b ∧ c = d ∨ x ∈ css.flatten ∧ x.1 ≠ b ∧ c ≠ d)
    (ht : IsTree h' d t D) (hD : D ⊆ F') (hdisj : Disjoint (ownAddrs a css) D)
    (hkeep : ∀ x ∈ css.flatten, x.1 ≠ b → ∀ c, x.2.child = some c →
      IsTree h' c (T c) (G c) ∧ Disjoint D (G c)) :
    level.Spells h' a F' css' (Function.update G d D) ∧
      TreesBelow h' css' (Function.update T d t) (Function.update G d D) := by
  refine ⟨⟨hstored, hholds, ?_, ?_, ?_⟩, ?_⟩
  · exact hown.le.trans (sp.own.trans hF)
  · intro x hx c hc
    rw [hown]
    rcases hcases x hx c hc with ⟨-, rfl⟩ | ⟨hx, -, hne⟩
    · simp only [Function.update_self]
      exact ⟨hD, hdisj⟩
    · obtain ⟨hG, hdisjc⟩ := sp.below x hx c hc
      simp only [Function.update_of_ne hne]
      exact ⟨hG.trans hF, hdisjc⟩
  · intro x hx y hy hne c c' hc hc'
    rcases hcases x hx c hc with ⟨hxb, rfl⟩ | ⟨hx, hxb, hcd⟩
    · rcases hcases y hy c' hc' with ⟨hyb, -⟩ | ⟨hy, hyb, hcd'⟩
      · exact absurd (hxb.trans hyb.symm) hne
      · simp only [Function.update_self, Function.update_of_ne hcd']
        exact (hkeep y hy hyb c' hc').2
    · rcases hcases y hy c' hc' with ⟨-, rfl⟩ | ⟨hy, -, hcd'⟩
      · simp only [Function.update_self, Function.update_of_ne hcd]
        exact (hkeep x hx hxb c hc).2.symm
      · simp only [Function.update_of_ne hcd, Function.update_of_ne hcd']
        exact sp.apart x hx y hy hne c c' hc hc'
  · intro x hx c hc
    rcases hcases x hx c hc with ⟨-, rfl⟩ | ⟨hx, hxb, hne⟩
    · simpa only [Function.update_self] using ht
    · simp only [Function.update_of_ne hne]
      exact (hkeep x hx hxb c hc).1

/-- No two nodes have the same level below them. -/
theorem Level.Spells.child_ne (sp : level.Spells h a F css G)
    (child : TreesBelow h css T G)
    (hb : (b, e) ∈ css.flatten) (hc : e.child = some c) {x : Addr × NodeElement Addr}
    (hx : x ∈ css.flatten) (hne : x.1 ≠ b) {d : Addr} (hd : x.2.child = some d) : d ≠ c := by
  rintro rfl
  have hmem := (child x hx d hd).mem
  have hapart := sp.apart _ hb x hx (Ne.symm hne) d d hc hd
  exact Set.disjoint_left.1 hapart hmem hmem

/-- The tree below a node has changed. -/
theorem Level.Spells.grow (sp : level.Spells h a F css G) (hF : h.Allocated F)
    (hx : (b, e) ∈ css.flatten) (hc : e.child = some c)
    (child : TreesBelow h css T G)
    (hw : h.Within (G c) h') {t : TreeNode} (ht : IsTree h' c t (h.grow h' (G c))) :
    level.Spells h' a (h.grow h' F) css (Function.update G c (h.grow h' (G c))) ∧
      TreesBelow h' css (Function.update T c t) (Function.update G c (h.grow h' (G c))) := by
  obtain ⟨hG, hdisj⟩ := sp.below _ hx c hc
  have hown : ∀ d ∈ ownAddrs a css, d ∉ G c := fun d hd => Set.disjoint_left.1 hdisj hd
  have hapart : ∀ x ∈ css.flatten, x.1 ≠ b → ∀ d, x.2.child = some d → Disjoint (G c) (G d) :=
    fun x hx' hne d hd => sp.apart _ hx x hx' (Ne.symm hne) c d hc hd
  refine sp.setChild (b := b) ?_ ?_ rfl (h.subset_grow h' F) ?_ ht ?_ ?_ ?_
  · exact (hw.levels a (hown a (.inl rfl)) (hF a (sp.own (.inl rfl)))).trans sp.stored
  · apply sp.holds.frame
    intro d hd
    exact hw.nodes d (hown d (.inr hd)) (hF d (sp.own (.inr hd)))
  · intro x hx' d hd
    by_cases hxb : x.1 = b
    · obtain rfl := sp.holds.eq_of_addr hx' hx hxb
      exact .inl ⟨rfl, Option.some.inj (hd.symm.trans hc)⟩
    · exact .inr ⟨hx', hxb, sp.child_ne child hx hc hx' hxb hd⟩
  · exact Set.union_subset_union_left _ hG
  · exact Set.disjoint_union_right.2 ⟨hdisj, (hF.disjoint h').mono_left sp.own⟩
  · intro x hx' hxb d hd
    obtain ⟨hGd, -⟩ := sp.below x hx' d hd
    have hdisjd := hapart x hx' hxb d hd
    refine ⟨(child x hx' d hd).frame (fun b hb => hF b (hGd hb)) hw hdisjd, ?_⟩
    exact Set.disjoint_union_left.2 ⟨hdisjd, (hF.disjoint h').symm.mono_right hGd⟩

/-- `create_tree_node`. -/
theorem isTree_createTreeNode (hc : h.levels c = some ⟨0, .linkedList none⟩) :
    IsTree h c createTreeNode {c} := by
  have hsp : Level.Spells ⟨0, .linkedList none⟩ h c {c} [[]] fun _ => ∅ := by
    refine ⟨hc, ⟨⟨rfl, ?_⟩, by simp, by simp [addrs]⟩, by simp [ownAddrs, addrs], by simp, by simp⟩
    intro i p xs hp hxs
    cases i with
    | zero =>
      cases hp
      cases hxs
      rfl
    | succ i => cases hp
  exact .mk (fun _ => createTreeNode) _ hsp (by simp)

/-- A node gets a new level below it. -/
theorem Level.Spells.newChild (sp : level.Spells h a F css G) (hF : h.Allocated F)
    (hb : (b, e) ∈ css.flatten)
    (child : TreesBelow h css T G) :
    ∃ h', h.createTreeNode.modify b (fun e => { e with child := some h.brk }) = some h' ∧
      h.Within (ownAddrs a css) h' ∧
      level.Spells h' a (h.grow h' F)
        (css.map (List.map (setAt b fun e => { e with child := some h.brk })))
        (Function.update G h.brk {h.brk}) ∧
      TreesBelow h' (css.map (List.map (setAt b fun e => { e with child := some h.brk })))
        (Function.update T h.brk createTreeNode) (Function.update G h.brk {h.brk}) := by
  obtain ⟨nodes, hset, hout⟩ := sp.setVal hb fun e => { e with child := some h.brk }
  let h' : TreeHeap := { h.createTreeNode with nodes := nodes }
  have hw : h.Within (ownAddrs a css) h' :=
    ⟨Nat.le_succ _, fun d hd _ => hout d hd, fun d _ hd => Function.update_of_ne hd.ne _ _⟩
  have hfresh : ∀ {S : Set Addr}, S ⊆ F → Disjoint S {h.brk} := by
    intro S hS
    apply Set.disjoint_singleton_right.2
    exact fun hmem => (hF _ (hS hmem)).false
  refine ⟨h', ?_, hw, ?_⟩
  · have hset' : ChainHeap.setVal h.createTreeNode.nodes b _ = some nodes := hset
    simp only [TreeHeap.modify, hset', Option.map_some, h']
  · refine sp.setChild (b := b) ?_ (sp.holds.setVal hset) (ownAddrs_map_setAt _ _ _ _)
      (h.subset_grow h' F) ?_ (isTree_createTreeNode (Function.update_self _ _ _)) ?_
      (hfresh sp.own) ?_
    · have ha : a ≠ h.brk := (hF a (sp.own (.inl rfl))).ne
      exact (Function.update_of_ne ha _ _).trans sp.stored
    · intro x hx c hc
      obtain ⟨y, hy, rfl⟩ := mem_map_setAt.1 hx
      by_cases hyb : y.1 = b
      · simp only [setAt, if_pos hyb, Option.some.injEq] at hc
        exact .inl ⟨by simpa using hyb, hc.symm⟩
      · simp only [setAt, if_neg hyb] at hc ⊢
        have hcF := (sp.below y hy c hc).1 (child y hy c hc).mem
        exact .inr ⟨hy, hyb, (hF c hcF).ne⟩
    · exact Set.singleton_subset_iff.2 (.inr ⟨le_refl _, Nat.lt_succ_self _⟩)
    · intro x hx _ c hc
      exact ⟨sp.below_frame hF child hw x hx c hc, (hfresh (sp.below x hx c hc).1).symm⟩

/-- `tree_node_insert`. -/
theorem Level.Spells.nodeInsert (sp : level.Spells h a F css G) (hF : h.Allocated F)
    (child : TreesBelow h css T G)
    (hashFun : List UInt8 → UInt32) (rev : List UInt8) :
    ∃ h' level' css', h.nodeInsert a rev hashFun = some (h', h.brk) ∧
      h.Within (ownAddrs a css) h' ∧ level'.Spells h' a (h.grow h' F) css' G ∧
      level.Extended hashFun rev h.brk h.nodes css h'.nodes level' css' ∧
      TreesBelow h' css' T G := by
  have hfresh : h.brk ∉ addrs css.flatten := fun hmem => (hF _ (sp.own (.inr hmem))).false
  have hbelow := length_le_of_lt sp.holds.distinct fun b hb => hF b (sp.own (.inr hb))
  obtain ⟨nodes', container', css', hinsert, hext⟩ :=
    sp.holds.extended hfresh hbelow hashFun rev
  let h' : TreeHeap :=
    ⟨nodes', Function.update h.levels a (some ⟨level.size + 1, container'⟩), h.brk + 1⟩
  have hmem : ∀ x ∈ css'.flatten, x = (h.brk, linkedElement rev) ∨ x ∈ css.flatten :=
    fun x hx => List.mem_cons.1 (hext.perm.subset hx)
  have hold : ∀ x ∈ css'.flatten, ∀ c, x.2.child = some c → x ∈ css.flatten := by
    intro x hx c hc
    rcases hmem x hx with rfl | hx
    · cases hc
    · exact hx
  have hown : ownAddrs a css' ⊆ insert h.brk (ownAddrs a css) := by
    rintro b (rfl | hb)
    · exact .inr (.inl rfl)
    · obtain ⟨v, hv⟩ := mem_addrs.1 hb
      rcases hmem _ hv with heq | hx
      · exact .inl (congrArg Prod.fst heq)
      · exact .inr (.inr (mem_addrs.2 ⟨v, hx⟩))
  have hw : h.Within (ownAddrs a css) h' := by
    refine ⟨Nat.le_succ _, fun b hb hlt => ?_, fun b hb _ => ?_⟩
    · exact hext.frame b hlt.ne fun hmem => hb (.inr hmem)
    · exact Function.update_of_ne (fun heq => hb (.inl heq)) _ _
  refine ⟨h', _, css', ?_, hw, ⟨Function.update_self _ _ _, hext.holds, ?_, ?_, ?_⟩, hext, ?_⟩
  · simp only [TreeHeap.nodeInsert, sp.stored, hinsert, Option.bind_eq_bind, Option.bind_some]
    rfl
  · intro b hb
    rcases hown hb with rfl | hb
    · exact .inr ⟨le_refl _, Nat.lt_succ_self _⟩
    · exact .inl (sp.own hb)
  · intro x hx c hc
    obtain ⟨hG, hdisj⟩ := sp.below x (hold x hx c hc) c hc
    refine ⟨hG.trans (h.subset_grow h' F), ?_⟩
    apply Set.disjoint_left.2
    intro b hb hbG
    rcases hown hb with rfl | hb
    · exact (hF _ (hG hbG)).false
    · exact Set.disjoint_left.1 hdisj hb hbG
  · intro x hx y hy hne c d hc hd
    exact sp.apart x (hold x hx c hc) y (hold y hy d hd) hne c d hc hd
  · intro x hx c hc
    exact sp.below_frame hF child hw x (hold x hx c hc) c hc

/-- The node that a lookup finds, on the two sides. -/
theorem Level.Spells.found (sp : level.Spells h a F css G) (hF : h.Allocated F) {ln : Element}
    (hfind : treeNodeFind (level.toTree T css) target = some ln) :
    ∃ xs b e q, css[level.container.index target]? = some xs ∧
      xs.find? (fun x => labelMatches target x.2) = some (b, e) ∧ asElement T (b, e) = ln ∧
      h.nodeFind a target = some (some b) ∧ (b, e) ∈ css.flatten ∧ h.nodes b = some ⟨e, q⟩ := by
  obtain ⟨xs, hxs, hheap⟩ := sp.find hF target
  rw [sp.holds.find hxs T] at hfind
  obtain ⟨⟨b, e⟩, hx, hln⟩ := Option.map_eq_some_iff.1 hfind
  have hmem : (b, e) ∈ css.flatten :=
    List.mem_flatten.2 ⟨xs, List.mem_of_getElem? hxs, List.mem_of_find?_eq_some hx⟩
  obtain ⟨q, hcell⟩ := sp.holds.chains.cell hmem
  exact ⟨xs, b, e, q, hxs, hx, hln, by simp [hheap, hx], hmem, hcell⟩

theorem Level.Spells.notFound (sp : level.Spells h a F css G) (hF : h.Allocated F)
    (hfind : treeNodeFind (level.toTree T css) target = none) :
    h.nodeFind a target = some none := by
  obtain ⟨xs, hxs, hheap⟩ := sp.find hF target
  rw [sp.holds.find hxs T, Option.map_eq_none_iff] at hfind
  simp [hheap, hfind]

/-- A record goes to the node that was found. -/
theorem Level.Spells.write (sp : level.Spells h a F css G) (hF : h.Allocated F)
    (child : TreesBelow h css T G)
    (hxs : css[level.container.index rev]? = some xs)
    (hx : xs.find? (fun x => labelMatches rev x.2) = some (b, e)) (hb : (b, e) ∈ css.flatten)
    (index : ElementIndex) (rr : ResourceRecord) :
    ∃ h', h.modify b (NodeElement.write rev index rr) = some h' ∧ h.Within F h' ∧
      IsTree h' a (treeNodeModify (level.toTree T css) rev (NodeElement.write rev index rr))
        (h.grow h' F) := by
  obtain ⟨h', hmod, hw, ht⟩ :=
    sp.modify (g := NodeElement.write rev index rr) hF child hb fun _ => rfl
  have htree := sp.holds.modify (g := NodeElement.write rev index rr)
    (f := NodeElement.write rev index rr) T T hxs hx (fun _ _ _ => rfl) rfl
  exact ⟨h', hmod, hw.mono sp.own, htree ▸ ht.mono (h.subset_grow h' F)⟩

/-- The level below the node that was found has changed. -/
theorem Level.Spells.descend (sp : level.Spells h a F css G) (hF : h.Allocated F)
    (child : TreesBelow h css T G)
    (hxs : css[level.container.index rev]? = some xs)
    (hx : xs.find? (fun x => labelMatches rev x.2) = some (b, e)) (hb : (b, e) ∈ css.flatten)
    (hc : e.child = some c) (hw : h.Within (G c) h') {t : TreeNode}
    (ht : IsTree h' c t (h.grow h' (G c))) :
    h.Within F h' ∧ IsTree h' a (treeNodeModify (level.toTree T css) rev
      fun e => { e with child := some t }) (h.grow h' F) := by
  obtain ⟨sp', child'⟩ := sp.grow hF hb hc child hw ht
  have hsame : ∀ x ∈ css.flatten, x.1 ≠ b →
      asElement (Function.update T c t) x = asElement T x := by
    intro x hx' hne
    apply asElement_of_child
    intro d hd
    exact Function.update_of_ne (sp.child_ne child hb hc hx' hne hd) _ _
  have hnew : asElement (Function.update T c t) (b, id e) =
      { asElement T (b, e) with child := some t } := by
    simp [asElement, NodeElement.mapChild, hc]
  have htree := sp.holds.modify (g := id) (f := fun e => { e with child := some t }) T _ hxs hx
    hsame hnew
  rw [setAt_id, List.map_id_fun, List.map_id] at htree
  exact ⟨hw.mono (sp.below _ hb c hc).1, htree ▸ .mk _ _ sp' child'⟩

/-- The node that was found gets a level below it, and this level changes. -/
theorem Level.Spells.descendNew (sp : level.Spells h a F css G) (hF : h.Allocated F)
    (child : TreesBelow h css T G)
    (hxs : css[level.container.index rev]? = some xs)
    (hx : xs.find? (fun x => labelMatches rev x.2) = some (b, e)) (hb : (b, e) ∈ css.flatten) :
    ∃ h₁, h.createTreeNode.modify b (fun e => { e with child := some h.brk }) = some h₁ ∧
      h₁.Allocated {h.brk} ∧ IsTree h₁ h.brk createTreeNode {h.brk} ∧
      ∀ h' t, h₁.Within {h.brk} h' → IsTree h' h.brk t (h₁.grow h' {h.brk}) →
        h.Within F h' ∧ IsTree h' a (treeNodeModify (level.toTree T css) rev
          fun e => { e with child := some t }) (h.grow h' F) := by
  obtain ⟨h₁, hmod, hw₁, sp₁, child₁⟩ := sp.newChild hF hb child
  have hF₁ : h₁.Allocated (h.grow h₁ F) := hF.grow hw₁.brk
  have hb₁ : (b, { e with child := some h.brk }) ∈
      (css.map (List.map (setAt b fun e => { e with child := some h.brk }))).flatten :=
    mem_map_setAt.2 ⟨(b, e), hb, if_pos rfl⟩
  have hnew := child₁ _ hb₁ h.brk rfl
  have hbelow := (sp₁.below _ hb₁ h.brk rfl).1
  simp only [Function.update_self] at hnew hbelow
  refine ⟨h₁, hmod, fun d hd => hF₁ d (hbelow hd), hnew, fun h' t hw' ht' => ⟨?_, ?_⟩⟩
  · exact (hw₁.mono sp.own).trans (hw'.mono hbelow)
  · have hw₂ : h₁.Within (Function.update G h.brk {h.brk} h.brk) h' := by
      simpa only [Function.update_self] using hw'
    have ht₂ : IsTree h' h.brk t (h₁.grow h' (Function.update G h.brk {h.brk} h.brk)) := by
      simpa only [Function.update_self] using ht'
    have hgrow := sp₁.grow hF₁ hb₁ rfl child₁ hw₂ ht₂
    simp only [Function.update_self] at hgrow
    obtain ⟨sp', child'⟩ := hgrow
    have hsame : ∀ x ∈ css.flatten, x.1 ≠ b →
        asElement (Function.update (Function.update T h.brk createTreeNode) h.brk t) x =
          asElement T x := by
      intro x hx' _
      apply asElement_of_child
      intro d hd
      have hdF := (sp.below x hx' d hd).1 (child x hx' d hd).mem
      simp only [Function.update_of_ne (hF d hdF).ne]
    have htree := sp.holds.modify (g := fun e => { e with child := some h.brk })
      (f := fun e => { e with child := some t }) T _ hxs hx hsame
      (by simp [asElement, NodeElement.mapChild])
    exact htree ▸ (IsTree.mk _ _ sp' child').mono (hw₁.grow_subset hw'.brk)

/-- A node with a record is put into a level. -/
theorem Level.Spells.create (sp : level.Spells h a F css G) (hF : h.Allocated F)
    (child : TreesBelow h css T G)
    (hashFun : List UInt8 → UInt32) (rev : List UInt8) (index : ElementIndex)
    (rr : ResourceRecord) :
    ∃ h₁ h', h.nodeInsert a rev hashFun = some (h₁, h.brk) ∧
      h₁.modify h.brk (fun e => e.store index rr) = some h' ∧ h.Within F h' ∧
      IsTree h' a (treeNodeInsert (level.toTree T css) rev ((newElement rev).store index rr)
        hashFun) (h.grow h' F) := by
  obtain ⟨h₁, level', css', hinsert, hw₁, sp₁, hext, child₁⟩ := sp.nodeInsert hF child hashFun rev
  have hnew : (h.brk, linkedElement rev) ∈ css'.flatten :=
    hext.perm.symm.subset List.mem_cons_self
  obtain ⟨h', hmod, hw', ht⟩ :=
    sp₁.modify (g := fun e => e.store index rr) (hF.grow hw₁.brk) child₁ hnew fun _ => rfl
  have htree := hext.toTree T (fun e => e.store index rr) rfl
  refine ⟨h₁, h', hinsert, hmod, (hw₁.mono sp.own).trans (hw'.mono sp₁.own), ?_⟩
  refine htree ▸ ht.mono ((h₁.subset_grow h' _).trans (hw₁.grow_subset hw'.brk))

/-- A node with an empty level below it is put into a level. -/
theorem Level.Spells.pave (sp : level.Spells h a F css G) (hF : h.Allocated F)
    (child : TreesBelow h css T G)
    (hashFun : List UInt8 → UInt32) (rev : List UInt8) :
    ∃ h₁ h', h.nodeInsert a rev hashFun = some (h₁, h.brk) ∧
      h₁.createTreeNode.modify h.brk (fun e => { e with child := some h₁.brk }) = some h' ∧
      h.Within F h' ∧ IsTree h' a (treeNodeInsert (level.toTree T css) rev
        { newElement rev with child := some createTreeNode } hashFun) (h.grow h' F) := by
  obtain ⟨h₁, level', css', hinsert, hw₁, sp₁, hext, child₁⟩ := sp.nodeInsert hF child hashFun rev
  have hF₁ : h₁.Allocated (h.grow h₁ F) := hF.grow hw₁.brk
  have hnew : (h.brk, linkedElement rev) ∈ css'.flatten :=
    hext.perm.symm.subset List.mem_cons_self
  obtain ⟨h', hmod, hw', sp', child'⟩ := sp₁.newChild hF₁ hnew child₁
  have hold : ∀ x ∈ css.flatten, ∀ c, x.2.child = some c →
      Function.update T h₁.brk createTreeNode c = T c := by
    intro x hx c hc
    have hcF := (sp.below x hx c hc).1 (child x hx c hc).mem
    exact Function.update_of_ne ((hF c hcF).trans_le hw₁.brk).ne _ _
  have htree := hext.toTree (Function.update T h₁.brk createTreeNode)
    (fun e => { e with child := some h₁.brk }) rfl
  rw [Level.toTree_congr hold] at htree
  have helem : asElement (Function.update T h₁.brk createTreeNode)
      (h.brk, { linkedElement rev with child := some h₁.brk }) =
        { newElement rev with child := some createTreeNode } := by
    simp [asElement, NodeElement.mapChild, linkedElement, newElement]
  rw [helem] at htree
  refine ⟨h₁, h', hinsert, hmod, (hw₁.mono sp.own).trans (hw'.mono sp₁.own), ?_⟩
  exact htree ▸ (IsTree.mk _ _ sp' child').mono (hw₁.grow_subset hw'.brk)

/-- The loop of `tree_insert` on the heap ends where `treeInsertLoop` ends, with the same tree. It
only writes to objects of the tree and to new ones. -/
theorem TreeHeap.insertLoop_isTree (hr : IsTree h a tn F) (hF : h.Allocated F)
    (hloop : treeInsertLoop hashFun index rr fuel tn rev = some (tn', ret)) :
    ∃ h', TreeHeap.insertLoop hashFun index rr fuel h a rev = some (h', ret) ∧ h.Within F h' ∧
      IsTree h' a tn' (h.grow h' F) := by
  induction fuel generalizing h a tn tn' F rev ret with
  | zero => cases hloop
  | succ fuel ih =>
    have hsame : IsTree h a tn (h.grow h F) := hr.mono (h.subset_grow h F)
    cases hr with
    | @mk _ _ level css T G sp child =>
      cases insertRound_of_loop hloop with
      | ended head => exact ⟨h, by simp only [insertLoop, if_pos head], .refl F h, hsame⟩
      | @refused ln head find last full =>
        obtain ⟨xs, b, e, q, hxs, hx, rfl, hheap, hb, hcell⟩ := sp.found hF find
        refine ⟨h, ?_, .refl F h, hsame⟩
        simp only [insertLoop, if_neg head, hheap, Option.bind_eq_bind, Option.bind_some, hcell,
          if_pos last]
        rcases full with hfull | hdup
        · exact if_pos hfull
        · split
          · rfl
          · exact if_pos hdup
      | @stored ln head find last room fresh =>
        obtain ⟨xs, b, e, q, hxs, hx, rfl, hheap, hb, hcell⟩ := sp.found hF find
        have hroom : ¬e.dataCnt index ≥ rrCntMax := not_le.2 room
        have hfresh : ¬(e.records index).any (sameRdata rr) = true := Bool.not_eq_true _ ▸ fresh
        obtain ⟨h', hmod, hw, ht⟩ := sp.write hF child hxs hx hb index rr
        refine ⟨h', ?_, hw, ht⟩
        simp only [insertLoop, if_neg head, hheap, Option.bind_eq_bind, Option.bind_some, hcell,
          if_pos last, if_neg hroom, if_neg hfresh, hmod]
      | @descended ln child' ret head find more below =>
        obtain ⟨xs, b, e, q, hxs, hx, rfl, hheap, hb, hcell⟩ := sp.found hF find
        cases hc : e.child with
        | some c =>
          have hT : (asElement T (b, e)).child = some (T c) := by
            simp [asElement, NodeElement.mapChild, hc]
          rw [hT] at below
          obtain ⟨hG, -⟩ := sp.below _ hb c hc
          obtain ⟨h', hrun, hw, ht⟩ := ih (child _ hb c hc) (fun b hb => hF b (hG hb)) below
          obtain ⟨hw', ht'⟩ := sp.descend hF child hxs hx hb hc hw ht
          refine ⟨h', ?_, hw', ht'⟩
          simp only [insertLoop, if_neg head, hheap, Option.bind_eq_bind, Option.bind_some, hcell,
            if_neg more, hc, hrun]
        | none =>
          have hT : (asElement T (b, e)).child = none := by
            simp [asElement, NodeElement.mapChild, hc]
          rw [hT] at below
          obtain ⟨h₁, hmod, hF₁, ht₁, hdescend⟩ := sp.descendNew hF child hxs hx hb
          obtain ⟨h', hrun, hw, ht⟩ := ih ht₁ hF₁ below
          obtain ⟨hw', ht'⟩ := hdescend h' child' hw ht
          refine ⟨h', ?_, hw', ht'⟩
          simp only [insertLoop, if_neg head, hheap, Option.bind_eq_bind, Option.bind_some, hcell,
            if_neg more, hc, hmod, hrun]
      | created head find last =>
        obtain ⟨h₁, h', hinsert, hmod, hw, ht⟩ := sp.create hF child hashFun rev index rr
        refine ⟨h', ?_, hw, ht⟩
        simp only [insertLoop, if_neg head, sp.notFound hF find, Option.bind_eq_bind,
          Option.bind_some, if_pos last, hinsert, hmod]
      | paved head find more next =>
        obtain ⟨h₁, h₂, hinsert, hmod, hw, ht⟩ := sp.pave hF child hashFun rev
        obtain ⟨h', hrun, hw', ht'⟩ := ih ht (hF.grow hw.brk) next
        refine ⟨h', ?_, hw.trans hw', ht'.mono (hw.grow_subset hw'.brk)⟩
        simp only [insertLoop, if_neg head, sp.notFound hF find, Option.bind_eq_bind,
          Option.bind_some, if_neg more, hinsert, hmod, hrun]

/-- `tree_search` on the heap finds what it finds in the tree. -/
theorem IsTree.searchLoop (hr : IsTree h a tn F) (hF : h.Allocated F) (index : ElementIndex)
    (fuel : ℕ) (domain : List UInt8) :
    h.searchLoop index fuel (some a) domain =
      some (treeSearchLoop index fuel (some tn) domain) := by
  induction fuel generalizing a tn F domain with
  | zero => rfl
  | succ fuel ih =>
    cases hr with
    | @mk _ _ level css T G sp child =>
      simp only [TreeHeap.searchLoop, treeSearchLoop]
      by_cases head : domain.headD 0 = 0
      · simp only [if_pos head]
      · simp only [if_neg head]
        cases hfind : treeNodeFind (level.toTree T css) domain with
        | none => simp only [sp.notFound hF hfind, Option.bind_eq_bind, Option.bind_some]
        | some ln =>
          obtain ⟨xs, b, e, q, hxs, hx, rfl, hheap, hb, hcell⟩ := sp.found hF hfind
          simp only [hheap, hcell, Option.bind_eq_bind, Option.bind_some]
          split
          · rfl
          · cases hc : e.child with
            | none =>
              have hT : (asElement T (b, e)).child = none := by
                simp [asElement, NodeElement.mapChild, hc]
              simp only [hT]
              cases fuel <;> rfl
            | some c =>
              have hT : (asElement T (b, e)).child = some (T c) := by
                simp [asElement, NodeElement.mapChild, hc]
              obtain ⟨hG, -⟩ := sp.below _ hb c hc
              simp only [hT]
              exact ih (child _ hb c hc) (fun d hd => hF d (hG hd)) _

theorem IsTree.search {tree : BucketTree} (hr : IsTree h a tree.root F) (hF : h.Allocated F)
    (domain : List UInt8) (rrType : UInt16) :
    h.search a domain rrType = some (treeSearch tree domain rrType) := by
  unfold TreeHeap.search treeSearch
  cases elementIndex rrType with
  | none => rfl
  | some index => exact hr.searchLoop hF index _ domain

theorem IsTree.insert {tree tree' : BucketTree} (hr : IsTree h a tree.root F) (hF : h.Allocated F)
    (hins : treeInsert fuel tree rev rr = some (tree', ret)) :
    ∃ h', h.insert tree.hashFun a fuel rev rr = some (h', ret) ∧ h.Within F h' ∧
      IsTree h' a tree'.root (h.grow h' F) := by
  unfold treeInsert at hins
  unfold TreeHeap.insert
  cases hindex : elementIndex rr.type with
  | none =>
    simp only [hindex] at hins
    cases hins
    exact ⟨h, rfl, .refl F h, hr.mono (h.subset_grow h F)⟩
  | some index =>
    simp only [hindex] at hins
    obtain ⟨⟨root, ret'⟩, hloop, hins⟩ := Option.bind_eq_some_iff.1 hins
    cases hins
    exact TreeHeap.insertLoop_isTree hr hF hloop

end Trees

/-! Runs. -/

/-- The heap after `tree_init`, whose root is at address 0. -/
def TreeHeap.init : TreeHeap := TreeHeap.createTreeNode ⟨fun _ => none, fun _ => none, 0⟩

/-- One insertion after another, each with the labels of a reversed name and a record, and what they
return. -/
def insertReturns {σ : Type} (insert : σ → List UInt8 → ResourceRecord → Option (σ × ℤ)) :
    σ → List (List (List UInt8) × ResourceRecord) → Option (σ × List ℤ)
  | s, [] => some (s, [])
  | s, (ls, rr) :: calls => do
    let (s, ret) ← insert s (labelsWire ls ++ [0]) rr
    let (s, rets) ← insertReturns insert s calls
    some (s, ret :: rets)

section Runs

variable {h : TreeHeap} {a : Addr} {F : Set Addr} {tree tree' : BucketTree} {fuel : ℕ}
  {ls : List (List UInt8)} {calls : List (List (List UInt8) × ResourceRecord)} {rets : List ℤ}

theorem isTree_init : IsTree .init 0 createTreeNode {0} :=
  isTree_createTreeNode (by simp [TreeHeap.init, TreeHeap.createTreeNode])

theorem treeInsert_hashFun {rev : List UInt8} {rr : ResourceRecord} {ret : ℤ}
    (h : treeInsert fuel tree rev rr = some (tree', ret)) : tree'.hashFun = tree.hashFun := by
  unfold treeInsert at h
  cases hindex : elementIndex rr.type with
  | none =>
    simp only [hindex] at h
    cases h
    rfl
  | some index =>
    simp only [hindex] at h
    obtain ⟨r, -, h⟩ := Option.bind_eq_some_iff.1 h
    cases h
    rfl

/-- A run on the heap follows the run on the tree, whatever is inserted, and returns the same. -/
theorem IsTree.insertReturns (hr : IsTree h a tree.root F) (hF : h.Allocated F)
    (hrun : insertReturns (treeInsert fuel) tree calls = some (tree', rets)) :
    ∃ h', BakaDns.insertReturns (TreeHeap.insert tree.hashFun a fuel) h calls = some (h', rets) ∧
      h.Within F h' ∧ IsTree h' a tree'.root (h.grow h' F) := by
  induction calls generalizing h tree F rets with
  | nil =>
    cases hrun
    exact ⟨h, rfl, .refl F h, hr.mono (h.subset_grow h F)⟩
  | cons call calls ih =>
    obtain ⟨⟨tree₁, ret⟩, hins, hrun⟩ := Option.bind_eq_some_iff.1 hrun
    obtain ⟨⟨tree₂, rest⟩, hrest, hrun⟩ := Option.bind_eq_some_iff.1 hrun
    cases hrun
    obtain ⟨h₁, hins₁, hw₁, hr₁⟩ := hr.insert hF hins
    obtain ⟨h', hrun', hw', hr'⟩ := ih hr₁ (hF.grow hw₁.brk) hrest
    refine ⟨h', ?_, hw₁.trans hw', hr'.mono (hw₁.grow_subset hw'.brk)⟩
    rw [treeInsert_hashFun hins] at hrun'
    simp only [BakaDns.insertReturns, hins₁, Option.bind_eq_bind, Option.bind_some, hrun']

theorem exists_treeInsert (h : TreeReachable tree) (hls : ∀ l ∈ ls, IsNodeLabel l)
    (rr : ResourceRecord) (hfuel : 2 * ls.length < fuel) :
    ∃ r, treeInsert fuel tree (labelsWire ls ++ [0]) rr = some r := by
  obtain ⟨hhash, hok⟩ := h.ok
  unfold treeInsert
  cases elementIndex rr.type with
  | none => exact ⟨_, rfl⟩
  | some index =>
    by_cases hne : ls = []
    · subst hne
      obtain ⟨n, rfl⟩ : ∃ n, fuel = n + 1 := ⟨fuel - 1, by omega⟩
      exact ⟨_, rfl⟩
    · obtain ⟨root, ret, hloop, -⟩ := @treeInsertLoop_spec _ _ index rr _ hok hls hne hfuel.le
      simp only [hhash, hloop]
      exact ⟨_, rfl⟩

theorem exists_insertReturns (h : TreeReachable tree)
    (hcalls : ∀ call ∈ calls, (∀ l ∈ call.1, IsNodeLabel l) ∧ 2 * call.1.length < fuel) :
    ∃ tree' rets, insertReturns (treeInsert fuel) tree calls = some (tree', rets) ∧
      TreeReachable tree' := by
  induction calls generalizing tree with
  | nil => exact ⟨tree, [], rfl, h⟩
  | cons call calls ih =>
    obtain ⟨hls, hfuel⟩ := hcalls call List.mem_cons_self
    obtain ⟨⟨tree₁, ret⟩, hins⟩ := exists_treeInsert h hls call.2 hfuel
    obtain ⟨tree', rets, hrun, hreach⟩ :=
      ih (h.insert hls hins) fun c hc => hcalls c (List.mem_cons_of_mem call hc)
    refine ⟨tree', ret :: rets, ?_, hreach⟩
    simp only [insertReturns, hins, Option.bind_eq_bind, Option.bind_some, hrun]

/-- Whatever records are inserted under well-formed names: `tree_insert` follows no pointer that
does not lead to an object and ends, returns what it returns in the model of values, and afterwards
the heap holds a tree that keeps the representation invariant and in which `tree_search` finds what
it finds in the model's. -/
theorem treeHeap_run
    (hcalls : ∀ call ∈ calls, (∀ l ∈ call.1, IsNodeLabel l) ∧ 2 * call.1.length < fuel) :
    ∃ h tree rets F,
      insertReturns (TreeHeap.insert rrHash 0 fuel) .init calls = some (h, rets) ∧
      insertReturns (treeInsert fuel) (treeInit rrHash) calls = some (tree, rets) ∧
      TreeReachable tree ∧ IsTree h 0 tree.root F ∧ h.Allocated F ∧
      ∀ domain rrType, h.search 0 domain rrType = some (treeSearch tree domain rrType) := by
  obtain ⟨tree, rets, hrun, hreach⟩ := exists_insertReturns .init hcalls
  have hF : TreeHeap.init.Allocated {0} := by
    rintro b rfl
    exact Nat.one_pos
  have hroot : IsTree .init 0 (treeInit rrHash).root {0} := isTree_init
  obtain ⟨h, hrun', hw, hr⟩ := hroot.insertReturns hF hrun
  have hF' := hF.grow hw.brk
  exact ⟨h, tree, rets, _, hrun', hrun, hreach, hr, hF', hr.search hF'⟩

/-- Thirty-three siblings, for which the heap's level becomes a bucket, and the first one again,
which is refused. -/
theorem treeHeap_run_siblings :
    ∃ h tree F,
      insertReturns (TreeHeap.insert rrHash 0 3) .init (siblingCalls 33 ++ siblingCalls 1) =
        some (h, List.replicate 33 1 ++ [-1]) ∧
      insertReturns (treeInsert 3) (treeInit rrHash) (siblingCalls 33 ++ siblingCalls 1) =
        some (tree, List.replicate 33 1 ++ [-1]) ∧
      TreeReachable tree ∧ IsTree h 0 tree.root F ∧ h.Allocated F ∧
      ∀ domain rrType, h.search 0 domain rrType = some (treeSearch tree domain rrType) := by
  have hrets : (insertReturns (treeInsert 3) (treeInit rrHash)
      (siblingCalls 33 ++ siblingCalls 1)).map (fun r => r.2) =
        some (List.replicate 33 1 ++ [-1]) := by decide +kernel
  have hcalls : ∀ call ∈ siblingCalls 33 ++ siblingCalls 1,
      (∀ l ∈ call.1, IsNodeLabel l) ∧ 2 * call.1.length < 3 := by
    intro call hcall
    obtain ⟨n, hn, hmem⟩ : ∃ n, n ≤ 100 ∧ call ∈ siblingCalls n := by
      rcases List.mem_append.1 hcall with hmem | hmem
      · exact ⟨33, by decide, hmem⟩
      · exact ⟨1, by decide, hmem⟩
    refine ⟨siblingCalls_labels hn call hmem, ?_⟩
    obtain ⟨i, -, rfl⟩ := List.mem_map.1 hmem
    exact Nat.lt_succ_self 2
  obtain ⟨h, tree, rets, F, hheap, htree, hrest⟩ := treeHeap_run hcalls
  obtain rfl : rets = List.replicate 33 1 ++ [-1] := by
    rw [htree] at hrets
    exact Option.some.inj hrets
  exact ⟨h, tree, F, hheap, htree, hrest⟩

end Runs

end BakaDns
