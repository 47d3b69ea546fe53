import BakaDns.Lib.ChainHeap
import BakaDns.TreesRefinement

/-!
# The tree on the heap

`trees.c` with its pointers: levels and nodes at addresses, chains through `next`, and the switch to
a bucket, which rewrites every `next` while it walks along them. On each level the operations do to
the chains what the functions on `TreeNode` do to their lists.
-/

namespace BakaDns
open CBytes ChainHeap

/-- `type` and `container` of a `struct tree_node`. -/
inductive Container
  | linkedList (head : Option Addr)
  | bucket (heads : List (Option Addr))

/-- `struct tree_node`. -/
structure Level where
  size : UInt32
  container : Container

/-- The heap with the nodes and levels of a tree. `brk` is the next address that `malloc` returns.
`none` is a read or write through a pointer that does not lead to an object. -/
structure TreeHeap where
  nodes : Heap (NodeElement Addr)
  levels : Addr → Option Level
  brk : Addr

section Operations

def TreeHeap.createTreeNode (h : TreeHeap) : TreeHeap :=
  { h with
    levels := Function.update h.levels h.brk (some ⟨0, .linkedList none⟩)
    brk := h.brk + 1 }

/-- `create_linked_node` and the copy of its label. -/
def linkedElement (revDomain : List UInt8) : NodeElement Addr where
  domain := copyLabel (List.replicate subdomainMax 0) revDomain
  data := fun _ => []
  dataCnt := fun _ => 0
  child := none

/-- A write to the `element` of a node. -/
def TreeHeap.modify (h : TreeHeap) (ln : Addr) (f : NodeElement Addr → NodeElement Addr) :
    Option TreeHeap :=
  (setVal h.nodes ln f).map fun nodes => { h with nodes := nodes }

def labelMatches {τ : Type} (target : List UInt8) (e : NodeElement τ) : Bool :=
  strncmpEq target e.domain (labelSize target)

def TreeHeap.llFind (h : TreeHeap) (node : Option Addr) (target : List UInt8) :
    Option (Option Addr) := walk h.nodes (labelMatches target) h.brk node

def TreeHeap.hashLlFind (h : TreeHeap) (bucket : List (Option Addr)) (target : List UInt8) :
    Option (Option Addr) := do
  let ln ← bucket[(rrHash target).toNat % hashBucketSize]?
  h.llFind ln target

def TreeHeap.nodeFind (h : TreeHeap) (tn : Addr) (target : List UInt8) :
    Option (Option Addr) := do
  let level ← h.levels tn
  match level.container with
  | .linkedList head => h.llFind head target
  | .bucket heads => h.hashLlFind heads target

/-- The chain of a node in a bucket. -/
def chainIndex (hashFun : List UInt8 → UInt32) (e : NodeElement Addr) : ℕ :=
  (hashFun e.domain).toNat % hashBucketSize

/-- The containers of `tree_node_insert`: the nodes and the container with the new node, which
becomes a bucket when the level has grown to `size` nodes. -/
def insertContainer (hashFun : List UInt8 → UInt32) (revDomain : List UInt8) (newNode : Addr)
    (size : UInt32) (nodes : Heap (NodeElement Addr)) :
    Container → Option (Heap (NodeElement Addr) × Container)
  | .bucket heads => do
    let index := (hashFun revDomain).toNat % hashBucketSize
    let next ← heads[index]?
    some (Function.update nodes newNode (some ⟨linkedElement revDomain, next⟩),
      .bucket (heads.set index (some newNode)))
  | .linkedList head =>
    let nodes := Function.update nodes newNode (some ⟨linkedElement revDomain, head⟩)
    if size.toNat > hashSwitchThreshold then do
      let (nodes, heads) ← distribute (chainIndex hashFun) (newNode + 1) nodes
        (List.replicate hashBucketSize none) (some newNode)
      some (nodes, .bucket heads)
    else some (nodes, .linkedList (some newNode))

/-- `tree_node_insert`: the heap and the new node. -/
def TreeHeap.nodeInsert (h : TreeHeap) (tn : Addr) (revDomain : List UInt8)
    (hashFun : List UInt8 → UInt32) : Option (TreeHeap × Addr) := do
  let level ← h.levels tn
  let (nodes, container) ←
    insertContainer hashFun revDomain h.brk (level.size + 1) h.nodes level.container
  let levels := Function.update h.levels tn (some ⟨level.size + 1, container⟩)
  some (⟨nodes, levels, h.brk + 1⟩, h.brk)

/-- The record and the copy of the label that `tree_insert` writes to a node it has found. -/
def NodeElement.write {τ : Type} (revDomain : List UInt8) (index : ElementIndex)
    (rr : ResourceRecord) (e : NodeElement τ) : NodeElement τ :=
  { e.store index rr with domain := copyLabel e.domain revDomain }

/-- The loop of `tree_insert` from the level `tn` on. -/
def TreeHeap.insertLoop (hashFun : List UInt8 → UInt32) (index : ElementIndex)
    (rr : ResourceRecord) : ℕ → TreeHeap → Addr → List UInt8 → Option (TreeHeap × ℤ)
  | 0, _, _, _ => none
  | fuel + 1, h, tn, revDomain =>
    let rest := revDomain.drop (labelSize revDomain)
    let next := rest.headD 0
    if revDomain.headD 0 = 0 then some (h, 1)
    else do
      match ← h.nodeFind tn revDomain with
      | some ln =>
        let cell ← h.nodes ln
        if next = 0 then
          if cell.val.dataCnt index ≥ rrCntMax then some (h, -1)
          else if (cell.val.records index).any (sameRdata rr) then some (h, -1)
          else
            let h ← h.modify ln (NodeElement.write revDomain index rr)
            some (h, 1)
        else
          match cell.val.child with
          | some child => insertLoop hashFun index rr fuel h child rest
          | none =>
            let child := h.brk
            let h ← h.createTreeNode.modify ln fun e => { e with child := some child }
            insertLoop hashFun index rr fuel h child rest
      | none =>
        let (h, newNode) ← h.nodeInsert tn revDomain hashFun
        if next = 0 then
          let h ← h.modify newNode fun e => e.store index rr
          some (h, 1)
        else
          let child := h.brk
          let h ← h.createTreeNode.modify newNode fun e => { e with child := some child }
          insertLoop hashFun index rr fuel h tn revDomain

/-- `tree_insert` into the tree with a root at an address. -/
def TreeHeap.insert (hashFun : List UInt8 → UInt32) (root : Addr) (fuel : ℕ) (h : TreeHeap)
    (revDomain : List UInt8) (rr : ResourceRecord) : Option (TreeHeap × ℤ) :=
  match elementIndex rr.type with
  | none => some (h, -1)
  | some index => h.insertLoop hashFun index rr fuel root revDomain

/-- The loop of `tree_search`. -/
def TreeHeap.searchLoop (h : TreeHeap) (index : ElementIndex) :
    ℕ → Option Addr → List UInt8 → Option (List ResourceRecord)
  | 0, _, _ => some []
  | _ + 1, none, _ => some []
  | fuel + 1, some tn, domain =>
    let rest := domain.drop (labelSize domain)
    if domain.headD 0 = 0 then some []
    else do
      match ← h.nodeFind tn domain with
      | none => some []
      | some ln =>
        let cell ← h.nodes ln
        if rest.headD 0 = 0 then some ((cell.val.records index).map rrCopy)
        else h.searchLoop index fuel cell.val.child rest

def TreeHeap.search (h : TreeHeap) (root : Addr) (domain : List UInt8) (rrType : UInt16) :
    Option (List ResourceRecord) :=
  match elementIndex rrType with
  | none => some []
  | some index => h.searchLoop index domain.length (some root) domain

end Operations

/-! One level: the chains of its container, and the tree that they make with the trees below. -/

section Levels

variable {level : Level} {nodes : Heap (NodeElement Addr)} {a b : Addr} {e : NodeElement Addr}
  {xs : List (Addr × NodeElement Addr)} {css : List (List (Addr × NodeElement Addr))}
  {T T' : Addr → TreeNode} {target rev : List UInt8} {f : Element → Element}
  {g : NodeElement Addr → NodeElement Addr}

def NodeElement.mapChild {σ τ : Type} (f : σ → τ) (e : NodeElement σ) : NodeElement τ :=
  ⟨e.domain, e.data, e.dataCnt, e.child.map f⟩

/-- A node with the tree below it, where `T` says which tree an address stands for. -/
def asElement (T : Addr → TreeNode) (x : Addr × NodeElement Addr) : Element := x.2.mapChild T

def Container.heads : Container → List (Option Addr)
  | .linkedList head => [head]
  | .bucket heads => heads

/-- The chain that a lookup walks along. -/
def Container.index (target : List UInt8) : Container → ℕ
  | .linkedList _ => 0
  | .bucket _ => (rrHash target).toNat % hashBucketSize

def Level.toTree (level : Level) (T : Addr → TreeNode)
    (css : List (List (Addr × NodeElement Addr))) : TreeNode :=
  match level.container with
  | .linkedList _ => .linkedList level.size (css.flatten.map (asElement T))
  | .bucket _ => .hashBucket level.size (css.map (List.map (asElement T)))

/-- The chains of a level. -/
structure Level.Holds (level : Level) (nodes : Heap (NodeElement Addr))
    (css : List (List (Addr × NodeElement Addr))) : Prop where
  chains : Chains nodes level.container.heads css
  length : ∀ heads, level.container = .bucket heads → heads.length = hashBucketSize
  distinct : (addrs css.flatten).Nodup

theorem Level.Holds.frame (hl : level.Holds nodes css) {nodes' : Heap (NodeElement Addr)}
    (hf : ∀ b ∈ addrs css.flatten, nodes' b = nodes b) : level.Holds nodes' css :=
  ⟨hl.chains.frame hf, hl.length, hl.distinct⟩

/-- The chain that a lookup walks along exists. -/
theorem Level.Holds.chain (hl : level.Holds nodes css) (target : List UInt8) :
    ∃ head xs, level.container.heads[level.container.index target]? = some head ∧
      css[level.container.index target]? = some xs ∧ Chain nodes head xs := by
  have hlt : level.container.index target < level.container.heads.length := by
    cases hc : level.container with
    | linkedList head => simp [Container.index, Container.heads]
    | bucket heads =>
      simp only [Container.index, Container.heads, hl.length heads hc]
      exact Nat.mod_lt _ (by decide)
  have hlt' : level.container.index target < css.length := hl.chains.length ▸ hlt
  have hhead := List.getElem?_eq_getElem hlt
  have hxs := List.getElem?_eq_getElem hlt'
  exact ⟨_, _, hhead, hxs, hl.chains.chain _ _ _ hhead hxs⟩

theorem Level.Holds.flatten_eq (hl : level.Holds nodes css) {head : Option Addr}
    (hc : level.container = .linkedList head) : css = [css.flatten] := by
  have hlength := hl.chains.length
  simp only [hc, Container.heads, List.length_singleton] at hlength
  obtain ⟨xs, rfl⟩ := List.length_eq_one_iff.1 hlength.symm
  simp

theorem asElement_matches (T : Addr → TreeNode) (target : List UInt8)
    (x : Addr × NodeElement Addr) :
    nodeMatches target (asElement T x) = labelMatches target x.2 := rfl

theorem Level.Holds.find (hl : level.Holds nodes css)
    (hxs : css[level.container.index target]? = some xs) (T : Addr → TreeNode) :
    treeNodeFind (level.toTree T css) target =
      (xs.find? fun x => labelMatches target x.2).map (asElement T) := by
  have hmap : (xs.map (asElement T)).find? (nodeMatches target) =
      (xs.find? fun x => labelMatches target x.2).map (asElement T) := by
    simp only [List.find?_map, Function.comp_def, asElement_matches]
  cases hc : level.container with
  | linkedList head =>
    have hcss := hl.flatten_eq hc
    rw [hc, Container.index, hcss] at hxs
    cases hxs
    simpa only [Level.toTree, hc, treeNodeFind] using hmap
  | bucket heads =>
    simp only [hc, Container.index] at hxs
    simpa only [Level.toTree, hc, treeNodeFind, List.getD_eq_getElem?_getD, List.getElem?_map, hxs,
      Option.map_some, Option.getD_some] using hmap

/-- A write through the pointer to the first node that matches, on the two sides. -/
theorem modifyFirst_map {β : Type} {P : β → Bool} {p : NodeElement Addr → Bool}
    {F F' : Addr × NodeElement Addr → β} {f : β → β} (hn : (addrs xs).Nodup)
    (hfind : xs.find? (fun x => p x.2) = some (b, e)) (hp : ∀ x, P (F x) = p x.2)
    (hsame : ∀ x ∈ xs, x.1 ≠ b → F' x = F x) (hnew : F' (b, g e) = f (F (b, e))) :
    modifyFirst P f (xs.map F) = (xs.map (setAt b g)).map F' := by
  induction xs with
  | nil => cases hfind
  | cons x xs ih =>
    obtain ⟨hx, hn⟩ := List.nodup_cons.1 hn
    simp only [List.find?_cons] at hfind
    cases hpx : p x.2 with
    | true =>
      simp only [hpx, Option.some.injEq] at hfind
      subst hfind
      have hrest : xs.map F' = xs.map F := by
        apply List.map_congr_left
        intro y hy
        apply hsame y (List.mem_cons_of_mem _ hy)
        rintro rfl
        exact hx (mem_addrs.2 ⟨y.2, hy⟩)
      simp only [List.map_cons, modifyFirst, hp, hpx, if_true, map_setAt_of_notMem hx, hrest]
      simp [setAt, hnew]
    | false =>
      simp only [hpx] at hfind
      have hne : x.1 ≠ b := by
        rintro rfl
        exact hx (mem_addrs.2 ⟨e, List.mem_of_find?_eq_some hfind⟩)
      have htail := ih hn hfind fun y hy => hsame y (List.mem_cons_of_mem x hy)
      simp [modifyFirst, hp, hpx, htail, setAt, hne, hsame x List.mem_cons_self hne]

theorem asElement_of_child {x : Addr × NodeElement Addr}
    (hT : ∀ c, x.2.child = some c → T' c = T c) : asElement T' x = asElement T x := by
  cases hc : x.2.child with
  | none => simp [asElement, NodeElement.mapChild, hc]
  | some c => simp [asElement, NodeElement.mapChild, hc, hT c hc]

/-- Only the trees of the addresses below a level matter. -/
theorem Level.toTree_congr (hT : ∀ x ∈ css.flatten, ∀ c, x.2.child = some c → T' c = T c) :
    level.toTree T' css = level.toTree T css := by
  have helem : ∀ x ∈ css.flatten, asElement T' x = asElement T x :=
    fun x hx => asElement_of_child (hT x hx)
  have hchains : css.map (List.map (asElement T')) = css.map (List.map (asElement T)) :=
    List.map_congr_left fun xs hxs => List.map_congr_left fun x hx =>
      helem x (List.mem_flatten.2 ⟨xs, hxs, hx⟩)
  unfold Level.toTree
  cases level.container with
  | linkedList head => simp only [List.map_congr_left helem]
  | bucket heads => simp only [hchains]

/-- A write through the pointer that a lookup returned. -/
theorem Level.Holds.modify (hl : level.Holds nodes css) (T T' : Addr → TreeNode)
    (hxs : css[level.container.index target]? = some xs)
    (hfind : xs.find? (fun x => labelMatches target x.2) = some (b, e))
    (hsame : ∀ x ∈ css.flatten, x.1 ≠ b → asElement T' x = asElement T x)
    (hnew : asElement T' (b, g e) = f (asElement T (b, e))) :
    treeNodeModify (level.toTree T css) target f =
      level.toTree T' (css.map (List.map (setAt b g))) := by
  have hmem : xs ∈ css := List.mem_of_getElem? hxs
  have hb : b ∈ addrs xs := mem_addrs.2 ⟨e, List.mem_of_find?_eq_some hfind⟩
  have hin : ∀ ys ∈ css, ∀ x ∈ ys, x ∈ css.flatten :=
    fun ys hys x hx => List.mem_flatten.2 ⟨ys, hys, hx⟩
  have hn : (addrs xs).Nodup := by
    have hsub := (List.sublist_flatten_of_mem hmem).map Prod.fst
    exact hl.distinct.sublist hsub
  have hchain := modifyFirst_map hn hfind (asElement_matches T target)
    (fun x hx => hsame x (hin xs hmem x hx)) hnew
  cases hc : level.container with
  | linkedList head =>
    have hcss := hl.flatten_eq hc
    rw [hc, Container.index, hcss] at hxs
    cases hxs
    simp only [Level.toTree, hc, treeNodeModify, ← List.map_flatten, hchain]
  | bucket heads =>
    simp only [hc, Container.index] at hxs
    simp only [Level.toTree, hc, treeNodeModify, TreeNode.hashBucket.injEq, true_and]
    apply List.ext_getElem?
    intro j
    simp only [List.getElem?_modify, List.getElem?_map]
    cases hj : css[j]? with
    | none => rfl
    | some ys =>
      by_cases hij : (rrHash target).toNat % hashBucketSize = j
      · subst hij
        obtain rfl : xs = ys := Option.some.inj (hxs.symm.trans hj)
        simp only [Option.map_eq_map, Option.map_some, if_true, hchain]
      · have hbys := notMem_addrs_of_ne hl.distinct hxs hj hij hb
        have hys : ys.map (asElement T') = ys.map (asElement T) := by
          apply List.map_congr_left
          intro y hy
          apply hsame y (hin ys (List.mem_of_getElem? hj) y hy)
          rintro rfl
          exact hbys (mem_addrs.2 ⟨y.2, hy⟩)
        simp only [Option.map_eq_map, Option.map_some, if_neg hij, map_setAt_of_notMem hbys, hys]

theorem mem_map_setAt {x : Addr × NodeElement Addr} :
    x ∈ (css.map (List.map (setAt b g))).flatten ↔ ∃ y ∈ css.flatten, setAt b g y = x := by
  simp [← List.map_flatten]

theorem Level.Holds.eq_of_addr (hl : level.Holds nodes css) {x y : Addr × NodeElement Addr}
    (hx : x ∈ css.flatten) (hy : y ∈ css.flatten) (h : x.1 = y.1) : x = y :=
  List.inj_on_of_nodup_map hl.distinct hx hy h

theorem Level.Holds.setVal (hl : level.Holds nodes css) {nodes' : Heap (NodeElement Addr)}
    (hset : setVal nodes b g = some nodes') :
    level.Holds nodes' (css.map (List.map (setAt b g))) where
  chains := hl.chains.setVal hset
  length := hl.length
  distinct := by simpa [← List.map_flatten] using hl.distinct

/-- A level with a new node at the front of one of its chains. -/
structure Level.Extended (hashFun : List UInt8 → UInt32) (rev : List UInt8) (newNode : Addr)
    (level : Level) (nodes : Heap (NodeElement Addr))
    (css : List (List (Addr × NodeElement Addr))) (nodes' : Heap (NodeElement Addr))
    (level' : Level) (css' : List (List (Addr × NodeElement Addr))) : Prop where
  holds : level'.Holds nodes' css'
  perm : css'.flatten.Perm ((newNode, linkedElement rev) :: css.flatten)
  frame : ∀ b, b ≠ newNode → b ∉ addrs css.flatten → nodes' b = nodes b
  toTree : ∀ T g, (g (linkedElement rev)).domain = (linkedElement rev).domain →
    treeNodeInsert (level.toTree T css) rev (asElement T (newNode, g (linkedElement rev))) hashFun =
      level'.toTree T (css'.map (List.map (setAt newNode g)))

variable {hashFun : List UInt8 → UInt32} {newNode : Addr}

theorem Level.Holds.extended_distinct (hl : level.Holds nodes css)
    (hfresh : newNode ∉ addrs css.flatten) {css' : List (List (Addr × NodeElement Addr))}
    (hperm : css'.flatten.Perm ((newNode, linkedElement rev) :: css.flatten)) :
    (addrs css'.flatten).Nodup :=
  (hperm.map Prod.fst).nodup_iff.2 (List.nodup_cons.2 ⟨hfresh, hl.distinct⟩)

theorem Level.Holds.extended_bucket (hl : level.Holds nodes css) {heads : List (Option Addr)}
    (hc : level.container = .bucket heads) (hfresh : newNode ∉ addrs css.flatten)
    {next : Option Addr}
    (hnext : heads[(hashFun rev).toNat % hashBucketSize]? = some next) :
    level.Extended hashFun rev newNode nodes css
      (Function.update nodes newNode (some ⟨linkedElement rev, next⟩))
      ⟨level.size + 1,
        .bucket (heads.set ((hashFun rev).toNat % hashBucketSize) (some newNode))⟩
      (css.modify ((hashFun rev).toNat % hashBucketSize)
        ((newNode, linkedElement rev) :: ·)) := by
  have hchains : Chains nodes heads css := by
    have hchains := hl.chains
    rw [hc] at hchains
    exact hchains
  have hi : (hashFun rev).toNat % hashBucketSize < css.length :=
    hchains.length ▸ (List.getElem?_eq_some_iff.1 hnext).1
  have hperm := flatten_modify_cons_perm hi (newNode, linkedElement rev)
  refine ⟨⟨?_, ?_, hl.extended_distinct hfresh hperm⟩, hperm, ?_, ?_⟩
  · apply hchains.push hnext (Function.update_self _ _ _)
    intro b hb
    apply Function.update_of_ne
    rintro rfl
    exact hfresh hb
  · rintro heads' ⟨⟩
    simpa using hl.length heads hc
  · exact fun b hb _ => Function.update_of_ne hb _ _
  · intro T g hg
    have hold := @map_map_setAt_of_notMem _ _ g _ hfresh
    have hnew : setAt newNode g (newNode, linkedElement rev) = (newNode, g (linkedElement rev)) :=
      if_pos rfl
    simp only [Level.toTree, hc, treeNodeInsert, pushBucket, map_modify_cons, hold, hnew]

/-- A linked list with a new node at its front. -/
theorem Level.Holds.cons (hl : level.Holds nodes css) {head : Option Addr}
    (hc : level.container = .linkedList head) (hfresh : newNode ∉ addrs css.flatten)
    (rev : List UInt8) :
    Chain (Function.update nodes newNode (some ⟨linkedElement rev, head⟩)) (some newNode)
      ((newNode, linkedElement rev) :: css.flatten) := by
  have hchain : Chain nodes head css.flatten := by
    have hchains := hl.chains
    rw [hc, hl.flatten_eq hc] at hchains
    exact hchains.chain 0 head css.flatten rfl (by simp)
  refine ⟨rfl, head, Function.update_self _ _ _, hchain.frame ?_⟩
  intro b hb
  apply Function.update_of_ne
  rintro rfl
  exact hfresh hb

theorem Level.Holds.extended_list (hl : level.Holds nodes css) {head : Option Addr}
    (hc : level.container = .linkedList head) (hfresh : newNode ∉ addrs css.flatten)
    (hsize : ¬(level.size + 1).toNat > hashSwitchThreshold) :
    level.Extended hashFun rev newNode nodes css
      (Function.update nodes newNode (some ⟨linkedElement rev, head⟩))
      ⟨level.size + 1, .linkedList (some newNode)⟩
      [(newNode, linkedElement rev) :: css.flatten] := by
  have hperm : [(newNode, linkedElement rev) :: css.flatten].flatten.Perm
      ((newNode, linkedElement rev) :: css.flatten) := by simp
  refine ⟨⟨⟨rfl, ?_⟩, ?_, hl.extended_distinct hfresh hperm⟩, hperm, ?_, ?_⟩
  · intro i p xs hp hxs
    cases i with
    | zero =>
      cases hp
      cases hxs
      exact hl.cons hc hfresh rev
    | succ i => cases hp
  · rintro heads' ⟨⟩
  · exact fun b hb _ => Function.update_of_ne hb _ _
  · intro T g hg
    have hnew : setAt newNode g (newNode, linkedElement rev) = (newNode, g (linkedElement rev)) :=
      if_pos rfl
    simp [Level.toTree, hc, treeNodeInsert, hsize, map_setAt_of_notMem hfresh, hnew,
      -UInt32.toNat_add]

/-- The nodes of the new bucket with the trees below them. The label of a node selects its chain,
and the caller does not write to the label. -/
theorem distributed_toTree (hfresh : newNode ∉ addrs css.flatten)
    (hg : (g (linkedElement rev)).domain = (linkedElement rev).domain) (T : Addr → TreeNode) :
    ((distributed (fun x => chainIndex hashFun x.2) (List.replicate hashBucketSize [])
        ((newNode, linkedElement rev) :: css.flatten)).map (List.map (setAt newNode g))).map
          (List.map (asElement T)) =
      (asElement T (newNode, g (linkedElement rev)) :: css.flatten.map (asElement T)).foldl
        (fun bucket node => pushBucket (hashFun node.domain) bucket node)
        (List.replicate hashBucketSize []) := by
  have hold := @map_setAt_of_notMem _ _ g _ hfresh
  have hnew : setAt newNode g (newNode, linkedElement rev) = (newNode, g (linkedElement rev)) :=
    if_pos rfl
  have hlabel : ∀ x ∈ (newNode, linkedElement rev) :: css.flatten,
      (hashFun ((asElement T ∘ setAt newNode g) x).domain).toNat % hashBucketSize =
        chainIndex hashFun x.2 := by
    intro x hx
    change chainIndex hashFun (setAt newNode g x).2 = chainIndex hashFun x.2
    simp only [setAt]
    split
    · next heq =>
      rcases List.mem_cons.1 hx with rfl | hx
      · simp only [chainIndex, hg]
      · exact absurd (mem_addrs.2 ⟨x.2, heq ▸ hx⟩) hfresh
    · rfl
  have hnodes := @map_distributed _ _ _ (List.replicate hashBucketSize [])
    (fun x => chainIndex hashFun x.2) (asElement T ∘ setAt newNode g)
    (fun e => (hashFun e.domain).toNat % hashBucketSize) hlabel
  simp only [← List.map_comp_map, ← List.map_map, List.map_cons, hold] at hnodes
  simp only [List.map_replicate, Function.comp_apply, List.map_nil, hnew] at hnodes
  exact hnodes

/-- The switch: all nodes go into a new bucket, where the ones inserted last come last. -/
theorem Level.Holds.extended_switch (hl : level.Holds nodes css) {head : Option Addr}
    (hc : level.container = .linkedList head) (hfresh : newNode ∉ addrs css.flatten)
    (hbelow : css.flatten.length ≤ newNode) (hsize : (level.size + 1).toNat > hashSwitchThreshold) :
    ∃ nodes' heads css',
      distribute (chainIndex hashFun) (newNode + 1)
        (Function.update nodes newNode (some ⟨linkedElement rev, head⟩))
        (List.replicate hashBucketSize none) (some newNode) = some (nodes', heads) ∧
      level.Extended hashFun rev newNode nodes css nodes' ⟨level.size + 1, .bucket heads⟩ css' := by
  have hempty : (List.replicate hashBucketSize ([] : List (Addr × NodeElement Addr))).flatten =
      [] := by simp
  have hindex : ∀ x ∈ (newNode, linkedElement rev) :: css.flatten,
      chainIndex hashFun x.2 <
        (List.replicate hashBucketSize ([] : List (Addr × NodeElement Addr))).length := by
    intro x _
    simp only [List.length_replicate, chainIndex]
    exact Nat.mod_lt _ (by decide)
  have hdistinct : (addrs ((newNode, linkedElement rev) :: css.flatten ++
      (List.replicate hashBucketSize []).flatten)).Nodup := by
    rw [hempty, List.append_nil]
    exact List.nodup_cons.2 ⟨hfresh, hl.distinct⟩
  obtain ⟨nodes', heads, hloop, hchains, hframe⟩ :=
    distribute_spec (hl.cons hc hfresh rev) (chains_replicate _ hashBucketSize) hdistinct hindex
      (Nat.succ_le_succ hbelow)
  have hperm := distributed_perm hindex
  rw [hempty, List.append_nil] at hperm
  have hdistinct' := hl.extended_distinct hfresh hperm
  refine ⟨nodes', heads, _, hloop, ⟨⟨hchains, ?_, hdistinct'⟩, hperm, ?_, ?_⟩⟩
  · rintro heads' ⟨⟩
    have hlength := hchains.length
    simpa [length_distributed] using hlength
  · intro b hb hbs
    have hnotMem : b ∉ addrs ((newNode, linkedElement rev) :: css.flatten) :=
      mt List.mem_cons.1 (not_or.2 ⟨hb, hbs⟩)
    exact (hframe b hnotMem).trans (Function.update_of_ne hb _ _)
  · intro T g hg
    simp only [Level.toTree, hc, treeNodeInsert, hsize, if_true, distributed_toTree hfresh hg]

theorem Level.Holds.extended (hl : level.Holds nodes css) (hfresh : newNode ∉ addrs css.flatten)
    (hbelow : css.flatten.length ≤ newNode) (hashFun : List UInt8 → UInt32) (rev : List UInt8) :
    ∃ nodes' container' css',
      insertContainer hashFun rev newNode (level.size + 1) nodes level.container =
        some (nodes', container') ∧
      level.Extended hashFun rev newNode nodes css nodes' ⟨level.size + 1, container'⟩ css' := by
  cases hc : level.container with
  | bucket heads =>
    have hi : (hashFun rev).toNat % hashBucketSize < heads.length := by
      simp only [hl.length heads hc]
      exact Nat.mod_lt _ (by decide)
    have hnext := List.getElem?_eq_getElem hi
    refine ⟨_, _, _, ?_, hl.extended_bucket hc hfresh hnext⟩
    simp [insertContainer, hnext]
  | linkedList head =>
    by_cases hsize : (level.size + 1).toNat > hashSwitchThreshold
    · obtain ⟨nodes', heads, css', hloop, hext⟩ := hl.extended_switch hc hfresh hbelow hsize
      refine ⟨nodes', .bucket heads, css', ?_, hext⟩
      simp [insertContainer, hsize, hloop, -UInt32.toNat_add]
    · refine ⟨_, _, _, ?_, hl.extended_list hc hfresh hsize⟩
      simp [insertContainer, hsize, -UInt32.toNat_add]

end Levels

end BakaDns
