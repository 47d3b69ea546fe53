import BakaDns.TreePaths

/-!
# The hash function of a tree

`tree_init` takes the hash function that places the nodes of a level once its chain has turned
into a bucket. A lookup does not ask for it: `_hash_ll_find` has `rr_hash` built in. Whether the
hash function can be seen from outside is measured against a tree whose levels stay chains.
-/

namespace BakaDns
open CBytes

/-! A tree without buckets. -/

/-- A node in front of the chain, however long the chain is. -/
def listNodeInsert (tn : TreeNode) (newNode : Element) : TreeNode :=
  .linkedList (tn.size + 1) (newNode :: tn.elems)

/-- The loop of `tree_insert` on a tree that never switches to buckets. -/
def listInsertLoop (index : ElementIndex) (rr : ResourceRecord) :
    ℕ → TreeNode → List UInt8 → Option (TreeNode × ℤ)
  | 0, _, _ => none
  | fuel + 1, tn, revDomain =>
    let rest := revDomain.drop (labelSize revDomain)
    let next := rest.headD 0
    if revDomain.headD 0 = 0 then some (tn, 1)
    else
      match treeNodeFind tn revDomain with
      | some ln =>
        if next = 0 then
          if ln.dataCnt index ≥ rrCntMax then some (tn, -1)
          else if (ln.records index).any (sameRdata rr) then some (tn, -1)
          else
            some (treeNodeModify tn revDomain fun e =>
              { e.store index rr with domain := copyLabel e.domain revDomain }, 1)
        else do
          let (child, ret) ← listInsertLoop index rr fuel (ln.child.getD createTreeNode) rest
          some (treeNodeModify tn revDomain fun e => { e with child := some child }, ret)
      | none =>
        if next = 0 then
          some (listNodeInsert tn ((newElement revDomain).store index rr), 1)
        else
          listInsertLoop index rr fuel
            (listNodeInsert tn { newElement revDomain with child := some createTreeNode })
            revDomain

/-- `tree_insert` on a tree that never switches to buckets. -/
def listTreeInsert (fuel : ℕ) (tree : BucketTree) (revDomain : List UInt8)
    (rr : ResourceRecord) : Option (BucketTree × ℤ) :=
  match elementIndex rr.type with
  | none => some (tree, -1)
  | some index => do
    let (root, ret) ← listInsertLoop index rr fuel tree.root revDomain
    some ({ tree with root := root }, ret)

/-- One insertion after another, each with the labels of a reversed name and a record. -/
def insertRun (insert : BucketTree → List UInt8 → ResourceRecord → Option (BucketTree × ℤ)) :
    BucketTree → List (List (List UInt8) × ResourceRecord) → Option BucketTree
  | tree, [] => some tree
  | tree, (ls, rr) :: calls => do
    let (tree', _) ← insert tree (labelsWire ls ++ [0]) rr
    insertRun insert tree' calls

/-- Whatever is inserted, every `tree_insert` ends and every `tree_search` finds what it finds in
the tree without buckets. -/
def HashIndependent (hashFun : List UInt8 → UInt32) : Prop :=
  ∀ calls : List (List (List UInt8) × ResourceRecord),
    (∀ call ∈ calls, ∀ l ∈ call.1, IsNodeLabel l) →
    ∃ fuel tree ref, insertRun (treeInsert fuel) (treeInit hashFun) calls = some tree ∧
      insertRun (listTreeInsert fuel) (treeInit hashFun) calls = some ref ∧
      ∀ domain type, treeSearch tree domain type = treeSearch ref domain type

/-- Two hashes select the same chain of a bucket. -/
def SameChain (h g : UInt32) : Prop := h.toNat % hashBucketSize = g.toNat % hashBucketSize

/-- The chain of a label is the one a lookup goes through, both for the `domain` of its node, which
is hashed at the switch, and for the rest of a name that starts with the label. -/
structure AgreesWithRrHash (hashFun : List UInt8 → UInt32) : Prop where
  domain : ∀ l, IsNodeLabel l → SameChain (hashFun (domainOf l)) (rrHash (labelWire l))
  name : ∀ l ls, IsNodeLabel l → (∀ k ∈ ls, IsNodeLabel k) →
    SameChain (hashFun (labelWire l ++ (labelsWire ls ++ [0]))) (rrHash (labelWire l))

variable {hashFun : List UInt8 → UInt32} {tn tn' ref ref' : TreeNode} {e f : Element}
  {l k t : List UInt8} {ls : List (List UInt8)} {index : ElementIndex} {rr : ResourceRecord}
  {fuel : ℕ} {size : UInt32} {list : List Element} {ret : ℤ}

section Agrees

theorem SameChain.pushBucket {h g : UInt32} (hsame : SameChain h g) (bucket : List (List Element))
    (e : Element) : pushBucket h bucket e = pushBucket g bucket e := by
  rw [BakaDns.pushBucket, BakaDns.pushBucket, hsame]

theorem AgreesWithRrHash.node (hag : AgreesWithRrHash hashFun) (hl : IsNodeLabel l)
    (he : e.domain = domainOf l) : SameChain (hashFun e.domain) (rrHash e.domain) := by
  have hhash : rrHash (domainOf l) = rrHash (labelWire l) := by
    rw [domainOf, rrHash_labelWire hl.isQueryLabel.isLabel]
  rw [he, hhash]
  exact hag.domain l hl

/-- A new node goes where `rr_hash` puts it. -/
theorem AgreesWithRrHash.insert_eq (hag : AgreesWithRrHash hashFun) (h : tn.Ok)
    (hl : IsNodeLabel l) (hls : ∀ k ∈ ls, IsNodeLabel k) (he : e.domain = domainOf l) :
    treeNodeInsert tn (labelWire l ++ (labelsWire ls ++ [0])) e hashFun =
      treeNodeInsert tn (labelWire l ++ (labelsWire ls ++ [0])) e rrHash := by
  cases tn with
  | hashBucket size bucket =>
    have hsame := hag.name l ls hl hls
    rw [← rrHash_labelWire hl.isQueryLabel.isLabel (labelsWire ls ++ [0])] at hsame
    rw [treeNodeInsert, treeNodeInsert, hsame.pushBucket]
  | linkedList size list =>
    have hfold : (e :: list).foldl (fun bucket node => pushBucket (hashFun node.domain) bucket node)
        (List.replicate hashBucketSize []) =
        (e :: list).foldl (fun bucket node => pushBucket (rrHash node.domain) bucket node)
        (List.replicate hashBucketSize []) := by
      apply List.foldl_ext
      intro bucket node hnode
      rcases List.mem_cons.1 hnode with rfl | hold
      · exact (hag.node hl he).pushBucket bucket node
      · obtain ⟨k, hk, hd⟩ := h.level.label node hold
        exact (hag.node hk hd).pushBucket bucket node
    rw [treeNodeInsert, treeNodeInsert, hfold]

theorem AgreesWithRrHash.loop_eq (hag : AgreesWithRrHash hashFun) (h : tn.Ok)
    (hls : ∀ l ∈ ls, IsNodeLabel l) :
    treeInsertLoop hashFun index rr fuel tn (labelsWire ls ++ [0]) =
      treeInsertLoop rrHash index rr fuel tn (labelsWire ls ++ [0]) := by
  induction fuel generalizing tn ls with
  | zero => rfl
  | succ fuel ih =>
    cases ls with
    | nil => rfl
    | cons l ls =>
      have hl := hls l List.mem_cons_self
      have hlabels : ∀ k ∈ ls, IsNodeLabel k := fun k hk => hls k (List.mem_cons_of_mem l hk)
      have hquery := hl.isQueryLabel
      rw [labelsWire_cons_zero, treeInsertLoop, treeInsertLoop]
      simp only [drop_labelWire hquery.isLabel, h.level.find_eq_lookup hquery]
      cases he : tn.lookup l with
      | some e =>
        dsimp only
        rw [ih (h.child_getD he) hlabels]
      | none =>
        obtain ⟨tn₁, htn₁, hok, -, -⟩ := Inserted.pave h hl he (labelsWire ls ++ [0])
        have hnext := ih hok hls
        rw [labelsWire_cons_zero] at hnext
        have hstored := newElement_store_domain hl (labelsWire ls ++ [0]) index rr
        have hpaved := newElement_child_domain hl (labelsWire ls ++ [0]) createTreeNode
        dsimp only
        rw [hag.insert_eq h hl hlabels hstored, hag.insert_eq h hl hlabels hpaved, htn₁, hnext]

end Agrees

/-! The tree with buckets beside the one without. -/

section Mirrors

/-- Two nodes hold the same records, and there is a level below both or below none. -/
structure SameNode (e f : Element) : Prop where
  data : e.data = f.data
  dataCnt : e.dataCnt = f.dataCnt
  child : e.child.isSome = f.child.isSome

theorem SameNode.records (h : SameNode e f) (index : ElementIndex) :
    e.records index = f.records index := by
  rw [NodeElement.records, NodeElement.records, h.data, h.dataCnt]

/-- Label by label, the nodes of a level are those of a chain, and so on below them. -/
inductive Mirrors : TreeNode → TreeNode → Prop
  | mk {tn : TreeNode} {size : UInt32} {list : List Element}
      (label : ∀ e ∈ list, ∃ l, IsNodeLabel l ∧ e.domain = domainOf l)
      (node : ∀ l, IsQueryLabel l →
        Option.Rel SameNode (tn.lookup l) (TreeNode.lookup (.linkedList size list) l))
      (child : ∀ l, IsQueryLabel l → ∀ e f c d, tn.lookup l = some e →
        TreeNode.lookup (.linkedList size list) l = some f → e.child = some c →
        f.child = some d → Mirrors c d) : Mirrors tn (.linkedList size list)

theorem mirrors_createTreeNode : Mirrors createTreeNode createTreeNode :=
  .mk nofun (fun _ _ => .none) fun _ _ _ _ _ _ he => nomatch he

/-- A chain finds the first node of a label. -/
theorem chain_find_eq_lookup (hlabel : ∀ e ∈ list, ∃ l, IsNodeLabel l ∧ e.domain = domainOf l)
    (hl : IsQueryLabel l) :
    treeNodeFind (.linkedList size list) (labelWire l ++ t) =
      TreeNode.lookup (.linkedList size list) l := by
  change list.find? _ = list.find? _
  induction list with
  | nil => rfl
  | cons e list ih =>
    have hmatch := nodeMatches_iff_domain (t := t) (hlabel e List.mem_cons_self) hl
    rw [List.find?_cons, List.find?_cons, ih fun f hf => hlabel f (List.mem_cons_of_mem e hf),
      Bool.eq_iff_iff.2 (hmatch.trans decide_eq_true_iff.symm)]

/-- Only the node that a lookup returned is written to, so labels need not be distinct here. -/
theorem chain_rewritten_modify
    (hlabel : ∀ e ∈ list, ∃ l, IsNodeLabel l ∧ e.domain = domainOf l) (hl : IsQueryLabel l)
    {g : Element → Element} (hg : ∀ e, e.domain = domainOf l → (g e).domain = domainOf l)
    (hf : TreeNode.lookup (.linkedList size list) l = some f) (t : List UInt8) :
    Rewritten l (g f) (.linkedList size list)
      (treeNodeModify (.linkedList size list) (labelWire l ++ t) g) := by
  intro k hk
  change (modifyFirst _ g list).find? _ = if k = l then some (g f) else list.find? _
  change list.find? _ = some f at hf
  induction list with
  | nil => cases hf
  | cons e list ih =>
    have hmatch := nodeMatches_iff_domain (t := t) (hlabel e List.mem_cons_self) hl
    rw [modifyFirst]
    by_cases hd : e.domain = domainOf l
    · rw [List.find?_cons, decide_eq_true hd] at hf
      cases hf
      rw [if_pos (hmatch.2 hd), List.find?_cons, List.find?_cons, hg f hd, hd]
      by_cases hkl : k = l
      · rw [if_pos hkl, hkl, decide_eq_true rfl]
      · have hne : ¬domainOf l = domainOf k := fun h => hkl (domainOf_injective hl hk h).symm
        rw [if_neg hkl, decide_eq_false hne]
    · rw [List.find?_cons, decide_eq_false hd] at hf
      have hrest := ih (fun f hf => hlabel f (List.mem_cons_of_mem e hf)) hf
      rw [if_neg (hmatch.not.2 hd), List.find?_cons, List.find?_cons, hrest]
      by_cases hkl : k = l
      · rw [if_pos hkl, if_pos hkl, hkl, decide_eq_false hd]
      · rw [if_neg hkl, if_neg hkl]

/-- What a label leads to on both sides. -/
theorem Mirrors.lookup_cases (h : Mirrors tn ref) (hl : IsQueryLabel l) :
    (tn.lookup l = none ∧ ref.lookup l = none) ∨
      ∃ e f, tn.lookup l = some e ∧ ref.lookup l = some f ∧ SameNode e f ∧
        ∀ c d, e.child = some c → f.child = some d → Mirrors c d := by
  cases h with
  | @mk _ size list _ hnode hchild =>
    have hrel := hnode l hl
    have hbelow := hchild l hl
    generalize tn.lookup l = x at hrel hbelow ⊢
    generalize TreeNode.lookup (.linkedList size list) l = y at hrel hbelow ⊢
    cases hrel with
    | none => exact .inl ⟨rfl, rfl⟩
    | @some e f hsame => exact .inr ⟨e, f, rfl, rfl, hsame, fun c d => hbelow e f c d rfl rfl⟩

theorem Mirrors.chain (h : Mirrors tn ref) : ∃ size list, ref = .linkedList size list ∧
    ∀ e ∈ list, ∃ l, IsNodeLabel l ∧ e.domain = domainOf l := by
  cases h with
  | mk hlabel _ _ => exact ⟨_, _, rfl, hlabel⟩

theorem Mirrors.find_eq_lookup (h : Mirrors tn ref) (hl : IsQueryLabel l) :
    treeNodeFind ref (labelWire l ++ t) = ref.lookup l := by
  obtain ⟨size, list, rfl, hlabel⟩ := h.chain
  exact chain_find_eq_lookup hlabel hl

theorem SameNode.child_cases (h : SameNode e f) :
    (e.child = none ∧ f.child = none) ∨ ∃ c d, e.child = some c ∧ f.child = some d := by
  have hsome := h.child
  cases hc : e.child with
  | none =>
    rw [hc] at hsome
    exact .inl ⟨rfl, Option.isSome_eq_false_iff.1 hsome.symm |> Option.isNone_iff_eq_none.1⟩
  | some c =>
    rw [hc] at hsome
    obtain ⟨d, hd⟩ := Option.isSome_iff_exists.1 hsome.symm
    exact .inr ⟨c, d, rfl, hd⟩

/-- The levels that the walk goes on with. -/
theorem SameNode.child_mirrors (h : SameNode e f)
    (hchild : ∀ c d, e.child = some c → f.child = some d → Mirrors c d) :
    Mirrors (e.child.getD createTreeNode) (f.child.getD createTreeNode) := by
  rcases h.child_cases with ⟨hc, hd⟩ | ⟨c, d, hc, hd⟩
  · rw [hc, hd]
    exact mirrors_createTreeNode
  · rw [hc, hd]
    exact hchild c d hc hd

/-- The same label rewritten in the same way on both sides. -/
theorem Mirrors.rewrite (h : Mirrors tn ref) (htn : Rewritten l e tn tn')
    (href : Rewritten l f ref (.linkedList size list))
    (hlabel : ∀ e ∈ list, ∃ l, IsNodeLabel l ∧ e.domain = domainOf l) (hnode : SameNode e f)
    (hchild : ∀ c d, e.child = some c → f.child = some d → Mirrors c d) :
    Mirrors tn' (.linkedList size list) := by
  cases h with
  | mk _ hnodes hchildren =>
    refine .mk hlabel ?_ ?_
    · intro k hk
      rw [htn k hk, href k hk]
      split
      · exact .some hnode
      · exact hnodes k hk
    · intro k hk e' f' c d he' hf' hc hd
      rw [htn k hk] at he'
      rw [href k hk] at hf'
      split at he'
      · next hkl =>
        rw [if_pos hkl] at hf'
        cases he'
        cases hf'
        exact hchild c d hc hd
      · next hkl =>
        rw [if_neg hkl] at hf'
        exact hchildren k hk e' f' c d he' hf' hc hd

/-- A new node of the same kind on both sides. -/
theorem Mirrors.insert (h : Mirrors tn ref) (hok : tn.Ok) (hl : IsNodeLabel l)
    (he : e.domain = domainOf l) (hnew : tn.lookup l = none)
    (hchild : ∀ c, e.child = some c → c = createTreeNode) (t : List UInt8) :
    Mirrors (treeNodeInsert tn (labelWire l ++ t) e rrHash) (listNodeInsert ref e) := by
  obtain ⟨size, list, rfl, hlabel⟩ := h.chain
  refine h.rewrite (hok.level.rewritten_insert hl he hnew t) ?_ ?_ ⟨rfl, rfl, rfl⟩ ?_
  · intro k hk
    change (e :: list).find? _ = if k = l then some e else list.find? _
    rw [List.find?_cons, he]
    by_cases hkl : k = l
    · rw [if_pos hkl, hkl, decide_eq_true rfl]
    · have hne : ¬domainOf l = domainOf k := fun h =>
        hkl (domainOf_injective hl.isQueryLabel hk h).symm
      rw [if_neg hkl, decide_eq_false hne]
  · intro f hf
    rcases List.mem_cons.1 hf with rfl | hf
    · exact ⟨l, hl, he⟩
    · exact hlabel f hf
  · intro c d hc hd
    rw [hchild c hc, hchild d hd]
    exact mirrors_createTreeNode

/-- The node of a label written to on both sides. -/
theorem Mirrors.modify (h : Mirrors tn ref) (hok : tn.Ok) (hl : IsNodeLabel l)
    {g g' : Element → Element} (hg : ∀ e, e.domain = domainOf l → (g e).domain = domainOf l)
    (hg' : ∀ e, e.domain = domainOf l → (g' e).domain = domainOf l)
    (he : tn.lookup l = some e) (hf : ref.lookup l = some f) (hnode : SameNode (g e) (g' f))
    (hchild : ∀ c d, (g e).child = some c → (g' f).child = some d → Mirrors c d) (t : List UInt8) :
    Mirrors (treeNodeModify tn (labelWire l ++ t) g) (treeNodeModify ref (labelWire l ++ t) g') := by
  have hl' := hl.isQueryLabel
  have hfind := h.find_eq_lookup (t := t) hl'
  obtain ⟨size, list, rfl, hlabel⟩ := h.chain
  refine h.rewrite (hok.level.rewritten_modify hl' hg he t)
    (chain_rewritten_modify hlabel hl' hg' hf t) ?_ hnode hchild
  intro f₁ hf₁
  have hmem : f₁ ∈ (treeNodeModify (.linkedList size list) (labelWire l ++ t) g').elems := hf₁
  rcases mem_elems_modify hmem with hold | ⟨f₀, hf₀, rfl⟩
  · exact hlabel f₁ hold
  · rw [hfind, hf] at hf₀
    cases hf₀
    have hd : f.domain = domainOf l := by simpa using List.find?_some hf
    exact ⟨l, hl, hg' f hd⟩

/-- One more record at the node of a label. -/
theorem Mirrors.store (h : Mirrors tn ref) (hok : tn.Ok) (hl : IsNodeLabel l)
    (he : tn.lookup l = some e) (hf : ref.lookup l = some f) (hsame : SameNode e f)
    (hchild : ∀ c d, e.child = some c → f.child = some d → Mirrors c d) (t : List UInt8) :
    Mirrors
      (treeNodeModify tn (labelWire l ++ t) fun e =>
        { e.store index rr with domain := copyLabel e.domain (labelWire l ++ t) })
      (treeNodeModify ref (labelWire l ++ t) fun e =>
        { e.store index rr with domain := copyLabel e.domain (labelWire l ++ t) }) := by
  have hcopy : ∀ e : Element, e.domain = domainOf l →
      copyLabel e.domain (labelWire l ++ t) = domainOf l := by
    intro e he
    rw [he, copyLabel_domainOf hl.isQueryLabel]
  refine h.modify hok hl hcopy hcopy he hf ⟨?_, ?_, hsame.child⟩ hchild t
  · simp only [NodeElement.store, hsame.data, hsame.dataCnt]
  · simp only [NodeElement.store, hsame.dataCnt]

/-- A new level below the node of a label. -/
theorem Mirrors.descend (h : Mirrors tn ref) (hok : tn.Ok) (hl : IsNodeLabel l)
    (he : tn.lookup l = some e) (hf : ref.lookup l = some f) (hsame : SameNode e f)
    (hbelow : Mirrors tn' ref') (t : List UInt8) :
    Mirrors (treeNodeModify tn (labelWire l ++ t) fun e => { e with child := some tn' })
      (treeNodeModify ref (labelWire l ++ t) fun e => { e with child := some ref' }) := by
  have hdom : ∀ (c : TreeNode) (e : Element), e.domain = domainOf l →
      NodeElement.domain { e with child := some c } = domainOf l := fun _ _ hd => hd
  refine h.modify hok hl (hdom tn') (hdom ref') he hf ⟨hsame.data, hsame.dataCnt, rfl⟩ ?_ t
  intro c d hc hd
  cases hc
  cases hd
  exact hbelow

/-- The walk through the chains has, with as much fuel, an outcome that mirrors any outcome of the
walk through the buckets. -/
def InsertsAlike (index : ElementIndex) (rr : ResourceRecord) (fuel : ℕ)
    (ls : List (List UInt8)) : Prop :=
  ∀ tn ref tn' ret, Mirrors tn ref → tn.Ok →
    treeInsertLoop rrHash index rr fuel tn (labelsWire ls ++ [0]) = some (tn', ret) →
    ∃ ref', listInsertLoop index rr fuel ref (labelsWire ls ++ [0]) = some (ref', ret) ∧
      Mirrors tn' ref'

/-- A round at a label that neither side has a node for. -/
theorem Mirrors.insertLoop_new (h : Mirrors tn ref) (hok : tn.Ok) (hl : IsNodeLabel l)
    (he : tn.lookup l = none) (hf : ref.lookup l = none)
    (hnext : InsertsAlike index rr fuel (l :: ls))
    (hloop : treeInsertLoop rrHash index rr (fuel + 1) tn (labelsWire (l :: ls) ++ [0]) =
      some (tn', ret)) :
    ∃ ref', listInsertLoop index rr (fuel + 1) ref (labelsWire (l :: ls) ++ [0]) =
      some (ref', ret) ∧ Mirrors tn' ref' := by
  have hleft := hok.level.find_eq_lookup (t := labelsWire ls ++ [0]) hl.isQueryLabel
  rw [he] at hleft
  rw [labelsWire_cons_zero] at hloop
  rw [labelsWire_cons_zero, listInsertLoop, h.find_eq_lookup hl.isQueryLabel, hf]
  cases insertRound_of_loop hloop with
  | ended hhead => exact absurd hhead hl.isQueryLabel.isLabel.ofNat_ne_zero
  | refused _ hfind | stored _ hfind | descended _ hfind =>
    rw [hleft] at hfind
    cases hfind
  | created hhead _ hlast =>
    simp only [if_neg hhead, if_pos hlast]
    exact ⟨_, rfl, h.insert hok hl (newElement_store_domain hl _ index rr) he nofun _⟩
  | paved hhead _ hmore hround =>
    obtain ⟨tn₁, htn₁, hok₁, -, -⟩ := Inserted.pave hok hl he (labelsWire ls ++ [0])
    have hins := h.insert hok hl (newElement_child_domain hl (labelsWire ls ++ [0])
      createTreeNode) he (fun c hc => (Option.some.inj hc).symm) (labelsWire ls ++ [0])
    simp only [if_neg hhead, if_neg hmore]
    rw [htn₁, ← labelsWire_cons_zero] at hins hround
    rw [← labelsWire_cons_zero]
    exact hnext _ _ _ _ hins hok₁ hround

/-- A round at a label that both sides have a node for. -/
theorem Mirrors.insertLoop_found (h : Mirrors tn ref) (hok : tn.Ok) (hl : IsNodeLabel l)
    (he : tn.lookup l = some e) (hf : ref.lookup l = some f) (hsame : SameNode e f)
    (hchild : ∀ c d, e.child = some c → f.child = some d → Mirrors c d)
    (hnext : InsertsAlike index rr fuel ls)
    (hloop : treeInsertLoop rrHash index rr (fuel + 1) tn (labelsWire (l :: ls) ++ [0]) =
      some (tn', ret)) :
    ∃ ref', listInsertLoop index rr (fuel + 1) ref (labelsWire (l :: ls) ++ [0]) =
      some (ref', ret) ∧ Mirrors tn' ref' := by
  have hdrop := drop_labelWire hl.isQueryLabel.isLabel (labelsWire ls ++ [0])
  have hleft := hok.level.find_eq_lookup (t := labelsWire ls ++ [0]) hl.isQueryLabel
  rw [he] at hleft
  rw [labelsWire_cons_zero] at hloop
  rw [labelsWire_cons_zero, listInsertLoop, h.find_eq_lookup hl.isQueryLabel, hf]
  cases insertRound_of_loop hloop with
  | ended hhead => exact absurd hhead hl.isQueryLabel.isLabel.ofNat_ne_zero
  | created _ hfind | paved _ hfind =>
    rw [hleft] at hfind
    cases hfind
  | refused hhead hfind hlast hfull =>
    cases hleft.symm.trans hfind
    rw [hsame.dataCnt, hsame.records] at hfull
    simp only [if_neg hhead, if_pos hlast]
    refine ⟨ref, ?_, h⟩
    split
    · rfl
    · next hroom => rw [if_pos (hfull.resolve_left hroom)]
  | stored hhead hfind hlast hroom hfresh =>
    cases hleft.symm.trans hfind
    rw [hsame.dataCnt] at hroom
    rw [hsame.records] at hfresh
    simp only [if_neg hhead, if_pos hlast, if_neg (Nat.not_le.2 hroom), hfresh]
    exact ⟨_, rfl, h.store hok hl he hf hsame hchild _⟩
  | descended hhead hfind hmore hbelow =>
    cases hleft.symm.trans hfind
    rw [hdrop] at hmore hbelow
    obtain ⟨d, hd, hmirror⟩ :=
      hnext _ _ _ _ (hsame.child_mirrors hchild) (hok.child_getD he) hbelow
    simp only [if_neg hhead, if_neg hmore, hdrop, hd]
    exact ⟨_, rfl, h.descend hok hl he hf hsame hmirror _⟩

/-- Whatever the walk of `tree_insert` does, the walk through the chains does it too. -/
theorem insertsAlike (index : ElementIndex) (rr : ResourceRecord) (fuel : ℕ)
    (hls : ∀ l ∈ ls, IsNodeLabel l) : InsertsAlike index rr fuel ls := by
  induction fuel generalizing ls with
  | zero => nofun
  | succ fuel ih =>
    intro tn ref tn' ret h hok hloop
    cases ls with
    | nil =>
      cases hloop
      exact ⟨ref, rfl, h⟩
    | cons l ls =>
      have hl := hls l List.mem_cons_self
      have hlabels : ∀ k ∈ ls, IsNodeLabel k := fun k hk => hls k (List.mem_cons_of_mem l hk)
      rcases h.lookup_cases hl.isQueryLabel with ⟨he, hf⟩ | ⟨e, f, he, hf, hsame, hchild⟩
      · exact h.insertLoop_new hok hl he hf (ih hls) hloop
      · exact h.insertLoop_found hok hl he hf hsame hchild (ih hlabels) hloop

/-- Every search takes the same way on both sides, also for a name that is not one. -/
theorem Mirrors.searchLoop (h : Mirrors tn ref) (hok : tn.Ok) (d : List UInt8) :
    treeSearchLoop index fuel (some tn) d = treeSearchLoop index fuel (some ref) d := by
  induction fuel generalizing tn ref d with
  | zero => rfl
  | succ fuel ih =>
    rw [treeSearchLoop, treeSearchLoop]
    by_cases hd : ∃ l t, IsNodeLabel l ∧ d = labelWire l ++ t
    · obtain ⟨l, t, hl, rfl⟩ := hd
      simp only [hok.level.find_eq_lookup hl.isQueryLabel, h.find_eq_lookup hl.isQueryLabel]
      rcases h.lookup_cases hl.isQueryLabel with ⟨he, hf⟩ | ⟨e, f, he, hf, hsame, hchild⟩
      · rw [he, hf]
      · simp only [he, hf, hsame.records]
        rcases hsame.child_cases with ⟨hc, hd⟩ | ⟨c, d, hc, hd⟩
        · rw [hc, hd]
        · have hmem := (hok.level.lookup_eq_some_iff.1 he).1
          rw [hc, hd, ih (hchild c d hc hd) (hok.child e hmem c hc)]
    · -- a node that is found has a label, and the name starts with it
      have hnone : ∀ tn : TreeNode, (∀ e ∈ tn.elems, ∃ l, IsNodeLabel l ∧ e.domain = domainOf l) →
          treeNodeFind tn d = none := by
        intro tn hlabel
        apply Option.eq_none_iff_forall_ne_some.2
        intro e he
        obtain ⟨hmem, hmatch⟩ := mem_elems_of_find he
        obtain ⟨l, hl, hdom⟩ := hlabel e hmem
        have hhas : e.HasLabel l := by
          refine ⟨⟨hl.isQueryLabel.isLabel, hl.2.2⟩, ?_⟩
          rw [hdom]
          exact List.prefix_append _ _
        obtain ⟨t, ht⟩ := hhas.prefix_of_matches hmatch
        exact hd ⟨l, t, hl, ht.symm⟩
      obtain ⟨size, list, rfl, hlabel⟩ := h.chain
      rw [hnone tn hok.level.label, hnone (.linkedList size list) hlabel]

end Mirrors

/-! Runs. -/

section Runs

variable {tree ref tree' : BucketTree} {calls : List (List (List UInt8) × ResourceRecord)}

/-- One insertion into both trees. -/
theorem AgreesWithRrHash.treeInsert_mirrors (hag : AgreesWithRrHash hashFun) (rr : ResourceRecord)
    (hhash : tree.hashFun = hashFun) (hok : tree.root.Ok) (h : Mirrors tree.root ref.root)
    (hls : ∀ l ∈ ls, IsNodeLabel l) (hfuel : 2 * ls.length + 1 ≤ fuel) :
    ∃ tree' ref' ret, treeInsert fuel tree (labelsWire ls ++ [0]) rr = some (tree', ret) ∧
      listTreeInsert fuel ref (labelsWire ls ++ [0]) rr = some (ref', ret) ∧
      tree'.hashFun = hashFun ∧ tree'.root.Ok ∧ Mirrors tree'.root ref'.root := by
  rw [treeInsert, listTreeInsert]
  cases hindex : elementIndex rr.type with
  | none => exact ⟨tree, ref, -1, rfl, rfl, hhash, hok, h⟩
  | some index =>
    obtain ⟨root, ret, hloop, hroot⟩ : ∃ root ret,
        treeInsertLoop rrHash index rr fuel tree.root (labelsWire ls ++ [0]) = some (root, ret) ∧
          root.Ok := by
      by_cases hne : ls = []
      · subst hne
        obtain ⟨n, rfl⟩ : ∃ n, fuel = n + 1 := ⟨fuel - 1, by omega⟩
        exact ⟨tree.root, 1, rfl, hok⟩
      · have hrounds : 2 * ls.length ≤ fuel := by omega
        obtain ⟨root, ret, hloop, hins⟩ := treeInsertLoop_spec hok hls hne hrounds
        exact ⟨root, ret, hloop, hins.ok⟩
    obtain ⟨root', hlist, hmirror⟩ := insertsAlike index rr fuel hls _ _ _ _ h hok hloop
    dsimp only
    rw [hhash, hag.loop_eq hok hls, hloop, hlist]
    exact ⟨_, _, ret, rfl, rfl, rfl, hroot, hmirror⟩

/-- A run of insertions into both trees. -/
theorem AgreesWithRrHash.insertRun_mirrors (hag : AgreesWithRrHash hashFun)
    (hhash : tree.hashFun = hashFun) (hok : tree.root.Ok) (h : Mirrors tree.root ref.root)
    (hcalls : ∀ call ∈ calls, ∀ l ∈ call.1, IsNodeLabel l)
    (hfuel : ∀ call ∈ calls, 2 * call.1.length + 1 ≤ fuel) :
    ∃ tree' ref', insertRun (treeInsert fuel) tree calls = some tree' ∧
      insertRun (listTreeInsert fuel) ref calls = some ref' ∧
      tree'.root.Ok ∧ Mirrors tree'.root ref'.root := by
  induction calls generalizing tree ref with
  | nil => exact ⟨tree, ref, rfl, rfl, hok, h⟩
  | cons call calls ih =>
    obtain ⟨ls, rr⟩ := call
    obtain ⟨tree₁, ref₁, ret, hins, hlist, hhash₁, hok₁, hmirror₁⟩ :=
      hag.treeInsert_mirrors rr hhash hok h (hcalls _ List.mem_cons_self)
        (hfuel _ List.mem_cons_self)
    rw [insertRun, insertRun, hins, hlist]
    exact ih hhash₁ hok₁ hmirror₁ (fun call hcall => hcalls call (List.mem_cons_of_mem _ hcall))
      fun call hcall => hfuel call (List.mem_cons_of_mem _ hcall)

theorem AgreesWithRrHash.hashIndependent (hag : AgreesWithRrHash hashFun) :
    HashIndependent hashFun := by
  intro calls hcalls
  obtain ⟨fuel, hfuel⟩ : ∃ fuel, ∀ call ∈ calls, 2 * call.1.length + 1 ≤ fuel := by
    refine ⟨(calls.map fun call => 2 * call.1.length + 1).sum, ?_⟩
    intro call hcall
    exact List.le_sum_of_mem (List.mem_map_of_mem hcall)
  have hempty : Mirrors (treeInit hashFun).root (treeInit hashFun).root := mirrors_createTreeNode
  obtain ⟨tree, ref, hrun, hlist, hok, hmirror⟩ :=
    hag.insertRun_mirrors rfl createTreeNode_ok hempty hcalls hfuel
  refine ⟨fuel, tree, ref, hrun, hlist, ?_⟩
  intro domain type
  rw [treeSearch, treeSearch]
  cases elementIndex type with
  | none => rfl
  | some index => exact hmirror.searchLoop hok domain

end Runs

/-! Where the hash function shows: a level with more than 32 siblings. -/

section Siblings

variable {m : List UInt8} {ms done : List (List UInt8)} {tree : BucketTree} {n : ℕ}

/-- Any label has as many siblings as a level needs to turn into a bucket. -/
theorem exists_siblings (l : List UInt8) (hn : n ≤ 33) : ∃ ms : List (List UInt8),
    ms.length = n ∧ (l :: ms).Nodup ∧ ∀ m ∈ ms, IsNodeLabel m := by
  have hnodup : ((List.range 34).map fun i => [UInt8.ofNat (i + 1)]).Nodup := by decide
  have hlabel : ∀ m ∈ (List.range 34).map fun i => [UInt8.ofNat (i + 1)], IsNodeLabel m := by
    intro m hm
    obtain ⟨i, hi, rfl⟩ := List.mem_map.1 hm
    refine ⟨Nat.one_pos, by simp [subdomainMax], ?_⟩
    intro c hc h0
    rw [List.mem_singleton.1 hc] at h0
    have hval := congrArg UInt8.toNat h0
    rw [UInt8.toNat_ofNat'] at hval
    have := List.mem_range.1 hi
    simp only [UInt8.toNat_zero] at hval
    omega
  have hlen : ((List.range 34).map fun i => [UInt8.ofNat (i + 1)]).length = 34 := by simp
  generalize (List.range 34).map (fun i => [UInt8.ofNat (i + 1)]) = all at hnodup hlabel hlen
  have hsub : ((all.erase l).take n).Sublist all :=
    (List.take_sublist n _).trans List.erase_sublist
  refine ⟨(all.erase l).take n, ?_, List.nodup_cons.2 ⟨?_, hnodup.sublist hsub⟩,
    fun m hm => hlabel m (hsub.subset hm)⟩
  · rw [List.length_take, List.length_erase]
    split <;> omega
  · intro hmem
    exact hnodup.not_mem_erase (List.mem_of_mem_take hmem)

def probeRecord : ResourceRecord := ⟨[0], rrtypeA, rrclassIn, 0, 4, [10, 0, 0, 1]⟩

def probeNode (m : List UInt8) : Element := (newElement (labelWire m ++ [0])).store .a probeRecord

/-- The level after insertions of one label each, the last one first. -/
def probeChain (ms : List (List UInt8)) : TreeNode :=
  .linkedList (UInt32.ofNat ms.length) (ms.map probeNode)

def probeCall (m : List UInt8) : List (List UInt8) × ResourceRecord := ([m], probeRecord)

theorem find_eq_none_of_labels (hl : IsQueryLabel l)
    (h : ∀ e ∈ tn.elems, ∃ m, IsNodeLabel m ∧ m ≠ l ∧ e.domain = domainOf m) :
    treeNodeFind tn (labelWire l ++ t) = none := by
  apply Option.eq_none_iff_forall_ne_some.2
  intro e he
  obtain ⟨hmem, hmatch⟩ := mem_elems_of_find he
  obtain ⟨m, hm, hne, hd⟩ := h e hmem
  exact hne ((nodeMatches_iff hl hm hd).1 hmatch).symm

theorem probeChain_labels (hms : ∀ m ∈ ms, IsNodeLabel m) (hl : l ∉ ms) :
    ∀ e ∈ (probeChain ms).elems, ∃ m, IsNodeLabel m ∧ m ≠ l ∧ e.domain = domainOf m := by
  intro e he
  obtain ⟨m, hm, rfl⟩ := List.mem_map.1 he
  refine ⟨m, hms m hm, ?_, newElement_store_domain (hms m hm) [0] .a probeRecord⟩
  rintro rfl
  exact hl hm

/-- A name of one label that the root does not have. -/
theorem treeInsert_probe (hm : IsNodeLabel m)
    (hnone : treeNodeFind tree.root (labelWire m ++ [0]) = none) :
    treeInsert (fuel + 1) tree (labelsWire [m] ++ [0]) probeRecord =
      some (⟨treeNodeInsert tree.root (labelWire m ++ [0]) (probeNode m) tree.hashFun,
        tree.hashFun⟩, 1) := by
  have hlabel := hm.isQueryLabel.isLabel
  have hhead : ¬(labelWire m ++ [0]).headD 0 = 0 := hlabel.ofNat_ne_zero
  change (treeInsertLoop tree.hashFun .a probeRecord (fuel + 1) tree.root
    (labelsWire (m :: []) ++ [0])).bind _ = _
  rw [labelsWire_cons_zero, treeInsertLoop]
  simp only [labelsWire, List.flatMap_nil, List.nil_append, drop_labelWire hlabel, if_neg hhead,
    hnone]
  rfl

theorem listTreeInsert_probe (hm : IsNodeLabel m)
    (hnone : treeNodeFind tree.root (labelWire m ++ [0]) = none) :
    listTreeInsert (fuel + 1) tree (labelsWire [m] ++ [0]) probeRecord =
      some (⟨listNodeInsert tree.root (probeNode m), tree.hashFun⟩, 1) := by
  have hlabel := hm.isQueryLabel.isLabel
  have hhead : ¬(labelWire m ++ [0]).headD 0 = 0 := hlabel.ofNat_ne_zero
  change (listInsertLoop .a probeRecord (fuel + 1) tree.root
    (labelsWire (m :: []) ++ [0])).bind _ = _
  rw [labelsWire_cons_zero, listInsertLoop]
  simp only [labelsWire, List.flatMap_nil, List.nil_append, drop_labelWire hlabel, if_neg hhead,
    hnone]
  rfl

/-- As long as an insertion only lengthens the chain, a run of insertions does. -/
theorem insertRun_probes
    {insert : BucketTree → List UInt8 → ResourceRecord → Option (BucketTree × ℤ)}
    (hinsert : ∀ done m, (∀ k ∈ m :: done, IsNodeLabel k) → m ∉ done → done.length < n →
      insert ⟨probeChain done, hashFun⟩ (labelsWire [m] ++ [0]) probeRecord =
        some (⟨probeChain (m :: done), hashFun⟩, 1))
    (hlabels : ∀ m ∈ ms ++ done, IsNodeLabel m) (hnodup : (ms ++ done).Nodup)
    (hlen : ms.length + done.length ≤ n) :
    insertRun insert ⟨probeChain done, hashFun⟩ (ms.map probeCall) =
      some ⟨probeChain (ms.reverse ++ done), hashFun⟩ := by
  induction ms generalizing done with
  | nil => rfl
  | cons m ms ih =>
    have hperm : (m :: ms ++ done).Perm (ms ++ m :: done) := List.perm_middle.symm
    have hlabels' : ∀ k ∈ ms ++ m :: done, IsNodeLabel k :=
      fun k hk => hlabels k (hperm.mem_iff.2 hk)
    have hnodup' := hperm.nodup_iff.1 hnodup
    rw [List.length_cons] at hlen
    rw [List.map_cons, probeCall, insertRun, hinsert done m
      (fun k hk => hlabels' k (List.mem_append_right ms hk))
      (List.nodup_cons.1 (List.nodup_append.1 hnodup').2.1).1 (by omega)]
    refine (ih hlabels' hnodup' (by rw [List.length_cons]; omega)).trans ?_
    rw [List.reverse_cons, List.append_assoc, List.singleton_append]

theorem insertRun_append
    (insert : BucketTree → List UInt8 → ResourceRecord → Option (BucketTree × ℤ))
    (tree : BucketTree) (calls calls' : List (List (List UInt8) × ResourceRecord)) :
    insertRun insert tree (calls ++ calls') =
      (insertRun insert tree calls).bind fun tree' => insertRun insert tree' calls' := by
  induction calls generalizing tree with
  | nil => rfl
  | cons call calls ih =>
    rw [List.cons_append, insertRun, insertRun]
    cases insert tree (labelsWire call.1 ++ [0]) call.2 with
    | none => rfl
    | some result => exact ih result.1

/-- The counter of a chain does not wrap around. -/
theorem toNat_ofNat_succ (h : n ≤ hashSwitchThreshold) : (UInt32.ofNat n + 1).toNat = n + 1 := by
  have hle : n ≤ 32 := h
  rw [← UInt32.ofNat_one, ← UInt32.ofNat_add, UInt32.toNat_ofNat']
  omega

/-- The chain before the switch. -/
theorem treeInsert_probes (hms : ∀ m ∈ ms, IsNodeLabel m) (hnodup : ms.Nodup)
    (hlen : ms.length ≤ hashSwitchThreshold) :
    insertRun (treeInsert (fuel + 1)) (treeInit hashFun) (ms.map probeCall) =
      some ⟨probeChain ms.reverse, hashFun⟩ := by
  change insertRun _ ⟨probeChain [], hashFun⟩ _ = _
  rw [← List.append_nil ms.reverse]
  refine insertRun_probes ?_ (by simpa using hms) (by simpa using hnodup) hlen
  intro done m hlabels hm hdone
  have hnone : treeNodeFind (probeChain done) (labelWire m ++ [0]) = none :=
    find_eq_none_of_labels (hlabels m List.mem_cons_self).isQueryLabel
      (probeChain_labels (fun k hk => hlabels k (List.mem_cons_of_mem m hk)) hm)
  rw [treeInsert_probe (hlabels m List.mem_cons_self) hnone]
  dsimp only
  have hsize := toNat_ofNat_succ hdone.le
  rw [probeChain, treeNodeInsert, if_neg (by rw [hsize]; exact Nat.not_lt.2 hdone), probeChain,
    List.length_cons, UInt32.ofNat_add]
  rfl

theorem listTreeInsert_probes (hms : ∀ m ∈ ms, IsNodeLabel m) (hnodup : ms.Nodup) :
    insertRun (listTreeInsert (fuel + 1)) (treeInit hashFun) (ms.map probeCall) =
      some ⟨probeChain ms.reverse, hashFun⟩ := by
  change insertRun _ ⟨probeChain [], hashFun⟩ _ = _
  rw [← List.append_nil ms.reverse]
  refine insertRun_probes ?_ (by simpa using hms) (by simpa using hnodup) (Nat.le_refl _)
  intro done m hlabels hm _
  have hnone : treeNodeFind (probeChain done) (labelWire m ++ [0]) = none :=
    find_eq_none_of_labels (hlabels m List.mem_cons_self).isQueryLabel
      (probeChain_labels (fun k hk => hlabels k (List.mem_cons_of_mem m hk)) hm)
  rw [listTreeInsert_probe (hlabels m List.mem_cons_self) hnone]
  simp [listNodeInsert, probeChain, TreeNode.size, TreeNode.elems, UInt32.ofNat_add]

/-- What a chain of a bucket holds after one more node. -/
theorem getD_pushBucket (hash : UInt32) (bucket : List (List Element)) (e : Element) (i : ℕ) :
    (pushBucket hash bucket e).getD i [] = bucket.getD i [] ∨
      hash.toNat % hashBucketSize = i ∧
        (pushBucket hash bucket e).getD i [] = e :: bucket.getD i [] := by
  rw [pushBucket, List.getD_eq_getElem?_getD, List.getD_eq_getElem?_getD, List.getElem?_modify]
  cases bucket[i]? with
  | none => exact .inl rfl
  | some chain =>
    by_cases hi : hash.toNat % hashBucketSize = i
    · exact .inr ⟨hi, by simp [hi]⟩
    · exact .inl (by simp [hi])

/-- The switch puts every node into the chain that the tree's hash function selects. -/
theorem hash_of_mem_foldl {bucket : List (List Element)} {es : List Element}
    (hbucket : ∀ i, ∀ e ∈ bucket.getD i [], (hashFun e.domain).toNat % hashBucketSize = i) {i : ℕ}
    (he : e ∈ (es.foldl (fun bucket node => pushBucket (hashFun node.domain) bucket node)
      bucket).getD i []) : (hashFun e.domain).toNat % hashBucketSize = i := by
  induction es generalizing bucket with
  | nil => exact hbucket i e he
  | cons x es ih =>
    refine ih ?_ he
    intro j f hf
    rcases getD_pushBucket (hashFun x.domain) bucket x j with heq | ⟨hj, heq⟩
    · rw [heq] at hf
      exact hbucket j f hf
    · rw [heq] at hf
      rcases List.mem_cons.1 hf with rfl | hf
      · exact hj
      · exact hbucket j f hf

/-- The insertion that makes the chain too long for one. -/
theorem treeInsert_switch (fuel : ℕ) (hashFun : List UInt8 → UInt32)
    (hms : ∀ m ∈ ms, IsNodeLabel m) (hnodup : ms.Nodup) (hlen : ms.length = hashSwitchThreshold + 1) :
    ∃ bucket, insertRun (treeInsert (fuel + 1)) (treeInit hashFun) (ms.map probeCall) =
        some ⟨.hashBucket (UInt32.ofNat hashSwitchThreshold + 1) bucket, hashFun⟩ ∧
      (∀ i, ∀ e ∈ bucket.getD i [], (hashFun e.domain).toNat % hashBucketSize = i) ∧
      ∀ e ∈ bucket.flatten, e ∈ ms.map probeNode := by
  obtain ⟨first, m, rfl⟩ : ∃ first m, ms = first ++ [m] := by
    rcases List.eq_nil_or_concat' ms with rfl | ⟨first, m, rfl⟩
    · cases hlen
    · exact ⟨first, m, rfl⟩
  have hfirst : first.length = hashSwitchThreshold := by simpa using hlen
  obtain ⟨hnodup, -, hm⟩ := List.nodup_append.1 hnodup
  have hlabels : ∀ k ∈ first, IsNodeLabel k := fun k hk => hms k (List.mem_append_left [m] hk)
  have hlabel : IsNodeLabel m := hms m (by simp)
  have hnone : treeNodeFind (probeChain first.reverse) (labelWire m ++ [0]) = none :=
    find_eq_none_of_labels hlabel.isQueryLabel
      (probeChain_labels (by simpa using hlabels) fun h => hm m (by simpa using h) m (by simp) rfl)
  refine ⟨(probeNode m :: first.reverse.map probeNode).foldl
    (fun bucket node => pushBucket (hashFun node.domain) bucket node)
    (List.replicate hashBucketSize []), ?_, ?_, ?_⟩
  · rw [List.map_append, insertRun_append, treeInsert_probes hlabels hnodup hfirst.le,
      Option.bind_some, List.map_singleton, probeCall, insertRun, treeInsert_probe hlabel hnone]
    change some (BucketTree.mk (treeNodeInsert (probeChain first.reverse) _ _ hashFun) hashFun) = _
    have hsize := toNat_ofNat_succ (le_refl hashSwitchThreshold)
    rw [probeChain, treeNodeInsert, List.length_reverse, hfirst,
      if_pos (by rw [hsize]; exact Nat.lt_succ_self _)]
  · intro i e he
    refine hash_of_mem_foldl ?_ he
    intro j f hf
    rw [List.getD_eq_getElem?_getD, List.getElem?_replicate] at hf
    split at hf <;> cases hf
  · intro e he
    rcases mem_foldl_pushBucket he with he | he
    · rw [List.map_append, List.map_singleton, List.mem_append, List.mem_singleton]
      rcases List.mem_cons.1 he with rfl | he
      · exact .inr rfl
      · exact .inl (by simpa using he)
    · rw [List.flatten_replicate_nil] at he
      cases he

theorem treeSearch_eq_nil {d : List UInt8} (hnone : treeNodeFind tree.root d = none)
    (type : UInt16) : treeSearch tree d type = [] := by
  rw [treeSearch]
  cases elementIndex type with
  | none => rfl
  | some index =>
    dsimp only
    cases d.length with
    | zero => rfl
    | succ n =>
      rw [treeSearchLoop]
      split
      · rfl
      · rw [hnone]

/-- The tree without buckets finds every label that was inserted. -/
theorem treeSearch_probes (hms : ∀ m ∈ ms, IsNodeLabel m) (hl : l ∈ ms) :
    treeSearch ⟨probeChain ms, hashFun⟩ (labelWire l ++ [0]) rrtypeA ≠ [] := by
  have hlabel := (hms l hl).isQueryLabel.isLabel
  have hhead : ¬(labelWire l ++ [0]).headD 0 = 0 := hlabel.ofNat_ne_zero
  have hmatch : nodeMatches (labelWire l ++ [0]) (probeNode l) = true :=
    (nodeMatches_iff (hms l hl).isQueryLabel (hms l hl)
      (newElement_store_domain (hms l hl) [0] .a probeRecord)).2 rfl
  obtain ⟨e, he⟩ : ∃ e, treeNodeFind (probeChain ms) (labelWire l ++ [0]) = some e :=
    Option.isSome_iff_exists.1 (List.find?_isSome.2 ⟨_, List.mem_map_of_mem hl, hmatch⟩)
  obtain ⟨m, -, rfl⟩ := List.mem_map.1 (mem_elems_of_find he).1
  have hindex : elementIndex rrtypeA = some .a := rfl
  rw [treeSearch, hindex, List.length_append, length_labelWire, List.length_singleton]
  dsimp only
  rw [treeSearchLoop]
  simp only [drop_labelWire hlabel, if_neg hhead, he]
  exact List.cons_ne_nil _ _

end Siblings

section Necessity

variable {ms : List (List UInt8)} {tree : BucketTree} {bucket : List (List Element)}

/-- A bucket that files a new node under another chain than the one a lookup goes through. -/
theorem find_pushBucket_of_ne {hash : UInt32} (hne : ¬SameChain hash (rrHash t)) (n : UInt32) :
    treeNodeFind (.hashBucket n (pushBucket hash bucket e)) t =
      treeNodeFind (.hashBucket size bucket) t := by
  rcases getD_pushBucket hash bucket e ((rrHash t).toNat % hashBucketSize) with heq | ⟨hi, -⟩
  · rw [treeNodeFind, treeNodeFind, heq]
  · exact absurd hi hne

/-- The loop makes one node after another and finds none of them. -/
theorem treeInsertLoop_stuck (hhead : ¬t.headD 0 = 0)
    (hgo : ¬(t.drop (labelSize t)).headD 0 = 0) (hne : ¬SameChain (hashFun t) (rrHash t))
    (hnone : treeNodeFind (.hashBucket size bucket) t = none) :
    treeInsertLoop hashFun index rr fuel (.hashBucket size bucket) t = none := by
  induction fuel generalizing size bucket with
  | zero => rfl
  | succ fuel ih =>
    rw [treeInsertLoop]
    simp only [if_neg hhead, hnone, if_neg hgo]
    exact ih ((find_pushBucket_of_ne hne (size + 1)).trans hnone)

theorem probeCall_labels (hms : ∀ m ∈ ms, IsNodeLabel m) :
    ∀ call ∈ ms.map probeCall, ∀ l ∈ call.1, IsNodeLabel l := by
  intro call hcall k hk
  obtain ⟨m, hm, rfl⟩ := List.mem_map.1 hcall
  rw [List.mem_singleton.1 hk]
  exact hms m hm

/-- A run of insertions needs fuel. -/
theorem exists_fuel {calls : List (List (List UInt8) × ResourceRecord)} {tree' : BucketTree}
    (h : insertRun (treeInsert fuel) tree (probeCall l :: calls) = some tree') :
    ∃ n, fuel = n + 1 := by
  cases fuel with
  | zero => cases h
  | succ n => exact ⟨n, rfl⟩

/-- What the tree without buckets finds, the other one finds. -/
theorem find_ne_none_of_search (hms : ∀ m ∈ ms, IsNodeLabel m) (hl : l ∈ ms)
    (hsearch : ∀ domain type, treeSearch tree domain type =
      treeSearch ⟨probeChain ms, hashFun⟩ domain type) :
    treeNodeFind tree.root (labelWire l ++ [0]) ≠ none := by
  intro hnone
  have hempty := hsearch (labelWire l ++ [0]) rrtypeA
  rw [treeSearch_eq_nil hnone] at hempty
  exact treeSearch_probes hms hl hempty.symm

/-- A node whose `domain` the hash function sends elsewhere is lost at the switch. -/
theorem HashIndependent.domain (h : HashIndependent hashFun) (hl : IsNodeLabel l) :
    SameChain (hashFun (domainOf l)) (rrHash (labelWire l)) := by
  obtain ⟨others, hlen, hnodup, hothers⟩ := exists_siblings l (n := 32) (by decide)
  have hlabels : ∀ m ∈ l :: others, IsNodeLabel m := List.forall_mem_cons.2 ⟨hl, hothers⟩
  obtain ⟨fuel, tree, ref, hrun, hlist, hsearch⟩ := h _ (probeCall_labels hlabels)
  obtain ⟨n, rfl⟩ := exists_fuel hrun
  obtain ⟨bucket, hswitch, hplaced, hmem⟩ :=
    treeInsert_switch n hashFun hlabels hnodup (by rw [List.length_cons, hlen]; rfl)
  rw [hswitch] at hrun
  rw [listTreeInsert_probes hlabels hnodup] at hlist
  cases hrun
  cases hlist
  have hfound := find_ne_none_of_search (fun m hm => hlabels m (List.mem_reverse.1 hm))
    (List.mem_reverse.2 List.mem_cons_self) hsearch
  obtain ⟨e, he⟩ := Option.ne_none_iff_exists'.1 hfound
  obtain ⟨he', hmatch⟩ := mem_elems_of_find he
  obtain ⟨m, hm, rfl⟩ := List.mem_map.1 (hmem e he')
  have hd : (probeNode m).domain = domainOf m :=
    newElement_store_domain (hlabels m hm) [0] .a probeRecord
  obtain rfl : l = m := (nodeMatches_iff hl.isQueryLabel (hlabels m hm) hd).1 hmatch
  have hchain := hplaced _ _ (List.mem_of_find?_eq_some he)
  rw [hd, rrHash_labelWire hl.isQueryLabel.isLabel] at hchain
  exact hchain

/-- Every label can be the first one to come to a level that is a bucket already. -/
theorem exists_bucket_without (hashFun : List UInt8 → UInt32) (hl : IsNodeLabel l) :
    ∃ m ms, (l :: m :: ms).Nodup ∧ (∀ k ∈ m :: ms, IsNodeLabel k) ∧
      ∀ n, ∃ size bucket, insertRun (treeInsert (n + 1)) (treeInit hashFun)
          ((m :: ms).map probeCall) = some ⟨.hashBucket size bucket, hashFun⟩ ∧
        ∀ t, treeNodeFind (.hashBucket size bucket) (labelWire l ++ t) = none := by
  obtain ⟨others, hlen, hnodup, hlabels⟩ := exists_siblings l (n := 33) (by decide)
  obtain ⟨m, ms, rfl⟩ := List.exists_cons_of_length_eq_add_one hlen
  obtain ⟨hnotin, hnodup'⟩ := List.nodup_cons.1 hnodup
  refine ⟨m, ms, hnodup, hlabels, ?_⟩
  intro n
  obtain ⟨bucket, hswitch, -, hmem⟩ := treeInsert_switch n hashFun hlabels hnodup' hlen
  refine ⟨_, bucket, hswitch, ?_⟩
  intro t
  apply find_eq_none_of_labels hl.isQueryLabel
  intro e he
  exact probeChain_labels hlabels hnotin e (hmem e he)

/-- A node that the hash function files elsewhere is lost in a bucket. -/
theorem HashIndependent.last (h : HashIndependent hashFun) (hl : IsNodeLabel l) :
    SameChain (hashFun (labelWire l ++ [0])) (rrHash (labelWire l ++ [0])) := by
  by_contra hne
  obtain ⟨m, ms, hnodup, hlabels, hbucket⟩ := exists_bucket_without hashFun hl
  have hperm : (m :: ms ++ [l]).Perm (l :: m :: ms) := List.perm_append_singleton l (m :: ms)
  have hall : ∀ k ∈ m :: ms ++ [l], IsNodeLabel k := by
    intro k hk
    rcases List.mem_cons.1 (hperm.mem_iff.1 hk) with rfl | hk
    · exact hl
    · exact hlabels k hk
  obtain ⟨fuel, tree, ref, hrun, hlist, hsearch⟩ := h _ (probeCall_labels hall)
  obtain ⟨n, rfl⟩ := exists_fuel hrun
  obtain ⟨size, bucket, hswitch, hnone⟩ := hbucket n
  rw [listTreeInsert_probes hall (hperm.nodup_iff.2 hnodup)] at hlist
  rw [List.map_append, insertRun_append, hswitch, Option.bind_some, List.map_singleton, probeCall,
    insertRun, treeInsert_probe hl (hnone [0])] at hrun
  cases hlist
  cases hrun
  apply find_ne_none_of_search (fun k hk => hall k (List.mem_reverse.1 hk))
    (List.mem_reverse.2 (List.mem_append_right (m :: ms) List.mem_cons_self)) hsearch
  exact (find_pushBucket_of_ne hne (size + 1)).trans (hnone [0])

/-- The walk does not get past a node that the hash function files elsewhere: no fuel is enough. -/
theorem exists_insertRun_stuck (hl : IsNodeLabel l) (hls : ∀ k ∈ ls, IsNodeLabel k) (hend : ls ≠ [])
    (hne : ¬SameChain (hashFun (labelWire l ++ (labelsWire ls ++ [0])))
      (rrHash (labelWire l ++ (labelsWire ls ++ [0])))) :
    ∃ calls, (∀ call ∈ calls, ∀ k ∈ call.1, IsNodeLabel k) ∧
      ∀ fuel, insertRun (treeInsert fuel) (treeInit hashFun) calls = none := by
  obtain ⟨m, ms, -, hlabels, hbucket⟩ := exists_bucket_without hashFun hl
  refine ⟨(m :: ms).map probeCall ++ [(l :: ls, probeRecord)], ?_, ?_⟩
  · intro call hcall
    rcases List.mem_append.1 hcall with hcall | hcall
    · exact probeCall_labels hlabels call hcall
    · rw [List.mem_singleton.1 hcall]
      exact List.forall_mem_cons.2 ⟨hl, hls⟩
  · intro fuel
    cases fuel with
    | zero => rfl
    | succ n =>
      obtain ⟨size, bucket, hswitch, hnone⟩ := hbucket n
      have hlabel := hl.isQueryLabel.isLabel
      have hhead : ¬(labelWire l ++ (labelsWire ls ++ [0])).headD 0 = 0 := hlabel.ofNat_ne_zero
      have hgo : ¬((labelWire l ++ (labelsWire ls ++ [0])).drop
          (labelSize (labelWire l ++ (labelsWire ls ++ [0])))).headD 0 = 0 := by
        rw [drop_labelWire hlabel,
          labelsWire_headD_eq_zero_iff fun k hk => (hls k hk).isQueryLabel.isLabel]
        exact hend
      have hstuck : treeInsert (n + 1) ⟨.hashBucket size bucket, hashFun⟩
          (labelsWire (l :: ls) ++ [0]) probeRecord = none := by
        change (treeInsertLoop hashFun .a probeRecord (n + 1) (.hashBucket size bucket)
          (labelsWire (l :: ls) ++ [0])).bind _ = none
        rw [labelsWire_cons_zero, treeInsertLoop_stuck hhead hgo hne (hnone _)]
        rfl
      rw [insertRun_append, hswitch, Option.bind_some, insertRun, hstuck]
      rfl

theorem HashIndependent.inner (h : HashIndependent hashFun) (hl : IsNodeLabel l)
    (hls : ∀ k ∈ ls, IsNodeLabel k) (hend : ls ≠ []) :
    SameChain (hashFun (labelWire l ++ (labelsWire ls ++ [0])))
      (rrHash (labelWire l ++ (labelsWire ls ++ [0]))) := by
  by_contra hne
  obtain ⟨calls, hcalls, hstuck⟩ := exists_insertRun_stuck hl hls hend hne
  obtain ⟨fuel, tree, -, hrun, -, -⟩ := h calls hcalls
  rw [hstuck fuel] at hrun
  cases hrun

theorem HashIndependent.agrees (h : HashIndependent hashFun) : AgreesWithRrHash hashFun where
  domain l hl := h.domain hl
  name l ls hl hls := by
    rw [← rrHash_labelWire hl.isQueryLabel.isLabel (labelsWire ls ++ [0])]
    by_cases hend : ls = []
    · rw [hend]
      exact h.last hl
    · exact h.inner hl hls hend

end Necessity

/-- The hash function of a tree cannot be seen from outside exactly if it selects, on every label,
the chain that a lookup goes through. -/
theorem hashIndependent_iff (hashFun : List UInt8 → UInt32) :
    HashIndependent hashFun ↔ AgreesWithRrHash hashFun :=
  ⟨HashIndependent.agrees, AgreesWithRrHash.hashIndependent⟩

/-- With a constant hash function the first of 33 siblings is lost, and there is an insertion that
never ends. -/
theorem constantHash_visible :
    ((insertRun (treeInsert 1) (treeInit fun _ => 0)
        ((List.range 33).map fun i => probeCall [UInt8.ofNat (i + 97)])).map fun tree =>
      treeSearch tree [1, 97, 0] rrtypeA) = some [] ∧
    ((insertRun (listTreeInsert 1) (treeInit fun _ => 0)
        ((List.range 33).map fun i => probeCall [UInt8.ofNat (i + 97)])).map fun tree =>
      treeSearch tree [1, 97, 0] rrtypeA) = some [rrCopy probeRecord] ∧
    (∃ calls, (∀ call ∈ calls, ∀ l ∈ call.1, IsNodeLabel l) ∧
      ∀ fuel, insertRun (treeInsert fuel) (treeInit fun _ => 0) calls = none) ∧
    ¬∀ hashFun, HashIndependent hashFun := by
  have hlabel : IsNodeLabel [97] := by simp [IsNodeLabel, subdomainMax]
  refine ⟨by decide +kernel, by decide +kernel, ?_, ?_⟩
  · have hbelow : ∀ k ∈ [[97]], IsNodeLabel k := List.forall_mem_singleton.2 hlabel
    refine exists_insertRun_stuck hlabel hbelow (List.cons_ne_nil _ _) ?_
    unfold SameChain
    decide +kernel
  · intro h
    have hchain := (h fun _ => 0).domain hlabel
    revert hchain
    unfold SameChain
    decide +kernel

end BakaDns
