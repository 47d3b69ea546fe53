import BakaDns.Message

/-!
# The bucket tree

`domain_rev` and the label tree of `trees.c`. A level of the tree is a chain of nodes that turns
into a bucket of chains once it grows past `HASH_SWITCH_THRESHOLD`. Nodes have one owner each, so
following a pointer down and writing through it is rebuilding the nodes on the way.
-/

namespace BakaDns
open CBytes

/-- The first loop of `domain_rev`: each label's bytes, then its length, onto the stack. The fuel
is the number of bytes left in the block. -/
def revPush : ℕ → List UInt8 → List UInt8 → List UInt8
  | 0, _, stack => stack
  | fuel + 1, src, stack =>
    let n := src.headD 0
    if n = 0 then stack
    else revPush fuel (src.drop (n.toNat + 1)) (stack ++ copyOut src.tail n.toNat ++ [n])

/-- The second loop: from the length at `sptr` down, each label is copied out behind its length. -/
def revPop : ℕ → List UInt8 → ℤ → List UInt8
  | 0, _, _ => [0]
  | fuel + 1, stack, sptr =>
    let n := byteAt stack sptr.toNat
    if 0 < sptr ∧ n ≠ 0 then
      n :: (List.range n.toNat).map (fun i : ℕ => byteAt stack (sptr - n.toNat + i).toNat) ++
        revPop fuel stack (sptr - (n.toNat + 1))
    else [0]

/-- `domain_rev`: the bytes written to `dest`. -/
def domainRev (src : List UInt8) : List UInt8 :=
  let stack := revPush src.length src []
  revPop (stack.length + 1) stack (stack.length - 1)

def hashBucketSize : ℕ := 1024
def hashSwitchThreshold : ℕ := 32
def subdomainMax : ℕ := 50
def rrCntMax : ℕ := 4
def hashSeed : UInt32 := 131

/-- The index into `data`: `RR_ARR_A`, `RR_ARR_CNAME` or `RR_ARR_AAAA`. -/
inductive ElementIndex
  | a
  | cname
  | aaaa
deriving DecidableEq, Repr

def elementIndex (type : UInt16) : Option ElementIndex :=
  if type = rrtypeA then some .a
  else if type = rrtypeCname then some .cname
  else if type = rrtypeAaaa then some .aaaa
  else none

structure NodeElement (τ : Type) where
  domain : List UInt8
  data : ElementIndex → List ResourceRecord
  dataCnt : ElementIndex → ℕ
  child : Option τ

/-- `struct tree_node`, one constructor for each container type. -/
inductive TreeNode
  | linkedList (size : UInt32) (list : List (NodeElement TreeNode))
  | hashBucket (size : UInt32) (bucket : List (List (NodeElement TreeNode)))

abbrev Element := NodeElement TreeNode

structure BucketTree where
  root : TreeNode
  hashFun : List UInt8 → UInt32

def createTreeNode : TreeNode := .linkedList 0 []

/-- `rr_hash`: it starts at the length byte and so leaves out the last byte of the label. -/
def rrHash (ptr : List UInt8) : UInt32 :=
  (List.range (ptr.headD 0).toNat).foldl
    (fun hsh i => hsh * hashSeed + (byteAt ptr i).toUInt32) 0

def treeInit (hashFun : List UInt8 → UInt32) : BucketTree := ⟨createTreeNode, hashFun⟩

/-- The bytes of the label a pointer into a reversed domain stands on, its length included. -/
def labelSize (target : List UInt8) : ℕ := (target.headD 0).toNat + 1

/-- `strncmp(target, ln->element.domain, (*target) + 1) == 0`. -/
def nodeMatches (target : List UInt8) (e : Element) : Bool :=
  strncmpEq target e.domain (labelSize target)

def treeNodeFind (tn : TreeNode) (target : List UInt8) : Option Element :=
  match tn with
  | .linkedList _ list => list.find? (nodeMatches target)
  | .hashBucket _ bucket =>
    (bucket.getD ((rrHash target).toNat % hashBucketSize) []).find? (nodeMatches target)

/-- `memcpy` of a label into the `domain` of a node. The list takes a label of any length; in memory
one of more than 49 bytes runs over `domain[SUBDOMAIN_MAX]` into the pointers behind it. -/
def copyLabel (domain revDomain : List UInt8) : List UInt8 :=
  copyOut revDomain (labelSize revDomain) ++ domain.drop (labelSize revDomain)

/-- `create_linked_node` and the copy of its label. -/
def newElement (revDomain : List UInt8) : Element where
  domain := copyLabel (List.replicate subdomainMax 0) revDomain
  data := fun _ => []
  dataCnt := fun _ => 0
  child := none

/-- A node goes to the front of the chain that a hash selects. -/
def pushBucket (hash : UInt32) (bucket : List (List Element)) (e : Element) :
    List (List Element) :=
  bucket.modify (hash.toNat % hashBucketSize) (e :: ·)

/-- `tree_node_insert`. What the caller stores through the returned pointer is already in
`newNode`: nothing reads the node in between. -/
def treeNodeInsert (tn : TreeNode) (revDomain : List UInt8) (newNode : Element)
    (hashFun : List UInt8 → UInt32) : TreeNode :=
  match tn with
  | .hashBucket size bucket =>
    .hashBucket (size + 1) (pushBucket (hashFun revDomain) bucket newNode)
  | .linkedList size list =>
    if (size + 1).toNat > hashSwitchThreshold then
      .hashBucket (size + 1) ((newNode :: list).foldl
        (fun bucket node => pushBucket (hashFun node.domain) bucket node)
        (List.replicate hashBucketSize []))
    else .linkedList (size + 1) (newNode :: list)

/-- Writing through the pointer `tree_node_find` returned. -/
def modifyFirst {α : Type} (p : α → Bool) (f : α → α) : List α → List α
  | [] => []
  | x :: xs => if p x then f x :: xs else x :: modifyFirst p f xs

def treeNodeModify (tn : TreeNode) (target : List UInt8) (f : Element → Element) : TreeNode :=
  match tn with
  | .linkedList size list => .linkedList size (modifyFirst (nodeMatches target) f list)
  | .hashBucket size bucket =>
    .hashBucket size (bucket.modify ((rrHash target).toNat % hashBucketSize)
      (modifyFirst (nodeMatches target) f))

/-- `element.data[index][element.data_cnt[index]++] = rr`. -/
def NodeElement.store {τ : Type} (e : NodeElement τ) (index : ElementIndex)
    (rr : ResourceRecord) : NodeElement τ :=
  { e with
    data := Function.update e.data index
      ((e.data index).take (e.dataCnt index) ++ rr :: (e.data index).drop (e.dataCnt index + 1))
    dataCnt := Function.update e.dataCnt index (e.dataCnt index + 1) }

/-- The records of one kind, by the node's count. -/
def NodeElement.records {τ : Type} (e : NodeElement τ) (index : ElementIndex) :
    List ResourceRecord := (e.data index).take (e.dataCnt index)

/-- `memcmp(rr->rdata, old->rdata, rr->rdlength) == 0`. -/
def sameRdata (rr old : ResourceRecord) : Bool :=
  copyOut rr.rdata rr.rdlength.toNat == copyOut old.rdata rr.rdlength.toNat

/-- The loop of `tree_insert` from node `tn` on: the node as it is left and the return value.
`none` is a loop that has not ended within the fuel, which counts its iterations. -/
def treeInsertLoop (hashFun : List UInt8 → UInt32) (index : ElementIndex) (rr : ResourceRecord) :
    ℕ → TreeNode → List UInt8 → Option (TreeNode × ℤ)
  | 0, _, _ => none
  | fuel + 1, tn, revDomain =>
    let rest := revDomain.drop (labelSize revDomain)
    let next := rest.headD 0
    if revDomain.headD 0 = 0 then some (tn, 1)
    else
      match treeNodeFind tn revDomain with
      | some ln =>
        if next = 0 then
          if ln.dataCnt index ≥ rrCntMax then some (tn, -1)
          else if (ln.records index).any (sameRdata rr) then some (tn, -1)
          else
            some (treeNodeModify tn revDomain fun e =>
              { e.store index rr with domain := copyLabel e.domain revDomain }, 1)
        else do
          let (child, ret) ← treeInsertLoop hashFun index rr fuel
            (ln.child.getD createTreeNode) rest
          some (treeNodeModify tn revDomain fun e => { e with child := some child }, ret)
      | none =>
        if next = 0 then
          some (treeNodeInsert tn revDomain ((newElement revDomain).store index rr) hashFun, 1)
        else
          treeInsertLoop hashFun index rr fuel
            (treeNodeInsert tn revDomain
              { newElement revDomain with child := some createTreeNode } hashFun)
            revDomain

/-- `tree_insert`: the tree as it is left and the return value. -/
def treeInsert (fuel : ℕ) (tree : BucketTree) (revDomain : List UInt8) (rr : ResourceRecord) :
    Option (BucketTree × ℤ) :=
  match elementIndex rr.type with
  | none => some (tree, -1)
  | some index => do
    let (root, ret) ← treeInsertLoop tree.hashFun index rr fuel tree.root revDomain
    some ({ tree with root := root }, ret)

/-- The loop of `tree_search`: the records copied to `dest`. Every iteration leaves less of the
name, whose length is the fuel. -/
def treeSearchLoop (index : ElementIndex) : ℕ → Option TreeNode → List UInt8 → List ResourceRecord
  | 0, _, _ => []
  | _ + 1, none, _ => []
  | fuel + 1, some tn, domain =>
    let rest := domain.drop (labelSize domain)
    if domain.headD 0 = 0 then []
    else
      match treeNodeFind tn domain with
      | none => []
      | some ln =>
        if rest.headD 0 = 0 then (ln.records index).map rrCopy
        else treeSearchLoop index fuel ln.child rest

/-- `tree_search`; its return value is the number of records. -/
def treeSearch (tree : BucketTree) (domain : List UInt8) (rrType : UInt16) :
    List ResourceRecord :=
  match elementIndex rrType with
  | none => []
  | some index => treeSearchLoop index domain.length (some tree.root) domain

/-- One round of the loop of `tree_insert`, by what it finds: the node it leaves and the return
value, with the rounds after it where it does not end. -/
inductive InsertRound (hashFun : List UInt8 → UInt32) (index : ElementIndex) (rr : ResourceRecord)
    (fuel : ℕ) (tn : TreeNode) (rev : List UInt8) : TreeNode → ℤ → Prop
  | ended (head : rev.headD 0 = 0) : InsertRound hashFun index rr fuel tn rev tn 1
  | refused {ln : Element} (head : rev.headD 0 ≠ 0) (find : treeNodeFind tn rev = some ln)
      (last : (rev.drop (labelSize rev)).headD 0 = 0)
      (full : rrCntMax ≤ ln.dataCnt index ∨ (ln.records index).any (sameRdata rr) = true) :
      InsertRound hashFun index rr fuel tn rev tn (-1)
  | stored {ln : Element} (head : rev.headD 0 ≠ 0) (find : treeNodeFind tn rev = some ln)
      (last : (rev.drop (labelSize rev)).headD 0 = 0) (room : ln.dataCnt index < rrCntMax)
      (fresh : (ln.records index).any (sameRdata rr) = false) :
      InsertRound hashFun index rr fuel tn rev (treeNodeModify tn rev fun e =>
        { e.store index rr with domain := copyLabel e.domain rev }) 1
  | descended {ln : Element} {child : TreeNode} {ret : ℤ} (head : rev.headD 0 ≠ 0)
      (find : treeNodeFind tn rev = some ln) (more : (rev.drop (labelSize rev)).headD 0 ≠ 0)
      (below : treeInsertLoop hashFun index rr fuel (ln.child.getD createTreeNode)
        (rev.drop (labelSize rev)) = some (child, ret)) :
      InsertRound hashFun index rr fuel tn rev
        (treeNodeModify tn rev fun e => { e with child := some child }) ret
  | created (head : rev.headD 0 ≠ 0) (find : treeNodeFind tn rev = none)
      (last : (rev.drop (labelSize rev)).headD 0 = 0) :
      InsertRound hashFun index rr fuel tn rev
        (treeNodeInsert tn rev ((newElement rev).store index rr) hashFun) 1
  | paved {tn' : TreeNode} {ret : ℤ} (head : rev.headD 0 ≠ 0) (find : treeNodeFind tn rev = none)
      (more : (rev.drop (labelSize rev)).headD 0 ≠ 0)
      (next : treeInsertLoop hashFun index rr fuel
        (treeNodeInsert tn rev { newElement rev with child := some createTreeNode } hashFun) rev =
          some (tn', ret)) : InsertRound hashFun index rr fuel tn rev tn' ret

theorem insertRound_of_loop {hashFun : List UInt8 → UInt32} {index : ElementIndex}
    {rr : ResourceRecord} {fuel : ℕ} {tn tn' : TreeNode} {rev : List UInt8} {ret : ℤ}
    (h : treeInsertLoop hashFun index rr (fuel + 1) tn rev = some (tn', ret)) :
    InsertRound hashFun index rr fuel tn rev tn' ret := by
  rw [treeInsertLoop] at h
  dsimp only at h
  split at h
  · next hhead =>
    cases h
    exact .ended hhead
  · next hhead =>
    cases hfind : treeNodeFind tn rev with
    | some ln =>
      simp only [hfind] at h
      split at h
      · next hlast =>
        split at h
        · next hfull =>
          cases h
          exact .refused hhead hfind hlast (.inl hfull)
        · next hroom =>
          split at h
          · next hdup =>
            cases h
            exact .refused hhead hfind hlast (.inr hdup)
          · next hfresh =>
            cases h
            exact .stored hhead hfind hlast (Nat.not_le.1 hroom) (Bool.eq_false_iff.2 hfresh)
      · next hmore =>
        obtain ⟨⟨child, ret'⟩, hbelow, h⟩ := Option.bind_eq_some_iff.1 h
        cases h
        exact .descended hhead hfind hmore hbelow
    | none =>
      simp only [hfind] at h
      split at h
      · next hlast =>
        cases h
        exact .created hhead hfind hlast
      · next hmore => exact .paved hhead hfind hmore h

/-! Names as sequences of labels. -/

/-- A label in front of whatever follows it: a length octet and that many bytes. -/
def labelWire (l : List UInt8) : List UInt8 := UInt8.ofNat l.length :: l

/-- The labels of a name one after another, without the final zero. -/
def labelsWire (ls : List (List UInt8)) : List UInt8 := ls.flatMap labelWire

/-- A label that a length octet can announce. -/
def IsLabel (l : List UInt8) : Prop := 0 < l.length ∧ l.length ≤ 255

@[simp] theorem length_labelWire (l : List UInt8) : (labelWire l).length = l.length + 1 := rfl

theorem labelsWire_cons (l : List UInt8) (ls : List (List UInt8)) :
    labelsWire (l :: ls) = labelWire l ++ labelsWire ls := rfl

theorem labelsWire_append (ls ks : List (List UInt8)) :
    labelsWire (ls ++ ks) = labelsWire ls ++ labelsWire ks := by
  simp [labelsWire]

theorem IsLabel.toNat_ofNat {l : List UInt8} (h : IsLabel l) :
    (UInt8.ofNat l.length).toNat = l.length := by
  rw [UInt8.toNat_ofNat']
  exact Nat.mod_eq_of_lt (by have := h.2; omega)

theorem IsLabel.ofNat_ne_zero {l : List UInt8} (h : IsLabel l) : UInt8.ofNat l.length ≠ 0 := by
  intro h0
  have hl := h.toNat_ofNat
  rw [h0] at hl
  have := h.1
  simp at hl
  omega

theorem labelSize_labelWire {l : List UInt8} (h : IsLabel l) (t : List UInt8) :
    labelSize (labelWire l ++ t) = l.length + 1 := by
  simp [labelSize, labelWire, h.toNat_ofNat]

theorem drop_labelWire {l : List UInt8} (h : IsLabel l) (t : List UInt8) :
    (labelWire l ++ t).drop (labelSize (labelWire l ++ t)) = t := by
  rw [labelSize_labelWire h, ← length_labelWire l, List.drop_left]

/-! `domain_rev` reverses the labels. -/

/-- The stack after the first loop. -/
def labelStack (ls : List (List UInt8)) : List UInt8 :=
  ls.flatMap fun l => l ++ [UInt8.ofNat l.length]

theorem revPush_labels {ls : List (List UInt8)} (hls : ∀ l ∈ ls, IsLabel l) (t : List UInt8)
    {fuel : ℕ} (hfuel : ls.length < fuel) (stack : List UInt8) :
    revPush fuel (labelsWire ls ++ 0 :: t) stack = stack ++ labelStack ls := by
  induction ls generalizing fuel stack with
  | nil =>
    obtain ⟨fuel, rfl⟩ : ∃ n, fuel = n + 1 := ⟨fuel - 1, by simp at hfuel; omega⟩
    simp [revPush, labelsWire, labelStack]
  | cons l ls ih =>
    obtain ⟨fuel, rfl⟩ : ∃ n, fuel = n + 1 := ⟨fuel - 1, by simp at hfuel; omega⟩
    have hl := hls l List.mem_cons_self
    have hrest := ih (fun k hk => hls k (List.mem_cons_of_mem l hk))
      (by simpa using hfuel : ls.length < fuel)
    have hcopy : copyOut (l ++ (labelsWire ls ++ 0 :: t)) l.length = l := by
      rw [copyOut_of_le (by simp), List.take_left]
    have hdrop := drop_labelWire hl (labelsWire ls ++ 0 :: t)
    simp only [labelSize, labelWire, List.cons_append, List.headD_cons] at hdrop
    simp only [labelsWire_cons, labelWire, List.cons_append, List.append_assoc, revPush,
      List.headD_cons, hl.ofNat_ne_zero, if_false, List.tail_cons, hl.toNat_ofNat, hcopy]
    rw [hl.toNat_ofNat] at hdrop
    rw [hdrop, hrest]
    simp [labelStack]

theorem revPop_labels {ls : List (List UInt8)} (hls : ∀ l ∈ ls, IsLabel l) (junk : List UInt8)
    {fuel : ℕ} (hfuel : ls.length < fuel) :
    revPop fuel (labelStack ls ++ junk) ((labelStack ls).length - 1) =
      labelsWire ls.reverse ++ [0] := by
  induction ls using List.reverseRecOn generalizing fuel junk with
  | nil =>
    obtain ⟨fuel, rfl⟩ : ∃ n, fuel = n + 1 := ⟨fuel - 1, by simp at hfuel; omega⟩
    simp [revPop, labelStack, labelsWire]
  | append_singleton ls l ih =>
    obtain ⟨fuel, rfl⟩ : ∃ n, fuel = n + 1 := ⟨fuel - 1, by simp at hfuel; omega⟩
    have hl := hls l (by simp)
    have hpos := hl.1
    have hstack : labelStack (ls ++ [l]) = labelStack ls ++ (l ++ [UInt8.ofNat l.length]) := by
      simp [labelStack]
    have hsptr : ((labelStack (ls ++ [l])).length : ℤ) - 1 =
        (((labelStack ls).length + l.length : ℕ) : ℤ) := by
      rw [hstack]
      simp
      omega
    have hn : byteAt (labelStack (ls ++ [l]) ++ junk) ((labelStack ls).length + l.length) =
        UInt8.ofNat l.length := by
      rw [hstack, byteAt, List.append_assoc, List.getD_append_right _ _ _ _ (by omega)]
      simp
    have hbytes : (List.range l.length).map (fun i : ℕ => byteAt (labelStack (ls ++ [l]) ++ junk)
        ((((labelStack ls).length + l.length : ℕ) : ℤ) - l.length + i).toNat) = l := by
      apply List.ext_getElem
      · simp
      · intro i h₁ h₂
        have hi : ((((labelStack ls).length + l.length : ℕ) : ℤ) - l.length + i).toNat =
            (labelStack ls).length + i := by omega
        rw [List.getElem_map, List.getElem_range, hi, hstack, byteAt, List.append_assoc,
          List.getD_append_right _ _ _ _ (by omega), Nat.add_sub_cancel_left, List.append_assoc,
          List.getD_append _ _ _ _ h₂, List.getD_eq_getElem _ _ h₂]
    have hrest := ih (fun k hk => hls k (by simp [hk])) (l ++ [UInt8.ofNat l.length] ++ junk)
      (by simpa using hfuel : ls.length < fuel)
    rw [← List.append_assoc, ← hstack] at hrest
    have hback : (((labelStack ls).length + l.length : ℕ) : ℤ) - (l.length + 1) =
        (labelStack ls).length - 1 := by omega
    simp only [revPop, hsptr, Int.toNat_natCast, hn, hl.toNat_ofNat, hbytes, hback, hrest]
    rw [if_pos ⟨by omega, hl.ofNat_ne_zero⟩, List.reverse_append, labelsWire_append]
    simp [labelsWire, labelWire]

/-- `domain_rev` writes the same labels in the opposite order. -/
theorem domainRev_labels {ls : List (List UInt8)} (hls : ∀ l ∈ ls, IsLabel l) :
    domainRev (labelsWire ls ++ [0]) = labelsWire ls.reverse ++ [0] := by
  have hwire : ls.length ≤ (labelsWire ls).length := by
    clear hls
    induction ls with
    | nil => simp
    | cons l ls ih =>
      simp only [labelsWire_cons, List.length_append, length_labelWire, List.length_cons]
      omega
  have hstack : ls.length ≤ (labelStack ls).length := by
    clear hls hwire
    induction ls with
    | nil => simp
    | cons l ls ih =>
      simp only [labelStack, List.flatMap_cons, List.length_append, List.length_cons,
        List.length_nil] at ih ⊢
      omega
  have hpush : revPush (labelsWire ls ++ [0]).length (labelsWire ls ++ [0]) [] =
      [] ++ labelStack ls := revPush_labels hls [] (by simp; omega) []
  have hpop : revPop ((labelStack ls).length + 1) (labelStack ls ++ [])
      ((labelStack ls).length - 1) = labelsWire ls.reverse ++ [0] := revPop_labels hls [] (by omega)
  rw [List.append_nil] at hpop
  rw [domainRev, hpush, List.nil_append, hpop]

end BakaDns
