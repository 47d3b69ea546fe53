import BakaDns.Lib.ChainHeap
import BakaDns.Trees

/-!
# The tree as a table of names

Every level of the tree is a finite map from labels to nodes, whichever container holds it. On
that reading `tree_insert` changes the records of one name and kind and leaves all others alone.
-/

namespace BakaDns
open CBytes
open ChainHeap (distributed_perm flatten_modify_cons_perm)

/-- A label that fits into the `domain` of a node. -/
def IsNodeLabel (l : List UInt8) : Prop := 0 < l.length ∧ l.length < subdomainMax ∧ ∀ c ∈ l, c ≠ 0

/-- A label of a name that is looked up. -/
def IsQueryLabel (l : List UInt8) : Prop := 0 < l.length ∧ l.length ≤ 63 ∧ ∀ c ∈ l, c ≠ 0

/-- The contents of a node's `domain` that holds a label. -/
def domainOf (l : List UInt8) : List UInt8 := labelWire l ++ List.replicate (49 - l.length) 0

theorem IsNodeLabel.isQueryLabel {l : List UInt8} (h : IsNodeLabel l) : IsQueryLabel l := by
  have := h.2.1
  simp only [subdomainMax] at this
  exact ⟨h.1, by omega, h.2.2⟩

theorem IsQueryLabel.isLabel {l : List UInt8} (h : IsQueryLabel l) : IsLabel l :=
  ⟨h.1, by have := h.2.1; omega⟩

theorem cstr_append_of_ne_zero {s t : List UInt8} (hs : ∀ c ∈ s, c ≠ 0) :
    cstr (s ++ t) = s ++ cstr t := by
  induction s with
  | nil => rfl
  | cons c s ih =>
    have hc : c ≠ 0 := hs c List.mem_cons_self
    rw [List.cons_append, cstr_cons, if_neg hc, ih fun d hd => hs d (List.mem_cons_of_mem c hd)]
    rfl

theorem cstr_replicate_zero (n : ℕ) : cstr (List.replicate n 0) = [] := by
  cases n <;> simp [List.replicate_succ, cstr_cons]

theorem IsQueryLabel.labelWire_ne_zero {l : List UInt8} (h : IsQueryLabel l) :
    ∀ c ∈ labelWire l, c ≠ 0 := by
  intro c hc
  rcases List.mem_cons.1 hc with rfl | hc
  · exact h.isLabel.ofNat_ne_zero
  · exact h.2.2 c hc

theorem labelWire_injective {l k : List UInt8} (h : labelWire l = labelWire k) : l = k :=
  List.tail_eq_of_cons_eq h

theorem cstr_domainOf {l : List UInt8} (hl : IsQueryLabel l) : cstr (domainOf l) = labelWire l := by
  rw [domainOf, cstr_append_of_ne_zero hl.labelWire_ne_zero, cstr_replicate_zero, List.append_nil]

theorem domainOf_injective {l k : List UInt8} (hl : IsQueryLabel l) (hk : IsQueryLabel k)
    (h : domainOf l = domainOf k) : l = k := by
  have hc := congrArg cstr h
  rw [cstr_domainOf hl, cstr_domainOf hk] at hc
  exact labelWire_injective hc

/-- `tree_node_find`'s comparison tells labels apart, whatever follows the one looked for. -/
theorem nodeMatches_iff {l k t : List UInt8} (hl : IsQueryLabel l) (hk : IsNodeLabel k)
    {e : Element} (he : e.domain = domainOf k) :
    nodeMatches (labelWire l ++ t) e = true ↔ l = k := by
  rw [nodeMatches, labelSize_labelWire hl.isLabel, he, strncmpEq_iff,
    cstr_append_of_ne_zero hl.labelWire_ne_zero, cstr_domainOf hk.isQueryLabel,
    ← length_labelWire l, List.take_left]
  constructor
  · intro h
    -- the two length octets are equal, so the bound covers the whole label of the node
    have hhead : UInt8.ofNat l.length = UInt8.ofNat k.length := by
      simpa [labelWire] using congrArg (fun s : List UInt8 => s.headD 0) h
    have hlen : l.length = k.length := by
      rw [← hl.isLabel.toNat_ofNat, ← hk.isQueryLabel.isLabel.toNat_ofNat, hhead]
    rw [length_labelWire, hlen, ← length_labelWire k, List.take_length] at h
    exact labelWire_injective h
  · rintro rfl
    rw [List.take_length]

/-- Only the label itself is hashed, not what follows it. -/
theorem rrHash_labelWire {l : List UInt8} (hl : IsLabel l) (t : List UInt8) :
    rrHash (labelWire l ++ t) = rrHash (labelWire l) := by
  have hhead : ∀ t, ((labelWire l ++ t).headD 0).toNat = l.length := by
    intro t
    simp [labelWire, hl.toNat_ofNat]
  have hfold : ∀ is : List ℕ, (∀ i ∈ is, i < l.length) → ∀ h : UInt32,
      is.foldl (fun hsh i => hsh * hashSeed + (byteAt (labelWire l ++ t) i).toUInt32) h =
        is.foldl (fun hsh i => hsh * hashSeed + (byteAt (labelWire l) i).toUInt32) h := by
    intro is
    induction is with
    | nil => intro _ _; rfl
    | cons i is ih =>
      intro his h
      have hi := his i List.mem_cons_self
      have hbyte : byteAt (labelWire l ++ t) i = byteAt (labelWire l) i := by
        rw [byteAt, List.getD_append _ _ _ _ (by simp; omega), byteAt]
      rw [List.foldl_cons, List.foldl_cons, hbyte, ih fun j hj => his j (List.mem_cons_of_mem i hj)]
  have h0 := hhead []
  rw [List.append_nil] at h0
  rw [rrHash, rrHash, hhead t, h0]
  exact hfold _ (fun i hi => List.mem_range.1 hi) 0

/-! Levels. -/

/-- The sibling nodes of a level. -/
def TreeNode.elems : TreeNode → List Element
  | .linkedList _ list => list
  | .hashBucket _ bucket => bucket.flatten

def TreeNode.size : TreeNode → UInt32
  | .linkedList size _ => size
  | .hashBucket size _ => size

/-- Every node sits in the chain of its label's hash. -/
def Placed (bucket : List (List Element)) : Prop :=
  bucket.length = hashBucketSize ∧
    ∀ i chain, bucket[i]? = some chain → ∀ e ∈ chain, (rrHash e.domain).toNat % hashBucketSize = i

/-- The container fits the number of nodes. -/
def TreeNode.ContainerOk : TreeNode → Prop
  | .linkedList _ list => list.length ≤ hashSwitchThreshold
  | .hashBucket _ bucket => hashSwitchThreshold < bucket.flatten.length ∧ Placed bucket

structure TreeNode.LevelOk (tn : TreeNode) : Prop where
  container : tn.ContainerOk
  size : tn.size = UInt32.ofNat tn.elems.length
  label : ∀ e ∈ tn.elems, ∃ l, IsNodeLabel l ∧ e.domain = domainOf l
  distinct : (tn.elems.map NodeElement.domain).Nodup

/-- The counts of a node agree with what it stores. -/
def NodeElement.DataOk {τ : Type} (e : NodeElement τ) : Prop :=
  ∀ index, e.dataCnt index = (e.data index).length ∧ e.dataCnt index ≤ rrCntMax

/-- The representation invariant of the tree. -/
inductive TreeNode.Ok : TreeNode → Prop
  | mk {tn : TreeNode} (level : tn.LevelOk) (data : ∀ e ∈ tn.elems, e.DataOk)
      (child : ∀ e ∈ tn.elems, ∀ c, e.child = some c → c.Ok) : tn.Ok

theorem TreeNode.Ok.level {tn : TreeNode} (h : tn.Ok) : tn.LevelOk := by
  cases h with
  | mk level _ _ => exact level

theorem TreeNode.Ok.data {tn : TreeNode} (h : tn.Ok) : ∀ e ∈ tn.elems, e.DataOk := by
  cases h with
  | mk _ data _ => exact data

theorem TreeNode.Ok.child {tn : TreeNode} (h : tn.Ok) :
    ∀ e ∈ tn.elems, ∀ c, e.child = some c → c.Ok := by
  cases h with
  | mk _ _ child => exact child

theorem createTreeNode_ok : createTreeNode.Ok := by
  refine .mk ⟨?_, rfl, ?_, ?_⟩ ?_ ?_ <;>
    simp [createTreeNode, TreeNode.elems, TreeNode.ContainerOk]

section Find

variable {tn : TreeNode} {l t : List UInt8}

theorem find?_eq_some_of_unique {α : Type} {p : α → Bool} {xs : List α} {x : α} (hx : x ∈ xs)
    (hp : p x = true) (huniq : ∀ y ∈ xs, p y = true → y = x) : xs.find? p = some x := by
  cases hf : xs.find? p with
  | none => exact absurd hp (by simpa using List.find?_eq_none.1 hf x hx)
  | some y => rw [huniq y (List.mem_of_find?_eq_some hf) (List.find?_some hf)]

theorem TreeNode.LevelOk.eq_of_domain (h : tn.LevelOk) {e f : Element} (he : e ∈ tn.elems)
    (hf : f ∈ tn.elems) (hd : e.domain = f.domain) : e = f :=
  List.inj_on_of_nodup_map h.distinct he hf hd

theorem nodeMatches_iff_domain {e : Element} (he : ∃ k, IsNodeLabel k ∧ e.domain = domainOf k)
    (hl : IsQueryLabel l) : nodeMatches (labelWire l ++ t) e = true ↔ e.domain = domainOf l := by
  obtain ⟨k, hk, hd⟩ := he
  rw [nodeMatches_iff hl hk hd, hd]
  constructor
  · rintro rfl
    rfl
  · intro hdom
    exact (domainOf_injective hk.isQueryLabel hl hdom).symm

theorem TreeNode.LevelOk.matches_iff (h : tn.LevelOk) (hl : IsQueryLabel l) {e : Element}
    (he : e ∈ tn.elems) : nodeMatches (labelWire l ++ t) e = true ↔ e.domain = domainOf l :=
  nodeMatches_iff_domain (h.label e he) hl

/-- The hash of a node's `domain` is the hash its label is looked up with. -/
theorem rrHash_domainOf (hl : IsQueryLabel l) :
    rrHash (domainOf l) = rrHash (labelWire l ++ t) := by
  rw [domainOf, rrHash_labelWire hl.isLabel, rrHash_labelWire hl.isLabel]

theorem mem_elems_of_find {target : List UInt8} {e : Element}
    (h : treeNodeFind tn target = some e) :
    e ∈ tn.elems ∧ nodeMatches target e = true := by
  cases tn with
  | linkedList size list => exact ⟨List.mem_of_find?_eq_some h, List.find?_some h⟩
  | hashBucket size bucket =>
    refine ⟨?_, List.find?_some h⟩
    have hmem := List.mem_of_find?_eq_some h
    rw [List.getD_eq_getElem?_getD] at hmem
    cases hb : bucket[(rrHash target).toNat % hashBucketSize]? with
    | none => simp [hb] at hmem
    | some chain =>
      rw [hb] at hmem
      exact List.mem_flatten.2 ⟨chain, List.mem_of_getElem? hb, hmem⟩

/-- The node of a label that the level holds is found. -/
theorem TreeNode.LevelOk.find_eq_some (h : tn.LevelOk) (hl : IsQueryLabel l) {e : Element}
    (he : e ∈ tn.elems) (hd : e.domain = domainOf l) :
    treeNodeFind tn (labelWire l ++ t) = some e := by
  have hmatch : nodeMatches (labelWire l ++ t) e = true := (h.matches_iff hl he).2 hd
  have huniq : ∀ f ∈ tn.elems, nodeMatches (labelWire l ++ t) f = true → f = e := by
    intro f hf hm
    exact h.eq_of_domain hf he (((h.matches_iff hl hf).1 hm).trans hd.symm)
  cases tn with
  | linkedList size list => exact find?_eq_some_of_unique he hmatch huniq
  | hashBucket size bucket =>
    obtain ⟨chain, hchain, hmem⟩ := List.mem_flatten.1 he
    obtain ⟨i, hi⟩ := List.mem_iff_getElem?.1 hchain
    have hplace := h.container.2.2 i chain hi e hmem
    rw [hd, rrHash_domainOf hl] at hplace
    change (bucket.getD _ []).find? _ = _
    rw [hplace, List.getD_eq_getElem?_getD, hi]
    exact find?_eq_some_of_unique hmem hmatch fun f hf hm =>
      huniq f (List.mem_flatten.2 ⟨chain, hchain, hf⟩) hm

theorem TreeNode.LevelOk.find_eq_some_iff (h : tn.LevelOk) (hl : IsQueryLabel l) {e : Element} :
    treeNodeFind tn (labelWire l ++ t) = some e ↔ e ∈ tn.elems ∧ e.domain = domainOf l := by
  constructor
  · intro hf
    obtain ⟨he, hm⟩ := mem_elems_of_find hf
    exact ⟨he, (h.matches_iff hl he).1 hm⟩
  · rintro ⟨he, hd⟩
    exact h.find_eq_some hl he hd

end Find

/-! A new node on a level. -/

section Insert

theorem Placed.index_lt {bucket : List (List Element)} (h : Placed bucket) (n : ℕ) :
    n % hashBucketSize < bucket.length := by
  rw [h.1]
  exact Nat.mod_lt _ (by decide)

theorem Placed.push {bucket : List (List Element)} (h : Placed bucket) {e : Element}
    {hash : UInt32} (hhash : rrHash e.domain = hash) : Placed (pushBucket hash bucket e) := by
  refine ⟨by rw [pushBucket, List.length_modify, h.1], ?_⟩
  intro i chain hi f hf
  rw [pushBucket, List.getElem?_modify] at hi
  cases hb : bucket[i]? with
  | none => simp [hb] at hi
  | some c =>
    simp only [hb, Option.map_eq_map, Option.map_some, Option.some.injEq] at hi
    split at hi
    · next heq =>
      subst hi
      rcases List.mem_cons.1 hf with rfl | hf
      · rw [hhash]
        exact heq
      · exact h.2 i c hb f hf
    · subst hi
      exact h.2 i c hb f hf

theorem placed_replicate : Placed (List.replicate hashBucketSize []) := by
  refine ⟨List.length_replicate, ?_⟩
  intro i chain hi e he
  have hc : chain = [] := (List.mem_replicate.1 (List.mem_of_getElem? hi)).2
  simp [hc] at he

/-- The switch moves every node of the chain into the bucket. -/
theorem foldl_pushBucket {bucket : List (List Element)} (h : Placed bucket) (es : List Element) :
    Placed (es.foldl (fun b e => pushBucket (rrHash e.domain) b e) bucket) ∧
      (es.foldl (fun b e => pushBucket (rrHash e.domain) b e) bucket).flatten.Perm
        (es ++ bucket.flatten) := by
  refine ⟨?_, distributed_perm fun e _ => h.index_lt (rrHash e.domain).toNat⟩
  induction es generalizing bucket with
  | nil => exact h
  | cons e es ih => exact ih (h.push rfl)

variable {tn : TreeNode} {l t : List UInt8} {e : Element}

theorem TreeNode.LevelOk.insert_perm (h : tn.LevelOk) (revDomain : List UInt8) (e : Element) :
    (treeNodeInsert tn revDomain e rrHash).elems.Perm (e :: tn.elems) := by
  cases tn with
  | linkedList size list =>
    simp only [treeNodeInsert]
    split
    · have hperm := (foldl_pushBucket placed_replicate (e :: list)).2
      rw [List.flatten_replicate_nil, List.append_nil] at hperm
      exact hperm
    · exact List.Perm.refl _
  | hashBucket size bucket => exact flatten_modify_cons_perm (h.container.2.index_lt _) e

theorem treeNodeInsert_size (tn : TreeNode) (revDomain : List UInt8) (e : Element)
    (hashFun : List UInt8 → UInt32) :
    (treeNodeInsert tn revDomain e hashFun).size = tn.size + 1 := by
  cases tn with
  | linkedList size list =>
    simp only [treeNodeInsert]
    split <;> rfl
  | hashBucket size bucket => rfl

/-- The counter has not wrapped around while the level is a linked list. -/
theorem TreeNode.LevelOk.size_list {size : UInt32} {list : List Element}
    (h : (TreeNode.linkedList size list).LevelOk) : (size + 1).toNat = list.length + 1 := by
  have hsize : size = UInt32.ofNat list.length := h.size
  have hle : list.length ≤ 32 := h.container
  rw [hsize, ← UInt32.ofNat_one, ← UInt32.ofNat_add, UInt32.toNat_ofNat']
  omega

theorem TreeNode.LevelOk.insert_container (h : tn.LevelOk) (hl : IsNodeLabel l)
    (he : e.domain = domainOf l) :
    (treeNodeInsert tn (labelWire l ++ t) e rrHash).ContainerOk := by
  have hlength := (h.insert_perm (labelWire l ++ t) e).length_eq
  cases tn with
  | linkedList size list =>
    have hsize := h.size_list
    simp only [treeNodeInsert] at hlength ⊢
    split at hlength
    · next hlarge =>
      rw [if_pos hlarge]
      refine ⟨?_, (foldl_pushBucket placed_replicate (e :: list)).1⟩
      rw [hsize] at hlarge
      exact hlarge.trans_eq hlength.symm
    · next hsmall =>
      rw [if_neg hsmall]
      rw [hsize] at hsmall
      exact Nat.le_of_not_lt hsmall
  | hashBucket size bucket =>
    have hhash : rrHash e.domain = rrHash (labelWire l ++ t) := by
      rw [he, rrHash_domainOf hl.isQueryLabel]
    refine ⟨?_, h.container.2.push hhash⟩
    exact (Nat.lt_succ_of_lt h.container.1).trans_eq hlength.symm

/-- A level stays in order when a label it does not hold is added. -/
theorem TreeNode.LevelOk.insert (h : tn.LevelOk) (hl : IsNodeLabel l) (he : e.domain = domainOf l)
    (hnew : ∀ f ∈ tn.elems, f.domain ≠ domainOf l) :
    (treeNodeInsert tn (labelWire l ++ t) e rrHash).LevelOk where
  container := h.insert_container hl he
  size := by
    rw [treeNodeInsert_size, h.size, (h.insert_perm _ e).length_eq, List.length_cons,
      UInt32.ofNat_add]
    rfl
  label f hf := by
    rcases List.mem_cons.1 ((h.insert_perm _ e).mem_iff.1 hf) with rfl | hf
    · exact ⟨l, hl, he⟩
    · exact h.label f hf
  distinct := by
    rw [((h.insert_perm _ e).map NodeElement.domain).nodup_iff, List.map_cons, List.nodup_cons]
    refine ⟨?_, h.distinct⟩
    intro hmem
    obtain ⟨f, hf, hd⟩ := List.mem_map.1 hmem
    exact hnew f hf (hd.trans he)

theorem TreeNode.Ok.insert (h : tn.Ok) (hl : IsNodeLabel l) (he : e.domain = domainOf l)
    (hnew : ∀ f ∈ tn.elems, f.domain ≠ domainOf l) (hdata : e.DataOk)
    (hchild : ∀ c, e.child = some c → c.Ok) :
    (treeNodeInsert tn (labelWire l ++ t) e rrHash).Ok := by
  refine .mk (h.level.insert hl he hnew) ?_ ?_
  · intro f hf
    rcases List.mem_cons.1 ((h.level.insert_perm _ e).mem_iff.1 hf) with rfl | hf
    · exact hdata
    · exact h.data f hf
  · intro f hf
    rcases List.mem_cons.1 ((h.level.insert_perm _ e).mem_iff.1 hf) with rfl | hf
    · exact hchild
    · exact h.child f hf

end Insert

/-! Writing to the node of a label. -/

section Modify

/-- One function applied to every node of a level. -/
def TreeNode.mapElems (g : Element → Element) : TreeNode → TreeNode
  | .linkedList size list => .linkedList size (list.map g)
  | .hashBucket size bucket => .hashBucket size (bucket.map (List.map g))

theorem TreeNode.elems_mapElems (g : Element → Element) (tn : TreeNode) :
    (tn.mapElems g).elems = tn.elems.map g := by
  cases tn with
  | linkedList size list => rfl
  | hashBucket size bucket => exact List.map_flatten.symm

theorem TreeNode.LevelOk.mapElems {tn : TreeNode} (h : tn.LevelOk) {g : Element → Element}
    (hg : ∀ e, (g e).domain = e.domain) : (tn.mapElems g).LevelOk where
  container := by
    have hlength : (tn.mapElems g).elems.length = tn.elems.length := by
      rw [tn.elems_mapElems, List.length_map]
    cases tn with
    | linkedList size list => exact hlength.trans_le h.container
    | hashBucket size bucket =>
      refine ⟨h.container.1.trans_eq hlength.symm, (List.length_map _).trans h.container.2.1, ?_⟩
      intro i chain hi e he
      obtain ⟨c, hc, rfl⟩ := Option.map_eq_some_iff.1 ((List.getElem?_map ..).symm.trans hi)
      obtain ⟨f, hf, rfl⟩ := List.mem_map.1 he
      rw [hg]
      exact h.container.2.2 i c hc f hf
  size := by
    rw [tn.elems_mapElems, List.length_map, ← h.size]
    cases tn <;> rfl
  label e he := by
    rw [tn.elems_mapElems] at he
    obtain ⟨f, hf, rfl⟩ := List.mem_map.1 he
    rw [hg]
    exact h.label f hf
  distinct := by
    have hmap : (tn.elems.map g).map NodeElement.domain = tn.elems.map NodeElement.domain := by
      rw [List.map_map]
      exact List.map_congr_left fun e _ => hg e
    rw [tn.elems_mapElems, hmap]
    exact h.distinct

theorem map_ite_eq_self {α : Type} {p : α → Prop} [DecidablePred p] {f : α → α} {xs : List α}
    (h : ∀ x ∈ xs, ¬p x) : xs.map (fun x => if p x then f x else x) = xs := by
  refine (List.map_congr_left ?_).trans (List.map_id xs)
  intro x hx
  exact if_neg (h x hx)

theorem modifyFirst_eq_map {α : Type} {p : α → Bool} {f : α → α} {xs : List α}
    (h : xs.Pairwise fun x y => ¬(p x = true ∧ p y = true)) :
    modifyFirst p f xs = xs.map fun x => if p x = true then f x else x := by
  induction xs with
  | nil => rfl
  | cons x xs ih =>
    obtain ⟨hx, hxs⟩ := List.pairwise_cons.1 h
    rw [modifyFirst, List.map_cons]
    split
    · next hp => rw [map_ite_eq_self fun y hy hpy => hx y hy ⟨hp, hpy⟩]
    · rw [ih hxs]

/-- The node of label `l` rewritten, every other node as it was. -/
def atLabel (l : List UInt8) (f : Element → Element) (e : Element) : Element :=
  if e.domain = domainOf l then f e else e

variable {tn : TreeNode} {l t : List UInt8} {f : Element → Element}

theorem atLabel_domain (hf : ∀ e, e.domain = domainOf l → (f e).domain = domainOf l)
    (e : Element) : (atLabel l f e).domain = e.domain := by
  rw [atLabel]
  split
  · next he => rw [hf e he, he]
  · rfl

theorem TreeNode.LevelOk.modifyFirst_eq (h : tn.LevelOk) (hl : IsQueryLabel l)
    {es : List Element} (hes : es.Sublist tn.elems) :
    modifyFirst (nodeMatches (labelWire l ++ t)) f es = es.map (atLabel l f) := by
  have hmatch : ∀ e ∈ es, nodeMatches (labelWire l ++ t) e = true ↔ e.domain = domainOf l :=
    fun e he => h.matches_iff hl (hes.subset he)
  have hdistinct : es.Pairwise fun x y => x.domain ≠ y.domain :=
    (List.pairwise_map.1 h.distinct).sublist hes
  rw [modifyFirst_eq_map]
  · refine List.map_congr_left fun e he => ?_
    rw [atLabel]
    exact if_congr (hmatch e he) rfl rfl
  · refine hdistinct.imp_of_mem ?_
    rintro x y hx hy hne ⟨hpx, hpy⟩
    exact hne (((hmatch x hx).1 hpx).trans ((hmatch y hy).1 hpy).symm)

/-- Writing through the pointer that a lookup returned rewrites the one node of that label. -/
theorem TreeNode.LevelOk.modify_eq (h : tn.LevelOk) (hl : IsQueryLabel l) :
    treeNodeModify tn (labelWire l ++ t) f = tn.mapElems (atLabel l f) := by
  cases tn with
  | linkedList size list =>
    rw [treeNodeModify, h.modifyFirst_eq hl (List.Sublist.refl list)]
    rfl
  | hashBucket size bucket =>
    rw [treeNodeModify, TreeNode.mapElems]
    congr 1
    apply List.ext_getElem?
    intro i
    rw [List.getElem?_modify, List.getElem?_map]
    cases hi : bucket[i]? with
    | none => rfl
    | some chain =>
      have hchain : chain ∈ bucket := List.mem_of_getElem? hi
      have hsub : chain.Sublist bucket.flatten := List.sublist_flatten_of_mem hchain
      rw [Option.map_eq_map, Option.map_some, Option.map_some]
      split
      · rw [h.modifyFirst_eq hl hsub]
      · next hne =>
        -- a node of this label would sit in the chain that was searched
        have hnone : ∀ e ∈ chain, ¬e.domain = domainOf l := by
          intro e he hd
          have hplace := h.container.2.2 i chain hi e he
          rw [hd, rrHash_domainOf hl] at hplace
          exact hne hplace
        exact congrArg some (map_ite_eq_self hnone).symm

theorem TreeNode.Ok.modify (h : tn.Ok) (hl : IsQueryLabel l)
    (hdom : ∀ e, e.domain = domainOf l → (f e).domain = domainOf l)
    (hdata : ∀ e ∈ tn.elems, e.domain = domainOf l → (f e).DataOk)
    (hchild : ∀ e ∈ tn.elems, e.domain = domainOf l → ∀ c, (f e).child = some c → c.Ok) :
    (treeNodeModify tn (labelWire l ++ t) f).Ok := by
  rw [h.level.modify_eq hl]
  refine .mk (h.level.mapElems (atLabel_domain hdom)) ?_ ?_
  · intro _ hmem
    rw [tn.elems_mapElems] at hmem
    obtain ⟨e, he, rfl⟩ := List.mem_map.1 hmem
    rw [atLabel]
    split
    · next hd => exact hdata e he hd
    · exact h.data e he
  · intro _ hmem
    rw [tn.elems_mapElems] at hmem
    obtain ⟨e, he, rfl⟩ := List.mem_map.1 hmem
    rw [atLabel]
    split
    · next hd => exact hchild e he hd
    · exact h.child e he

end Modify

/-! A level as a map from labels to nodes. -/

section Lookup

def TreeNode.lookup (tn : TreeNode) (l : List UInt8) : Option Element :=
  tn.elems.find? fun e => e.domain = domainOf l

variable {tn : TreeNode} {l k t : List UInt8}

theorem TreeNode.LevelOk.lookup_eq_some_iff (h : tn.LevelOk) {e : Element} :
    tn.lookup l = some e ↔ e ∈ tn.elems ∧ e.domain = domainOf l := by
  constructor
  · intro hf
    exact ⟨List.mem_of_find?_eq_some hf, by simpa using List.find?_some hf⟩
  · rintro ⟨he, hd⟩
    refine find?_eq_some_of_unique he (by simpa using hd) fun f hf hp => ?_
    exact h.eq_of_domain hf he ((of_decide_eq_true hp).trans hd.symm)

theorem TreeNode.LevelOk.lookup_eq_none_iff (h : tn.LevelOk) :
    tn.lookup l = none ↔ ∀ e ∈ tn.elems, e.domain ≠ domainOf l := by
  rw [Option.eq_none_iff_forall_ne_some]
  constructor
  · intro hno e he hd
    exact hno e (h.lookup_eq_some_iff.2 ⟨he, hd⟩)
  · intro hno e he
    obtain ⟨hmem, hd⟩ := h.lookup_eq_some_iff.1 he
    exact hno e hmem hd

/-- Both containers find the node of a label. -/
theorem TreeNode.LevelOk.find_eq_lookup (h : tn.LevelOk) (hl : IsQueryLabel l) :
    treeNodeFind tn (labelWire l ++ t) = tn.lookup l := by
  apply Option.ext
  intro e
  rw [h.find_eq_some_iff hl, h.lookup_eq_some_iff]

theorem TreeNode.LevelOk.lookup_insert (h : tn.LevelOk) (hl : IsNodeLabel l) (hk : IsQueryLabel k)
    {e : Element} (he : e.domain = domainOf l) (hnew : tn.lookup l = none) :
    (treeNodeInsert tn (labelWire l ++ t) e rrHash).lookup k =
      if k = l then some e else tn.lookup k := by
  have hfresh := h.lookup_eq_none_iff.1 hnew
  have hlevel := h.insert (t := t) hl he hfresh
  have hmem : ∀ f, f ∈ (treeNodeInsert tn (labelWire l ++ t) e rrHash).elems ↔
      f = e ∨ f ∈ tn.elems := by
    intro f
    rw [(h.insert_perm _ e).mem_iff, List.mem_cons]
  apply Option.ext
  intro f
  rw [hlevel.lookup_eq_some_iff, hmem]
  split
  · next hkl =>
    subst hkl
    constructor
    · rintro ⟨rfl | hf, hd⟩
      · rfl
      · exact absurd hd (hfresh f hf)
    · intro hf
      cases hf
      exact ⟨.inl rfl, he⟩
  · next hkl =>
    rw [h.lookup_eq_some_iff]
    constructor
    · rintro ⟨rfl | hf, hd⟩
      · exact absurd (domainOf_injective hk hl.isQueryLabel (hd.symm.trans he)) hkl
      · exact ⟨hf, hd⟩
    · rintro ⟨hf, hd⟩
      exact ⟨.inr hf, hd⟩

theorem TreeNode.LevelOk.lookup_modify (h : tn.LevelOk) (hl : IsQueryLabel l)
    (hk : IsQueryLabel k) {f : Element → Element}
    (hf : ∀ e, e.domain = domainOf l → (f e).domain = domainOf l) :
    (treeNodeModify tn (labelWire l ++ t) f).lookup k =
      if k = l then (tn.lookup k).map f else tn.lookup k := by
  have hfind : (tn.elems.map (atLabel l f)).find? (fun e => decide (e.domain = domainOf k)) =
      (tn.lookup k).map (atLabel l f) := by
    rw [List.find?_map]
    congr 1
    refine congrArg (fun p => tn.elems.find? p) (funext fun e => ?_)
    exact congrArg (fun d => decide (d = domainOf k)) (atLabel_domain hf e)
  rw [h.modify_eq hl, TreeNode.lookup, tn.elems_mapElems, hfind]
  cases he : tn.lookup k with
  | none => simp
  | some e =>
    obtain ⟨-, hd⟩ := h.lookup_eq_some_iff.1 he
    rw [Option.map_some, Option.map_some, atLabel, hd]
    split
    · next heq => rw [if_pos (domainOf_injective hk hl heq)]
    · next hne =>
      rw [if_neg]
      rintro rfl
      exact hne rfl

end Lookup

end BakaDns
