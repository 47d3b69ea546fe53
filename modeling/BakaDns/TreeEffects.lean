import BakaDns.RelayCase

/-!
# What an insertion leaves behind

`tree_insert` makes nodes while it walks down and finds out at the end whether it takes the
record. What it refuses changes nothing all the same, since a node that was just made refuses
nothing. Every label it walks over may be copied into a node, whatever its length.
-/

namespace BakaDns
open CBytes Words

section Rejected

variable {tn tn' : TreeNode} {e f : Element} {rev : List UInt8} {index : ElementIndex}
  {rr : ResourceRecord} {hashFun : List UInt8 → UInt32} {fuel : ℕ}

/-- After an insertion into a level without a node for the label, only the new node can be found. -/
theorem eq_of_find_insert (hnone : treeNodeFind tn rev = none)
    (h : treeNodeFind (treeNodeInsert tn rev e hashFun) rev = some f) : f = e := by
  cases tn with
  | linkedList size list =>
    obtain ⟨hmem, hmatch⟩ := mem_elems_of_find h
    rcases mem_elems_insert hmem with heq | hold
    · exact heq
    · exact absurd hmatch (List.find?_eq_none.1 hnone f hold)
  | hashBucket size bucket =>
    simp only [treeNodeFind, treeNodeInsert, pushBucket, List.getD_eq_getElem?_getD,
      List.getElem?_modify] at h hnone
    cases hchain : bucket[(rrHash rev).toNat % hashBucketSize]? with
    | none => simp [hchain] at h
    | some chain =>
      simp only [hchain, Option.map_eq_map, Option.map_some, Option.getD_some] at h hnone
      split at h
      · rcases List.find?_cons_eq_some.1 h with ⟨-, heq⟩ | ⟨-, hold⟩
        · exact heq.symm
        · rw [hnone] at hold
          cases hold
      · rw [hnone] at h
        cases h

theorem modifyFirst_eq_self {α : Type} {p : α → Bool} {g : α → α} {xs : List α} {x : α}
    (hfind : xs.find? p = some x) (hg : g x = x) : modifyFirst p g xs = xs := by
  induction xs with
  | nil => rfl
  | cons y ys ih =>
    rw [modifyFirst]
    split
    · next hy =>
      rw [List.find?_cons_of_pos hy, Option.some.injEq] at hfind
      rw [hfind, hg]
    · next hy =>
      rw [List.find?_cons_of_neg hy] at hfind
      rw [ih hfind]

/-- Writing back what is there already. -/
theorem treeNodeModify_eq_self {g : Element → Element} (hfind : treeNodeFind tn rev = some e)
    (hg : g e = e) : treeNodeModify tn rev g = tn := by
  cases tn with
  | linkedList size list => rw [treeNodeModify, modifyFirst_eq_self hfind hg]
  | hashBucket size bucket =>
    rw [treeNodeModify]
    congr 1
    apply List.ext_getElem?
    intro i
    rw [List.getElem?_modify]
    cases hchain : bucket[i]? with
    | none => rfl
    | some chain =>
      rw [Option.map_eq_map, Option.map_some]
      split
      · next hi =>
        rw [treeNodeFind, List.getD_eq_getElem?_getD, hi, hchain, Option.getD_some] at hfind
        rw [modifyFirst_eq_self hfind hg]
      · rfl

/-- The walk has come to a place where nothing is stored: there is no node for the label, or there
is one on the way with an empty level below it. -/
def Untrodden (tn : TreeNode) (rev : List UInt8) : Prop :=
  ∀ e, treeNodeFind tn rev = some e →
    e.child = some createTreeNode ∧ (rev.drop (labelSize rev)).headD 0 ≠ 0

theorem untrodden_createTreeNode (rev : List UInt8) : Untrodden createTreeNode rev := nofun

/-- Where nothing is stored, nothing is refused. -/
theorem Untrodden.accepts {ret : ℤ} (huntrodden : Untrodden tn rev)
    (h : treeInsertLoop hashFun index rr fuel tn rev = some (tn', ret)) : ret = 1 := by
  induction fuel generalizing tn tn' rev with
  | zero => cases h
  | succ fuel ih =>
    cases insertRound_of_loop h with
    | ended | stored | created => rfl
    | @refused ln _ hfind hlast _ => exact absurd hlast (huntrodden ln hfind).2
    | @descended ln _ _ _ hfind _ hbelow =>
      rw [(huntrodden ln hfind).1] at hbelow
      exact ih (untrodden_createTreeNode _) hbelow
    | paved _ hfind hmore hnext =>
      refine ih ?_ hnext
      intro f hf
      rw [eq_of_find_insert hfind hf]
      exact ⟨rfl, hmore⟩

/-- The loop of `tree_insert` refuses a record only at the end of a path that was there. -/
theorem treeInsertLoop_rejected
    (h : treeInsertLoop hashFun index rr fuel tn rev = some (tn', -1)) : tn' = tn := by
  induction fuel generalizing tn tn' rev with
  | zero => cases h
  | succ fuel ih =>
    by_cases huntrodden : Untrodden tn rev
    · cases huntrodden.accepts h
    · simp only [Untrodden, not_forall] at huntrodden
      obtain ⟨ln, hfind, -⟩ := huntrodden
      cases insertRound_of_loop h with
      | refused => rfl
      | paved _ hnone _ _ =>
        rw [hfind] at hnone
        cases hnone
      | @descended ln' child _ _ hfind' _ hloop =>
        cases hfind.symm.trans hfind'
        cases hchild : ln.child with
        | none =>
          rw [hchild] at hloop
          cases (untrodden_createTreeNode _).accepts hloop
        | some c =>
          rw [hchild] at hloop
          obtain rfl : child = c := ih hloop
          apply treeNodeModify_eq_self hfind
          rw [← hchild]

/-- A record that `insert_database` refuses leaves the tree as it was, whatever the tree and the
record are. -/
theorem insertDatabase_rejected {tree tree' : BucketTree}
    (h : insertDatabase fuel tree rr = some (tree', -1)) : tree' = tree := by
  unfold insertDatabase treeInsert at h
  split at h
  · cases h
    rfl
  · split at h
    · cases h
      rfl
    · obtain ⟨⟨root, ret⟩, hloop, h⟩ := Option.bind_eq_some_iff.1 h
      cases h
      rw [treeInsertLoop_rejected hloop]

/-- The address that `sampleRelay` has twice. -/
theorem insertDatabase_rejected_sample :
    ∃ tree tree', insertAll domainLenMax (treeInit rrHash) sampleRelay = some tree ∧
      insertDatabase domainLenMax tree
        ⟨[1, 97, 1, 98, 0], rrtypeA, rrclassIn, 0, 4, [10, 0, 0, 1]⟩ = some (tree', -1) ∧
      tree' = tree := by
  have hrun : ((insertAll domainLenMax (treeInit rrHash) sampleRelay).bind fun tree =>
      insertDatabase domainLenMax tree
        ⟨[1, 97, 1, 98, 0], rrtypeA, rrclassIn, 0, 4, [10, 0, 0, 1]⟩).map Prod.snd =
      some (-1) := by
    decide +kernel
  obtain ⟨⟨tree', ret⟩, hins, rfl⟩ := Option.map_eq_some_iff.1 hrun
  obtain ⟨tree, hall, hins⟩ := Option.bind_eq_some_iff.1 hins
  exact ⟨tree, tree', hall, hins, insertDatabase_rejected hins⟩

end Rejected

/-! Which labels are copied into nodes. -/

section Copies

variable {tn : TreeNode} {l rev : List UInt8} {ls : List (List UInt8)} {index : ElementIndex}
  {rr : ResourceRecord} {hashFun : List UInt8 → UInt32} {fuel n : ℕ}

/-- The loop of `tree_insert` with the sizes of its copies into `node_element.domain`: the one of
`tree_node_insert`, and the one behind the record that is stored at an existing node. -/
def treeInsertTraced (hashFun : List UInt8 → UInt32) (index : ElementIndex)
    (rr : ResourceRecord) : ℕ → TreeNode → List UInt8 → List ℕ × Option (TreeNode × ℤ)
  | 0, _, _ => ([], none)
  | fuel + 1, tn, revDomain =>
    let rest := revDomain.drop (labelSize revDomain)
    let next := rest.headD 0
    if revDomain.headD 0 = 0 then ([], some (tn, 1))
    else
      match treeNodeFind tn revDomain with
      | some ln =>
        if next = 0 then
          if ln.dataCnt index ≥ rrCntMax then ([], some (tn, -1))
          else if (ln.records index).any (sameRdata rr) then ([], some (tn, -1))
          else
            ([labelSize revDomain], some (treeNodeModify tn revDomain fun e =>
              { e.store index rr with domain := copyLabel e.domain revDomain }, 1))
        else
          let (copies, result) := treeInsertTraced hashFun index rr fuel
            (ln.child.getD createTreeNode) rest
          (copies, result.map fun (child, ret) =>
            (treeNodeModify tn revDomain fun e => { e with child := some child }, ret))
      | none =>
        if next = 0 then
          ([labelSize revDomain],
            some (treeNodeInsert tn revDomain ((newElement revDomain).store index rr) hashFun, 1))
        else
          let (copies, result) := treeInsertTraced hashFun index rr fuel
            (treeNodeInsert tn revDomain
              { newElement revDomain with child := some createTreeNode } hashFun)
            revDomain
          (labelSize revDomain :: copies, result)

/-- The copies that `insert_database` makes. -/
def insertCopies (fuel : ℕ) (tree : BucketTree) (rr : ResourceRecord) : List ℕ :=
  match domainLen rr.name, elementIndex rr.type with
  | some _, some index =>
    (treeInsertTraced tree.hashFun index rr fuel tree.root (domainRev rr.name)).1
  | _, _ => []

/-- Whatever the tree holds, only labels of the name are copied. -/
theorem exists_label_of_copy (hls : ∀ l ∈ ls, IsLabel l)
    (h : n ∈ (treeInsertTraced hashFun index rr fuel tn (labelsWire ls ++ [0])).1) :
    ∃ l ∈ ls, n = l.length + 1 := by
  induction fuel generalizing tn ls with
  | zero => cases h
  | succ fuel ih =>
    cases ls with
    | nil => cases h
    | cons l ls =>
      have hl := hls l List.mem_cons_self
      have hrest : ∀ k ∈ ls, IsLabel k := fun k hk => hls k (List.mem_cons_of_mem l hk)
      have hcopy : labelSize (labelsWire (l :: ls) ++ [0]) = l.length + 1 := by
        rw [labelsWire_cons_zero, labelSize_labelWire hl]
      have hdrop : (labelsWire (l :: ls) ++ [0]).drop (l.length + 1) = labelsWire ls ++ [0] := by
        rw [← hcopy, labelsWire_cons_zero, drop_labelWire hl]
      have hfirst : n ∈ [l.length + 1] → ∃ k ∈ l :: ls, n = k.length + 1 := by
        intro hn
        exact ⟨l, List.mem_cons_self, List.mem_singleton.1 hn⟩
      rw [treeInsertTraced] at h
      simp only [hcopy, hdrop] at h
      split at h
      · cases h
      · split at h
        · split at h
          · split at h
            · cases h
            · split at h
              · cases h
              · exact hfirst h
          · obtain ⟨k, hk, hn⟩ := ih hrest h
            exact ⟨k, List.mem_cons_of_mem l hk, hn⟩
        · split at h
          · exact hfirst h
          · rcases List.mem_cons.1 h with hn | h
            · exact ⟨l, List.mem_cons_self, hn⟩
            · exact ih hls h

/-- A node is found again by the label it was made for. -/
theorem nodeMatches_newElement {e : Element} (he : e.domain = (newElement rev).domain) :
    nodeMatches rev e = true := by
  have hcopy : copyOut (newElement rev).domain (labelSize rev) = copyOut rev (labelSize rev) := by
    change copyOut (copyOut rev (labelSize rev) ++ _) _ = _
    rw [copyOut_of_le (by rw [List.length_append, length_copyOut]; omega)]
    exact List.take_left' (length_copyOut _ _)
  rw [nodeMatches, he, strncmpEq_iff_copyOut, hcopy]
  exact .inl rfl

/-- Into an empty tree every label of the name is copied. -/
theorem copies_createTreeNode (hls : ∀ l ∈ ls, IsLabel l) (hfuel : 2 * ls.length ≤ fuel) :
    (treeInsertTraced hashFun index rr fuel createTreeNode (labelsWire ls ++ [0])).1 =
      ls.map fun l => l.length + 1 := by
  induction ls generalizing fuel with
  | nil => cases fuel <;> rfl
  | cons l ls ih =>
    rw [List.length_cons] at hfuel
    obtain ⟨fuel, rfl⟩ : ∃ m, fuel = m + 2 := ⟨fuel - 2, by omega⟩
    have hl := hls l List.mem_cons_self
    have hrest : ∀ k ∈ ls, IsLabel k := fun k hk => hls k (List.mem_cons_of_mem l hk)
    have hcopy := labelSize_labelWire hl (labelsWire ls ++ [0])
    have hdrop := drop_labelWire hl (labelsWire ls ++ [0])
    rw [hcopy] at hdrop
    have hhead : ¬(labelWire l ++ (labelsWire ls ++ [0])).headD 0 = 0 := hl.ofNat_ne_zero
    have hnext := labelsWire_headD_eq_zero_iff hrest
    have hnone : treeNodeFind createTreeNode (labelWire l ++ (labelsWire ls ++ [0])) = none := rfl
    rw [labelsWire_cons_zero, treeInsertTraced]
    simp only [hcopy, hdrop, if_neg hhead, hnone]
    by_cases hend : ls = []
    · rw [if_pos (hnext.2 hend), hend]
      rfl
    · -- the second round goes down from the node that the first one made
      have hfound : treeNodeFind (treeNodeInsert createTreeNode
          (labelWire l ++ (labelsWire ls ++ [0]))
          { newElement (labelWire l ++ (labelsWire ls ++ [0])) with
            child := some createTreeNode } hashFun) (labelWire l ++ (labelsWire ls ++ [0])) =
          some { newElement (labelWire l ++ (labelsWire ls ++ [0])) with
            child := some createTreeNode } :=
        List.find?_cons_of_pos (nodeMatches_newElement rfl)
      have hbelow : ¬(labelsWire ls ++ [0]).headD 0 = 0 := fun h0 => hend (hnext.1 h0)
      rw [if_neg hbelow, treeInsertTraced]
      simp only [hcopy, hdrop, if_neg hhead, hfound, if_neg hbelow, Option.getD_some]
      rw [ih hrest (by omega), List.map_cons]

/-- Whatever the tree holds, the labels that `insert_database` copies for a record fit into the
`domain` of their nodes. -/
def CopiesFit (rr : ResourceRecord) : Prop :=
  ∀ fuel tree, ∀ size ∈ insertCopies fuel tree rr, size ≤ subdomainMax

theorem domainLen_relayRecord {ip domain : List UInt8} (h : relayRecord ip domain = some rr) :
    domainLen rr.name ≠ none := by
  obtain ⟨⟨rrtype, address⟩, -, h⟩ := Option.bind_eq_some_iff.1 h
  dsimp only at h
  split at h
  · cases h
  · next hgood =>
    cases h
    have hlen := Nat.lt_of_not_le (not_or.1 hgood).2
    have hcstr : (cstr (labelsWire (words isDot (domain.map tolower)) ++ [0])).length ≤
        (labelsWire (words isDot (domain.map tolower)) ++ [0]).length :=
      (List.takeWhile_sublist _).length_le
    rw [List.length_append, List.length_singleton] at hcstr
    simp only [domainLenMax] at hlen
    dsimp only
    rw [domainLen_eq, if_pos (by omega)]
    exact Option.some_ne_none _

/-- The copies are those of the loop that `insert_database` runs. -/
theorem treeInsertTraced_result (hashFun : List UInt8 → UInt32) (index : ElementIndex)
    (rr : ResourceRecord) (fuel : ℕ) (tn : TreeNode) (rev : List UInt8) :
    (treeInsertTraced hashFun index rr fuel tn rev).2 =
      treeInsertLoop hashFun index rr fuel tn rev := by
  induction fuel generalizing tn rev with
  | zero => rfl
  | succ fuel ih =>
    rw [treeInsertTraced, treeInsertLoop]
    dsimp only
    split
    · rfl
    · cases treeNodeFind tn rev with
      | some ln =>
        dsimp only
        split
        · split
          · rfl
          · split <;> rfl
        · rw [ih]
          cases treeInsertLoop hashFun index rr fuel (ln.child.getD createTreeNode)
            (rev.drop (labelSize rev)) <;> rfl
      | none =>
        dsimp only
        split
        · rfl
        · exact ih _ _

/-- The labels of an accepted name fit into their nodes exactly when none of them has more than 49
bytes. Only the length of the whole name is checked. -/
theorem copiesFit_iff {bufs : LineBuffers} {line : List UInt8}
    (h : (loadLine bufs line).2 = some rr) :
    CopiesFit rr ↔
      ∀ label ∈ words isDot (cstr (scanLine bufs line).domainbuf), label.length < subdomainMax := by
  have hrecord : relayRecord (scanLine bufs line).ipbuf
      (cstr (scanLine bufs line).domainbuf) = some rr := by
    rw [loadLine] at h
    split at h
    · cases h
    · rw [← loadBuffers_record]
      exact h
  obtain ⟨hlabels, hname, haddress, -⟩ := relayRecord_spec hrecord
  obtain ⟨dlen, hdlen⟩ := Option.ne_none_iff_exists'.1 (domainLen_relayRecord hrecord)
  obtain ⟨index, hindex⟩ := elementIndex_of_addressSize haddress
  have hcopies : ∀ fuel tree, insertCopies fuel tree rr =
      (treeInsertTraced tree.hashFun index rr fuel tree.root
        (labelsWire (lowerLabels (words isDot (cstr (scanLine bufs line).domainbuf))).reverse ++
          [0])).1 := by
    intro fuel tree
    rw [insertCopies, hdlen, hindex, hname, domainRev_labels hlabels]
  have hreverse : ∀ l ∈ (lowerLabels (words isDot (cstr (scanLine bufs line).domainbuf))).reverse,
      IsLabel l := fun l hl => hlabels l (List.mem_reverse.1 hl)
  constructor
  · intro hfit label hlabel
    -- as the first line of the file
    have hmem : label.length + 1 ∈ insertCopies
        (2 * (lowerLabels (words isDot (cstr (scanLine bufs line).domainbuf))).reverse.length)
        (treeInit rrHash) rr := by
      rw [hcopies, treeInit, copies_createTreeNode hreverse (le_refl _)]
      refine List.mem_map.2 ⟨label.map tolower, ?_, by rw [List.length_map]⟩
      exact List.mem_reverse.2 (List.mem_map_of_mem hlabel)
    exact hfit _ _ _ hmem
  · intro hshort fuel tree size hsize
    rw [hcopies] at hsize
    obtain ⟨l, hl, rfl⟩ := exists_label_of_copy hreverse hsize
    obtain ⟨label, hlabel, rfl⟩ := List.mem_map.1 (List.mem_reverse.1 hl)
    rw [List.length_map]
    exact hshort label hlabel

/-- `1.2.3.4 ` and a label of the given length. -/
def labelLine (n : ℕ) : List UInt8 :=
  [49, 46, 50, 46, 51, 46, 52, 32] ++ List.replicate n 97 ++ [10]

/-- The record of such a line. -/
def labelRecord (n : ℕ) : ResourceRecord :=
  ⟨UInt8.ofNat n :: List.replicate n 97 ++ [0], rrtypeA, rrclassIn, 0, 4, [1, 2, 3, 4]⟩

theorem copiesFit_iff_longest :
    (loadLine ⟨[], []⟩ (labelLine 49)).2 = some (labelRecord 49) ∧ CopiesFit (labelRecord 49) := by
  have hline : (loadLine ⟨[], []⟩ (labelLine 49)).2 = some (labelRecord 49) := by decide +kernel
  exact ⟨hline, (copiesFit_iff hline).2 (by decide +kernel)⟩

/-- With one byte more the label runs over the end of its node. -/
theorem longLabel_not_copiesFit :
    (loadLine ⟨[], []⟩ (labelLine 50)).2 = some (labelRecord 50) ∧
      ¬ CopiesFit (labelRecord 50) := by
  refine ⟨by decide +kernel, fun h => ?_⟩
  have hcopy : 51 ∈ insertCopies 2 (treeInit rrHash) (labelRecord 50) := by decide +kernel
  exact absurd (h _ _ _ hcopy) (by decide)

end Copies

end BakaDns
