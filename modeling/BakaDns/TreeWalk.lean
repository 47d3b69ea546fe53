import BakaDns.TreesRefinement

/-!
# Walking down the tree

`tree_insert` and `tree_search` follow the labels of a reversed name. Read as a function from
names and kinds to records, a tree is changed by an insertion at one place only.
-/

namespace BakaDns
open CBytes

/-- The records a tree holds for a reversed name. -/
def TreeNode.stored : List (List UInt8) → TreeNode → ElementIndex → List ResourceRecord
  | [], _, _ => []
  | [l], tn, index => (tn.lookup l).elim [] fun e => e.records index
  | l :: k :: ls, tn, index =>
    ((tn.lookup l).bind NodeElement.child).elim [] fun c => TreeNode.stored (k :: ls) c index

/-- The records of a name after another one was inserted. -/
def addRecord (rr : ResourceRecord) (rs : List ResourceRecord) : List ResourceRecord :=
  if rrCntMax ≤ rs.length ∨ rs.any (sameRdata rr) = true then rs else rs ++ [rr]

variable {tn tn' c : TreeNode} {e : Element} {l k : List UInt8} {ls ks : List (List UInt8)}
  {index j : ElementIndex} {rr : ResourceRecord} {fuel : ℕ}

theorem labelsWire_headD_eq_zero_iff (hls : ∀ l ∈ ls, IsLabel l) :
    (labelsWire ls ++ [0]).headD 0 = 0 ↔ ls = [] := by
  cases ls with
  | nil => simp [labelsWire]
  | cons l ls =>
    have hl := (hls l List.mem_cons_self).ofNat_ne_zero
    constructor
    · intro h
      exact absurd h hl
    · intro h
      cases h

theorem NodeElement.DataOk.records_eq (h : e.DataOk) : e.records index = e.data index := by
  rw [NodeElement.records, (h index).1, List.take_length]

theorem NodeElement.records_store (h : e.DataOk) (rr : ResourceRecord) :
    (e.store index rr).records j =
      if j = index then e.records index ++ [rr] else e.records j := by
  by_cases hj : j = index
  · subst hj
    have hdrop : (e.data j).drop ((e.data j).length + 1) = [] :=
      List.drop_eq_nil_of_le (Nat.le_succ _)
    rw [if_pos rfl, h.records_eq]
    simp [NodeElement.records, NodeElement.store, (h j).1, hdrop]
  · simp [NodeElement.records, NodeElement.store, hj]

theorem NodeElement.DataOk.store (h : e.DataOk) (hroom : e.dataCnt index < rrCntMax)
    (rr : ResourceRecord) : (e.store index rr).DataOk := by
  intro j
  obtain ⟨hcnt, hmax⟩ := h j
  by_cases hj : j = index
  · subst hj
    refine ⟨?_, ?_⟩
    · simp [NodeElement.store, hcnt]
    · simp only [NodeElement.store, Function.update_self]
      exact hroom
  · simpa [NodeElement.store, hj] using ⟨hcnt, hmax⟩

theorem copyLabel_labelWire (hl : IsQueryLabel l) (domain t : List UInt8) :
    copyLabel domain (labelWire l ++ t) = labelWire l ++ domain.drop (l.length + 1) := by
  rw [copyLabel, labelSize_labelWire hl.isLabel, copyOut_of_le (by simp),
    ← length_labelWire l, List.take_left]

theorem newElement_domain (hl : IsNodeLabel l) (t : List UInt8) :
    (newElement (labelWire l ++ t)).domain = domainOf l := by
  change copyLabel (List.replicate subdomainMax 0) (labelWire l ++ t) = domainOf l
  rw [copyLabel_labelWire hl.isQueryLabel, List.drop_replicate, domainOf]
  congr 2
  simp only [subdomainMax]
  omega

theorem newElement_store_domain (hl : IsNodeLabel l) (t : List UInt8) (index : ElementIndex)
    (rr : ResourceRecord) :
    ((newElement (labelWire l ++ t)).store index rr).domain = domainOf l :=
  newElement_domain hl t

theorem newElement_child_domain (hl : IsNodeLabel l) (t : List UInt8) (c : TreeNode) :
    NodeElement.domain { newElement (labelWire l ++ t) with child := some c } = domainOf l :=
  newElement_domain hl t

theorem newElement_dataOk (rev : List UInt8) : (newElement rev).DataOk := fun _ =>
  ⟨rfl, Nat.zero_le _⟩

theorem copyLabel_domainOf (hl : IsQueryLabel l) (t : List UInt8) :
    copyLabel (domainOf l) (labelWire l ++ t) = domainOf l := by
  rw [copyLabel_labelWire hl, domainOf, ← length_labelWire l, List.drop_left]

theorem stored_createTreeNode (ks : List (List UInt8)) (j : ElementIndex) :
    TreeNode.stored ks createTreeNode j = [] := by
  match ks with
  | [] => rfl
  | [k] => rfl
  | k :: k' :: ks => rfl

/-- The level below a node, made if there is none. -/
theorem TreeNode.Ok.child_getD (h : tn.Ok) (he : tn.lookup l = some e) :
    (e.child.getD createTreeNode).Ok := by
  obtain ⟨hmem, -⟩ := h.level.lookup_eq_some_iff.1 he
  cases hc : e.child with
  | none => exact createTreeNode_ok
  | some c => exact h.child e hmem c hc

/-- What a level says about names below one of its labels. -/
theorem stored_congr (h : tn.lookup l = tn'.lookup l) (ls : List (List UInt8)) (j : ElementIndex) :
    TreeNode.stored (l :: ls) tn j = TreeNode.stored (l :: ls) tn' j := by
  cases ls with
  | nil => rw [TreeNode.stored, TreeNode.stored, h]
  | cons k ls => rw [TreeNode.stored, TreeNode.stored, h]

/-- The tree after an insertion: still in order, and changed at one name and kind only. -/
structure Inserted (rr : ResourceRecord) (index : ElementIndex) (ls : List (List UInt8))
    (tn tn' : TreeNode) : Prop where
  ok : tn'.Ok
  stored : ∀ ks : List (List UInt8), (∀ k ∈ ks, IsQueryLabel k) → ∀ j, TreeNode.stored ks tn' j =
    if ks = ls ∧ j = index then addRecord rr (TreeNode.stored ls tn index)
    else TreeNode.stored ks tn j

/-- Nothing changes when the record is refused. -/
theorem Inserted.refused (h : tn.Ok)
    (hfull : rrCntMax ≤ (TreeNode.stored ls tn index).length ∨
      (TreeNode.stored ls tn index).any (sameRdata rr) = true) :
    Inserted rr index ls tn tn := by
  refine ⟨h, ?_⟩
  intro ks _ j
  split
  · next heq => rw [heq.1, heq.2, addRecord, if_pos hfull]
  · rfl

section Node

variable {f : Element}

/-- A level where one label has a new or rewritten node. -/
def Rewritten (l : List UInt8) (f : Element) (tn tn' : TreeNode) : Prop :=
  ∀ k, IsQueryLabel k → tn'.lookup k = if k = l then some f else tn.lookup k

theorem Rewritten.stored_ne (h : Rewritten l f tn tn') (hk : IsQueryLabel k) (hkl : k ≠ l)
    (ks : List (List UInt8)) (j : ElementIndex) :
    TreeNode.stored (k :: ks) tn' j = TreeNode.stored (k :: ks) tn j :=
  stored_congr ((h k hk).trans (if_neg hkl)) ks j

theorem TreeNode.LevelOk.rewritten_insert (h : tn.LevelOk) (hl : IsNodeLabel l)
    (he : e.domain = domainOf l) (hnew : tn.lookup l = none) (t : List UInt8) :
    Rewritten l e tn (treeNodeInsert tn (labelWire l ++ t) e rrHash) := by
  intro k hk
  exact h.lookup_insert hl hk he hnew

theorem TreeNode.LevelOk.rewritten_modify (h : tn.LevelOk) (hl : IsQueryLabel l)
    {g : Element → Element} (hg : ∀ e, e.domain = domainOf l → (g e).domain = domainOf l)
    (he : tn.lookup l = some e) (t : List UInt8) :
    Rewritten l (g e) tn (treeNodeModify tn (labelWire l ++ t) g) := by
  intro k hk
  rw [h.lookup_modify hl hk hg]
  split
  · next hkl => rw [hkl, he, Option.map_some]
  · rfl

/-- The walk ends at the rewritten node. -/
theorem Inserted.of_records (hok : tn'.Ok) (h : Rewritten l f tn tn')
    (hchild : f.child = (tn.lookup l).bind NodeElement.child)
    (hrecords : ∀ j, f.records j =
      if j = index then addRecord rr (TreeNode.stored [l] tn index)
      else TreeNode.stored [l] tn j) : Inserted rr index [l] tn tn' := by
  refine ⟨hok, ?_⟩
  intro ks hks j
  match ks with
  | [] => rfl
  | k :: ks =>
    have hk := hks k List.mem_cons_self
    by_cases hkl : k = l
    · subst hkl
      have hlook : tn'.lookup k = some f := (h k hk).trans (if_pos rfl)
      cases ks with
      | nil =>
        have hnew : TreeNode.stored [k] tn' j = f.records j := by rw [TreeNode.stored, hlook]; rfl
        rw [hnew, hrecords]
        exact if_congr (by simp) rfl rfl
      | cons k' ks =>
        rw [if_neg (by simp), TreeNode.stored, TreeNode.stored, hlook, Option.bind_some, hchild]
    · rw [h.stored_ne hk hkl, if_neg]
      rintro ⟨hc, -⟩
      exact hkl (List.head_eq_of_cons_eq hc)

/-- The walk goes on below the rewritten node. -/
theorem Inserted.of_child (hok : tn'.Ok) (h : Rewritten l f tn tn') (hl : IsQueryLabel l)
    (hrecords : ∀ j, f.records j = TreeNode.stored [l] tn j) (hchild : f.child = some c)
    (hbelow : Inserted rr index (k :: ls)
      (((tn.lookup l).bind NodeElement.child).getD createTreeNode) c) :
    Inserted rr index (l :: k :: ls) tn tn' := by
  have hlook : tn'.lookup l = some f := (h l hl).trans (if_pos rfl)
  -- a child that is created on the way holds nothing, like the missing one
  have hold : ∀ ks j, TreeNode.stored ks
      (((tn.lookup l).bind NodeElement.child).getD createTreeNode) j =
        ((tn.lookup l).bind NodeElement.child).elim [] fun c => TreeNode.stored ks c j := by
    intro ks j
    cases (tn.lookup l).bind NodeElement.child with
    | none => exact stored_createTreeNode ks j
    | some c => rfl
  refine ⟨hok, ?_⟩
  intro ks hks j
  match ks with
  | [] => rfl
  | k' :: ks =>
    have hk := hks k' List.mem_cons_self
    by_cases hkl : k' = l
    · subst hkl
      cases ks with
      | nil =>
        rw [if_neg (by simp), ← hrecords, TreeNode.stored, hlook]
        rfl
      | cons k'' ks =>
        have hstored := hbelow.stored (k'' :: ks) (fun x hx => hks x (List.mem_cons_of_mem _ hx)) j
        rw [hold, hold] at hstored
        rw [TreeNode.stored, TreeNode.stored, TreeNode.stored, hlook, Option.bind_some, hchild]
        refine hstored.trans (if_congr ?_ rfl rfl)
        rw [List.cons.injEq k' (k'' :: ks), eq_self_iff_true, true_and]
    · rw [h.stored_ne hk hkl, if_neg]
      rintro ⟨hc, -⟩
      exact hkl (List.head_eq_of_cons_eq hc)

end Node

/-- One more record at an existing node. -/
theorem Inserted.store (h : tn.Ok) (hl : IsQueryLabel l) (he : tn.lookup l = some e)
    (hroom : e.dataCnt index < rrCntMax)
    (hfresh : (e.records index).any (sameRdata rr) = false) (t : List UInt8) :
    Inserted rr index [l] tn (treeNodeModify tn (labelWire l ++ t) fun e =>
      { e.store index rr with domain := copyLabel e.domain (labelWire l ++ t) }) := by
  obtain ⟨hmem, hd⟩ := h.level.lookup_eq_some_iff.1 he
  have hdata := h.data e hmem
  have hdom : ∀ e : Element, e.domain = domainOf l →
      copyLabel e.domain (labelWire l ++ t) = domainOf l := by
    intro e he
    rw [he, copyLabel_domainOf hl]
  have hstored : ∀ j, TreeNode.stored [l] tn j = e.records j := by
    intro j
    rw [TreeNode.stored, he]
    rfl
  have hadd : addRecord rr (e.records index) = e.records index ++ [rr] := by
    rw [addRecord, if_neg]
    rw [hdata.records_eq, ← (hdata index).1, ← hdata.records_eq, hfresh]
    rintro (hfull | hdup)
    · exact absurd hroom (Nat.not_lt.2 hfull)
    · cases hdup
  refine .of_records (f := { e.store index rr with
    domain := copyLabel e.domain (labelWire l ++ t) }) ?_ ?_ ?_ ?_
  · apply h.modify hl hdom
    · intro f hf hdf
      obtain rfl := h.level.eq_of_domain hf hmem (hdf.trans hd.symm)
      exact hdata.store hroom rr
    · intro f hf _ c hc
      exact h.child f hf c hc
  · exact h.level.rewritten_modify hl hdom he t
  · rw [he]
    rfl
  · intro j
    rw [hstored, hstored, hadd]
    exact NodeElement.records_store hdata rr

/-- The first record at a new node. -/
theorem Inserted.create (h : tn.Ok) (hl : IsNodeLabel l) (hnew : tn.lookup l = none)
    (t : List UInt8) :
    Inserted rr index [l] tn
      (treeNodeInsert tn (labelWire l ++ t) ((newElement (labelWire l ++ t)).store index rr)
        rrHash) := by
  have hdata := newElement_dataOk (labelWire l ++ t)
  have hroom : (newElement (labelWire l ++ t)).dataCnt index < rrCntMax := Nat.zero_lt_succ 3
  have hdom := newElement_store_domain hl t index rr
  have hstored : ∀ j, TreeNode.stored [l] tn j = [] := by
    intro j
    rw [TreeNode.stored, hnew]
    rfl
  refine .of_records (f := (newElement (labelWire l ++ t)).store index rr) ?_ ?_ ?_ ?_
  · refine h.insert hl hdom (h.level.lookup_eq_none_iff.1 hnew) (hdata.store hroom rr) ?_
    intro c hc
    cases hc
  · exact h.level.rewritten_insert hl hdom hnew t
  · rw [hnew]
    rfl
  · intro j
    rw [hstored, hstored]
    exact NodeElement.records_store hdata rr

/-- An existing node whose child was inserted into. -/
theorem Inserted.descend (h : tn.Ok) (hl : IsQueryLabel l) (he : tn.lookup l = some e)
    (hbelow : Inserted rr index (k :: ls) (e.child.getD createTreeNode) c) (t : List UInt8) :
    Inserted rr index (l :: k :: ls) tn
      (treeNodeModify tn (labelWire l ++ t) fun e => { e with child := some c }) := by
  have hdom : ∀ e : Element, e.domain = domainOf l →
      NodeElement.domain { e with child := some c } = domainOf l := fun e he => he
  refine .of_child (f := { e with child := some c }) ?_ ?_ hl ?_ rfl ?_
  · apply h.modify hl hdom
    · intro f hf _
      exact h.data f hf
    · intro f _ _ d hd
      cases hd
      exact hbelow.ok
  · exact h.level.rewritten_modify hl hdom he t
  · intro j
    rw [TreeNode.stored, he]
    rfl
  · rw [he]
    exact hbelow

/-- A node made on the way down, with an empty level below it. -/
theorem Inserted.pave (h : tn.Ok) (hl : IsNodeLabel l) (hnew : tn.lookup l = none)
    (t : List UInt8) :
    ∃ tn₁, treeNodeInsert tn (labelWire l ++ t)
        { newElement (labelWire l ++ t) with child := some createTreeNode } rrHash = tn₁ ∧
      tn₁.Ok ∧ (∃ e, tn₁.lookup l = some e ∧ e.child = some createTreeNode) ∧
      ∀ ks : List (List UInt8), (∀ k ∈ ks, IsQueryLabel k) → ∀ j,
        TreeNode.stored ks tn₁ j = TreeNode.stored ks tn j := by
  have hdom := newElement_child_domain hl t createTreeNode
  have hlook := fun k hk => h.level.lookup_insert (k := k) (t := t) hl hk hdom hnew
  refine ⟨_, rfl, ?_, ⟨_, (hlook l hl.isQueryLabel).trans (if_pos rfl), rfl⟩, ?_⟩
  · refine h.insert hl hdom (h.level.lookup_eq_none_iff.1 hnew)
      (newElement_dataOk (labelWire l ++ t)) ?_
    intro c hc
    cases hc
    exact createTreeNode_ok
  · intro ks hks j
    match ks with
    | [] => rfl
    | k :: ks =>
      have hk := hlook k (hks k List.mem_cons_self)
      by_cases hkl : k = l
      · subst hkl
        rw [if_pos rfl] at hk
        cases ks with
        | nil =>
          rw [TreeNode.stored, TreeNode.stored, hk, hnew]
          rfl
        | cons k' ks =>
          rw [TreeNode.stored, TreeNode.stored, hk, hnew]
          exact stored_createTreeNode (k' :: ks) j
      · exact stored_congr (hk.trans (if_neg hkl)) ks j

/-! The loops. -/

theorem labelsWire_cons_zero (l : List UInt8) (ls : List (List UInt8)) :
    labelsWire (l :: ls) ++ [0] = labelWire l ++ (labelsWire ls ++ [0]) := by
  rw [labelsWire_cons, List.append_assoc]

/-- The node of the current label exists. -/
theorem treeInsertLoop_found (h : tn.Ok) (hl : IsQueryLabel l) (hls : ∀ k ∈ ls, IsQueryLabel k)
    (he : tn.lookup l = some e)
    (ih : ls ≠ [] → ∀ c : TreeNode, c.Ok → ∃ c' ret,
      treeInsertLoop rrHash index rr fuel c (labelsWire ls ++ [0]) = some (c', ret) ∧
        Inserted rr index ls c c') :
    ∃ tn' ret, treeInsertLoop rrHash index rr (fuel + 1) tn
        (labelWire l ++ (labelsWire ls ++ [0])) = some (tn', ret) ∧
      Inserted rr index (l :: ls) tn tn' := by
  obtain ⟨hmem, -⟩ := h.level.lookup_eq_some_iff.1 he
  have hdata := h.data e hmem
  have hhead : ¬(labelWire l ++ (labelsWire ls ++ [0])).headD 0 = 0 := hl.isLabel.ofNat_ne_zero
  have hnext := labelsWire_headD_eq_zero_iff fun k hk => (hls k hk).isLabel
  have hlen : (e.records index).length = e.dataCnt index := by
    rw [hdata.records_eq, (hdata index).1]
  have hstored : TreeNode.stored [l] tn index = e.records index := by
    rw [TreeNode.stored, he]
    rfl
  rw [treeInsertLoop]
  simp only [drop_labelWire hl.isLabel, h.level.find_eq_lookup hl, he, if_neg hhead]
  cases ls with
  | nil =>
    rw [if_pos (hnext.2 rfl)]
    split
    · next hfull => exact ⟨tn, -1, rfl, .refused h (.inl (by rw [hstored, hlen]; exact hfull))⟩
    · next hroom =>
      split
      · next hdup => exact ⟨tn, -1, rfl, .refused h (.inr (by rw [hstored]; exact hdup))⟩
      · next hfresh =>
        refine ⟨_, 1, rfl, ?_⟩
        exact .store h hl he (Nat.lt_of_not_le hroom) (Bool.eq_false_iff.2 hfresh) _
  | cons k ls =>
    obtain ⟨c', ret, hloop, hins⟩ := ih (List.cons_ne_nil k ls) _ (h.child_getD he)
    rw [if_neg fun h0 => List.cons_ne_nil k ls (hnext.1 h0), hloop]
    exact ⟨_, ret, rfl, .descend h hl he hins _⟩

/-- `tree_insert`'s loop ends, at the latest after two rounds a label, and inserts the record. -/
theorem treeInsertLoop_spec (h : tn.Ok) (hls : ∀ l ∈ ls, IsNodeLabel l) (hne : ls ≠ [])
    (hfuel : 2 * ls.length ≤ fuel) :
    ∃ tn' ret, treeInsertLoop rrHash index rr fuel tn (labelsWire ls ++ [0]) = some (tn', ret) ∧
      Inserted rr index ls tn tn' := by
  induction ls generalizing tn fuel with
  | nil => exact absurd rfl hne
  | cons l ls ih =>
    rw [List.length_cons] at hfuel
    obtain ⟨n, rfl⟩ : ∃ n, fuel = n + 2 := ⟨fuel - 2, by omega⟩
    have hl := hls l List.mem_cons_self
    have hlabels : ∀ k ∈ ls, IsNodeLabel k := fun k hk => hls k (List.mem_cons_of_mem l hk)
    have hquery : ∀ k ∈ ls, IsQueryLabel k := fun k hk => (hlabels k hk).isQueryLabel
    have hbelow : ∀ m, 2 * ls.length ≤ m → ls ≠ [] → ∀ c : TreeNode, c.Ok → ∃ c' ret,
        treeInsertLoop rrHash index rr m c (labelsWire ls ++ [0]) = some (c', ret) ∧
          Inserted rr index ls c c' := fun m hm hne c hc => ih hc hlabels hne hm
    rw [labelsWire_cons_zero]
    cases he : tn.lookup l with
    | some e =>
      exact treeInsertLoop_found h hl.isQueryLabel hquery he (hbelow (n + 1) (by omega))
    | none =>
      have hhead : ¬(labelWire l ++ (labelsWire ls ++ [0])).headD 0 = 0 :=
        hl.isQueryLabel.isLabel.ofNat_ne_zero
      have hnext := labelsWire_headD_eq_zero_iff fun k hk => (hquery k hk).isLabel
      rw [treeInsertLoop]
      simp only [drop_labelWire hl.isQueryLabel.isLabel, h.level.find_eq_lookup hl.isQueryLabel, he,
        if_neg hhead]
      by_cases hend : ls = []
      · rw [if_pos (hnext.2 hend)]
        subst hend
        exact ⟨_, 1, rfl, .create h hl he _⟩
      · -- the next round finds the node that this one makes
        rw [if_neg fun h0 => hend (hnext.1 h0)]
        obtain ⟨tn₁, htn₁, hok, ⟨e, he₁, -⟩, hsame⟩ :=
          Inserted.pave h hl he (labelsWire ls ++ [0])
        obtain ⟨tn', ret, hloop, hins⟩ :=
          treeInsertLoop_found hok hl.isQueryLabel hquery he₁ (hbelow n (by omega))
        rw [htn₁, hloop]
        refine ⟨tn', ret, rfl, hins.ok, ?_⟩
        intro xs hxs j
        rw [hins.stored xs hxs j, hsame xs hxs j, hsame _ fun x hx => (hls x hx).isQueryLabel]

/-- `tree_search` copies out what the tree holds for the name. -/
theorem treeSearchLoop_eq (h : tn.Ok) (hls : ∀ l ∈ ls, IsQueryLabel l) (hfuel : ls.length ≤ fuel) :
    treeSearchLoop index (fuel + 1) (some tn) (labelsWire ls ++ [0]) =
      (TreeNode.stored ls tn index).map rrCopy := by
  induction ls generalizing tn fuel with
  | nil => rfl
  | cons l ls ih =>
    rw [List.length_cons] at hfuel
    obtain ⟨n, rfl⟩ : ∃ n, fuel = n + 1 := ⟨fuel - 1, by omega⟩
    have hl := hls l List.mem_cons_self
    have hlabels : ∀ k ∈ ls, IsQueryLabel k := fun k hk => hls k (List.mem_cons_of_mem l hk)
    have hhead : ¬(labelWire l ++ (labelsWire ls ++ [0])).headD 0 = 0 := hl.isLabel.ofNat_ne_zero
    have hnext := labelsWire_headD_eq_zero_iff fun k hk => (hlabels k hk).isLabel
    rw [labelsWire_cons_zero, treeSearchLoop]
    simp only [drop_labelWire hl.isLabel, h.level.find_eq_lookup hl, if_neg hhead]
    cases he : tn.lookup l with
    | none => cases ls <;> simp [TreeNode.stored, he]
    | some e =>
      cases ls with
      | nil =>
        rw [TreeNode.stored, he]
        exact if_pos (hnext.2 rfl)
      | cons k ks =>
        rw [TreeNode.stored, he, Option.bind_some]
        refine (if_neg fun h0 => List.cons_ne_nil k ks (hnext.1 h0)).trans ?_
        cases hc : e.child with
        | none => rfl
        | some c =>
          obtain ⟨hmem, -⟩ := h.level.lookup_eq_some_iff.1 he
          exact ih (h.child e hmem c hc) hlabels (by omega)

end BakaDns
