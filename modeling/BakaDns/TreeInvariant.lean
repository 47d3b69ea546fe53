import BakaDns.HashFunction

/-!
# Every tree that can be built

What the levels of a tree have in common, however it was filled: the invariant that lookups rest
on. With it a label that was just inserted is found, which is why the loop of `tree_insert` ends.
-/

namespace BakaDns
open CBytes

/-- The trees that `tree_insert` makes of an empty one. -/
inductive TreeReachable : BucketTree → Prop
  | init : TreeReachable (treeInit rrHash)
  | insert {tree tree' : BucketTree} {ls : List (List UInt8)} {rr : ResourceRecord} {fuel : ℕ}
      {ret : ℤ} (h : TreeReachable tree) (hls : ∀ l ∈ ls, IsNodeLabel l)
      (hins : treeInsert fuel tree (labelsWire ls ++ [0]) rr = some (tree', ret)) :
      TreeReachable tree'

/-- The levels of a tree: its root, and the child of every node of a level. -/
inductive TreeNode.HasLevel (root : TreeNode) : TreeNode → Prop
  | root : root.HasLevel root
  | child {tn c : TreeNode} {e : Element} (h : root.HasLevel tn) (he : e ∈ tn.elems)
      (hc : e.child = some c) : root.HasLevel c

/-- The label in the `domain` of a node, by its length octet. -/
def NodeElement.label {τ : Type} (e : NodeElement τ) : List UInt8 :=
  e.domain.tail.take (e.domain.headD 0).toNat

def TreeNode.IsBucket : TreeNode → Prop
  | .linkedList _ _ => False
  | .hashBucket _ _ => True

/-- The chains of a bucket; a linked list has none. -/
def TreeNode.bucket : TreeNode → List (List Element)
  | .linkedList _ _ => []
  | .hashBucket _ bucket => bucket

/-- The representation invariant of one level. The counter wraps around at 2^32 nodes, the switch
does not depend on it. -/
structure TreeNode.LevelInvariant (tn : TreeNode) : Prop where
  label : ∀ e ∈ tn.elems, IsNodeLabel e.label ∧ e.domain = domainOf e.label
  distinct : (tn.elems.map NodeElement.label).Nodup
  size : tn.size.toNat = tn.elems.length % 2 ^ 32
  switch : tn.IsBucket ↔ hashSwitchThreshold < tn.elems.length
  chains : tn.IsBucket → tn.bucket.length = hashBucketSize
  chain : tn.IsBucket → ∀ e ∈ tn.elems, ∀ i, e ∈ tn.bucket.getD i [] ↔
    i = (rrHash (labelWire e.label)).toNat % hashBucketSize
  data : ∀ e ∈ tn.elems, ∀ index,
    e.dataCnt index ≤ rrCntMax ∧ (e.data index).length = e.dataCnt index

variable {tn tn' root : TreeNode} {e : Element} {l t rev : List UInt8} {ls : List (List UInt8)}
  {index : ElementIndex} {rr : ResourceRecord} {fuel : ℕ} {ret : ℤ} {tree tree' : BucketTree}

theorem label_of_domainOf (hl : IsNodeLabel l) (he : e.domain = domainOf l) : e.label = l := by
  have hsize := hl.isQueryLabel.isLabel.toNat_ofNat
  simp [NodeElement.label, he, domainOf, labelWire, hsize]

theorem TreeNode.LevelOk.label_eq (h : tn.LevelOk) (he : e ∈ tn.elems) :
    IsNodeLabel e.label ∧ e.domain = domainOf e.label := by
  obtain ⟨l, hl, hd⟩ := h.label e he
  obtain rfl := label_of_domainOf hl hd
  exact ⟨hl, hd⟩

/-- A node of a bucket sits in the chain of its label and in no other. -/
theorem Placed.mem_chain_iff {bucket : List (List Element)} (h : Placed bucket)
    (he : e ∈ bucket.flatten) (i : ℕ) :
    e ∈ bucket.getD i [] ↔ i = (rrHash e.domain).toNat % hashBucketSize := by
  have hplace : ∀ j, e ∈ bucket.getD j [] → j = (rrHash e.domain).toNat % hashBucketSize := by
    intro j hj
    simp only [List.getD_eq_getElem?_getD] at hj
    cases hb : bucket[j]? with
    | none => simp [hb] at hj
    | some chain =>
      simp only [hb, Option.getD_some] at hj
      exact (h.2 j chain hb e hj).symm
  constructor
  · exact hplace i
  · rintro rfl
    obtain ⟨chain, hchain, hmem⟩ := List.mem_flatten.1 he
    obtain ⟨j, hj⟩ := List.mem_iff_getElem?.1 hchain
    have hget : e ∈ bucket.getD j [] := by simpa [List.getD_eq_getElem?_getD, hj] using hmem
    simpa only [← hplace j hget] using hget

/-- What the proofs about lookups use is the invariant. -/
theorem TreeNode.Ok.levelInvariant (h : tn.Ok) : tn.LevelInvariant where
  label e he := h.level.label_eq he
  distinct := by
    have hdomain : tn.elems.map NodeElement.domain =
        (tn.elems.map NodeElement.label).map domainOf := by
      simp only [List.map_map]
      exact List.map_congr_left fun e he => (h.level.label_eq he).2
    apply List.Nodup.of_map domainOf
    simpa only [← hdomain] using h.level.distinct
  size := by rw [h.level.size, UInt32.toNat_ofNat']
  switch := by
    have hcontainer := h.level.container
    cases tn with
    | linkedList size list =>
      simp only [TreeNode.IsBucket, false_iff, not_lt]
      exact hcontainer
    | hashBucket size bucket =>
      simp only [TreeNode.IsBucket, true_iff]
      exact hcontainer.1
  chains hbucket := by
    cases tn with
    | linkedList size list => exact hbucket.elim
    | hashBucket size bucket => exact h.level.container.2.1
  chain hbucket e he i := by
    obtain ⟨hlabel, hd⟩ := h.level.label_eq he
    have hhash : rrHash e.domain = rrHash (labelWire e.label) := by
      simpa [← hd] using rrHash_domainOf (t := []) hlabel.isQueryLabel
    cases tn with
    | linkedList size list => exact hbucket.elim
    | hashBucket size bucket =>
      simp only [← hhash]
      exact h.level.container.2.mem_chain_iff he i
  data e he index := ⟨(h.data e he index).2, (h.data e he index).1.symm⟩

theorem TreeNode.Ok.hasLevel (h : root.Ok) (hlevel : root.HasLevel tn) : tn.Ok := by
  induction hlevel with
  | root => exact h
  | child _ he hc ih => exact ih.child _ he _ hc

/-- The loop of `tree_insert` keeps the tree in order, wherever its fuel ends. -/
theorem treeInsertLoop_ok (h : tn.Ok) (hls : ∀ l ∈ ls, IsNodeLabel l)
    (hloop : treeInsertLoop rrHash index rr fuel tn (labelsWire ls ++ [0]) = some (tn', ret)) :
    tn'.Ok := by
  induction fuel generalizing tn tn' ls ret with
  | zero => cases hloop
  | succ fuel ih =>
    cases ls with
    | nil =>
      cases hloop
      exact h
    | cons l ls =>
      have hl := hls l List.mem_cons_self
      have hlabels : ∀ k ∈ ls, IsNodeLabel k := fun k hk => hls k (List.mem_cons_of_mem l hk)
      have hfind := h.level.find_eq_lookup (t := labelsWire ls ++ [0]) hl.isQueryLabel
      simp only [labelsWire_cons_zero] at hloop
      cases insertRound_of_loop hloop with
      | ended | refused => exact h
      | stored _ hln _ hroom hfresh =>
        exact (Inserted.store h hl.isQueryLabel (hfind.symm.trans hln) hroom hfresh _).ok
      | descended _ hln _ hbelow =>
        have hlook := hfind.symm.trans hln
        simp only [drop_labelWire hl.isQueryLabel.isLabel] at hbelow
        have hchild := ih (h.child_getD hlook) hlabels hbelow
        refine h.modify hl.isQueryLabel (fun e he => he) (fun e he _ => h.data e he) ?_
        intro e _ _ c hc
        cases hc
        exact hchild
      | created _ hln _ => exact (Inserted.create h hl (hfind.symm.trans hln) _).ok
      | paved _ hln _ hnext =>
        obtain ⟨tn₁, htn₁, hok, -, -⟩ :=
          Inserted.pave h hl (hfind.symm.trans hln) (labelsWire ls ++ [0])
        rw [htn₁, ← labelsWire_cons_zero] at hnext
        exact ih hok hls hnext

theorem TreeReachable.ok (h : TreeReachable tree) : tree.hashFun = rrHash ∧ tree.root.Ok := by
  induction h with
  | init => exact ⟨rfl, createTreeNode_ok⟩
  | @insert tree tree' ls rr fuel ret _ hls hins ih =>
    obtain ⟨hhash, hok⟩ := ih
    simp only [treeInsert] at hins
    cases hindex : elementIndex rr.type with
    | none =>
      simp only [hindex] at hins
      cases hins
      exact ⟨hhash, hok⟩
    | some index =>
      simp only [hindex, hhash] at hins
      obtain ⟨⟨root, ret'⟩, hloop, hins⟩ := Option.bind_eq_some_iff.1 hins
      cases hins
      exact ⟨rfl, treeInsertLoop_ok hok hls hloop⟩

theorem TreeReachable.insertRun {calls : List (List (List UInt8) × ResourceRecord)}
    (h : TreeReachable tree) (hcalls : ∀ call ∈ calls, ∀ l ∈ call.1, IsNodeLabel l)
    (hrun : insertRun (treeInsert fuel) tree calls = some tree') : TreeReachable tree' := by
  induction calls generalizing tree with
  | nil =>
    cases hrun
    exact h
  | cons call calls ih =>
    obtain ⟨⟨tree₁, ret⟩, hins, hrun⟩ := Option.bind_eq_some_iff.1 hrun
    apply ih (h.insert (hcalls call List.mem_cons_self) hins) ?_ hrun
    exact fun c hc => hcalls c (List.mem_cons_of_mem call hc)

/-- The loader builds such a tree from records whose names fit into it. -/
theorem TreeReachable.insertAll {rrs : List ResourceRecord} (h : TreeReachable tree)
    (hrrs : ∀ rr ∈ rrs, IsRelayName rr.name) (hall : insertAll fuel tree rrs = some tree') :
    TreeReachable tree' := by
  induction rrs generalizing tree with
  | nil =>
    cases hall
    exact h
  | cons rr rrs ih =>
    obtain ⟨⟨tree₁, ret⟩, hins, hall⟩ := Option.bind_eq_some_iff.1 hall
    refine ih ?_ (fun r hr => hrrs r (List.mem_cons_of_mem rr hr)) hall
    have hname := hrrs rr List.mem_cons_self
    have hdlen := hname.isQueryName.domainLen_eq
    obtain ⟨ls, -, hls, hwire, -⟩ := hname
    simp only [insertDatabase, hdlen] at hins
    rw [hwire, domainRev_labels fun l hl => (hls l hl).isQueryLabel.isLabel] at hins
    exact h.insert (fun l hl => hls l (List.mem_reverse.1 hl)) hins

/-- Every level of every tree that can be built keeps the representation invariant. -/
theorem treeReachable_invariant (h : TreeReachable tree) (hlevel : tree.root.HasLevel tn) :
    tn.LevelInvariant :=
  (h.ok.2.hasLevel hlevel).levelInvariant

/-- `n` calls with names of one letter. -/
def siblingCalls (n : ℕ) : List (List (List UInt8) × ResourceRecord) :=
  (List.range n).map fun i => probeCall [UInt8.ofNat (i + 97)]

theorem siblingCalls_labels {n : ℕ} (hn : n ≤ 100) :
    ∀ call ∈ siblingCalls n, ∀ l ∈ call.1, IsNodeLabel l := by
  intro call hcall l hl
  obtain ⟨i, hi, rfl⟩ := List.mem_map.1 hcall
  obtain rfl := List.mem_singleton.1 hl
  have hlt := List.mem_range.1 hi
  refine ⟨Nat.one_pos, by simp [subdomainMax], ?_⟩
  intro c hc h0
  obtain rfl := List.mem_singleton.1 hc
  have hnat := congrArg UInt8.toNat h0
  simp only [UInt8.toNat_ofNat', UInt8.toNat_zero] at hnat
  omega

/-- The level that 33 siblings turn into a bucket. -/
theorem treeReachable_invariant_siblings :
    ∃ tree, insertRun (treeInsert 1) (treeInit rrHash) (siblingCalls 33) = some tree ∧
      tree.root.size = 33 ∧ tree.root.LevelInvariant := by
  have hsize : (insertRun (treeInsert 1) (treeInit rrHash) (siblingCalls 33)).map
      (fun tree => tree.root.size) = some 33 := by decide +kernel
  obtain ⟨tree, hrun, hsize⟩ := Option.map_eq_some_iff.1 hsize
  have hreach := TreeReachable.init.insertRun (siblingCalls_labels (by decide)) hrun
  exact ⟨tree, hrun, hsize, treeReachable_invariant hreach .root⟩

/-- The number `n` in base 16, each digit one up so that no byte is zero. -/
def numberLabel (n : ℕ) : List UInt8 := (Nat.digits 16 n).map fun d => UInt8.ofNat (d + 1)

theorem numberLabel_injective : Function.Injective numberLabel := by
  intro n m h
  have hdigits : ∀ k, (numberLabel k).map (fun c => c.toNat - 1) = Nat.digits 16 k := by
    intro k
    rw [numberLabel, List.map_map]
    conv_rhs => rw [← List.map_id (Nat.digits 16 k)]
    apply List.map_congr_left
    intro d hd
    have hlt := Nat.digits_lt_base (by decide) hd
    simp only [Function.comp_apply, UInt8.toNat_ofNat', id]
    omega
  have heq := congrArg (List.map fun c : UInt8 => c.toNat - 1) h
  rw [hdigits, hdigits] at heq
  exact Nat.digits_inj_iff.1 heq

theorem numberLabel_isNodeLabel {n : ℕ} (hpos : 0 < n) (hn : n ≤ 2 ^ 32) :
    IsNodeLabel (numberLabel n) := by
  have hlen : (Nat.digits 16 n).length ≤ 9 := by
    rw [Nat.digits_length_le_iff (by decide)]
    exact hn.trans_lt (by decide)
  refine ⟨?_, ?_, ?_⟩
  · rw [numberLabel, List.length_map]
    exact List.length_pos_of_ne_nil (Nat.digits_ne_nil_iff_ne_zero.2 hpos.ne')
  · rw [numberLabel, List.length_map]
    exact hlen.trans_lt (by decide)
  · intro c hc h0
    obtain ⟨d, hd, rfl⟩ := List.mem_map.1 hc
    have hlt := Nat.digits_lt_base (by decide) hd
    have hval := congrArg UInt8.toNat h0
    rw [UInt8.toNat_ofNat', UInt8.toNat_zero] at hval
    omega

/-- Any set of labels can be the labels of the root. -/
theorem exists_treeReachable_labels {ms : List (List UInt8)} (hms : ∀ m ∈ ms, IsNodeLabel m)
    (hnodup : ms.Nodup) :
    ∃ tree, TreeReachable tree ∧
      (tree.root.elems.map NodeElement.domain).Perm (ms.map domainOf) := by
  induction ms with
  | nil => exact ⟨treeInit rrHash, .init, List.Perm.refl _⟩
  | cons m ms ih =>
    obtain ⟨hfresh, hnodup⟩ := List.nodup_cons.1 hnodup
    have hm := hms m List.mem_cons_self
    have hlabels : ∀ k ∈ ms, IsNodeLabel k := fun k hk => hms k (List.mem_cons_of_mem m hk)
    obtain ⟨tree, hreach, hperm⟩ := ih hlabels hnodup
    obtain ⟨hhash, hok⟩ := hreach.ok
    have hnone : treeNodeFind tree.root (labelWire m ++ [0]) = none := by
      apply find_eq_none_of_labels hm.isQueryLabel
      intro e he
      obtain ⟨k, hk, hd⟩ := List.mem_map.1 (hperm.mem_iff.1 (List.mem_map_of_mem he))
      refine ⟨k, hlabels k hk, ?_, hd.symm⟩
      rintro rfl
      exact hfresh hk
    have hins : treeInsert 1 tree (labelsWire [m] ++ [0]) probeRecord = _ :=
      treeInsert_probe hm hnone
    rw [hhash] at hins
    refine ⟨_, hreach.insert (List.forall_mem_singleton.2 hm) hins, ?_⟩
    have hnew := (hok.level.insert_perm (labelWire m ++ [0]) (probeNode m)).map NodeElement.domain
    rw [List.map_cons, probeNode, newElement_store_domain hm [0] .a probeRecord] at hnew
    exact hnew.trans (hperm.cons (domainOf m))

/-- 2^32 siblings are counted as none: the counter has wrapped around and the level is a bucket. -/
theorem treeReachable_size_wraps :
    ∃ tree, TreeReachable tree ∧ tree.root.elems.length = 2 ^ 32 ∧ tree.root.size = 0 ∧
      tree.root.IsBucket := by
  let ms := (List.range' 1 (2 ^ 32)).map numberLabel
  have hms : ∀ m ∈ ms, IsNodeLabel m := by
    intro m hm
    obtain ⟨n, hn, rfl⟩ := List.mem_map.1 hm
    obtain ⟨hpos, hle⟩ := List.mem_range'_1.1 hn
    exact numberLabel_isNodeLabel hpos (by omega)
  have hnodup : ms.Nodup := (List.nodup_range' ..).map numberLabel_injective
  obtain ⟨tree, hreach, hperm⟩ := exists_treeReachable_labels hms hnodup
  have hlen : tree.root.elems.length = 2 ^ 32 := by
    have hlength := hperm.length_eq
    rw [List.length_map, List.length_map, List.length_map, List.length_range'] at hlength
    exact hlength
  have hlevel := hreach.ok.2.levelInvariant
  refine ⟨tree, hreach, hlen, ?_, ?_⟩
  · apply UInt32.toNat_inj.1
    rw [hlevel.size, hlen, Nat.mod_self]
    rfl
  · apply hlevel.switch.2
    rw [hlen]
    decide

/-! The loop ends. -/

/-- A loop that has ended does not look at the fuel that is left. -/
theorem treeInsertLoop_succ {hashFun : List UInt8 → UInt32} {r : TreeNode × ℤ}
    (h : treeInsertLoop hashFun index rr fuel tn rev = some r) :
    treeInsertLoop hashFun index rr (fuel + 1) tn rev = some r := by
  induction fuel generalizing tn rev r with
  | zero => cases h
  | succ fuel ih =>
    rw [treeInsertLoop] at h ⊢
    dsimp only at h ⊢
    split at h
    · next hhead =>
      simp only [if_pos hhead]
      exact h
    · next hhead =>
      simp only [if_neg hhead]
      cases hfind : treeNodeFind tn rev with
      | some ln =>
        simp only [hfind] at h ⊢
        split at h
        · next hlast =>
          simp only [if_pos hlast]
          exact h
        · next hmore =>
          obtain ⟨below, hbelow, hr⟩ := Option.bind_eq_some_iff.1 h
          simp only [if_neg hmore, ih hbelow]
          exact hr
      | none =>
        simp only [hfind] at h ⊢
        split at h
        · next hlast =>
          simp only [if_pos hlast]
          exact h
        · next hmore =>
          simp only [if_neg hmore]
          exact ih h

theorem treeInsert_le {n : ℕ} {r : BucketTree × ℤ} (h : treeInsert fuel tree rev rr = some r)
    (hn : fuel ≤ n) : treeInsert n tree rev rr = some r := by
  induction n, hn using Nat.le_induction with
  | base => exact h
  | succ n _ ih =>
    simp only [treeInsert] at ih ⊢
    cases hindex : elementIndex rr.type with
    | none =>
      simp only [hindex] at ih ⊢
      exact ih
    | some index =>
      simp only [hindex] at ih ⊢
      obtain ⟨r₁, hloop, hr⟩ := Option.bind_eq_some_iff.1 ih
      simp only [treeInsertLoop_succ hloop]
      exact hr

/-- The next lookup finds the node that was just inserted, also when it made the level a bucket. -/
theorem TreeNode.LevelOk.find_insert (h : tn.LevelOk) (hl : IsNodeLabel l)
    (he : e.domain = domainOf l) (hnone : treeNodeFind tn (labelWire l ++ t) = none) :
    treeNodeFind (treeNodeInsert tn (labelWire l ++ t) e rrHash) (labelWire l ++ t) = some e := by
  have hlook : tn.lookup l = none := (h.find_eq_lookup hl.isQueryLabel).symm.trans hnone
  have hlevel := h.insert (t := t) hl he (h.lookup_eq_none_iff.1 hlook)
  have hnew := h.lookup_insert (t := t) hl hl.isQueryLabel he hlook
  simp only [if_true] at hnew
  exact (hlevel.find_eq_lookup hl.isQueryLabel).trans hnew

/-- The loop of `tree_insert` ends after at most two iterations for every label: a label that was
just inserted is found by the next lookup. -/
theorem treeReachable_terminates (h : TreeReachable tree) (hne : ls ≠ [])
    (hls : ∀ l ∈ ls, IsNodeLabel l) (hindex : elementIndex rr.type = some index) :
    (∃ r, ∀ fuel, 2 * ls.length ≤ fuel →
      treeInsert fuel tree (labelsWire ls ++ [0]) rr = some r) ∧
      ∀ tn, tree.root.HasLevel tn → ∀ l t (new : Element), IsNodeLabel l →
        new.domain = (newElement (labelWire l ++ t)).domain →
        treeNodeFind tn (labelWire l ++ t) = none →
        treeNodeFind (treeNodeInsert tn (labelWire l ++ t) new rrHash) (labelWire l ++ t) =
          some new := by
  obtain ⟨hhash, hok⟩ := h.ok
  constructor
  · obtain ⟨root, ret, hloop, -⟩ := @treeInsertLoop_spec _ _ index rr _ hok hls hne le_rfl
    refine ⟨({ tree with root := root }, ret), fun fuel hfuel => treeInsert_le ?_ hfuel⟩
    simp only [treeInsert, hindex, hhash, hloop]
    rfl
  · intro tn hlevel l t new hl hnew hnone
    have hd : new.domain = domainOf l := hnew.trans (newElement_domain hl t)
    exact (hok.hasLevel hlevel).level.find_insert hl hd hnone

/-- The 33rd sibling, with a label below it: its level becomes a bucket on the way. -/
theorem treeReachable_terminates_switch :
    ∃ tree, insertRun (treeInsert 1) (treeInit rrHash) (siblingCalls 32) = some tree ∧
      ∃ r, ∀ fuel, 4 ≤ fuel → treeInsert fuel tree [1, 200, 1, 97, 0] probeRecord = some r := by
  have hsize : (insertRun (treeInsert 1) (treeInit rrHash) (siblingCalls 32)).isSome := by
    decide +kernel
  obtain ⟨tree, hrun⟩ := Option.isSome_iff_exists.1 hsize
  have hreach := TreeReachable.init.insertRun (siblingCalls_labels (by decide)) hrun
  have hlabels : ∀ l ∈ [[200], [97]], IsNodeLabel l := by simp [IsNodeLabel, subdomainMax]
  have hindex : elementIndex probeRecord.type = some .a := rfl
  exact ⟨tree, hrun, (treeReachable_terminates hreach (List.cons_ne_nil _ _) hlabels hindex).1⟩

end BakaDns
