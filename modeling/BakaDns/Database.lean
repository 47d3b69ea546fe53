import BakaDns.TreeWalk

/-!
# The relay database

`insert_database` and `select_database`, and the table of records they implement.
-/

namespace BakaDns
open CBytes

/-- `insert_database`: the tree as it is left and the return value. -/
def insertDatabase (fuel : ℕ) (tree : BucketTree) (rr : ResourceRecord) :
    Option (BucketTree × ℤ) :=
  match domainLen rr.name with
  | none => some (tree, -1)
  | some _ => treeInsert fuel tree (domainRev rr.name) rr

/-- `select_database`; its return value is the number of records. -/
def selectDatabase (tree : BucketTree) (msgq : MessageQuestion) : List ResourceRecord :=
  match domainLen msgq.qname with
  | none => []
  | some _ => treeSearch tree (domainRev msgq.qname) msgq.qtype

/-- One `insert_database` after another, as `init_database` calls it line by line. -/
def insertAll (fuel : ℕ) (tree : BucketTree) : List ResourceRecord → Option BucketTree
  | [] => some tree
  | rr :: rrs => do
    let (tree, _) ← insertDatabase fuel tree rr
    insertAll fuel tree rrs

/-- A name whose labels fit into the nodes of the tree. -/
def IsRelayName (name : List UInt8) : Prop :=
  ∃ ls, ls ≠ [] ∧ (∀ l ∈ ls, IsNodeLabel l) ∧ name = labelsWire ls ++ [0] ∧
    name.length ≤ domainLenMax

/-- A name that may be asked for. -/
def IsQueryName (name : List UInt8) : Prop :=
  ∃ ls, ls ≠ [] ∧ (∀ l ∈ ls, IsQueryLabel l) ∧ name = labelsWire ls ++ [0] ∧
    name.length ≤ domainLenMax

/-- A database that `insert_database` fills with records whose labels fit into the nodes. A longer
label runs over the end of `domain` into the record pointers behind it, which are not part of the
list of bytes here. -/
structure RelayDatabase (rrs : List ResourceRecord) (db : BucketTree) : Prop where
  fits : ∀ rr ∈ rrs, IsRelayName rr.name
  inserted : ∃ fuel hashFun, insertAll fuel (treeInit hashFun) rrs = some db

/-- The bytes of an address of the given record type. -/
def addressSize (type : UInt16) : Option ℕ :=
  if type = rrtypeA then some 4 else if type = rrtypeAaaa then some 16 else none

/-- A record of the relay file: an IPv4 or an IPv6 address. -/
structure IsRelayRecord (rr : ResourceRecord) : Prop where
  name : IsRelayName rr.name
  address : addressSize rr.type = some rr.rdata.length
  rdlength : rr.rdlength.toNat = rr.rdata.length

/-- What the table of inserted records says about a name: the first record of each address, in the
order of insertion, as many as a node can hold. -/
def relayAnswer (rrs : List ResourceRecord) (name : List UInt8) (type : UInt16) :
    List ResourceRecord :=
  ((rrs.filter fun rr => rr.name == name && rr.type == type).eraseDupsBy
    fun rr old => rr.rdata == old.rdata).take rrCntMax

/-! Names and their labels. -/

section Names

variable {ls ks : List (List UInt8)}

theorem labelsWire_injective (hls : ∀ l ∈ ls, IsLabel l) (hks : ∀ k ∈ ks, IsLabel k)
    (h : labelsWire ls ++ [0] = labelsWire ks ++ [0]) : ls = ks := by
  induction ls generalizing ks with
  | nil => exact ((labelsWire_headD_eq_zero_iff hks).1 (h ▸ rfl)).symm
  | cons l ls ih =>
    cases ks with
    | nil => exact (labelsWire_headD_eq_zero_iff hls).1 (h ▸ rfl)
    | cons k ks =>
      have hl := hls l List.mem_cons_self
      have hk := hks k List.mem_cons_self
      rw [labelsWire_cons_zero, labelsWire_cons_zero] at h
      have hsize : (labelWire l).length = (labelWire k).length := by
        have hs := congrArg labelSize h
        rwa [labelSize_labelWire hl, labelSize_labelWire hk] at hs
      obtain ⟨hhead, htail⟩ := List.append_inj h hsize
      rw [labelWire_injective hhead, ih (fun x hx => hls x (List.mem_cons_of_mem l hx))
        (fun x hx => hks x (List.mem_cons_of_mem k hx)) htail]

theorem two_mul_length_le_labelsWire (hls : ∀ l ∈ ls, IsLabel l) :
    2 * ls.length ≤ (labelsWire ls).length := by
  induction ls with
  | nil => exact Nat.le_refl 0
  | cons l ls ih =>
    have hl := (hls l List.mem_cons_self).1
    have hrest := ih fun k hk => hls k (List.mem_cons_of_mem l hk)
    rw [labelsWire_cons, List.length_append, length_labelWire, List.length_cons]
    omega

theorem cstr_labelsWire (hls : ∀ l ∈ ls, IsQueryLabel l) :
    cstr (labelsWire ls ++ [0]) = labelsWire ls := by
  apply cstr_append_zero
  intro c hc
  obtain ⟨l, hl, hc⟩ := List.mem_flatMap.1 hc
  exact (hls l hl).labelWire_ne_zero c hc

theorem domainLen_labelsWire (hls : ∀ l ∈ ls, IsQueryLabel l)
    (hlen : (labelsWire ls ++ [0]).length ≤ domainLenMax) :
    domainLen (labelsWire ls ++ [0]) = some (labelsWire ls ++ [0]).length := by
  rw [domainLen_eq_some, cstr_labelsWire hls]
  rw [List.length_append, List.length_singleton, domainLenMax] at hlen
  exact ⟨by omega, by simp⟩

theorem IsRelayName.isQueryName {name : List UInt8} (h : IsRelayName name) : IsQueryName name := by
  obtain ⟨ls, hne, hls, hname, hlen⟩ := h
  exact ⟨ls, hne, fun l hl => (hls l hl).isQueryLabel, hname, hlen⟩

theorem IsQueryName.domainLen_eq {name : List UInt8} (h : IsQueryName name) :
    domainLen name = some name.length := by
  obtain ⟨ls, -, hls, rfl, hlen⟩ := h
  exact domainLen_labelsWire hls hlen

end Names

/-! The abstract table. -/

section Table

variable {rrs : List ResourceRecord} {rr : ResourceRecord} {name : List UInt8} {type : UInt16}

theorem eraseDupsBy_loop_concat {α : Type} (r : α → α → Bool) (xs acc : List α) (x : α) :
    List.eraseDupsBy.loop r (xs ++ [x]) acc =
      if (List.eraseDupsBy.loop r xs acc).any (r x) then List.eraseDupsBy.loop r xs acc
      else List.eraseDupsBy.loop r xs acc ++ [x] := by
  induction xs generalizing acc with
  | nil =>
    simp only [List.nil_append, List.eraseDupsBy.loop, List.any_reverse]
    cases acc.any (r x) <;> simp
  | cons y xs ih =>
    rw [List.cons_append, List.eraseDupsBy.loop, List.eraseDupsBy.loop]
    split
    · exact ih acc
    · exact ih (y :: acc)

/-- A further record is kept when its address is new. -/
theorem eraseDupsBy_concat {α : Type} (r : α → α → Bool) (xs : List α) (x : α) :
    (xs ++ [x]).eraseDupsBy r =
      if (xs.eraseDupsBy r).any (r x) then xs.eraseDupsBy r else xs.eraseDupsBy r ++ [x] :=
  eraseDupsBy_loop_concat r xs [] x

theorem mem_of_mem_eraseDupsBy_loop {α : Type} {r : α → α → Bool} {xs acc : List α} {x : α}
    (h : x ∈ List.eraseDupsBy.loop r xs acc) : x ∈ acc ∨ x ∈ xs := by
  induction xs generalizing acc with
  | nil => exact .inl (List.mem_reverse.1 h)
  | cons y xs ih =>
    rw [List.eraseDupsBy.loop] at h
    split at h
    · exact (ih h).imp_right (List.mem_cons_of_mem y)
    · rcases ih h with hx | hx
      · rcases List.mem_cons.1 hx with rfl | hx
        · exact .inr List.mem_cons_self
        · exact .inl hx
      · exact .inr (List.mem_cons_of_mem y hx)

theorem mem_relayAnswer {old : ResourceRecord} (h : old ∈ relayAnswer rrs name type) :
    old ∈ rrs ∧ old.name = name ∧ old.type = type := by
  rcases mem_of_mem_eraseDupsBy_loop (List.mem_of_mem_take h) with hnil | hmem
  · cases hnil
  · simpa using hmem

theorem IsRelayRecord.rdata_length_eq {old : ResourceRecord} (h : IsRelayRecord rr)
    (ho : IsRelayRecord old) (htype : old.type = rr.type) : old.rdata.length = rr.rdata.length := by
  have haddr := ho.address
  rw [htype, h.address] at haddr
  exact (Option.some.inj haddr).symm

/-- The duplicate check of `tree_insert` compares whole addresses. -/
theorem IsRelayRecord.sameRdata_eq {old : ResourceRecord} (h : IsRelayRecord rr)
    (ho : IsRelayRecord old) (htype : old.type = rr.type) :
    sameRdata rr old = (rr.rdata == old.rdata) := by
  rw [sameRdata, h.rdlength, copyOut_of_le (Nat.le_refl _), List.take_length,
    copyOut_of_le (h.rdata_length_eq ho htype).ge, ← h.rdata_length_eq ho htype, List.take_length]

theorem relayAnswer_concat_of_ne (h : ¬(rr.name = name ∧ rr.type = type)) :
    relayAnswer (rrs ++ [rr]) name type = relayAnswer rrs name type := by
  have hfilter : [rr].filter (fun rr => rr.name == name && rr.type == type) = [] := by
    simpa using h
  rw [relayAnswer, List.filter_append, hfilter, List.append_nil, relayAnswer]

/-- Keeping at most `n` elements commutes with adding one that is new. -/
theorem take_ite_concat {α : Type} (kept : List α) (p : α → Bool) (x : α) (n : ℕ) :
    (if kept.any p = true then kept else kept ++ [x]).take n =
      if n ≤ (kept.take n).length ∨ (kept.take n).any p = true then kept.take n
      else kept.take n ++ [x] := by
  by_cases hfull : n ≤ kept.length
  · -- the cut hides whatever is appended
    have hcut : n ≤ (kept.take n).length := by rw [List.length_take, Nat.min_eq_left hfull]
    rw [if_pos (Or.inl hcut)]
    split
    · rfl
    · exact List.take_append_of_le_length hfull
  · have hroom : kept.length < n := Nat.lt_of_not_le hfull
    rw [List.take_of_length_le (Nat.le_of_lt hroom)]
    split
    · next hdup => rw [if_pos (.inr hdup), List.take_of_length_le (Nat.le_of_lt hroom)]
    · next hnew =>
      rw [if_neg (not_or.2 ⟨hfull, hnew⟩)]
      exact List.take_of_length_le (by rw [List.length_append, List.length_singleton]; exact hroom)

/-- Appending to the table is what `tree_insert` does to the records of a node. -/
theorem relayAnswer_concat (hrrs : ∀ r ∈ rrs, IsRelayRecord r) (hrr : IsRelayRecord rr) :
    relayAnswer (rrs ++ [rr]) rr.name rr.type =
      addRecord rr (relayAnswer rrs rr.name rr.type) := by
  have hfilter : [rr].filter (fun r => r.name == rr.name && r.type == rr.type) = [rr] := by simp
  have hany : (relayAnswer rrs rr.name rr.type).any (sameRdata rr) =
      (relayAnswer rrs rr.name rr.type).any fun old => rr.rdata == old.rdata := by
    rw [Bool.eq_iff_iff, List.any_eq_true, List.any_eq_true]
    refine exists_congr fun old => and_congr_right fun hold => ?_
    obtain ⟨hmem, -, htype⟩ := mem_relayAnswer hold
    rw [hrr.sameRdata_eq (hrrs old hmem) htype]
  rw [addRecord, hany]
  simp only [relayAnswer, List.filter_append, hfilter, eraseDupsBy_concat]
  exact take_ite_concat _ _ _ _

end Table

/-! The tree implements the table. -/

section Refinement

variable {rrs : List ResourceRecord} {rr : ResourceRecord} {tree : BucketTree} {fuel : ℕ}

/-- A database that represents the records inserted so far. -/
structure Represents (tree : BucketTree) (rrs : List ResourceRecord) : Prop where
  hashFun : tree.hashFun = rrHash
  root : tree.root.Ok
  records : ∀ r ∈ rrs, IsRelayRecord r
  stored : ∀ ls : List (List UInt8), ls ≠ [] → (∀ l ∈ ls, IsQueryLabel l) → ∀ type index,
    elementIndex type = some index → TreeNode.stored ls.reverse tree.root index =
      relayAnswer rrs (labelsWire ls ++ [0]) type

theorem represents_treeInit : Represents (treeInit rrHash) [] where
  hashFun := rfl
  root := createTreeNode_ok
  records := by
    intro r hr
    cases hr
  stored ls _ _ type index _ := stored_createTreeNode ls.reverse index

/-- The record type that an index into `data` stands for. -/
def ElementIndex.rrtype : ElementIndex → UInt16
  | .a => rrtypeA
  | .cname => rrtypeCname
  | .aaaa => rrtypeAaaa

theorem rrtype_of_elementIndex {type : UInt16} {index : ElementIndex}
    (h : elementIndex type = some index) : type = index.rrtype := by
  unfold elementIndex at h
  split_ifs at h with ha hcname haaaa <;> cases h
  · exact ha
  · exact hcname
  · exact haaaa

theorem elementIndex_of_addressSize {type : UInt16} {size : ℕ}
    (h : addressSize type = some size) : ∃ index, elementIndex type = some index := by
  unfold addressSize at h
  split_ifs at h with ha haaaa
  · exact ⟨.a, by rw [ha]; rfl⟩
  · exact ⟨.aaaa, by rw [haaaa]; rfl⟩

theorem IsRelayRecord.elementIndex_ne_none (h : IsRelayRecord rr) :
    ∃ index, elementIndex rr.type = some index := elementIndex_of_addressSize h.address

/-- One `insert_database` appends one record to the table. -/
theorem Represents.insertDatabase (h : Represents tree rrs) (hrr : IsRelayRecord rr)
    (hfuel : domainLenMax ≤ fuel) :
    ∃ tree' ret, insertDatabase fuel tree rr = some (tree', ret) ∧
      Represents tree' (rrs ++ [rr]) := by
  obtain ⟨ls, hne, hls, hname, hlen⟩ := hrr.name
  obtain ⟨index, hindex⟩ := hrr.elementIndex_ne_none
  have hquery : ∀ l ∈ ls, IsQueryLabel l := fun l hl => (hls l hl).isQueryLabel
  have hlabel : ∀ l ∈ ls, IsLabel l := fun l hl => (hquery l hl).isLabel
  have hrounds : 2 * ls.reverse.length ≤ fuel := by
    have hwire := two_mul_length_le_labelsWire hlabel
    rw [hname, List.length_append] at hlen
    rw [List.length_reverse]
    omega
  obtain ⟨root, ret, hloop, hins⟩ : ∃ root ret, treeInsertLoop rrHash index rr fuel tree.root
      (labelsWire ls.reverse ++ [0]) = some (root, ret) ∧
        Inserted rr index ls.reverse tree.root root :=
    treeInsertLoop_spec h.root (fun l hl => hls l (List.mem_reverse.1 hl))
      (mt List.reverse_eq_nil_iff.1 hne) hrounds
  refine ⟨{ tree with root := root }, ret, ?_, h.hashFun, hins.ok, ?_, ?_⟩
  · rw [BakaDns.insertDatabase, hrr.name.isQueryName.domainLen_eq, hname, domainRev_labels hlabel]
    simp only [treeInsert, hindex, h.hashFun, hloop]
    rfl
  · intro r hr
    rcases List.mem_append.1 hr with hr | hr
    · exact h.records r hr
    · rw [List.mem_singleton.1 hr]
      exact hrr
  · intro ks hks hkq type j hj
    have hklabel : ∀ k ∈ ks, IsLabel k := fun k hk => (hkq k hk).isLabel
    have hstored := hins.stored ks.reverse (fun k hk => hkq k (List.mem_reverse.1 hk)) j
    rw [h.stored ks hks hkq type j hj, h.stored ls hne hquery rr.type index hindex,
      ← hname] at hstored
    refine hstored.trans ?_
    by_cases hsame : ks.reverse = ls.reverse ∧ j = index
    · obtain ⟨hkls, rfl⟩ := hsame
      rw [if_pos ⟨hkls, rfl⟩, List.reverse_injective hkls, ← hname,
        (rrtype_of_elementIndex hj).trans (rrtype_of_elementIndex hindex).symm,
        relayAnswer_concat h.records hrr]
    · rw [if_neg hsame, relayAnswer_concat_of_ne]
      rintro ⟨hn, rfl⟩
      rw [hname] at hn
      rw [labelsWire_injective hlabel hklabel hn] at hsame
      exact hsame ⟨rfl, Option.some.inj (hj.symm.trans hindex)⟩

theorem Represents.insertAll {new : List ResourceRecord} (h : Represents tree rrs)
    (hnew : ∀ r ∈ new, IsRelayRecord r) (hfuel : domainLenMax ≤ fuel) :
    ∃ tree', insertAll fuel tree new = some tree' ∧ Represents tree' (rrs ++ new) := by
  induction new generalizing tree rrs with
  | nil => exact ⟨tree, rfl, by rw [List.append_nil]; exact h⟩
  | cons rr new ih =>
    obtain ⟨tree₁, ret, hins, h₁⟩ := h.insertDatabase (hnew rr List.mem_cons_self) hfuel
    obtain ⟨tree₂, hall, h₂⟩ := ih h₁ fun r hr => hnew r (List.mem_cons_of_mem rr hr)
    refine ⟨tree₂, ?_, ?_⟩
    · rw [BakaDns.insertAll, hins]
      exact hall
    · rwa [List.append_assoc] at h₂

theorem IsRelayRecord.rrCopy_eq (h : IsRelayRecord rr) : rrCopy rr = rr := by
  obtain ⟨ls, -, hls, hname, -⟩ := h.name
  have hcstr : cstr rr.name ++ [0] = rr.name := by
    rw [hname, cstr_labelsWire fun l hl => (hls l hl).isQueryLabel]
  exact rrCopy_eq_self hcstr h.rdlength.symm

/-- `select_database` reads the table. -/
theorem Represents.selectDatabase (h : Represents tree rrs) {q : MessageQuestion}
    (hq : IsQueryName q.qname) {index : ElementIndex} (hindex : elementIndex q.qtype = some index) :
    selectDatabase tree q = relayAnswer rrs q.qname q.qtype := by
  obtain ⟨ls, hne, hls, hname, hlen⟩ := hq
  have hlabel : ∀ l ∈ ls, IsLabel l := fun l hl => (hls l hl).isLabel
  have hfuel : ls.reverse.length ≤ (labelsWire ls.reverse).length := by
    have hrounds := two_mul_length_le_labelsWire fun l hl => hlabel l (List.mem_reverse.1 hl)
    omega
  rw [BakaDns.selectDatabase, hname, domainLen_labelsWire hls (hname ▸ hlen)]
  simp only [treeSearch, hindex, domainRev_labels hlabel, List.length_append, List.length_singleton]
  rw [treeSearchLoop_eq h.root (fun l hl => hls l (List.mem_reverse.1 hl)) hfuel,
    h.stored ls hne hls q.qtype index hindex]
  refine (List.map_congr_left ?_).trans (List.map_id _)
  intro r hr
  exact (h.records r (mem_relayAnswer hr).1).rrCopy_eq

theorem relayAnswer_eq_nil {name : List UInt8} {type : UInt16}
    (h : ∀ r ∈ rrs, r.name = name → r.type ≠ type) : relayAnswer rrs name type = [] := by
  have hfilter : rrs.filter (fun rr => rr.name == name && rr.type == type) = [] := by
    rw [List.filter_eq_nil_iff]
    intro r hr hboth
    rw [Bool.and_eq_true, beq_iff_eq, beq_iff_eq] at hboth
    exact h r hr hboth.1 hboth.2
  rw [relayAnswer, hfilter]
  rfl

/-- Whatever was inserted, and in whatever order, `select_database` answers as the table does. -/
theorem selectDatabase_insertAll (hrrs : ∀ r ∈ rrs, IsRelayRecord r) (hfuel : domainLenMax ≤ fuel) :
    ∃ tree, BakaDns.insertAll fuel (treeInit rrHash) rrs = some tree ∧
      ∀ q : MessageQuestion, IsQueryName q.qname → q.qtype = rrtypeA ∨ q.qtype = rrtypeAaaa →
        BakaDns.selectDatabase tree q = relayAnswer rrs q.qname q.qtype ∧
          ((∀ r ∈ rrs, r.name = q.qname → r.type ≠ q.qtype) →
            BakaDns.selectDatabase tree q = []) := by
  obtain ⟨tree, hall, h⟩ := represents_treeInit.insertAll hrrs hfuel
  refine ⟨tree, hall, ?_⟩
  intro q hq htype
  obtain ⟨index, hindex⟩ : ∃ index, elementIndex q.qtype = some index := by
    rcases htype with ha | haaaa
    · exact ⟨.a, by rw [ha]; rfl⟩
    · exact ⟨.aaaa, by rw [haaaa]; rfl⟩
  have hselect := h.selectDatabase hq hindex
  exact ⟨hselect, fun hnone => hselect.trans (relayAnswer_eq_nil hnone)⟩

/-- The name `a.b` with three addresses, one of them twice, next to a sibling `c.b`. -/
def sampleRelay : List ResourceRecord :=
  [⟨[1, 97, 1, 98, 0], rrtypeA, rrclassIn, 0, 4, [10, 0, 0, 1]⟩,
    ⟨[1, 99, 1, 98, 0], rrtypeA, rrclassIn, 0, 4, [10, 0, 0, 3]⟩,
    ⟨[1, 97, 1, 98, 0], rrtypeA, rrclassIn, 0, 4, [10, 0, 0, 1]⟩,
    ⟨[1, 97, 1, 98, 0], rrtypeA, rrclassIn, 0, 4, [10, 0, 0, 2]⟩]

theorem sampleRelay_isRelayRecord : ∀ r ∈ sampleRelay, IsRelayRecord r := by
  have ha : IsRelayName [1, 97, 1, 98, 0] :=
    ⟨[[97], [98]], by simp, by simp [IsNodeLabel, subdomainMax], rfl, by decide⟩
  have hc : IsRelayName [1, 99, 1, 98, 0] :=
    ⟨[[99], [98]], by simp, by simp [IsNodeLabel, subdomainMax], rfl, by decide⟩
  simp only [sampleRelay, List.forall_mem_cons]
  exact ⟨⟨ha, rfl, rfl⟩, ⟨hc, rfl, rfl⟩, ⟨ha, rfl, rfl⟩, ⟨ha, rfl, rfl⟩, List.forall_mem_nil _⟩

theorem sampleRelay_database {db : BucketTree}
    (h : BakaDns.insertAll domainLenMax (treeInit rrHash) sampleRelay = some db) :
    RelayDatabase sampleRelay db where
  fits rr hrr := (sampleRelay_isRelayRecord rr hrr).name
  inserted := ⟨domainLenMax, rrHash, h⟩

theorem selectDatabase_sampleRelay :
    ∃ tree, BakaDns.insertAll domainLenMax (treeInit rrHash) sampleRelay = some tree ∧
      BakaDns.selectDatabase tree ⟨[1, 97, 1, 98, 0], rrtypeA, rrclassIn⟩ =
        [⟨[1, 97, 1, 98, 0], rrtypeA, rrclassIn, 0, 4, [10, 0, 0, 1]⟩,
          ⟨[1, 97, 1, 98, 0], rrtypeA, rrclassIn, 0, 4, [10, 0, 0, 2]⟩] := by
  obtain ⟨tree, hall, hselect⟩ :=
    selectDatabase_insertAll sampleRelay_isRelayRecord (Nat.le_refl domainLenMax)
  refine ⟨tree, hall, ?_⟩
  have hq : IsQueryName [1, 97, 1, 98, 0] :=
    (sampleRelay_isRelayRecord _ List.mem_cons_self).name.isQueryName
  exact (hselect ⟨_, rrtypeA, rrclassIn⟩ hq (.inl rfl)).1.trans (by decide)

end Refinement

/-! Every record that is found was inserted, and no node holds more than it has room for. -/

section Provenance

variable {p : ElementIndex → ResourceRecord → Prop} {tn tn' : TreeNode}
  {hashFun : List UInt8 → UInt32} {rr : ResourceRecord} {index : ElementIndex}

/-- The records of one element: each satisfies `p`, and their counts are in range. -/
def NodeElement.Keeps (p : ElementIndex → ResourceRecord → Prop) (e : Element) : Prop :=
  ∀ index, e.dataCnt index ≤ rrCntMax ∧ ∀ r ∈ e.data index, p index r

/-- All elements below a node keep such records. -/
inductive TreeNode.AllRecords (p : ElementIndex → ResourceRecord → Prop) : TreeNode → Prop
  | mk {tn : TreeNode} (data : ∀ e ∈ tn.elems, e.Keeps p)
      (child : ∀ e ∈ tn.elems, ∀ c, e.child = some c → c.AllRecords p) : tn.AllRecords p

theorem TreeNode.AllRecords.data (h : tn.AllRecords p) : ∀ e ∈ tn.elems, e.Keeps p := by
  cases h with
  | mk data _ => exact data

theorem TreeNode.AllRecords.child (h : tn.AllRecords p) :
    ∀ e ∈ tn.elems, ∀ c, e.child = some c → c.AllRecords p := by
  cases h with
  | mk _ child => exact child

theorem allRecords_createTreeNode : createTreeNode.AllRecords p := by
  constructor
  · intro e he
    cases he
  · intro e he
    cases he

theorem mem_modifyFirst {α : Type} {q : α → Bool} {f : α → α} {xs : List α} {x : α}
    (h : x ∈ modifyFirst q f xs) : x ∈ xs ∨ ∃ y, xs.find? q = some y ∧ x = f y := by
  induction xs with
  | nil => cases h
  | cons y ys ih =>
    rw [modifyFirst] at h
    by_cases hy : q y = true
    · rw [if_pos hy] at h
      rcases List.mem_cons.1 h with rfl | h
      · exact .inr ⟨y, List.find?_cons_of_pos hy, rfl⟩
      · exact .inl (List.mem_cons_of_mem y h)
    · rw [if_neg hy] at h
      rw [List.find?_cons_of_neg hy]
      rcases List.mem_cons.1 h with rfl | h
      · exact .inl List.mem_cons_self
      · rcases ih h with h | hfound
        · exact .inl (List.mem_cons_of_mem y h)
        · exact .inr hfound

theorem mem_flatten_modify {α : Type} {b : List (List α)} {i : ℕ} {f : List α → List α} {x : α}
    (h : x ∈ (b.modify i f).flatten) : x ∈ b.flatten ∨ ∃ c, b[i]? = some c ∧ x ∈ f c := by
  obtain ⟨c, hc, hx⟩ := List.mem_flatten.1 h
  obtain ⟨j, hj⟩ := List.mem_iff_getElem?.1 hc
  rw [List.getElem?_modify] at hj
  obtain ⟨d, hd, rfl⟩ := Option.map_eq_some_iff.1 hj
  split at hx
  · next heq => exact .inr ⟨d, heq ▸ hd, hx⟩
  · exact .inl (List.mem_flatten.2 ⟨d, List.mem_of_getElem? hd, hx⟩)

theorem mem_elems_modify {target : List UInt8} {f : Element → Element} {e : Element}
    (h : e ∈ (treeNodeModify tn target f).elems) :
    e ∈ tn.elems ∨ ∃ e₀, treeNodeFind tn target = some e₀ ∧ e = f e₀ := by
  cases tn with
  | linkedList size list => exact mem_modifyFirst h
  | hashBucket size bucket =>
    rcases mem_flatten_modify h with h | ⟨c, hc, h⟩
    · exact .inl h
    · rcases mem_modifyFirst h with h | ⟨e₀, h, heq⟩
      · exact .inl (List.mem_flatten.2 ⟨c, List.mem_of_getElem? hc, h⟩)
      · refine .inr ⟨e₀, ?_, heq⟩
        rw [treeNodeFind, List.getD_eq_getElem?_getD, hc]
        exact h

theorem mem_pushBucket {bucket : List (List Element)} {hash : UInt32} {e new : Element}
    (h : e ∈ (pushBucket hash bucket new).flatten) : e = new ∨ e ∈ bucket.flatten := by
  rcases mem_flatten_modify h with h | ⟨c, hc, h⟩
  · exact .inr h
  · rcases List.mem_cons.1 h with h | h
    · exact .inl h
    · exact .inr (List.mem_flatten.2 ⟨c, List.mem_of_getElem? hc, h⟩)

theorem mem_foldl_pushBucket {es : List Element} {bucket : List (List Element)} {e : Element}
    (h : e ∈ (es.foldl (fun b n => pushBucket (hashFun n.domain) b n) bucket).flatten) :
    e ∈ es ∨ e ∈ bucket.flatten := by
  induction es generalizing bucket with
  | nil => exact .inr h
  | cons n es ih =>
    rcases ih h with h | h
    · exact .inl (List.mem_cons_of_mem n h)
    · rcases mem_pushBucket h with rfl | h
      · exact .inl List.mem_cons_self
      · exact .inr h

theorem mem_elems_insert {rev : List UInt8} {e new : Element}
    (h : e ∈ (treeNodeInsert tn rev new hashFun).elems) : e = new ∨ e ∈ tn.elems := by
  cases tn with
  | hashBucket size bucket => exact mem_pushBucket h
  | linkedList size list =>
    simp only [treeNodeInsert] at h
    split at h
    · rcases mem_foldl_pushBucket h with h | h
      · exact List.mem_cons.1 h
      · rw [List.flatten_replicate_nil] at h
        cases h
    · exact List.mem_cons.1 h

theorem NodeElement.Keeps.store {e : Element} (h : e.Keeps p) (hroom : e.dataCnt index < rrCntMax)
    (hrr : p index rr) : (e.store index rr).Keeps p := by
  intro j
  change Function.update e.dataCnt index (e.dataCnt index + 1) j ≤ rrCntMax ∧
    ∀ r ∈ Function.update e.data index ((e.data index).take (e.dataCnt index) ++
      rr :: (e.data index).drop (e.dataCnt index + 1)) j, p j r
  by_cases hj : j = index
  · subst hj
    rw [Function.update_self, Function.update_self]
    refine ⟨hroom, ?_⟩
    intro r hr
    rw [List.mem_append, List.mem_cons] at hr
    rcases hr with hr | rfl | hr
    · exact (h j).2 r (List.mem_of_mem_take hr)
    · exact hrr
    · exact (h j).2 r (List.mem_of_mem_drop hr)
  · rw [Function.update_of_ne hj, Function.update_of_ne hj]
    exact h j

theorem newElement_keeps (rev : List UInt8) : (newElement rev).Keeps p := by
  intro j
  refine ⟨Nat.zero_le _, ?_⟩
  intro r hr
  cases hr

theorem TreeNode.AllRecords.modify (h : tn.AllRecords p) {target : List UInt8}
    {f : Element → Element}
    (hdata : ∀ e, treeNodeFind tn target = some e → (f e).Keeps p)
    (hchild : ∀ e, treeNodeFind tn target = some e → ∀ c, (f e).child = some c → c.AllRecords p) :
    (treeNodeModify tn target f).AllRecords p := by
  constructor
  · intro e he
    rcases mem_elems_modify he with hold | ⟨e₀, hfind, rfl⟩
    · exact h.data e hold
    · exact hdata e₀ hfind
  · intro e he
    rcases mem_elems_modify he with hold | ⟨e₀, hfind, rfl⟩
    · exact h.child e hold
    · exact hchild e₀ hfind

theorem TreeNode.AllRecords.insert (h : tn.AllRecords p) {rev : List UInt8} {new : Element}
    (hdata : new.Keeps p) (hchild : ∀ c, new.child = some c → c.AllRecords p) :
    (treeNodeInsert tn rev new hashFun).AllRecords p := by
  constructor
  · intro e he
    rcases mem_elems_insert he with rfl | hold
    · exact hdata
    · exact h.data e hold
  · intro e he
    rcases mem_elems_insert he with rfl | hold
    · exact hchild
    · exact h.child e hold

/-- An insertion adds nothing but its own record, and only where there is room. -/
theorem treeInsertLoop_allRecords {fuel : ℕ} {rev : List UInt8} {ret : ℤ} (hrr : p index rr)
    (htn : tn.AllRecords p)
    (h : treeInsertLoop hashFun index rr fuel tn rev = some (tn', ret)) : tn'.AllRecords p := by
  induction fuel generalizing tn tn' rev ret with
  | zero => cases h
  | succ fuel ih =>
    cases insertRound_of_loop h with
    | ended | refused => exact htn
    | @stored ln _ hfind _ hroom _ =>
      have hln : ln ∈ tn.elems := (mem_elems_of_find hfind).1
      refine htn.modify ?_ ?_
      · intro e he
        cases hfind.symm.trans he
        exact (htn.data ln hln).store hroom hrr
      · intro e he
        cases hfind.symm.trans he
        exact htn.child ln hln
    | @descended ln child _ _ hfind _ hloop =>
      have hln : ln ∈ tn.elems := (mem_elems_of_find hfind).1
      have hbelow : (ln.child.getD createTreeNode).AllRecords p := by
        cases hc : ln.child with
        | none => exact allRecords_createTreeNode
        | some c => exact htn.child ln hln c hc
      refine htn.modify ?_ ?_
      · intro e he
        cases hfind.symm.trans he
        exact htn.data ln hln
      · intro e he c hc
        cases hc
        exact ih hbelow hloop
    | created =>
      refine htn.insert ((newElement_keeps rev).store (Nat.zero_lt_succ 3) hrr) fun c hc => ?_
      cases hc
    | paved _ _ _ hnext =>
      refine ih ?_ hnext
      refine htn.insert (newElement_keeps rev) fun c hc => ?_
      cases hc
      exact allRecords_createTreeNode

theorem treeSearchLoop_allRecords {fuel : ℕ} {domain : List UInt8} (htn : tn.AllRecords p) :
    (treeSearchLoop index fuel (some tn) domain).length ≤ rrCntMax ∧
      ∀ r ∈ treeSearchLoop index fuel (some tn) domain, ∃ s, p index s ∧ r = rrCopy s := by
  have hnil : ([] : List ResourceRecord).length ≤ rrCntMax ∧
      ∀ r ∈ ([] : List ResourceRecord), ∃ s, p index s ∧ r = rrCopy s :=
    ⟨Nat.zero_le _, List.forall_mem_nil _⟩
  induction fuel generalizing tn domain with
  | zero => exact hnil
  | succ fuel ih =>
    rw [treeSearchLoop]
    split
    · exact hnil
    · cases hfind : treeNodeFind tn domain with
      | none => exact hnil
      | some ln =>
        have hln : ln ∈ tn.elems := (mem_elems_of_find hfind).1
        dsimp only
        split
        · obtain ⟨hcount, hrecords⟩ := htn.data ln hln index
          refine ⟨?_, ?_⟩
          · rw [List.length_map]
            exact Nat.le_trans (List.length_take_le _ _) hcount
          · intro r hr
            obtain ⟨s, hs, rfl⟩ := List.mem_map.1 hr
            exact ⟨s, hrecords s (List.mem_of_mem_take hs), rfl⟩
        · cases hc : ln.child with
          | none =>
            cases fuel with
            | zero => exact hnil
            | succ fuel => exact hnil
          | some c => exact ih (htn.child ln hln c hc)

theorem insertAll_allRecords {fuel : ℕ} {rrs : List ResourceRecord} {tree tree' : BucketTree}
    (hrrs : ∀ rr ∈ rrs, domainLen rr.name ≠ none → ∀ index, elementIndex rr.type = some index →
      p index rr)
    (htree : tree.root.AllRecords p) (h : insertAll fuel tree rrs = some tree') :
    tree'.root.AllRecords p := by
  induction rrs generalizing tree with
  | nil =>
    cases h
    exact htree
  | cons rr rrs ih =>
    obtain ⟨⟨tree₁, ret⟩, hone, h⟩ := Option.bind_eq_some_iff.1 h
    refine ih (fun r hr => hrrs r (List.mem_cons_of_mem rr hr)) ?_ h
    have hrr := hrrs rr List.mem_cons_self
    rw [insertDatabase] at hone
    cases hlen : domainLen rr.name with
    | none =>
      simp only [hlen] at hone
      cases hone
      exact htree
    | some n =>
      rw [hlen] at hrr
      simp only [hlen, treeInsert] at hone
      cases hindex : elementIndex rr.type with
      | none =>
        simp only [hindex] at hone
        cases hone
        exact htree
      | some index =>
        simp only [hindex] at hone
        obtain ⟨⟨root, ret'⟩, hloop, hone⟩ := Option.bind_eq_some_iff.1 hone
        cases hone
        exact treeInsertLoop_allRecords (hrr (Option.some_ne_none n) index hindex) htree hloop

/-- `select_database` returns copies of records of the type asked for that `insert_database` was
given, and at most four of them. -/
theorem selectDatabase_inserted {fuel : ℕ} {rrs : List ResourceRecord} {db : BucketTree}
    (hdb : insertAll fuel (treeInit hashFun) rrs = some db) (q : MessageQuestion) :
    (selectDatabase db q).length ≤ rrCntMax ∧
      ∀ r ∈ selectDatabase db q, ∃ s ∈ rrs, domainLen s.name ≠ none ∧ s.type = q.qtype ∧
        r = rrCopy s := by
  have hroot : db.root.AllRecords fun index s =>
      s ∈ rrs ∧ domainLen s.name ≠ none ∧ elementIndex s.type = some index :=
    insertAll_allRecords (fun rr hrr hlen index hindex => ⟨hrr, hlen, hindex⟩)
      allRecords_createTreeNode hdb
  have hnil : ([] : List ResourceRecord).length ≤ rrCntMax ∧
      ∀ r ∈ ([] : List ResourceRecord), ∃ s ∈ rrs, domainLen s.name ≠ none ∧ s.type = q.qtype ∧
        r = rrCopy s := ⟨Nat.zero_le _, List.forall_mem_nil _⟩
  rw [selectDatabase]
  split
  · exact hnil
  · rw [treeSearch]
    split
    · exact hnil
    · next index hindex =>
      obtain ⟨hlen, hrecords⟩ := treeSearchLoop_allRecords hroot
      refine ⟨hlen, ?_⟩
      intro r hr
      obtain ⟨s, ⟨hs, hname, htype⟩, rfl⟩ := hrecords r hr
      have heq : s.type = q.qtype :=
        (rrtype_of_elementIndex htype).trans (rrtype_of_elementIndex hindex).symm
      exact ⟨s, hs, hname, heq, rfl⟩

end Provenance

end BakaDns
