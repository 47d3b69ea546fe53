import BakaDns.RelayCase

/-!
# Records and the paths to them

A record lies in the tree under the labels of its name, last label first, and a search that gets
to it has read these labels. This holds for every hash function, for labels that are too long for
a node, and for questions whose length octets are wrong.
-/

namespace BakaDns
open CBytes Words

/-- A label without zero bytes. -/
def IsText (l : List UInt8) : Prop := IsLabel l ∧ ∀ c ∈ l, c ≠ 0

/-- The label that a node stands for. -/
def NodeElement.HasLabel {τ : Type} (e : NodeElement τ) (l : List UInt8) : Prop :=
  IsText l ∧ labelWire l <+: e.domain

/-- Every record satisfies `p` together with the labels on the way to it. -/
inductive TreeNode.Named : (List (List UInt8) → ResourceRecord → Prop) → TreeNode → Prop
  | mk {p : List (List UInt8) → ResourceRecord → Prop} {tn : TreeNode}
      (label : ∀ e ∈ tn.elems, ∃ l, e.HasLabel l)
      (data : ∀ e ∈ tn.elems, ∀ l, e.HasLabel l → ∀ j, ∀ r ∈ e.data j, p [l] r)
      (child : ∀ e ∈ tn.elems, ∀ l, e.HasLabel l → ∀ c, e.child = some c →
        TreeNode.Named (fun ls r => p (l :: ls) r) c) : tn.Named p

variable {p : List (List UInt8) → ResourceRecord → Prop} {tn tn' : TreeNode} {e : Element}
  {l k d t : List UInt8} {ls ks : List (List UInt8)} {index : ElementIndex} {rr : ResourceRecord}
  {hashFun : List UInt8 → UInt32}

/-- One node and what lies below it. -/
def NodeElement.NamedBy (p : List (List UInt8) → ResourceRecord → Prop) (e : Element)
    (l : List UInt8) : Prop :=
  e.HasLabel l ∧ (∀ j, ∀ r ∈ e.data j, p [l] r) ∧
    ∀ c, e.child = some c → c.Named fun ls r => p (l :: ls) r

section Labels

theorem IsText.labelWire_ne_zero (h : IsText l) : ∀ c ∈ labelWire l, c ≠ 0 := by
  intro c hc
  rcases List.mem_cons.1 hc with rfl | hc
  · exact h.1.ofNat_ne_zero
  · exact h.2 c hc

/-- The length octet says which label a text starts with. -/
theorem labelWire_prefix_unique (hl : IsLabel l) (hk : IsLabel k) (h : labelWire l <+: d)
    (h' : labelWire k <+: d) : l = k := by
  obtain ⟨t, rfl⟩ := h
  obtain ⟨u, hu⟩ := h'
  have hsize : (labelWire l).length = (labelWire k).length := by
    have hs := congrArg labelSize hu
    rw [labelSize_labelWire hk, labelSize_labelWire hl] at hs
    rw [length_labelWire, length_labelWire, hs]
  exact labelWire_injective (List.append_inj hu.symm hsize).1

/-- What matches a node starts with the label of that node. -/
theorem NodeElement.HasLabel.prefix_of_matches (he : e.HasLabel l) (h : nodeMatches t e = true) :
    labelWire l <+: t := by
  obtain ⟨hl, rest, hdomain⟩ := he
  rw [nodeMatches, strncmpEq_iff, ← hdomain, cstr_append_of_ne_zero hl.labelWire_ne_zero] at h
  have hhead : t.headD 0 = UInt8.ofNat l.length := by
    have hfirst := congrArg (fun s : List UInt8 => s.headD 0) h
    cases t with
    | nil =>
      simp only [cstr_nil, List.take_nil, labelSize, labelWire, List.cons_append,
        List.take_succ_cons, List.headD_nil, List.headD_cons] at hfirst
      exact absurd hfirst.symm hl.1.ofNat_ne_zero
    | cons c t =>
      rw [cstr_cons] at hfirst
      split at hfirst
      · simp only [List.take_nil, labelSize, labelWire, List.cons_append, List.take_succ_cons,
          List.headD_nil, List.headD_cons] at hfirst
        exact absurd hfirst.symm hl.1.ofNat_ne_zero
      · simpa [labelSize, labelWire] using hfirst
  have hsize : labelSize t = (labelWire l).length := by
    rw [labelSize, hhead, hl.1.toNat_ofNat, length_labelWire]
  rw [hsize, List.take_left] at h
  rw [← h]
  exact (List.take_prefix _ _).trans (List.takeWhile_prefix _)

theorem hasLabel_unique (h : e.HasLabel l) (h' : e.HasLabel k) : l = k :=
  labelWire_prefix_unique h.1.1 h'.1.1 h.2 h'.2

end Labels

theorem named_iff : tn.Named p ↔ ∀ e ∈ tn.elems, ∃ l, e.NamedBy p l := by
  constructor
  · rintro ⟨hlabel, hdata, hchild⟩ e he
    obtain ⟨l, hl⟩ := hlabel e he
    exact ⟨l, hl, hdata e he l hl, hchild e he l hl⟩
  · intro h
    refine ⟨fun e he => ?_, fun e he l hl => ?_, fun e he l hl => ?_⟩
    · obtain ⟨l, hl, -⟩ := h e he
      exact ⟨l, hl⟩
    · obtain ⟨k, hk, hdata, -⟩ := h e he
      rw [hasLabel_unique hl hk]
      exact hdata
    · obtain ⟨k, hk, -, hchild⟩ := h e he
      rw [hasLabel_unique hl hk]
      exact hchild

section Insert

theorem named_createTreeNode : createTreeNode.Named p := by
  rw [named_iff]
  intro e he
  cases he

theorem TreeNode.Named.modify (h : tn.Named p) {f : Element → Element}
    (hf : ∀ e l, treeNodeFind tn t = some e → e.NamedBy p l → ∃ k, (f e).NamedBy p k) :
    (treeNodeModify tn t f).Named p := by
  rw [named_iff] at h ⊢
  intro e he
  rcases mem_elems_modify he with hold | ⟨e₀, hfind, rfl⟩
  · exact h e hold
  · obtain ⟨l, hl⟩ := h e₀ (mem_elems_of_find hfind).1
    exact hf e₀ l hfind hl

theorem TreeNode.Named.insert (h : tn.Named p) {new : Element} (hnew : new.NamedBy p l) :
    (treeNodeInsert tn t new hashFun).Named p := by
  rw [named_iff] at h ⊢
  intro e he
  rcases mem_elems_insert he with rfl | hold
  · exact ⟨l, hnew⟩
  · exact h e hold

theorem labelWire_prefix_copyLabel (hl : IsLabel l) (domain t : List UInt8) :
    labelWire l <+: copyLabel domain (labelWire l ++ t) := by
  rw [copyLabel, labelSize_labelWire hl, copyOut_of_le (by simp), ← length_labelWire l,
    List.take_left]
  exact List.prefix_append _ _

theorem mem_data_store {r : ResourceRecord} {j : ElementIndex} (h : r ∈ (e.store index rr).data j) :
    r ∈ e.data j ∨ r = rr := by
  change r ∈ Function.update e.data index ((e.data index).take (e.dataCnt index) ++
    rr :: (e.data index).drop (e.dataCnt index + 1)) j at h
  by_cases hj : j = index
  · subst hj
    rw [Function.update_self, List.mem_append, List.mem_cons] at h
    rcases h with h | h | h
    · exact .inl (List.mem_of_mem_take h)
    · exact .inr h
    · exact .inl (List.mem_of_mem_drop h)
  · rw [Function.update_of_ne hj] at h
    exact .inl h

/-- A record stored at the end of its name. -/
theorem NodeElement.NamedBy.store (h : e.NamedBy p l) (hrr : p [l] rr) {domain : List UInt8}
    (hdomain : labelWire l <+: domain) :
    NodeElement.NamedBy p { e.store index rr with domain := domain } l := by
  obtain ⟨hl, hdata, hchild⟩ := h
  refine ⟨⟨hl.1, hdomain⟩, fun j r hr => ?_, hchild⟩
  rcases mem_data_store hr with hr | rfl
  · exact hdata j r hr
  · exact hrr

theorem newElement_namedBy (hl : IsText l) (t : List UInt8) :
    (newElement (labelWire l ++ t)).NamedBy p l := by
  refine ⟨⟨hl, labelWire_prefix_copyLabel hl.1 _ t⟩, fun j r hr => ?_, fun c hc => ?_⟩
  · cases hr
  · cases hc

/-- An insertion puts its record under the labels it was called with. -/
theorem treeInsertLoop_named {fuel : ℕ} {ret : ℤ} (hls : ∀ l ∈ ls, IsText l) (hne : ls ≠ [])
    (hrr : p ls rr) (htn : tn.Named p)
    (h : treeInsertLoop hashFun index rr fuel tn (labelsWire ls ++ [0]) = some (tn', ret)) :
    tn'.Named p := by
  induction fuel generalizing tn tn' ls ret p with
  | zero => cases h
  | succ fuel ih =>
    obtain ⟨l, ls, rfl⟩ := List.exists_cons_of_ne_nil hne
    have hl := hls l List.mem_cons_self
    have hlabels : ∀ k ∈ ls, IsText k := fun k hk => hls k (List.mem_cons_of_mem l hk)
    have hnext := labelsWire_headD_eq_zero_iff fun k hk => (hlabels k hk).1
    have hown : labelWire l <+: labelWire l ++ (labelsWire ls ++ [0]) := List.prefix_append _ _
    have hsame : ∀ e k, treeNodeFind tn (labelWire l ++ (labelsWire ls ++ [0])) = some e →
        e.NamedBy p k → k = l := by
      intro e k hfind hk
      have hprefix := hk.1.prefix_of_matches (mem_elems_of_find hfind).2
      exact labelWire_prefix_unique hk.1.1.1 hl.1 hprefix hown
    rw [labelsWire_cons_zero] at h
    cases insertRound_of_loop h with
    | ended | refused => exact htn
    | stored _ _ hlast =>
      rw [drop_labelWire hl.1] at hlast
      obtain rfl := hnext.1 hlast
      refine htn.modify fun e k hfind hk => ⟨l, ?_⟩
      obtain rfl := hsame e k hfind hk
      exact hk.store hrr (labelWire_prefix_copyLabel hl.1 _ _)
    | @descended ln child _ _ hfind hmore hloop =>
      rw [drop_labelWire hl.1] at hmore hloop
      obtain ⟨k, hk⟩ := named_iff.1 htn ln (mem_elems_of_find hfind).1
      obtain rfl := hsame ln k hfind hk
      have hbelow : (ln.child.getD createTreeNode).Named fun ls r => p (k :: ls) r := by
        cases hc : ln.child with
        | none => exact named_createTreeNode
        | some c => exact hk.2.2 c hc
      refine htn.modify fun e k' hfind' hk' => ⟨k, ?_⟩
      obtain rfl := hsame e k' hfind' hk'
      refine ⟨hk'.1, hk'.2.1, fun c hc => ?_⟩
      cases hc
      exact ih hlabels (fun hend => hmore (hnext.2 hend)) hrr hbelow hloop
    | created _ _ hlast =>
      rw [drop_labelWire hl.1] at hlast
      obtain rfl := hnext.1 hlast
      exact htn.insert ((newElement_namedBy hl _).store hrr (labelWire_prefix_copyLabel hl.1 _ _))
    | paved _ _ _ hloop =>
      -- the next round finds the node that this one makes
      have hpaved : (treeNodeInsert tn (labelWire l ++ (labelsWire ls ++ [0]))
          { newElement (labelWire l ++ (labelsWire ls ++ [0])) with
            child := some createTreeNode } hashFun).Named p := by
        obtain ⟨hlabel, hdata, -⟩ := newElement_namedBy (p := p) hl (labelsWire ls ++ [0])
        refine htn.insert ⟨hlabel, hdata, fun c hc => ?_⟩
        cases hc
        exact named_createTreeNode
      rw [← labelsWire_cons_zero] at hloop hpaved
      exact ih hls hne hrr hpaved hloop

end Insert

section Search

/-- A search reads the labels of the records that it finds. -/
theorem treeSearchLoop_named {fuel : ℕ} (htn : tn.Named p) {r : ResourceRecord}
    (h : r ∈ treeSearchLoop index fuel (some tn) d) :
    ∃ ls s, (∀ l ∈ ls, IsText l) ∧ p ls s ∧ r = rrCopy s ∧
      ∃ t, d = labelsWire ls ++ t ∧ t.headD 0 = 0 := by
  induction fuel generalizing tn d p with
  | zero => cases h
  | succ fuel ih =>
    rw [treeSearchLoop] at h
    split at h
    · cases h
    · cases hfind : treeNodeFind tn d with
      | none =>
        simp only [hfind] at h
        cases h
      | some ln =>
        simp only [hfind] at h
        obtain ⟨hmem, hmatch⟩ := mem_elems_of_find hfind
        obtain ⟨l, hl, hdata, hchild⟩ := named_iff.1 htn ln hmem
        obtain ⟨rest, rfl⟩ := hl.prefix_of_matches hmatch
        rw [drop_labelWire hl.1.1] at h
        split at h
        · next hend =>
          obtain ⟨s, hs, rfl⟩ := List.mem_map.1 h
          refine ⟨[l], s, List.forall_mem_singleton.2 hl.1, ?_, rfl, rest, ?_, hend⟩
          · exact hdata index s (List.mem_of_mem_take hs)
          · rw [labelsWire_cons, List.append_assoc]
            rfl
        · cases hc : ln.child with
          | none =>
            rw [hc] at h
            cases fuel <;> cases h
          | some c =>
            rw [hc] at h
            obtain ⟨ls, s, hls, hp, rfl, t, rfl, ht⟩ := ih (hchild c hc) h
            refine ⟨l :: ls, s, List.forall_mem_cons.2 ⟨hl.1, hls⟩, hp, rfl, t, ?_, ht⟩
            rw [labelsWire_cons, List.append_assoc]

/-- The labels that `domain_rev` reads off a name, by its length octets. Past the end of the block
it reads zeros. -/
def labelBlocks : ℕ → List UInt8 → List (List UInt8)
  | 0, _ => []
  | fuel + 1, src =>
    if src.headD 0 = 0 then []
    else copyOut src.tail (src.headD 0).toNat ::
      labelBlocks fuel (src.drop ((src.headD 0).toNat + 1))

theorem labelBlocks_isLabel (fuel : ℕ) (src : List UInt8) :
    ∀ l ∈ labelBlocks fuel src, IsLabel l := by
  induction fuel generalizing src with
  | zero =>
    intro l hl
    cases hl
  | succ fuel ih =>
    intro l hl
    rw [labelBlocks] at hl
    split at hl
    · cases hl
    · next hne =>
      rcases List.mem_cons.1 hl with rfl | hl
      · rw [IsLabel, length_copyOut]
        have hlt := (src.headD 0).toNat_lt
        have hpos : (src.headD 0).toNat ≠ 0 := fun h0 => hne (UInt8.toNat_inj.1 h0)
        omega
      · exact ih _ l hl

theorem revPush_blocks (fuel : ℕ) (src stack : List UInt8) :
    revPush fuel src stack = stack ++ labelStack (labelBlocks fuel src) := by
  induction fuel generalizing src stack with
  | zero => simp [revPush, labelBlocks, labelStack]
  | succ fuel ih =>
    rw [revPush, labelBlocks]
    split
    · simp [labelStack]
    · rw [ih]
      simp [labelStack, length_copyOut]

theorem domainRev_blocks (src : List UInt8) :
    domainRev src = labelsWire (labelBlocks src.length src).reverse ++ [0] := by
  have hlen : ∀ ls : List (List UInt8), ls.length ≤ (labelStack ls).length := by
    intro ls
    induction ls with
    | nil => exact Nat.le_refl 0
    | cons l ls ih =>
      simp only [labelStack, List.flatMap_cons, List.length_append, List.length_cons,
        List.length_nil] at ih ⊢
      omega
  have hpop := revPop_labels (labelBlocks_isLabel src.length src) []
    (Nat.lt_succ_of_le (hlen (labelBlocks src.length src)))
  rw [List.append_nil] at hpop
  rw [domainRev, revPush_blocks, List.nil_append, hpop]

theorem le_length_of_copyOut {s : List UInt8} {n : ℕ} (h : ∀ c ∈ copyOut s n, c ≠ 0) :
    n ≤ s.length := by
  induction n generalizing s with
  | zero => exact Nat.zero_le _
  | succ n ih =>
    rw [copyOut_succ] at h
    cases s with
    | nil => exact absurd rfl (h 0 List.mem_cons_self)
    | cons c s => exact Nat.succ_le_succ (ih fun c hc => h c (List.mem_cons_of_mem _ hc))

/-- Labels without zero bytes are the whole string. -/
theorem cstr_of_blocks {fuel : ℕ} {src : List UInt8} (hfuel : src.length ≤ fuel)
    (h : ∀ l ∈ labelBlocks fuel src, ∀ c ∈ l, c ≠ 0) :
    cstr src = labelsWire (labelBlocks fuel src) := by
  induction fuel generalizing src with
  | zero =>
    rw [List.length_eq_zero_iff.1 (Nat.le_zero.1 hfuel)]
    rfl
  | succ fuel ih =>
    rw [labelBlocks] at h ⊢
    cases src with
    | nil => rfl
    | cons n src =>
      rw [List.headD_cons, List.tail_cons, List.drop_succ_cons] at h ⊢
      rw [List.length_cons] at hfuel
      by_cases h0 : n = 0
      · rw [if_pos h0, cstr_cons, if_pos h0]
        rfl
      · rw [if_neg h0] at h ⊢
        rw [List.forall_mem_cons] at h
        have hlen := le_length_of_copyOut h.1
        have hrest : (src.drop n.toNat).length ≤ fuel := by
          rw [List.length_drop]
          omega
        have hcopy : copyOut src n.toNat = src.take n.toNat := copyOut_of_le hlen
        have hwire : labelWire (src.take n.toNat) = n :: src.take n.toNat := by
          rw [labelWire, List.length_take, Nat.min_eq_left hlen, UInt8.ofNat_toNat]
        rw [labelsWire_cons, ← ih hrest h.2, hcopy, hwire, cstr_cons, if_neg h0, List.cons_append,
          ← cstr_append_of_ne_zero (hcopy ▸ h.1), List.take_append_drop]

theorem labels_eq_of_wire (hls : ∀ l ∈ ls, IsLabel l) (hks : ∀ k ∈ ks, IsLabel k)
    (h : labelsWire ks ++ [0] = labelsWire ls ++ t) (ht : t.headD 0 = 0) : ls = ks := by
  induction ls generalizing ks with
  | nil =>
    have hwire : labelsWire ks ++ [0] = t := h
    exact ((labelsWire_headD_eq_zero_iff hks).1 (hwire ▸ ht)).symm
  | cons l ls ih =>
    have hl := hls l List.mem_cons_self
    rw [labelsWire_cons, List.append_assoc] at h
    cases ks with
    | nil => exact absurd (List.cons.inj h).1.symm hl.ofNat_ne_zero
    | cons k ks =>
      have hk := hks k List.mem_cons_self
      rw [labelsWire_cons_zero] at h
      obtain rfl : l = k :=
        labelWire_prefix_unique hl hk (List.prefix_append _ _) (h ▸ List.prefix_append _ _)
      rw [ih (fun x hx => hls x (List.mem_cons_of_mem l hx))
        (fun x hx => hks x (List.mem_cons_of_mem l hx)) (List.append_cancel_left h)]

end Search

/-! The database. -/

section Database

variable {fuel : ℕ} {rrs : List ResourceRecord} {db tree tree' : BucketTree} {q : MessageQuestion}

/-- A name of labels without zero bytes. -/
def IsTextName (name : List UInt8) : Prop :=
  ∃ ls, ls ≠ [] ∧ (∀ l ∈ ls, IsText l) ∧ name = labelsWire ls ++ [0]

theorem insertDatabase_named {ret : ℤ} (hls : ∀ l ∈ ls, IsText l) (hne : ls ≠ [])
    (hname : rr.name = labelsWire ls ++ [0]) (hrr : p ls.reverse rr) (htree : tree.root.Named p)
    (h : insertDatabase fuel tree rr = some (tree', ret)) : tree'.root.Named p := by
  rw [insertDatabase] at h
  split at h
  · cases h
    exact htree
  · rw [treeInsert] at h
    split at h
    · cases h
      exact htree
    · obtain ⟨⟨root, ret'⟩, hloop, h⟩ := Option.bind_eq_some_iff.1 h
      cases h
      rw [hname, domainRev_labels fun l hl => (hls l hl).1] at hloop
      refine treeInsertLoop_named (fun l hl => hls l (List.mem_reverse.1 hl)) ?_ hrr htree hloop
      exact mt List.reverse_eq_nil_iff.1 hne

theorem insertAll_named (hrrs : ∀ rr ∈ rrs, ∃ ls, ls ≠ [] ∧ (∀ l ∈ ls, IsText l) ∧
      rr.name = labelsWire ls ++ [0] ∧ p ls.reverse rr)
    (htree : tree.root.Named p) (h : insertAll fuel tree rrs = some tree') :
    tree'.root.Named p := by
  induction rrs generalizing tree with
  | nil =>
    cases h
    exact htree
  | cons rr rrs ih =>
    obtain ⟨⟨tree₁, ret⟩, hone, h⟩ := Option.bind_eq_some_iff.1 h
    obtain ⟨ls, hne, hls, hname, hrr⟩ := hrrs rr List.mem_cons_self
    have hfirst := insertDatabase_named hls hne hname hrr htree hone
    exact ih (fun r hr => hrrs r (List.mem_cons_of_mem rr hr)) hfirst h

/-- The records `select_database` returns have the name it was asked for, whatever that is. -/
theorem selectDatabase_name (hrrs : ∀ rr ∈ rrs, IsTextName rr.name)
    (hdb : insertAll fuel (treeInit hashFun) rrs = some db) {r : ResourceRecord}
    (hr : r ∈ selectDatabase db q) : ∃ s ∈ rrs, r = rrCopy s ∧ cstr s.name = cstr q.qname := by
  have hroot : db.root.Named fun ls s => s ∈ rrs ∧ s.name = labelsWire ls.reverse ++ [0] := by
    refine insertAll_named (fun rr hrr => ?_) named_createTreeNode hdb
    obtain ⟨ls, hne, hls, hname⟩ := hrrs rr hrr
    exact ⟨ls, hne, hls, hname, hrr, by rw [List.reverse_reverse, hname]⟩
  rw [selectDatabase] at hr
  split at hr
  · cases hr
  · rw [treeSearch] at hr
    split at hr
    · cases hr
    · obtain ⟨ls, s, hls, ⟨hs, hname⟩, rfl, t, hpath, ht⟩ := treeSearchLoop_named hroot hr
      refine ⟨s, hs, rfl, ?_⟩
      rw [domainRev_blocks] at hpath
      have hblocks := labelBlocks_isLabel q.qname.length q.qname
      have hsame : ls = (labelBlocks q.qname.length q.qname).reverse :=
        labels_eq_of_wire (fun l hl => (hls l hl).1)
          (fun l hl => hblocks l (List.mem_reverse.1 hl)) hpath ht
      have hreverse : ls.reverse = labelBlocks q.qname.length q.qname := by
        rw [hsame, List.reverse_reverse]
      have htext : ∀ l ∈ labelBlocks q.qname.length q.qname, IsText l := by
        intro l hl
        rw [← hreverse, List.mem_reverse] at hl
        exact hls l hl
      have hzero : ∀ c ∈ labelsWire ls.reverse, c ≠ 0 := by
        intro c hc
        obtain ⟨l, hl, hc⟩ := List.mem_flatMap.1 hc
        exact (htext l (hreverse ▸ hl)).labelWire_ne_zero c hc
      rw [hname, cstr_append_of_ne_zero hzero, cstr_of_blocks (Nat.le_refl _) fun l hl =>
        (htext l hl).2, hreverse, cstr_cons, if_pos rfl, List.append_nil]

theorem relayRecord_text {ip domain : List UInt8} (hdomain : ∀ c ∈ domain, c ≠ 0)
    (h : relayRecord ip domain = some rr) : IsTextName rr.name ∧ rr.rrclass = rrclassIn := by
  obtain ⟨⟨rrtype, address⟩, -, h⟩ := Option.bind_eq_some_iff.1 h
  dsimp only at h
  split at h
  · cases h
  · next hgood =>
    obtain ⟨hne, hlen⟩ := not_or.1 hgood
    cases h
    refine ⟨⟨_, hne, fun l hl => ⟨words_isLabel (Nat.lt_of_not_le hlen) l hl, fun c hc => ?_⟩, rfl⟩,
      rfl⟩
    exact map_tolower_ne_zero hdomain c ((mem_words hl).2 c hc)

/-- Every record of the relay file has such a name and the class IN. -/
theorem loadedRecords_text {bufs : LineBuffers} {lines : List (List UInt8)}
    (h : rr ∈ loadedRecords bufs lines) : IsTextName rr.name ∧ rr.rrclass = rrclassIn := by
  obtain ⟨ip, buf, h⟩ := mem_loadedRecords_cstr h
  exact relayRecord_text cstr_ne_zero h

end Database

end BakaDns
