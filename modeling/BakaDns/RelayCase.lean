import BakaDns.Loader

/-!
# Letter case in the relay database

The loader folds the case of every name; `select_database` compares bytes as they come.
-/

namespace BakaDns
open CBytes Words

/-- The labels of a name in lower case. -/
def lowerLabels (ls : List (List UInt8)) : List (List UInt8) := ls.map (List.map tolower)

theorem tolower_tolower (c : UInt8) : tolower (tolower c) = tolower c := by
  unfold tolower
  by_cases hup : 65 ≤ c ∧ c ≤ 90
  · have hup' : 65 ≤ c.toNat ∧ c.toNat ≤ 90 := hup
    have hlow : ¬(65 ≤ c + 32 ∧ c + 32 ≤ 90) := by
      intro h
      have h2 : (c + 32).toNat ≤ 90 := h.2
      rw [UInt8.toNat_add] at h2
      simp at h2
      omega
    rw [if_pos hup, if_neg hlow]
  · rw [if_neg hup, if_neg hup]

theorem lowerLabels_lowerLabels (ls : List (List UInt8)) :
    lowerLabels (lowerLabels ls) = lowerLabels ls := by
  have hcomp : tolower ∘ tolower = tolower := funext tolower_tolower
  simp [lowerLabels, hcomp]

theorem isDot_tolower (c : UInt8) : isDot (tolower c) = isDot c := by
  unfold tolower
  split
  · next hup =>
    have hup' : 65 ≤ c.toNat ∧ c.toNat ≤ 90 := hup
    have hc : c ≠ 46 := by
      rintro rfl
      simp at hup'
    have hc' : c + 32 ≠ 46 := by
      intro h
      have h1 := congrArg UInt8.toNat h
      rw [UInt8.toNat_add] at h1
      simp at h1
      omega
    simp [isDot, hc, hc']
  · rfl

theorem words_lower (s : List UInt8) :
    words isDot (s.map tolower) = lowerLabels (words isDot s) := by
  have hdot : isDot ∘ tolower = isDot := funext isDot_tolower
  rw [words_map, hdot, lowerLabels]

/-! Every record of the database has a name in lower case. -/

section Records

variable {bufs : LineBuffers} {lines : List (List UInt8)} {rr : ResourceRecord}
  {ip domain : List UInt8}

theorem relayRecord_spec (h : relayRecord ip domain = some rr) :
    (∀ l ∈ lowerLabels (words isDot domain), IsLabel l) ∧
      rr.name = labelsWire (lowerLabels (words isDot domain)) ++ [0] ∧
      addressSize rr.type = some rr.rdata.length ∧ rr.rdlength.toNat = rr.rdata.length := by
  obtain ⟨⟨rrtype, address⟩, haddress, h⟩ := Option.bind_eq_some_iff.1 h
  have hsize := length_convertAddress haddress
  have hshort : address.length < 2 ^ 16 := by
    unfold addressSize at hsize
    split_ifs at hsize
    · rw [← Option.some.inj hsize]
      decide
    · rw [← Option.some.inj hsize]
      decide
  dsimp only at h
  split at h
  · cases h
  · next hgood =>
    cases h
    have hlabels := words_isLabel (Nat.lt_of_not_le (not_or.1 hgood).2)
    rw [words_lower] at hlabels
    exact ⟨hlabels, by rw [words_lower], hsize, UInt16.toNat_ofNat_of_lt hshort⟩

theorem mem_loadedRecords_cstr (h : rr ∈ loadedRecords bufs lines) :
    ∃ ip buf, relayRecord ip (cstr buf) = some rr := by
  induction lines generalizing bufs with
  | nil => cases h
  | cons line lines ih =>
    rcases List.mem_append.1 h with h | h
    · rw [Option.mem_toList, loadLine] at h
      split at h
      · cases h
      · rw [loadBuffers_record] at h
        exact ⟨_, _, h⟩
    · exact ih h

theorem mem_loadedRecords (h : rr ∈ loadedRecords bufs lines) :
    ∃ ip domain, relayRecord ip domain = some rr := by
  obtain ⟨ip, buf, h⟩ := mem_loadedRecords_cstr h
  exact ⟨ip, cstr buf, h⟩

/-- The record of a line with two tokens is among those that were inserted. -/
theorem mem_loadedRecords_of_line {line : List UInt8} (hline : line ∈ lines)
    (hlen : line.length ≤ 2048)
    (htokens : ∀ token ∈ (words isspace (cstr line)).take 2, token.length ≤ 1024)
    {rest : List (List UInt8)} (hwords : words isspace (cstr line) = ip :: domain :: rest)
    (h : relayRecord ip domain = some rr) : rr ∈ loadedRecords bufs lines := by
  induction lines generalizing bufs with
  | nil => cases hline
  | cons first lines ih =>
    rw [loadedRecords]
    rcases List.mem_cons.1 hline with rfl | hline
    · apply List.mem_append_left
      rw [loadLine_of_two hlen htokens hwords, h]
      exact List.mem_singleton_self rr
    · exact List.mem_append_right _ (ih hline)

theorem loadedRecords_isRelayRecord (hfit : ∀ rr ∈ loadedRecords bufs lines, IsRelayName rr.name) :
    ∀ rr ∈ loadedRecords bufs lines, IsRelayRecord rr := by
  intro rr hrr
  obtain ⟨ip, domain, h⟩ := mem_loadedRecords hrr
  obtain ⟨-, -, haddress, hrdlength⟩ := relayRecord_spec h
  exact ⟨hfit rr hrr, haddress, hrdlength⟩

end Records

/-! Lookups by labels, the root and names that are too long included. -/

section Lookup

variable {rrs : List ResourceRecord} {db : BucketTree} {ls ks : List (List UInt8)} {type : UInt16}

theorem relayAnswer_eq_nil_iff (name : List UInt8) :
    relayAnswer rrs name type = [] ↔ ∀ r ∈ rrs, ¬(r.name = name ∧ r.type = type) := by
  constructor
  · intro h r hr hboth
    have hmem : r ∈ rrs.filter fun rr => rr.name == name && rr.type == type := by
      simpa using ⟨hr, hboth⟩
    unfold relayAnswer at h
    -- the first of the matching records is always kept
    cases hf : rrs.filter fun rr => rr.name == name && rr.type == type with
    | nil => simp [hf] at hmem
    | cons first more =>
      rw [hf, List.eraseDupsBy_cons] at h
      simp [rrCntMax] at h
  · intro h
    apply relayAnswer_eq_nil
    exact fun r hr hname htype => h r hr ⟨hname, htype⟩

theorem treeSearch_root (tree : BucketTree) (type : UInt16) : treeSearch tree [0] type = [] := by
  unfold treeSearch
  split
  · rfl
  · simp [treeSearchLoop]

/-- `select_database` reads the table at every sequence of labels. -/
theorem Represents.selectDatabase_labels (h : Represents db rrs) (hls : ∀ l ∈ ls, IsQueryLabel l)
    (htype : type = rrtypeA ∨ type = rrtypeAaaa) (qclass : UInt16) :
    BakaDns.selectDatabase db ⟨labelsWire ls ++ [0], type, qclass⟩ =
      relayAnswer rrs (labelsWire ls ++ [0]) type := by
  obtain ⟨index, hindex⟩ : ∃ index, elementIndex type = some index := by
    rcases htype with rfl | rfl
    · exact ⟨.a, rfl⟩
    · exact ⟨.aaaa, rfl⟩
  by_cases hname : IsQueryName (labelsWire ls ++ [0])
  · exact h.selectDatabase hname hindex
  · -- no record has such a name, and none is found
    have hnone : relayAnswer rrs (labelsWire ls ++ [0]) type = [] := by
      rw [relayAnswer_eq_nil_iff]
      rintro r hr ⟨hn, -⟩
      apply hname
      rw [← hn]
      exact (h.records r hr).name.isQueryName
    rw [hnone]
    by_cases hlen : (labelsWire ls ++ [0]).length ≤ domainLenMax
    · have hroot : ls = [] := by
        by_contra hne
        exact hname ⟨ls, hne, hls, rfl, hlen⟩
      subst hroot
      exact treeSearch_root db type
    · have hlong : domainLen (labelsWire ls ++ [0]) = none := by
        rw [domainLen_eq, cstr_labelsWire hls]
        rw [List.length_append, List.length_singleton, domainLenMax] at hlen
        exact if_neg (by omega)
      rw [BakaDns.selectDatabase, hlong]

/-- Every record has a name in lower case. -/
def LowerCase (rrs : List ResourceRecord) : Prop :=
  ∀ r ∈ rrs, ∃ ls, (∀ l ∈ ls, IsLabel l) ∧ lowerLabels ls = ls ∧ r.name = labelsWire ls ++ [0]

theorem lowerCase_loadedRecords (bufs : LineBuffers) (lines : List (List UInt8)) :
    LowerCase (loadedRecords bufs lines) := by
  intro r hr
  obtain ⟨ip, domain, h⟩ := mem_loadedRecords hr
  obtain ⟨hlabels, hname, -, -⟩ := relayRecord_spec h
  exact ⟨lowerLabels (words isDot domain), hlabels, lowerLabels_lowerLabels _, hname⟩

/-- A name with an upper-case letter is never found. -/
theorem relayAnswer_of_upper (hlow : LowerCase rrs) (hls : ∀ l ∈ ls, IsLabel l)
    (hup : lowerLabels ls ≠ ls) : relayAnswer rrs (labelsWire ls ++ [0]) type = [] := by
  rw [relayAnswer_eq_nil_iff]
  rintro r hr ⟨hname, -⟩
  obtain ⟨ks, hks, hlower, hr⟩ := hlow r hr
  rw [hr] at hname
  rw [labelsWire_injective hks hls hname] at hlower
  exact hup hlower

/-- Two spellings of one name: only a name in lower case can tell them apart. -/
theorem relayAnswer_eq_iff (hlow : LowerCase rrs) (hls : ∀ l ∈ ls, IsLabel l)
    (hks : ∀ k ∈ ks, IsLabel k) (hsame : lowerLabels ls = lowerLabels ks) :
    relayAnswer rrs (labelsWire ls ++ [0]) type = relayAnswer rrs (labelsWire ks ++ [0]) type ↔
      ((lowerLabels ls = ls ↔ lowerLabels ks = ks) ∨
        ∀ rr ∈ rrs, ¬(rr.name = labelsWire (lowerLabels ls) ++ [0] ∧ rr.type = type)) := by
  by_cases hl : lowerLabels ls = ls
  · by_cases hk : lowerLabels ks = ks
    · rw [← hl, ← hk, hsame]
      exact iff_of_true rfl (.inl Iff.rfl)
    · rw [relayAnswer_of_upper hlow hks hk, relayAnswer_eq_nil_iff, hl]
      simp [hk]
  · by_cases hk : lowerLabels ks = ks
    · have hne : ks ≠ ls := by
        rintro rfl
        exact hl hk
      rw [relayAnswer_of_upper hlow hls hl, eq_comm, relayAnswer_eq_nil_iff, hsame, hk]
      simp [hne]
    · rw [relayAnswer_of_upper hlow hls hl, relayAnswer_of_upper hlow hks hk]
      exact iff_of_true rfl (.inl (iff_of_false hl hk))

end Lookup

/-- The labels of an accepted name fit as they are spelled if they fit in lower case. -/
theorem isQueryLabel_of_accepted {rr : ResourceRecord} {ip domain : List UInt8}
    (h : relayRecord ip domain = some rr) (hname : IsRelayName rr.name) :
    ∀ l ∈ words isDot domain, IsQueryLabel l := by
  obtain ⟨hlabels, hwire, -, -⟩ := relayRecord_spec h
  obtain ⟨ks, -, hks, hks', -⟩ := hname
  have hkl : ∀ k ∈ ks, IsLabel k := fun k hk => (hks k hk).isQueryLabel.isLabel
  have hsame := labelsWire_injective hkl hlabels (hks'.symm.trans hwire)
  intro l hl
  have hlow : l.map tolower ∈ ks := by
    rw [hsame]
    exact List.mem_map_of_mem hl
  obtain ⟨hpos, hlen, hnz⟩ := (hks _ hlow).isQueryLabel
  rw [List.length_map] at hpos hlen
  refine ⟨hpos, hlen, ?_⟩
  rintro c hc rfl
  exact hnz (tolower 0) (List.mem_map_of_mem hc) rfl

/-- Two spellings of a name have the same answer unless one of them is in lower case, the other is
not, and there is an answer; a name of the relay file is found as it is spelled there if and only
if it is spelled in lower case. -/
theorem selectDatabase_case_iff (fuel : ℕ) (bufs : LineBuffers) (lines : List (List UInt8))
    (hfuel : domainLenMax ≤ fuel)
    (hfit : ∀ rr ∈ loadedRecords bufs lines, IsRelayName rr.name) :
    ∃ db, initDatabase fuel bufs lines = some db ∧
      (∀ ls ks type qclass, (∀ l ∈ ls, IsQueryLabel l) → (∀ k ∈ ks, IsQueryLabel k) →
        lowerLabels ls = lowerLabels ks → type = rrtypeA ∨ type = rrtypeAaaa →
        (selectDatabase db ⟨labelsWire ls ++ [0], type, qclass⟩ =
            selectDatabase db ⟨labelsWire ks ++ [0], type, qclass⟩ ↔
          ((lowerLabels ls = ls ↔ lowerLabels ks = ks) ∨
            ∀ rr ∈ loadedRecords bufs lines,
              ¬(rr.name = labelsWire (lowerLabels ls) ++ [0] ∧ rr.type = type)))) ∧
      (∀ line ∈ lines, line.length ≤ 2048 → ∀ ip domain rest rr qclass,
        words isspace (cstr line) = ip :: domain :: rest → ip.length ≤ 1024 →
        domain.length ≤ 1024 → relayRecord ip domain = some rr →
        (selectDatabase db ⟨labelsWire (words isDot domain) ++ [0], rr.type, qclass⟩ ≠ [] ↔
          lowerLabels (words isDot domain) = words isDot domain)) := by
  have hlow := lowerCase_loadedRecords bufs lines
  obtain ⟨db, hdb, hrep⟩ :=
    represents_treeInit.insertAll (loadedRecords_isRelayRecord hfit) hfuel
  rw [List.nil_append] at hrep
  refine ⟨db, by rw [initDatabase, loadLines_eq, hdb], ?_, ?_⟩
  · intro ls ks type qclass hls hks hsame htype
    rw [hrep.selectDatabase_labels hls htype, hrep.selectDatabase_labels hks htype]
    exact relayAnswer_eq_iff hlow (fun l hl => (hls l hl).isLabel)
      (fun k hk => (hks k hk).isLabel) hsame
  · intro line hline hlen ip domain rest rr qclass hwords hip hdomain h
    have htokens : ∀ token ∈ (words isspace (cstr line)).take 2, token.length ≤ 1024 := by
      rw [hwords]
      simpa using ⟨hip, hdomain⟩
    have hmem : rr ∈ loadedRecords bufs lines :=
      mem_loadedRecords_of_line hline hlen htokens hwords h
    obtain ⟨-, hname, haddress, -⟩ := relayRecord_spec h
    have hlabels := isQueryLabel_of_accepted h (hfit rr hmem)
    have htype : rr.type = rrtypeA ∨ rr.type = rrtypeAaaa := by
      unfold addressSize at haddress
      split_ifs at haddress with ha haaaa
      · exact .inl ha
      · exact .inr haaaa
    rw [hrep.selectDatabase_labels hlabels htype]
    constructor
    · intro hfound
      by_contra hup
      exact hfound (relayAnswer_of_upper hlow (fun l hl => (hlabels l hl).isLabel) hup)
    · intro hspelled hnil
      rw [hspelled] at hname
      exact (relayAnswer_eq_nil_iff _).1 hnil rr hmem ⟨hname, rfl⟩

/-- `www.A.com` with an IPv4 address: two spellings agree on its IPv6 addresses, of which there
are none, and its own spelling is not found. -/
theorem selectDatabase_case_sampleLine :
    ∃ db, initDatabase domainLenMax ⟨[], []⟩ [sampleLine] = some db ∧
      selectDatabase db ⟨[3, 119, 119, 119, 1, 65, 3, 99, 111, 109, 0], rrtypeAaaa, rrclassIn⟩ =
        selectDatabase db ⟨[3, 119, 119, 119, 1, 97, 3, 99, 111, 109, 0], rrtypeAaaa, rrclassIn⟩ ∧
      selectDatabase db ⟨[3, 119, 119, 119, 1, 65, 3, 99, 111, 109, 0], rrtypeA, rrclassIn⟩ = [] := by
  have hloaded : loadedRecords ⟨[], []⟩ [sampleLine] =
      [⟨[3, 119, 119, 119, 1, 97, 3, 99, 111, 109, 0], rrtypeA, rrclassIn, 0, 4, [1, 2, 3, 4]⟩] := by
    decide +kernel
  have hfit : ∀ rr ∈ loadedRecords ⟨[], []⟩ [sampleLine], IsRelayName rr.name := by
    rw [hloaded, List.forall_mem_singleton]
    exact ⟨[[119, 119, 119], [97], [99, 111, 109]], by simp, by simp [IsNodeLabel, subdomainMax],
      rfl, by decide⟩
  obtain ⟨db, hdb, hcase, hfound⟩ :=
    selectDatabase_case_iff domainLenMax ⟨[], []⟩ [sampleLine] (Nat.le_refl _) hfit
  refine ⟨db, hdb, ?_, ?_⟩
  · refine (hcase [[119, 119, 119], [65], [99, 111, 109]] [[119, 119, 119], [97], [99, 111, 109]]
      rrtypeAaaa rrclassIn (by simp [IsQueryLabel]) (by simp [IsQueryLabel]) (by decide)
      (.inr rfl)).2 (.inr ?_)
    rw [hloaded, List.forall_mem_singleton]
    decide
  · have hspelled := hfound sampleLine List.mem_cons_self (by decide) [49, 46, 50, 46, 51, 46, 52]
      [119, 119, 119, 46, 65, 46, 99, 111, 109] []
      ⟨[3, 119, 119, 119, 1, 97, 3, 99, 111, 109, 0], rrtypeA, rrclassIn, 0, 4, [1, 2, 3, 4]⟩
      rrclassIn (by decide +kernel) (by decide) (by decide) (by decide +kernel)
    have hup : ¬lowerLabels (words isDot [119, 119, 119, 46, 65, 46, 99, 111, 109]) =
        words isDot [119, 119, 119, 46, 65, 46, 99, 111, 109] := by decide +kernel
    have hwire : labelsWire (words isDot [119, 119, 119, 46, 65, 46, 99, 111, 109]) ++ [0] =
        [3, 119, 119, 119, 1, 65, 3, 99, 111, 109, 0] := by decide +kernel
    rw [hwire] at hspelled
    exact not_not.1 (mt hspelled.1 hup)

/-- The name of the relay line is found in lower case only. -/
theorem spelledName_not_found :
    (initDatabase domainLenMax ⟨[], []⟩ [sampleLine]).map
        (selectDatabase · ⟨[3, 119, 119, 119, 1, 97, 3, 99, 111, 109, 0], rrtypeA, rrclassIn⟩) =
      some [⟨[3, 119, 119, 119, 1, 97, 3, 99, 111, 109, 0], rrtypeA, rrclassIn, 0, 4,
        [1, 2, 3, 4]⟩] ∧
    (initDatabase domainLenMax ⟨[], []⟩ [sampleLine]).map
        (selectDatabase · ⟨[3, 119, 119, 119, 1, 65, 3, 99, 111, 109, 0], rrtypeA, rrclassIn⟩) =
      some [] := by
  constructor
  · decide +kernel
  · decide +kernel

end BakaDns
