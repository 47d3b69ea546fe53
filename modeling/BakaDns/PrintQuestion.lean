import BakaDns.DomainRev
import BakaDns.TreePaths

/-!
# The names in the log

`print_question` of `resolv.c` copies the name of every question into a buffer of its own before
anything has looked at its labels. Whatever the length octets of the name say, it stays inside that
buffer and leaves a string there; for a sequence of labels it is the name with dots.
-/

namespace BakaDns
open CBytes

def questionbufLen : ℕ := 512

def dot : UInt8 := 0x2E

/-- The loop of `print_question`: what it stores in `questionbuf`, and where. Bytes behind the
end of the name count as zero. -/
def printStores (qname : List UInt8) (dlen i qi : ℕ) : List (ℕ × UInt8) :=
  if i < dlen then
    let len := (byteAt qname i).toNat
    if len = 0 then []
    else
      (List.range len).map (fun j => (qi + j, byteAt qname (i + (j + 1)))) ++
        (qi + len, dot) :: printStores qname dlen (i + len + 1) (qi + len + 1)
  else []
termination_by dlen - i

/-- `print_question`; `none` is its early return for a name that is too long. -/
def printQuestion (question : MessageQuestion) : Option (List (ℕ × UInt8)) :=
  (domainLen question.qname).map fun dlen => printStores question.qname dlen 0 0

/-- The buffer after these stores; one outside of it is lost here. -/
def questionbuf (stores : List (ℕ × UInt8)) : List UInt8 :=
  stores.foldl (fun buf p => buf.set p.1 p.2) (List.replicate questionbufLen 0)

variable {qname : List UInt8} {dlen i qi : ℕ} {stores : List (ℕ × UInt8)}

/-- The stores go to one place after another. -/
theorem printStores_indices (qname : List UInt8) (dlen i qi : ℕ) :
    (printStores qname dlen i qi).map Prod.fst =
      List.range' qi (printStores qname dlen i qi).length := by
  fun_induction printStores qname dlen i qi with
  | case1 i qi hi len hlen => rfl
  | case2 i qi hi len hlen ih =>
    have hlabel : ((List.range len).map fun j => (qi + j, byteAt qname (i + (j + 1)))).map Prod.fst =
        List.range' qi len := by
      rw [List.map_map, List.range'_eq_map_range]
      rfl
    rw [List.map_append, hlabel, List.map_cons, ih, List.length_append, List.length_map,
      List.length_range, List.length_cons, ← List.range'_append_1, List.range'_succ]
  | case3 i qi hi => rfl

/-- There are few of them: the last label begins inside the name and has at most 255 bytes. -/
theorem length_printStores (qname : List UInt8) (dlen i qi : ℕ) :
    (printStores qname dlen i qi).length ≤ dlen + 255 - i := by
  fun_induction printStores qname dlen i qi with
  | case1 i qi hi len hlen => exact Nat.zero_le _
  | case2 i qi hi len hlen ih =>
    have hbyte : len < 256 := (byteAt qname i).toNat_lt
    rw [List.length_append, List.length_map, List.length_range, List.length_cons]
    omega
  | case3 i qi hi => exact Nat.zero_le _

/-- Stores to one place after another replace that part of a buffer. -/
theorem foldl_set_of_indices (buf : List UInt8) (hindices : stores.map Prod.fst =
    List.range' qi stores.length) (hfit : qi + stores.length ≤ buf.length) :
    stores.foldl (fun buf p => buf.set p.1 p.2) buf =
      buf.take qi ++ stores.map Prod.snd ++ buf.drop (qi + stores.length) := by
  induction stores generalizing buf qi with
  | nil => simp
  | cons p stores ih =>
    obtain ⟨k, b⟩ := p
    rw [List.map_cons, List.length_cons, List.range'_succ, List.cons.injEq] at hindices
    obtain ⟨hk, hrest⟩ := hindices
    obtain rfl : k = qi := hk
    rw [List.length_cons] at hfit
    have hset : buf.set k b = buf.take k ++ b :: buf.drop (k + 1) :=
      List.set_eq_take_cons_drop b (by omega)
    have hlen : (buf.take k).length = k := by
      rw [List.length_take]
      omega
    have htake : (buf.set k b).take (k + 1) = buf.take k ++ [b] := by
      rw [hset, List.take_append, hlen]
      simp
    have hdrop : (buf.set k b).drop (k + 1 + stores.length) = buf.drop (k + (stores.length + 1)) := by
      rw [List.drop_set_of_lt (by omega)]
      congr 1
      omega
    rw [List.foldl_cons, ih (buf.set k b) hrest (by rw [List.length_set]; omega), htake, hdrop]
    simp

/-- What the buffer holds afterwards. -/
theorem questionbuf_eq (hindices : stores.map Prod.fst = List.range' 0 stores.length)
    (hfit : stores.length ≤ questionbufLen) :
    questionbuf stores =
      stores.map Prod.snd ++ List.replicate (questionbufLen - stores.length) 0 := by
  rw [questionbuf, foldl_set_of_indices _ hindices (by rw [List.length_replicate]; omega)]
  simp

/-- The labels of a name, each with the dot behind it. -/
def dotted (ls : List (List UInt8)) : List UInt8 := ls.flatMap fun l => l ++ [dot]

/-- One round at a label: the bytes behind its length octet, and a dot. -/
theorem printStores_label {l rest : List UInt8} (hl : IsLabel l) {name before : List UInt8}
    (hname : name = before ++ labelWire l ++ rest) (hdlen : before.length < dlen) (qi : ℕ) :
    (printStores name dlen before.length qi).map Prod.snd = l ++ [dot] ++
      (printStores name dlen (before ++ labelWire l).length (qi + l.length + 1)).map Prod.snd := by
  have hoctet : byteAt name before.length = UInt8.ofNat l.length := by
    rw [hname]
    simp [byteAt, labelWire]
  have hlen : (byteAt name before.length).toNat = l.length := by
    rw [hoctet, hl.toNat_ofNat]
  have hbytes : (List.range l.length).map (fun j => byteAt name (before.length + (j + 1))) = l := by
    have hslice := map_byteAt_range' name (before.length + 1) l.length
    have hdrop : name.drop (before.length + 1) = l ++ rest := by
      rw [hname, List.append_assoc, List.drop_append]
      simp [labelWire]
    rw [hdrop, copyOut_of_le (by simp), List.take_left, List.range'_eq_map_range,
      List.map_map] at hslice
    rw [← hslice]
    simp [Nat.add_assoc, Nat.add_comm 1]
  have hpos : l.length ≠ 0 := Nat.ne_of_gt hl.1
  have hnext : before.length + l.length + 1 = (before ++ labelWire l).length := by
    simp [Nat.add_assoc]
  rw [printStores, if_pos hdlen]
  simp only [hlen, if_neg hpos, List.map_append, List.map_map, Function.comp_def, List.map_cons,
    hnext, hbytes]
  simp

theorem printStores_labels {ls : List (List UInt8)} (hls : ∀ l ∈ ls, IsLabel l)
    {name b : List UInt8} (hname : name = b ++ labelsWire ls ++ [0])
    (hdlen : dlen = name.length) (qi : ℕ) :
    (printStores name dlen b.length qi).map Prod.snd = dotted ls := by
  induction ls generalizing b qi with
  | nil =>
    have hzero : byteAt name b.length = 0 := by
      rw [hname]
      simp [byteAt, labelsWire]
    rw [printStores]
    simp [hzero, dotted]
  | cons l ls ih =>
    have hl := hls l List.mem_cons_self
    have hsplit : name = b ++ labelWire l ++ (labelsWire ls ++ [0]) := by
      rw [hname, labelsWire_cons]
      simp
    have hshort : b.length < dlen := by
      rw [hdlen, hname]
      simp [labelsWire_cons]
    have hrest := ih (fun k hk => hls k (List.mem_cons_of_mem _ hk))
      (hsplit.trans (List.append_assoc _ _ _).symm) (qi + l.length + 1)
    rw [printStores_label hl hsplit hshort, hrest]
    rfl

/-- For every name, however malformed: the stores fill the buffer from its start and leave its last
byte alone, so that a string is printed. For a name that is a sequence of labels, it is the labels
with a dot behind each. -/
theorem printQuestion_spec {question : MessageQuestion} (h : printQuestion question = some stores) :
    stores.map Prod.fst = List.range stores.length ∧ stores.length < questionbufLen ∧
      questionbuf stores =
        stores.map Prod.snd ++ List.replicate (questionbufLen - stores.length) 0 ∧
      ∀ ls : List (List UInt8), (∀ l ∈ ls, IsText l) →
        question.qname = labelsWire ls ++ [0] → cstr (questionbuf stores) = dotted ls := by
  obtain ⟨dlen, hdlen, rfl⟩ := Option.map_eq_some_iff.1 h
  obtain ⟨hname, rfl⟩ := domainLen_eq_some.1 hdlen
  have hindices := printStores_indices question.qname ((cstr question.qname).length + 1) 0 0
  have hlength := length_printStores question.qname ((cstr question.qname).length + 1) 0 0
  have hshort : (printStores question.qname ((cstr question.qname).length + 1) 0 0).length <
      questionbufLen := by
    unfold questionbufLen
    omega
  have hbuf := questionbuf_eq hindices hshort.le
  refine ⟨hindices.trans List.range_eq_range'.symm, hshort, hbuf, fun ls hls hwire => ?_⟩
  have hnonzero : ∀ c ∈ labelsWire ls, c ≠ 0 := by
    intro c hc
    obtain ⟨l, hl, hc⟩ := List.mem_flatMap.1 hc
    exact (hls l hl).labelWire_ne_zero c hc
  have hdotted : ∀ c ∈ dotted ls, c ≠ 0 := by
    intro c hc
    obtain ⟨l, hl, hc⟩ := List.mem_flatMap.1 hc
    rcases List.mem_append.1 hc with hc | hc
    · exact (hls l hl).2 c hc
    · rw [List.mem_singleton.1 hc]
      decide
  have hcstr : (cstr question.qname).length + 1 = question.qname.length := by
    rw [hwire, cstr_append_zero hnonzero]
    simp
  have hbytes : (printStores question.qname ((cstr question.qname).length + 1) 0 0).map Prod.snd =
      dotted ls := by
    have hlabels := printStores_labels (b := []) (fun l hl => (hls l hl).1) hwire hcstr 0
    rwa [List.length_nil] at hlabels
  obtain ⟨room, hroom⟩ := Nat.exists_eq_add_of_lt hshort
  have hzeros : List.replicate (questionbufLen - (printStores question.qname
      ((cstr question.qname).length + 1) 0 0).length) (0 : UInt8) = 0 :: List.replicate room 0 := by
    rw [hroom, Nat.add_assoc, Nat.add_sub_cancel_left, List.replicate_succ]
  rw [hbuf, hbytes, hzeros, cstr_append_zero hdotted]

/-- `a.b`. -/
theorem printQuestion_spec_sample : ∃ stores,
    printQuestion ⟨[1, 97, 1, 98, 0], rrtypeA, rrclassIn⟩ = some stores ∧
      stores.length < questionbufLen ∧ cstr (questionbuf stores) = [97, dot, 98, dot] := by
  have hprints : printQuestion ⟨[1, 97, 1, 98, 0], rrtypeA, rrclassIn⟩ =
      some (printStores [1, 97, 1, 98, 0] 5 0 0) := by
    have hlen : domainLen [1, 97, 1, 98, 0] = some 5 := by decide
    rw [printQuestion, hlen, Option.map_some]
  obtain ⟨-, hshort, -, hdotted⟩ := printQuestion_spec hprints
  refine ⟨_, hprints, hshort, hdotted [[97], [98]] ?_ rfl⟩
  simp [IsText, IsLabel]

end BakaDns
