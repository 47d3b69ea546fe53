import BakaDns.RelayCase

/-!
# Names and buffers of the loader

`format_domain` writes the runs between the dots of a name, each behind its length. It is given
`formatd`, an array of 512 bytes, and `sscanf` is given two arrays of 1024; what they store there
is decided by the line alone, unless it has fewer than two tokens.
-/

namespace BakaDns
open CBytes Words

variable {src src' s line : List UInt8} {ws : List (List UInt8)} {bufs : LineBuffers} {fuel : ℕ}

/-! What `format_domain` writes. -/

section Format

/-- The bytes of a name with its length octets. -/
def nameSum (ws : List (List UInt8)) : ℕ := (ws.map fun w => w.length + 1).sum

theorem length_labelsWire (ws : List (List UInt8)) : (labelsWire ws).length = nameSum ws := by
  simp [labelsWire, nameSum, List.length_flatMap]

theorem words_cstr_ne_zero {w : List UInt8} (hw : w ∈ words isDot (cstr src)) : ∀ c ∈ w, c ≠ 0 :=
  fun c hc => cstr_ne_zero c ((mem_words hw).2 c hc)

theorem isLabel_of_mem_words {w : List UInt8} (hw : w ∈ words isDot s) (hlen : w.length ≤ 255) :
    IsLabel w :=
  ⟨List.length_pos_iff.2 (mem_words hw).1, hlen⟩

/-- A string that is nothing but its runs and single dots. -/
theorem words_cstr_intercalate (src : List UInt8) :
    words isDot (cstr ([46].intercalate (words isDot (cstr src)))) = words isDot (cstr src) := by
  have hcstr : cstr ([46].intercalate (words isDot (cstr src))) =
      [46].intercalate (words isDot (cstr src)) := by
    apply cstr_of_ne_zero
    intro c hc h0
    rcases mem_intercalate hc with rfl | ⟨w, hw, hcw⟩
    · cases h0
    · exact words_cstr_ne_zero hw c hcw h0
  rw [hcstr]
  exact words_intercalate rfl fun w hw => ⟨(mem_words hw).1, not_sep_of_mem_words hw⟩

theorem domainLen_name (hws : ∀ w ∈ ws, IsLabel w ∧ ∀ c ∈ w, c ≠ 0) (hsum : nameSum ws ≤ 254) :
    domainLen (labelsWire ws ++ [0]) = some (nameSum ws + 1) := by
  have hcstr : cstr (labelsWire ws ++ [0]) = labelsWire ws := by
    apply cstr_append_zero
    intro c hc
    obtain ⟨w, hw, hc⟩ := List.mem_flatMap.1 hc
    rcases List.mem_cons.1 hc with rfl | hc
    · exact (hws w hw).1.ofNat_ne_zero
    · exact (hws w hw).2 c hc
  simp only [domainLen_eq_some, hcstr, length_labelsWire]
  exact ⟨hsum, trivial⟩

/-- What `format_domain` returns and writes is decided by the runs of its string. -/
theorem formatDomain_congr (h : words isDot (cstr src') = words isDot (cstr src)) :
    (formatDomain src').1 = (formatDomain src).1 ∧
      (formatDomain src').2.1 = (formatDomain src).2.1 := by
  by_cases hnil : words isDot (cstr src) = []
  · simp [formatDomain_of_nil hnil, formatDomain_of_nil (h.trans hnil)]
  · obtain ⟨hret, hname⟩ := formatDomain_eq src hnil
    obtain ⟨hret', hname'⟩ := formatDomain_eq src' (by simpa only [h] using hnil)
    simp [hret, hname, hret', hname', h]

/-- A string whose runs `format_domain` can encode into `formatd`. -/
structure IsFormattable (src : List UInt8) : Prop where
  runs : words isDot (cstr src) ≠ []
  short : ∀ w ∈ words isDot (cstr src), w.length ≤ 255
  fits : nameSum (words isDot (cstr src)) < domainBufLen

theorem IsFormattable.isLabel (h : IsFormattable src) :
    ∀ w ∈ words isDot (cstr src), IsLabel w :=
  fun w hw => isLabel_of_mem_words hw (h.short w hw)

/-- `format_domain` encodes the runs of its string, and nothing else of it. -/
theorem formatDomain_words (h : IsFormattable src) :
    (formatDomain src).1 = nameSum (words isDot (cstr src)) + 1 ∧
      (formatDomain src).2.1 = labelsWire (words isDot (cstr src)) ++ [0] ∧
      (formatDomain src).2.1.length ≤ domainBufLen ∧
      ((formatDomain src).1 ≤ 255 → (domainLen (formatDomain src).2.1).map Int.ofNat =
        some (formatDomain src).1) ∧
      (formatDomain ([46].intercalate (words isDot (cstr src)))).1 = (formatDomain src).1 ∧
      (formatDomain ([46].intercalate (words isDot (cstr src)))).2.1 = (formatDomain src).2.1 ∧
      ∀ src', IsFormattable src' → ((formatDomain src').2.1 = (formatDomain src).2.1 ↔
        words isDot (cstr src') = words isDot (cstr src)) := by
  obtain ⟨hret, hname⟩ := formatDomain_eq src h.runs
  obtain ⟨hret₁, hname₁⟩ := formatDomain_congr (words_cstr_intercalate src)
  rw [length_labelsWire] at hret
  refine ⟨hret, hname, ?_, ?_, hret₁, hname₁, ?_⟩
  · have hfits := h.fits
    simp only [hname, List.length_append, length_labelsWire, List.length_singleton]
    omega
  · intro hle
    have hlabels : ∀ w ∈ words isDot (cstr src), IsLabel w ∧ ∀ c ∈ w, c ≠ 0 :=
      fun w hw => ⟨h.isLabel w hw, words_cstr_ne_zero hw⟩
    simp only [hname, hret, domainLen_name hlabels (by omega)]
    rfl
  · intro src' h'
    constructor
    · intro heq
      rw [hname, (formatDomain_eq src' h'.runs).2] at heq
      exact labelsWire_injective h'.isLabel h.isLabel heq
    · intro heq
      exact (formatDomain_congr heq).2

/-- `..a.bc.` is encoded as `a.bc`. -/
theorem formatDomain_words_dots :
    (formatDomain [46, 46, 97, 46, 98, 99, 46]).1 = 6 ∧
      (formatDomain [46, 46, 97, 46, 98, 99, 46]).2.1 = [1, 97, 2, 98, 99, 0] ∧
      ((formatDomain [97, 46, 98, 99]).2.1 = (formatDomain [46, 46, 97, 46, 98, 99, 46]).2.1 ↔
        words isDot (cstr [97, 46, 98, 99]) = words isDot (cstr [46, 46, 97, 46, 98, 99, 46])) := by
  have hruns : words isDot (cstr [46, 46, 97, 46, 98, 99, 46]) = [[97], [98, 99]] := by
    decide +kernel
  have hruns' : words isDot (cstr [97, 46, 98, 99]) = [[97], [98, 99]] := by decide +kernel
  have hgood : ∀ src, words isDot (cstr src) = [[97], [98, 99]] → IsFormattable src := by
    intro src h
    refine ⟨?_, ?_, ?_⟩ <;> simp [h, nameSum, domainBufLen]
  obtain ⟨hret, hname, -, -, -, -, hsame⟩ := formatDomain_words (hgood _ hruns)
  refine ⟨?_, ?_, hsame _ (hgood _ hruns')⟩
  · simpa [hruns, nameSum] using hret
  · simpa [hruns, labelsWire, labelWire] using hname

end Format

/-! What a line stores in the buffers. -/

section Stores

/-- The bytes that `sscanf` stores from the start of `ipbuf` and of `domainbuf` on: a token and its
terminator, or nothing. -/
def scanStores (linebuf : List UInt8) : List UInt8 × List UInt8 :=
  match scanString (cstr linebuf) with
  | none => ([], [])
  | some (ip, rest) =>
    match scanString rest with
    | none => (ip ++ [0], [])
    | some (domain, _) => (ip ++ [0], domain ++ [0])

/-- The tokens that the loop of `format_domain` copies, each behind an octet for its length. -/
def formatTokens : ℕ → List UInt8 → List (List UInt8)
  | 0, _ => []
  | fuel + 1, rest =>
    match strtok rest with
    | none => []
    | some (token, _, rest) => token :: formatTokens fuel rest

/-- What the body of the loop stores for one line: the bytes from the start of each buffer on, and
the tokens whose lengths `format_domain` puts into octets. -/
structure LineStores where
  ipbuf : List UInt8
  domainbuf : List UInt8
  formatd : List UInt8
  tokens : List (List UInt8)

def lineStores (bufs : LineBuffers) (linebuf : List UInt8) : LineStores :=
  if linebuf.length > 2048 then ⟨[], [], [], []⟩
  else
    let (ip, domain) := scanStores linebuf
    let bufs := scanLine bufs linebuf
    match convertAddress bufs.ipbuf with
    | none => ⟨ip, domain, [], []⟩
    | some _ =>
      let str := strLower bufs.domainbuf
      ⟨ip, domain, (formatDomain str).2.1, formatTokens ((cstr str).length + 1) (cstr str)⟩

/-- Nothing is stored behind the end of a buffer, and every length fits into its octet. -/
structure LineStores.InBounds (st : LineStores) : Prop where
  ipbuf : st.ipbuf.length ≤ 1024
  domainbuf : st.domainbuf.length ≤ 1024
  formatd : st.formatd.length ≤ domainBufLen
  octets : ∀ token ∈ st.tokens, (UInt8.ofNat token.length).toNat = token.length

/-- The address and the name of a line: its first two words, and for those that are missing what
the buffers hold. -/
def lineTokens (bufs : LineBuffers) (line : List UInt8) : List UInt8 × List UInt8 :=
  match words isspace (cstr line) with
  | ip :: domain :: _ => (ip, domain)
  | [ip] => (ip, bufs.domainbuf)
  | [] => (bufs.ipbuf, bufs.domainbuf)

/-- The tokens leave room for a terminator, and behind a good address there is a name whose labels
have at most 255 bytes each and 511 together with their length octets. -/
def LineFits (bufs : LineBuffers) (line : List UInt8) : Prop :=
  (∀ token ∈ (words isspace (cstr line)).take 2, token.length < 1024) ∧
    (convertAddress (lineTokens bufs line).1 ≠ none →
      nameSum (words isDot (cstr (lineTokens bufs line).2)) < domainBufLen ∧
        ∀ label ∈ words isDot (cstr (lineTokens bufs line).2), label.length ≤ 255)

theorem scanString_nil (h : nextWord isspace s = none) : scanString s = none := by
  unfold nextWord at h
  unfold scanString
  cases hs : s.dropWhile isspace with
  | nil => rfl
  | cons c cs => simp [hs] at h

/-- A token is a word, cut after 1024 bytes. -/
theorem scanString_word {w t : List UInt8} (h : nextWord isspace s = some (w, t)) :
    ∃ rest, scanString s = some (w.take 1024, rest) ∧ (w.length ≤ 1024 → rest = t) := by
  obtain ⟨-, -, -, hdrop⟩ := nextWord_spec h
  unfold nextWord at h
  unfold scanString
  cases hs : s.dropWhile isspace with
  | nil => simp [hs] at h
  | cons c cs =>
    simp only [hs, Option.some.injEq, Prod.mk.injEq] at h hdrop
    obtain ⟨hw, -⟩ := h
    refine ⟨(c :: cs).drop (w.take 1024).length, by simp only [hw], fun hlen => ?_⟩
    simp only [hdrop, List.take_of_length_le hlen, List.drop_left]

/-- The two tokens fit exactly if there is room for their terminators. -/
theorem scanStores_length_iff (line : List UInt8) :
    (scanStores line).1.length ≤ 1024 ∧ (scanStores line).2.length ≤ 1024 ↔
      ∀ token ∈ (words isspace (cstr line)).take 2, token.length < 1024 := by
  unfold scanStores
  cases h : nextWord isspace (cstr line) with
  | none => simp [scanString_nil h, nextWord_eq_none h]
  | some r =>
    obtain ⟨ip, t⟩ := r
    obtain ⟨rest, hscan, hrest⟩ := scanString_word h
    have hwords := words_of_nextWord h
    rcases Nat.lt_or_ge ip.length 1024 with hshort | hlong
    · obtain rfl := hrest hshort.le
      simp only [hscan, hwords, List.take_of_length_le hshort.le]
      cases h' : nextWord isspace rest with
      | none =>
        simp [scanString_nil h', nextWord_eq_none h', hshort, Nat.succ_le_of_lt hshort]
      | some r' =>
        obtain ⟨domain, t'⟩ := r'
        obtain ⟨rest', hscan', -⟩ := scanString_word h'
        simp [hscan', words_of_nextWord h', hshort, Nat.succ_le_of_lt hshort]
    · apply iff_of_false
      · rintro ⟨hip, -⟩
        have hcut : (ip.take 1024).length = 1024 := List.length_take_of_le hlong
        cases h' : scanString rest <;> simp only [hscan, h', List.length_append, hcut] at hip <;>
          simp at hip
      · intro hall
        have := hall ip (by simp [hwords])
        omega

/-- The buffers after `sscanf`, for tokens that fit. -/
theorem scanLine_lineTokens (bufs : LineBuffers)
    (htokens : ∀ token ∈ (words isspace (cstr line)).take 2, token.length < 1024) :
    scanLine bufs line = ⟨(lineTokens bufs line).1, (lineTokens bufs line).2⟩ := by
  rw [scanLine_eq fun token htoken => (htokens token htoken).le, lineTokens]
  generalize words isspace (cstr line) = ws
  match ws with
  | _ :: _ :: _ | [_] | [] => rfl

theorem formatTokens_eq (hfuel : s.length < fuel) : formatTokens fuel s = words isDot s := by
  induction fuel generalizing s with
  | zero => omega
  | succ fuel ih =>
    simp only [formatTokens, strtok]
    cases h : nextWord isDot s with
    | none => simp [nextWord_eq_none h]
    | some r =>
      obtain ⟨token, tail⟩ := r
      have hlt := length_nextWord h
      have htail : (tail.drop 1).length < fuel := by
        simp only [List.length_drop]
        omega
      simp only [Option.map_some, ih htail, words_drop_one h, words_of_nextWord h]

theorem nameSum_lowerLabels (ws : List (List UInt8)) : nameSum (lowerLabels ws) = nameSum ws := by
  simp [nameSum, lowerLabels, Function.comp_def]

theorem octet_iff (n : ℕ) : (UInt8.ofNat n).toNat = n ↔ n ≤ 255 := by
  simp only [UInt8.toNat_ofNat']
  omega

theorem words_cstr_lower (buf : List UInt8) :
    words isDot (cstr (strLower buf)) = lowerLabels (words isDot (cstr buf)) := by
  have hcstr : cstr (strLower buf) = strLower buf :=
    cstr_of_ne_zero (map_tolower_ne_zero cstr_ne_zero)
  exact (congrArg (words isDot) hcstr).trans (words_lower (cstr buf))

theorem length_formatDomain_lower {buf : List UInt8} (h : words isDot (cstr buf) ≠ []) :
    (formatDomain (strLower buf)).2.1.length = nameSum (words isDot (cstr buf)) + 1 := by
  have hne : words isDot (cstr (strLower buf)) ≠ [] := by
    simpa [words_cstr_lower, lowerLabels] using h
  simp only [(formatDomain_eq _ hne).2, words_cstr_lower, List.length_append, length_labelsWire,
    nameSum_lowerLabels, List.length_singleton]

/-- The name in `domainbuf` fits into `formatd`, and its lengths into their octets. -/
theorem formatStores_iff (buf : List UInt8) :
    ((formatDomain (strLower buf)).2.1.length ≤ domainBufLen ∧
        ∀ token ∈ formatTokens ((cstr (strLower buf)).length + 1) (cstr (strLower buf)),
          (UInt8.ofNat token.length).toNat = token.length) ↔
      nameSum (words isDot (cstr buf)) < domainBufLen ∧
        ∀ label ∈ words isDot (cstr buf), label.length ≤ 255 := by
  have hlength : (formatDomain (strLower buf)).2.1.length ≤ domainBufLen ↔
      nameSum (words isDot (cstr buf)) < domainBufLen := by
    by_cases hnil : words isDot (cstr buf) = []
    · have hlower : words isDot (cstr (strLower buf)) = [] := by
        simp [words_cstr_lower, hnil, lowerLabels]
      simp [formatDomain_of_nil hlower, hnil, nameSum, domainBufLen]
    · simp only [length_formatDomain_lower hnil]
      omega
  simp only [hlength, formatTokens_eq (Nat.lt_succ_self _), words_cstr_lower]
  refine and_congr_right fun _ => ?_
  simp only [octet_iff, lowerLabels, List.forall_mem_map, List.length_map]

/-! `lineStores` says what the loader stores. -/

/-- The stores of `sscanf` leave the strings behind that `scanLine` says. -/
theorem cstr_scanStores (bufs : LineBuffers) (line : List UInt8) :
    cstr ((scanStores line).1 ++ bufs.ipbuf.drop (scanStores line).1.length) =
        cstr (scanLine bufs line).ipbuf ∧
      cstr ((scanStores line).2 ++ bufs.domainbuf.drop (scanStores line).2.length) =
        cstr (scanLine bufs line).domainbuf := by
  have hscan : ∀ {s w t : List UInt8}, (∀ c ∈ s, c ≠ 0) → scanString s = some (w, t) →
      (∀ c ∈ w, c ≠ 0) ∧ ∀ c ∈ t, c ≠ 0 := by
    intro s w t hs h
    have hsub := fun c hc => hs c ((List.dropWhile_sublist isspace).subset hc)
    unfold scanString at h
    cases hd : s.dropWhile isspace with
    | nil => simp [hd] at h
    | cons d ds =>
      rw [hd] at h hsub
      cases h
      exact ⟨fun c hc => hsub c ((List.takeWhile_sublist _).subset (List.mem_of_mem_take hc)),
        fun c hc => hsub c (List.mem_of_mem_drop hc)⟩
  have hstored : ∀ {w : List UInt8} (old : List UInt8), (∀ c ∈ w, c ≠ 0) →
      cstr (w ++ [0] ++ old) = cstr w := by
    intro w old hw
    rw [List.append_assoc, List.singleton_append, cstr_append_zero hw, cstr_of_ne_zero hw]
  unfold scanStores scanLine
  cases h : scanString (cstr line) with
  | none => simp
  | some r =>
    obtain ⟨ip, rest⟩ := r
    obtain ⟨hip, hrest⟩ := hscan cstr_ne_zero h
    cases h' : scanString rest with
    | none => simpa only [h', List.nil_append, List.length_nil, List.drop_zero, and_true]
        using hstored _ hip
    | some r' =>
      obtain ⟨domain, rest'⟩ := r'
      simp only [h']
      exact ⟨hstored _ hip, hstored _ (hscan hrest h').1⟩

/-- The tokens are those of the loop of `format_domain`. -/
theorem formatLoop_tokens (fuel : ℕ) (rest dest : List UInt8) (dlen : ℕ) (src : List UInt8) :
    (formatLoop fuel rest dest dlen src).1 = dest ++ labelsWire (formatTokens fuel rest) := by
  induction fuel generalizing rest dest dlen src with
  | zero => simp [formatLoop, formatTokens, labelsWire]
  | succ fuel ih =>
    simp only [formatLoop, formatTokens]
    cases strtok rest with
    | none => simp [labelsWire]
    | some r => simp [ih, labelsWire, labelWire]

/-- The name of a record that the loader makes is what was stored in `formatd`. -/
theorem lineStores_name {rr : ResourceRecord} (h : (loadLine bufs line).2 = some rr) :
    rr.name = (lineStores bufs line).formatd := by
  unfold loadLine at h
  unfold lineStores
  split at h
  · cases h
  · next hshort =>
    rw [loadBuffers_record] at h
    obtain ⟨-, hname, -, -⟩ := relayRecord_spec h
    obtain ⟨⟨rrtype, address⟩, hconvert, h⟩ := Option.bind_eq_some_iff.1 h
    dsimp only at h
    split at h
    · cases h
    · next hgood =>
      have hne : words isDot (cstr (strLower (scanLine bufs line).domainbuf)) ≠ [] := by
        simpa only [words_cstr_lower, words_lower] using (not_or.1 hgood).1
      simp only [if_neg hshort, hconvert, hname, (formatDomain_eq _ hne).2, words_cstr_lower]

/-- The loader stays inside its buffers exactly on the lines that it skips for their length and on
those whose tokens and labels fit. -/
theorem lineStores_inBounds_iff (bufs : LineBuffers) (line : List UInt8) :
    (lineStores bufs line).InBounds ↔ 2048 < line.length ∨ LineFits bufs line := by
  unfold lineStores
  by_cases hlong : 2048 < line.length
  · rw [if_pos hlong]
    exact iff_of_true ⟨by simp, by simp, by simp, by simp⟩ (.inl hlong)
  · rw [if_neg hlong, or_iff_right hlong, LineFits, ← scanStores_length_iff]
    dsimp only
    by_cases hscan : (scanStores line).1.length ≤ 1024 ∧ (scanStores line).2.length ≤ 1024
    · have hbufs := scanLine_lineTokens bufs ((scanStores_length_iff line).1 hscan)
      simp only [hbufs, hscan, true_and]
      cases convertAddress (lineTokens bufs line).1 with
      | none => simpa using ⟨hscan.1, hscan.2, by simp, by simp⟩
      | some r =>
        have hformat := formatStores_iff (lineTokens bufs line).2
        simp only [ne_eq, reduceCtorEq, not_false_eq_true, forall_true_left, ← hformat]
        constructor
        · rintro ⟨-, -, hformatd, hoctets⟩
          exact ⟨hformatd, hoctets⟩
        · rintro ⟨hformatd, hoctets⟩
          exact ⟨hscan.1, hscan.2, hformatd, hoctets⟩
    · apply iff_of_false
      · intro h
        apply hscan
        cases hc : convertAddress (scanLine bufs line).ipbuf <;> simp only [hc] at h <;>
          exact ⟨h.ipbuf, h.domainbuf⟩
      · rintro ⟨h, -⟩
        exact hscan h

/-- `1.2.3.4` and a name. -/
def addressLine (name : List UInt8) : List UInt8 := [49, 46, 50, 46, 51, 46, 52, 32] ++ name ++ [10]

/-- A token of 1024 bytes, whose terminator has no room; 256 labels of one byte, which need 513
bytes of `formatd`; and a label of 256 bytes, whose length is stored as 0. -/
theorem longLines_not_inBounds :
    (addressLine (List.replicate 1024 97)).length ≤ 2048 ∧
      (lineStores ⟨[], []⟩ (addressLine (List.replicate 1024 97))).domainbuf.length = 1025 ∧
      ¬(lineStores ⟨[], []⟩ (addressLine (List.replicate 1024 97))).InBounds ∧
      (lineStores ⟨[], []⟩
        (addressLine (List.replicate 256 [97, 46]).flatten)).formatd.length = 513 ∧
      ¬(lineStores ⟨[], []⟩ (addressLine (List.replicate 256 [97, 46]).flatten)).InBounds ∧
      List.replicate 256 97 ∈ (lineStores ⟨[], []⟩ (addressLine (List.replicate 256 97))).tokens ∧
      ¬(lineStores ⟨[], []⟩ (addressLine (List.replicate 256 97))).InBounds := by
  have htoken : (lineStores ⟨[], []⟩ (addressLine (List.replicate 1024 97))).domainbuf.length =
      1025 := by decide +kernel
  have hname : (lineStores ⟨[], []⟩
      (addressLine (List.replicate 256 [97, 46]).flatten)).formatd.length = 513 := by
    have hlength : ¬(addressLine (List.replicate 256 [97, 46]).flatten).length > 2048 := by
      decide +kernel
    have hscan : scanLine ⟨[], []⟩ (addressLine (List.replicate 256 [97, 46]).flatten) =
        ⟨[49, 46, 50, 46, 51, 46, 52], (List.replicate 256 [97, 46]).flatten⟩ := by
      decide +kernel
    have hconvert : convertAddress [49, 46, 50, 46, 51, 46, 52] = some (rrtypeA, [1, 2, 3, 4]) := by
      decide +kernel
    have hne : words isDot (cstr (List.replicate 256 [97, 46]).flatten) ≠ [] := by
      decide +kernel
    have hsum : nameSum (words isDot (cstr (List.replicate 256 [97, 46]).flatten)) = 512 := by
      decide +kernel
    simp only [lineStores, if_neg hlength, hscan, hconvert, length_formatDomain_lower hne, hsum]
  have hlabel : List.replicate 256 97 ∈
      (lineStores ⟨[], []⟩ (addressLine (List.replicate 256 97))).tokens := by decide +kernel
  refine ⟨by decide +kernel, htoken, ?_, hname, ?_, hlabel, ?_⟩
  · intro h
    have := h.domainbuf
    omega
  · intro h
    have hle := h.formatd
    rw [hname] at hle
    exact absurd hle (by decide)
  · intro h
    have hoctet := h.octets _ hlabel
    rw [octet_iff, List.length_replicate] at hoctet
    omega

end Stores

end BakaDns
