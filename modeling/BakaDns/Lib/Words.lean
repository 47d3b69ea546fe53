import Mathlib

/-!
# Words

The maximal runs of characters between separators, and how a scanner finds them one by one.
-/

namespace Words

variable {α : Type} {sep : α → Bool}

/-- The maximal runs without a separator. -/
def words (sep : α → Bool) (s : List α) : List (List α) := (s.splitOnP sep).filter (· ≠ [])

/-- A scanner for one word: separators are skipped, then the word is taken. The second component
is what stands behind the word. -/
def nextWord (sep : α → Bool) (s : List α) : Option (List α × List α) :=
  match s.dropWhile sep with
  | [] => none
  | c :: cs => some ((c :: cs).takeWhile (! sep ·), (c :: cs).dropWhile (! sep ·))

theorem words_nil : words sep [] = [] := by
  simp [words]

theorem words_sep {c : α} (hc : sep c = true) (s : List α) : words sep (c :: s) = words sep s := by
  simp [words, List.splitOnP_cons_eq_if_modifyHead, hc]

theorem words_dropWhile (s : List α) : words sep (s.dropWhile sep) = words sep s := by
  induction s with
  | nil => rfl
  | cons c s ih =>
    by_cases hc : sep c = true
    · rw [List.dropWhile_cons_of_pos hc, ih, words_sep hc]
    · rw [List.dropWhile_cons_of_neg hc]

/-- A word in front of a separator or of the end. -/
theorem words_append {w : List α} (hne : w ≠ []) (hw : ∀ c ∈ w, sep c = false) {t : List α}
    (ht : ∀ c ∈ t.head?, sep c = true) : words sep (w ++ t) = w :: words sep t := by
  cases t with
  | nil =>
    rw [List.append_nil, words, List.splitOnP_eq_singleton hw, words_nil]
    simp [hne]
  | cons c t =>
    have hc : sep c = true := ht c rfl
    rw [words_sep hc, words, List.splitOnP_append_cons_of_forall_mem hw c hc, words]
    simp [hne]

theorem mem_words {s w : List α} (hw : w ∈ words sep s) : w ≠ [] ∧ ∀ c ∈ w, c ∈ s := by
  obtain ⟨hmem, hne⟩ := List.mem_filter.1 hw
  refine ⟨of_decide_eq_true hne, ?_⟩
  clear hw hne
  induction s generalizing w with
  | nil => simp_all
  | cons d s ih =>
    rw [List.splitOnP_cons_eq_if_modifyHead] at hmem
    split at hmem
    · rcases List.mem_cons.1 hmem with rfl | hmem
      · exact List.forall_mem_nil _
      · exact fun c hc => List.mem_cons_of_mem d (ih hmem c hc)
    · cases hs : s.splitOnP sep with
      | nil => exact absurd hs (List.splitOnP_ne_nil sep s)
      | cons v vs =>
        rw [hs] at hmem ih
        rcases List.mem_cons.1 hmem with rfl | hmem
        · intro c hc
          rcases List.mem_cons.1 hc with rfl | hc
          · exact List.mem_cons_self
          · exact List.mem_cons_of_mem d (ih List.mem_cons_self c hc)
        · exact fun c hc => List.mem_cons_of_mem d (ih (List.mem_cons_of_mem v hmem) c hc)

/-- What the scanner returns is a word, and what follows starts with a separator. -/
theorem nextWord_spec {s w t : List α} (h : nextWord sep s = some (w, t)) :
    w ≠ [] ∧ (∀ c ∈ w, sep c = false) ∧ (∀ c ∈ t.head?, sep c = true) ∧
      s.dropWhile sep = w ++ t := by
  unfold nextWord at h
  split at h
  · cases h
  · next c cs hcs =>
    cases h
    have hhead := List.head?_dropWhile_not sep s
    rw [hcs] at hhead
    have hc : sep c = false := hhead
    refine ⟨by simp [hc], ?_, ?_, ?_⟩
    · intro d hd
      simpa using List.mem_takeWhile_imp hd
    · intro d hd
      have htail := List.head?_dropWhile_not (! sep ·) (c :: cs)
      rw [Option.mem_def.1 hd] at htail
      simpa using htail
    · rw [hcs, List.takeWhile_append_dropWhile]

theorem nextWord_eq_none {s : List α} (h : nextWord sep s = none) : words sep s = [] := by
  rw [← words_dropWhile]
  unfold nextWord at h
  split at h
  · next hs =>
    rw [hs]
    exact words_nil
  · cases h

/-- The scanner finds the words in order. -/
theorem words_of_nextWord {s w t : List α} (h : nextWord sep s = some (w, t)) :
    words sep s = w :: words sep t := by
  obtain ⟨hne, hw, ht, hs⟩ := nextWord_spec h
  rw [← words_dropWhile, hs]
  exact words_append hne hw ht

/-- The separator behind a word can go. -/
theorem words_drop_one {s w t : List α} (h : nextWord sep s = some (w, t)) :
    words sep (t.drop 1) = words sep t := by
  obtain ⟨-, -, ht, -⟩ := nextWord_spec h
  cases t with
  | nil => rfl
  | cons c t => exact (words_sep (ht c rfl) t).symm

theorem length_nextWord {s w t : List α} (h : nextWord sep s = some (w, t)) :
    t.length < s.length := by
  obtain ⟨hne, -, -, hs⟩ := nextWord_spec h
  have hle : (s.dropWhile sep).length ≤ s.length := (List.dropWhile_sublist sep).length_le
  have hpos := List.length_pos_iff.2 hne
  rw [hs, List.length_append] at hle
  omega

/-- A word has no separator in it. -/
theorem not_sep_of_mem_words {s w : List α} (hw : w ∈ words sep s) : ∀ c ∈ w, sep c = false := by
  induction hn : s.length using Nat.strong_induction_on generalizing s with
  | _ n ih =>
    cases h : nextWord sep s with
    | none => simp [nextWord_eq_none h] at hw
    | some r =>
      have hlt := length_nextWord h
      rw [words_of_nextWord h] at hw
      rcases List.mem_cons.1 hw with rfl | hw
      · exact (nextWord_spec h).2.1
      · exact ih r.2.length (hn ▸ hlt) hw rfl

/-! Words with single separators between them. -/

theorem mem_intercalate {c d : α} {ws : List (List α)} (h : c ∈ [d].intercalate ws) :
    c = d ∨ ∃ w ∈ ws, c ∈ w := by
  induction ws with
  | nil => simp at h
  | cons w ws ih =>
    cases ws with
    | nil => exact .inr ⟨w, List.mem_cons_self, by simpa using h⟩
    | cons v ws =>
      simp only [List.intercalate_cons_cons, List.append_assoc, List.mem_append,
        List.mem_singleton] at h
      rcases h with h | h | h
      · exact .inr ⟨w, List.mem_cons_self, h⟩
      · exact .inl h
      · rcases ih h with h | ⟨u, hu, h⟩
        · exact .inl h
        · exact .inr ⟨u, List.mem_cons_of_mem w hu, h⟩

theorem words_intercalate {d : α} (hd : sep d = true) {ws : List (List α)}
    (hws : ∀ w ∈ ws, w ≠ [] ∧ ∀ c ∈ w, sep c = false) : words sep ([d].intercalate ws) = ws := by
  induction ws with
  | nil => exact words_nil
  | cons w ws ih =>
    obtain ⟨hne, hw⟩ := hws w List.mem_cons_self
    have hrest := ih fun v hv => hws v (List.mem_cons_of_mem w hv)
    cases ws with
    | nil =>
      have hone := words_append hne hw (t := []) (by simp)
      simpa [words_nil] using hone
    | cons v ws =>
      have hstep := words_append hne hw (t := d :: [d].intercalate (v :: ws)) (by simpa using hd)
      rw [words_sep hd, hrest] at hstep
      simpa [List.intercalate_cons_cons] using hstep

/-! Words of a text whose characters are replaced one by one. -/

theorem splitOnP_map {β : Type} (f : β → α) (s : List β) :
    (s.map f).splitOnP sep = (s.splitOnP (sep ∘ f)).map (List.map f) := by
  induction s with
  | nil => simp
  | cons c s ih =>
    rw [List.map_cons, List.splitOnP_cons_eq_if_modifyHead, List.splitOnP_cons_eq_if_modifyHead, ih]
    by_cases hc : sep (f c) = true
    · simp [hc]
    · simp [hc]
      cases s.splitOnP (sep ∘ f) <;> simp

theorem words_map {β : Type} (f : β → α) (s : List β) :
    words sep (s.map f) = (words (sep ∘ f) s).map (List.map f) := by
  rw [words, splitOnP_map, List.filter_map, words]
  congr 1
  apply List.filter_congr
  intro w _
  simp

end Words
