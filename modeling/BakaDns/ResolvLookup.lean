import BakaDns.CacheInvariant
import BakaDns.Resolv

/-!
# The question loop

What the lookups of `resolv_handle` do, told on the list that the cache holds. A cache hit puts
copies of cached records back, so it only changes the order of that list.
-/

namespace BakaDns
open CBytes LinkedHeap

theorem bind_eq_ok {ε α β : Type} {m : Except ε α} {f : α → Except ε β} {b : β} :
    m >>= f = .ok b ↔ ∃ a, m = .ok a ∧ f a = .ok b := by
  cases m with
  | error e =>
    constructor
    · intro h
      cases h
    · rintro ⟨a, h, -⟩
      cases h
  | ok a =>
    constructor
    · intro h
      exact ⟨a, rfl, h⟩
    · rintro ⟨a', h, hf⟩
      cases h
      exact hf

theorem orCrash_eq_ok {α : Type} {o : Option α} {a : α} : orCrash o = .ok a ↔ o = some a := by
  cases o with
  | none =>
    constructor
    · intro h
      cases h
    · intro h
      cases h
  | some b =>
    constructor
    · intro h
      cases h
      rfl
    · intro h
      cases h
      rfl

theorem ok_of_toOption_map {ε α β : Type} {m : Except ε α} {f : α → β} {b : β}
    (h : m.toOption.map f = some b) : ∃ a, m = .ok a ∧ f a = b := by
  cases m with
  | error e => cases h
  | ok a => exact ⟨a, rfl, Option.some.inj h⟩

/-- What `resolv_handle` returns for a size that is not negative. -/
theorem returnValue_natCast (n : ℕ) : (if (n : ℤ) < 0 then (-1 : ℤ) else 1) = 1 :=
  if_neg (Int.not_lt.2 (Int.natCast_nonneg n))

/-- The records of a list of entries. -/
def recordsOf (xs : List (Addr × CacheEntry)) : List ResourceRecord := xs.map fun x => x.2.rr

/-- What the cache answers to a question, as copies. -/
def cachedFor (cached : List ResourceRecord) (q : MessageQuestion) : List ResourceRecord :=
  (cached.filter (cacheFinds q.qname q.qtype q.qclass)).map rrCopy

/-- The records found for a question: those of the cache or, failing that, of the database. -/
def localRecords (cached : List ResourceRecord) (db : BucketTree) (q : MessageQuestion) :
    List ResourceRecord :=
  if cachedFor cached q = [] then selectDatabase db q else cachedFor cached q

variable {cache : RrCache} {xs ys : List (Addr × CacheEntry)} {st st' : LookupState}
  {q : MessageQuestion} {db : BucketTree} {now : ℕ}

theorem cachedFor_perm (h : xs.Perm ys) (q : MessageQuestion) :
    (cachedFor (recordsOf xs) q).Perm (cachedFor (recordsOf ys) q) :=
  ((h.map _).filter _).map _

theorem rrCmp_rrCopy (e : ResourceRecord) : rrCmp e (rrCopy e) = true := by
  have hname : strncmpEq e.name (rrCopy e).name (asSize (domainLen e.name)) = true := by
    rw [strncmpEq_iff, cstr_rrCopy]
  have hdata : strncmpEq e.rdata (rrCopy e).rdata e.rdlength.toNat = true := by
    rw [strncmpEq_iff]
    exact (take_cstr_eq_of_copyOut (copyOut_rrCopy e)).symm
  simp [rrCmp, hname, hdata]

/-- Putting back records that are cached reorders the cache. -/
theorem cachePutAll_back {rrs : List ResourceRecord} (hrep : CacheRep cache xs)
    (hrrs : ∀ rr ∈ rrs, ∃ x ∈ xs, rrCmp x.2.rr rr = true) :
    ∃ cache' ys, cachePutAll now cache rrs = .ok cache' ∧ CacheRep cache' ys ∧ ys.Perm xs := by
  induction rrs generalizing cache xs with
  | nil => exact ⟨cache, xs, rfl, hrep, List.Perm.refl xs⟩
  | cons rr rrs ih =>
    obtain ⟨cache₁, hput, hrep₁⟩ := hrep.put now rr
    have hperm : (putEntry now rr cache.brk xs).Perm xs := by
      rcases putEntry_cases now rr cache.brk xs with ⟨pre, x, post, rfl, -, -, heq⟩ | ⟨hno, -⟩
      · rw [heq]
        exact List.perm_middle.symm
      · obtain ⟨x, hx, hcmp⟩ := hrrs rr List.mem_cons_self
        rw [hno x hx] at hcmp
        cases hcmp
    obtain ⟨cache', ys, hall, hrep', hperm'⟩ := ih hrep₁ fun r hr => by
      obtain ⟨x, hx, hcmp⟩ := hrrs r (List.mem_cons_of_mem rr hr)
      exact ⟨x, hperm.mem_iff.2 hx, hcmp⟩
    refine ⟨cache', ys, ?_, hrep', hperm'.trans hperm⟩
    rw [cachePutAll, hput]
    exact hall

/-- The state that the lookup of a query starts in. -/
theorem CacheRep.start {cache : RrCache} (hrep : CacheRep cache xs) :
    CacheRep (LookupState.mk cache (List.replicate ancountMax .zero) 0).cache xs := hrep

/-- A question that the cache answers. -/
theorem lookupQuestion_hit (hrep : CacheRep st.cache xs)
    (hne : cachedFor (recordsOf xs) q ≠ [])
    (hle : (cachedFor (recordsOf xs) q).length ≤ ancountMax) :
    ∃ cache' ys, lookupQuestion now db q st =
        .ok (⟨cache', cachedFor (recordsOf xs) q ++
          st.ansBuffer.drop (cachedFor (recordsOf xs) q).length,
          st.ansCnt + (cachedFor (recordsOf xs) q).length⟩, true) ∧
      CacheRep cache' ys ∧ ys.Perm xs := by
  have hfind : cacheFindRr st.cache q.qname q.qtype q.qclass =
      some (cachedFor (recordsOf xs) q) := hrep.find _ _ _
  have hback : ∀ rr ∈ cachedFor (recordsOf xs) q, ∃ x ∈ xs, rrCmp x.2.rr rr = true := by
    intro rr hrr
    obtain ⟨e, he, rfl⟩ := List.mem_map.1 hrr
    obtain ⟨x, hx, rfl⟩ := List.mem_map.1 (List.mem_of_mem_filter he)
    exact ⟨x, hx, rrCmp_rrCopy x.2.rr⟩
  obtain ⟨cache', ys, hput, hrep', hperm⟩ := cachePutAll_back hrep hback
  refine ⟨cache', ys, ?_, hrep', hperm⟩
  rw [lookupQuestion, hfind]
  simp only [orCrash, storeRecords, if_neg (Nat.not_lt.2 hle), bind, Except.bind, if_pos hne]
  have hput' : cachePutAll now st.cache (cachedFor (recordsOf xs) q) = .ok cache' := hput
  rw [hput']

theorem lookupQuestion_crowded (hrep : CacheRep st.cache xs)
    (hlt : ancountMax < (cachedFor (recordsOf xs) q).length) :
    lookupQuestion now db q st = .error .crash := by
  have hfind : cacheFindRr st.cache q.qname q.qtype q.qclass =
      some (cachedFor (recordsOf xs) q) := hrep.find _ _ _
  rw [lookupQuestion, hfind]
  simp only [orCrash, storeRecords, if_pos hlt, bind, Except.bind]

/-- A question that goes on to the database. -/
theorem lookupQuestion_miss (hrep : CacheRep st.cache xs)
    (hnil : cachedFor (recordsOf xs) q = []) :
    lookupQuestion now db q st = lookupDatabase db q st := by
  have hfind : cacheFindRr st.cache q.qname q.qtype q.qclass =
      some (cachedFor (recordsOf xs) q) := hrep.find _ _ _
  rw [lookupQuestion, hfind, hnil]
  rfl

/-- The database step leaves the cache alone and succeeds exactly when there are records. -/
theorem lookupDatabase_ok {answered : Bool} (h : lookupDatabase db q st = .ok (st', answered)) :
    st'.cache = st.cache ∧ (answered = true ↔ selectDatabase db q ≠ []) := by
  obtain ⟨ansBuffer, -, h⟩ := bind_eq_ok.1 h
  split at h
  · next hne =>
    obtain ⟨blocked, -, h⟩ := bind_eq_ok.1 h
    cases blocked with
    | none =>
      cases h
      exact ⟨rfl, iff_of_true rfl hne⟩
    | some i =>
      cases h
      exact ⟨rfl, iff_of_true rfl hne⟩
  · next hnil =>
    cases h
    exact ⟨rfl, iff_of_false Bool.false_ne_true hnil⟩

/-- One question: the cache is reordered at most, and the question counts as answered exactly when
there are local records for it. -/
theorem lookupQuestion_ok {answered : Bool} (hrep : CacheRep st.cache xs)
    (h : lookupQuestion now db q st = .ok (st', answered)) :
    (∃ ys, CacheRep st'.cache ys ∧ ys.Perm xs) ∧
      (answered = true ↔ localRecords (recordsOf xs) db q ≠ []) := by
  by_cases hnil : cachedFor (recordsOf xs) q = []
  · rw [lookupQuestion_miss hrep hnil] at h
    obtain ⟨hcache, hanswered⟩ := lookupDatabase_ok h
    rw [hcache, localRecords, if_pos hnil]
    exact ⟨⟨xs, hrep, List.Perm.refl xs⟩, hanswered⟩
  · rw [localRecords, if_neg hnil]
    rcases Nat.lt_or_ge ancountMax (cachedFor (recordsOf xs) q).length with hlt | hle
    · rw [lookupQuestion_crowded hrep hlt] at h
      cases h
    · obtain ⟨cache', ys, heq, hrep', hperm⟩ := lookupQuestion_hit hrep hnil hle
      cases heq.symm.trans h
      exact ⟨⟨ys, hrep', hperm⟩, iff_of_true rfl hnil⟩

theorem perm_eq_nil_iff {α : Type} {as bs : List α} (h : as.Perm bs) : as = [] ↔ bs = [] := by
  rw [← List.length_eq_zero_iff, ← List.length_eq_zero_iff, h.length_eq]

theorem localRecords_perm (h : ys.Perm xs) (db : BucketTree) (q : MessageQuestion) :
    (localRecords (recordsOf ys) db q).Perm (localRecords (recordsOf xs) db q) := by
  have hperm := cachedFor_perm h q
  have hnil := perm_eq_nil_iff hperm
  by_cases he : cachedFor (recordsOf xs) q = []
  · rw [localRecords, localRecords, if_pos he, if_pos (hnil.2 he)]
  · rw [localRecords, localRecords, if_neg he, if_neg (mt hnil.1 he)]
    exact hperm

/-- The question loop comes to a question without local records, and everything before it is in
order. -/
def reachesMiss (cached : List ResourceRecord) (db : BucketTree) :
    ℕ → List (Option MessageQuestion) → Prop
  | n + 1, some q :: qs =>
    domainLen q.qname ≠ none ∧ (localRecords cached db q = [] ∨ reachesMiss cached db n qs)
  | _, _ => False

theorem reachesMiss_perm (h : ys.Perm xs) (n : ℕ) (qs : List (Option MessageQuestion)) :
    reachesMiss (recordsOf ys) db n qs ↔ reachesMiss (recordsOf xs) db n qs := by
  induction n generalizing qs with
  | zero => exact Iff.rfl
  | succ n ih =>
    match qs with
    | [] => exact Iff.rfl
    | none :: qs => exact Iff.rfl
    | some q :: qs =>
      have hq : localRecords (recordsOf ys) db q = [] ↔ localRecords (recordsOf xs) db q = [] :=
        perm_eq_nil_iff (localRecords_perm h db q)
      exact and_congr_right fun _ => or_congr hq (ih qs)

/-- The whole loop: it only reorders the cache, and asks for the external server exactly when it
reaches a question without local records. -/
theorem lookupLoop_ok {n : ℕ} {qs : List (Option MessageQuestion)} {fin : LookupEnd}
    (hrep : CacheRep st.cache xs) (h : lookupLoop now db n qs st = .ok (st', fin)) :
    (∃ ys, CacheRep st'.cache ys ∧ ys.Perm xs) ∧
      (fin = .external ↔ reachesMiss (recordsOf xs) db n qs) := by
  induction n generalizing qs st xs with
  | zero =>
    cases h
    exact ⟨⟨xs, hrep, List.Perm.refl xs⟩, iff_of_false (fun h => by cases h) id⟩
  | succ n ih =>
    match qs with
    | [] => cases h
    | none :: qs =>
      cases h
      exact ⟨⟨xs, hrep, List.Perm.refl xs⟩, iff_of_false (fun h => by cases h) id⟩
    | some q :: qs =>
      rw [lookupLoop] at h
      split at h
      · cases h
      · split at h
        · next hlen =>
          cases h
          refine ⟨⟨xs, hrep, List.Perm.refl xs⟩, iff_of_false (fun h => by cases h) ?_⟩
          rintro ⟨hne, -⟩
          exact hne hlen
        · next hlen =>
          obtain ⟨⟨st₁, answered⟩, hq, h⟩ := bind_eq_ok.1 h
          obtain ⟨⟨ys, hrep₁, hperm⟩, hanswered⟩ := lookupQuestion_ok hrep hq
          cases answered with
          | false =>
            cases h
            have hnil : localRecords (recordsOf xs) db q = [] := by
              by_contra hne
              cases hanswered.2 hne
            exact ⟨⟨ys, hrep₁, hperm⟩, iff_of_true rfl ⟨hlen, .inl hnil⟩⟩
          | true =>
            obtain ⟨⟨zs, hrep', hperm'⟩, hfin⟩ := ih hrep₁ h
            refine ⟨⟨zs, hrep', hperm'.trans hperm⟩, ?_⟩
            rw [hfin, reachesMiss_perm hperm, reachesMiss]
            constructor
            · intro hrest
              exact ⟨hlen, .inr hrest⟩
            · rintro ⟨-, hnil | hrest⟩
              · exact absurd hnil (hanswered.1 rfl)
              · exact hrest

/-- The query goes to the external server. -/
def Forwards (cached : List ResourceRecord) (db : BucketTree) (query : Message) : Prop :=
  opcodeOf query.header.misc1 ≠ opcodeQuery ∨
    reachesMiss cached db query.header.qdcount.toNat query.question

theorem lookupQuery_ok {query : Message} {fin : LookupEnd} (hrep : CacheRep cache xs)
    (h : lookupQuery now db cache query = .ok (st', fin)) :
    (∃ ys, CacheRep st'.cache ys ∧ ys.Perm xs) ∧
      (fin = .external ↔ Forwards (recordsOf xs) db query) := by
  rw [lookupQuery] at h
  split at h
  · next hop =>
    cases h
    exact ⟨⟨xs, hrep, List.Perm.refl xs⟩, iff_of_true rfl (.inl hop)⟩
  · next hop =>
    have hst : CacheRep (⟨cache, List.replicate ancountMax ResourceRecord.zero, 0⟩ :
        LookupState).cache xs := hrep
    obtain ⟨hcache, hfin⟩ := lookupLoop_ok hst h
    refine ⟨hcache, hfin.trans ?_⟩
    exact ⟨.inr, fun hor => hor.resolve_left hop⟩

end BakaDns
