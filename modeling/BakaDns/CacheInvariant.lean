import BakaDns.Cache

/-!
# The cache over whole runs

The representation invariant in every reachable state, and which records survive a series of
puts. Two records count as the same by `rr_cmp`, which is equality of a key.
-/

namespace BakaDns
open CBytes LinkedHeap

/-- A name that lies in memory: shorter than what a `size_t` counts. -/
def ResourceRecord.InMemory (rr : ResourceRecord) : Prop := (cstr rr.name).length < 2 ^ 64 - 1

/-- What `rr_cmp` looks at. -/
structure RrKey where
  name : List UInt8
  type : UInt16
  rrclass : UInt16
  rdlength : UInt16
  rdata : List UInt8
deriving DecidableEq

/-- The key of a record: its name as a string, and its data up to the first zero byte. -/
def rrKey (rr : ResourceRecord) : RrKey :=
  ⟨cstr rr.name, rr.type, rr.rrclass, rr.rdlength, (cstr rr.rdata).take rr.rdlength.toNat⟩

inductive CacheStep : RrCache → RrCache → Prop
  | put {cache cache' : RrCache} (now : ℕ) (rr : ResourceRecord) (hrr : rr.InMemory)
      (h : cachePutRr now cache rr = some cache') : CacheStep cache cache'
  | find {cache : RrCache} (domain : List UInt8) (type rrclass : UInt16)
      (found : List ResourceRecord) (h : cacheFindRr cache domain type rrclass = some found) :
      CacheStep cache cache
  | refresh {cache cache' : RrCache} (now : ℕ) (h : refreshCache now cache = some cache') :
      CacheStep cache cache'

/-- The states that puts, lookups and refresh passes lead to. -/
inductive CacheReachable : RrCache → Prop
  | init (now : ℕ) : CacheReachable (initCache now)
  | step {cache cache' : RrCache} (h : CacheReachable cache) (hs : CacheStep cache cache') :
      CacheReachable cache'

/-! Keys. -/

section Keys

variable {rr x : ResourceRecord}

theorem strncmpEq_asSize {a b : List UInt8} (h : (cstr b).length < 2 ^ 64 - 1) :
    strncmpEq a b (asSize (domainLen b)) = true ↔ cstr a = cstr b := by
  cases hd : domainLen b with
  | none => exact strncmpEq_iff_cstr h
  | some n =>
    rw [← hd]
    exact strncmpEq_domainLen (by rw [hd]; exact Option.some_ne_none n)

theorem rrCmp_iff (hx : x.InMemory) : rrCmp x rr = true ↔ rrKey x = rrKey rr := by
  have hname : strncmpEq x.name rr.name (asSize (domainLen x.name)) = true ↔
      cstr x.name = cstr rr.name := by
    constructor
    · intro h
      exact ((strncmpEq_asSize hx).1 (strncmpEq_symm h)).symm
    · intro h
      exact strncmpEq_symm ((strncmpEq_asSize hx).2 h.symm)
  simp only [rrCmp, Bool.and_eq_true, hname, beq_iff_eq, strncmpEq_iff, rrKey, RrKey.mk.injEq]
  constructor
  · rintro ⟨⟨⟨⟨hn, hl⟩, ht⟩, hc⟩, hd⟩
    exact ⟨hn, ht, hc, hl, hl ▸ hd⟩
  · rintro ⟨hn, ht, hc, hl, hd⟩
    exact ⟨⟨⟨⟨hn, hl⟩, ht⟩, hc⟩, hl ▸ hd⟩

theorem copyOut_rrCopy (rr : ResourceRecord) :
    copyOut (rrCopy rr).rdata rr.rdlength.toNat = copyOut rr.rdata rr.rdlength.toNat := by
  unfold rrCopy
  split
  · rfl
  · dsimp only
    split
    · next h0 => rw [h0]; rfl
    · rw [copyOut_of_le (by rw [length_copyOut]), List.take_of_length_le (by rw [length_copyOut])]

theorem take_cstr_eq_of_copyOut {a b : List UInt8} {n : ℕ} (h : copyOut a n = copyOut b n) :
    (cstr a).take n = (cstr b).take n := by
  rw [← cstr_copyOut, ← cstr_copyOut, h]

theorem rrKey_rrCopy (rr : ResourceRecord) : rrKey (rrCopy rr) = rrKey rr := by
  simp only [rrKey, cstr_rrCopy, rrCopy_type, rrCopy_rrclass, rrCopy_rdlength,
    take_cstr_eq_of_copyOut (copyOut_rrCopy rr)]

theorem inMemory_rrCopy (h : rr.InMemory) : (rrCopy rr).InMemory := by
  rw [ResourceRecord.InMemory, cstr_rrCopy]
  exact h

end Keys

/-! The invariant. -/

section Invariant

variable {cache cache' : RrCache} {xs ys : List (Addr × CacheEntry)} {rr : ResourceRecord}

/-- What holds of the cached entries besides their layout: no two of them have the same key. -/
structure EntriesOk (xs : List (Addr × CacheEntry)) : Prop where
  inMemory : ∀ x ∈ xs, x.2.rr.InMemory
  distinct : (xs.map fun x => rrKey x.2.rr).Nodup

theorem EntriesOk.perm (h : EntriesOk xs) (hp : ys.Perm xs) : EntriesOk ys where
  inMemory x hx := h.inMemory x (hp.mem_iff.1 hx)
  distinct := (hp.map _).nodup_iff.2 h.distinct

theorem EntriesOk.eq_of_key (h : EntriesOk xs) {x y : Addr × CacheEntry} (hx : x ∈ xs)
    (hy : y ∈ xs) (hk : rrKey x.2.rr = rrKey y.2.rr) : x = y :=
  List.inj_on_of_nodup_map h.distinct hx hy hk

/-- No two entries match one record. -/
theorem EntriesOk.rrCmp_unique {pre post : List (Addr × CacheEntry)} {x : Addr × CacheEntry}
    (h : EntriesOk (pre ++ x :: post)) (hx : rrCmp x.2.rr rr = true) :
    ∀ y ∈ pre ++ post, rrCmp y.2.rr rr = false := by
  intro y hy
  have hxmem : x ∈ pre ++ x :: post := List.mem_append_right _ List.mem_cons_self
  have hymem : y ∈ pre ++ x :: post := List.perm_middle.mem_iff.2 (List.mem_cons_of_mem _ hy)
  have hnodup : (pre ++ x :: post).Nodup := List.Nodup.of_map _ h.distinct
  refine Bool.eq_false_iff.2 fun hcmp => ?_
  have hkey := ((rrCmp_iff (h.inMemory y hymem)).1 hcmp).trans
    ((rrCmp_iff (h.inMemory x hxmem)).1 hx).symm
  obtain rfl := h.eq_of_key hymem hxmem hkey
  exact (List.nodup_cons.1 (List.nodup_middle.1 hnodup)).1 hy

theorem EntriesOk.putEntry (h : EntriesOk xs) (hrr : rr.InMemory) (now : ℕ) (brk : Addr) :
    EntriesOk (putEntry now rr brk xs) := by
  rcases putEntry_cases now rr brk xs with ⟨pre, x, post, rfl, -, -, hput⟩ | ⟨hno, hput⟩
  · rw [hput]
    exact h.perm List.perm_middle.symm
  · rw [hput]
    constructor
    · intro x hx
      rcases List.mem_cons.1 hx with rfl | hx
      · exact inMemory_rrCopy hrr
      · exact h.inMemory x hx
    · refine List.nodup_cons.2 ⟨?_, h.distinct⟩
      intro hmem
      obtain ⟨x, hx, hk⟩ := List.mem_map.1 hmem
      have hcmp := (rrCmp_iff (h.inMemory x hx)).2 (hk.trans (rrKey_rrCopy rr))
      rw [hno x hx] at hcmp
      cases hcmp

theorem EntriesOk.refreshEntries (h : EntriesOk xs) (now : ℕ) :
    EntriesOk (refreshEntries now xs) := by
  have hsub : ((xs.filter (live now)).take cacheSizeMax).Sublist xs :=
    (List.take_sublist _ _).trans List.filter_sublist
  rw [refreshEntries_eq]
  constructor
  · intro y hy
    obtain ⟨x, hx, rfl⟩ := List.mem_map.1 hy
    exact h.inMemory x (hsub.subset hx)
  · rw [List.map_map]
    exact h.distinct.sublist (hsub.map _)

theorem cacheReachable_rep (h : CacheReachable cache) :
    ∃ xs, CacheRep cache xs ∧ EntriesOk xs := by
  induction h with
  | init now =>
    refine ⟨[], initCache_rep now, ?_, List.nodup_nil⟩
    intro x hx
    cases hx
  | step _ hs ih =>
    obtain ⟨xs, hrep, hok⟩ := ih
    cases hs with
    | put now rr hrr h =>
      obtain ⟨cache', hput, hrep'⟩ := hrep.put now rr
      cases hput.symm.trans h
      exact ⟨_, hrep', hok.putEntry hrr now _⟩
    | find => exact ⟨xs, hrep, hok⟩
    | refresh now h =>
      obtain ⟨cache', hrefresh, hrep'⟩ := hrep.refresh now
      cases hrefresh.symm.trans h
      exact ⟨_, hrep', hok.refreshEntries now⟩

theorem cacheFinds_iff {e : ResourceRecord} (he : e.InMemory) (domain : List UInt8)
    (type rrclass : UInt16) : cacheFinds domain type rrclass e = true ↔
      e.type = type ∧ e.rrclass = rrclass ∧ cstr e.name = cstr domain := by
  rw [cacheFinds, Bool.and_eq_true, Bool.and_eq_true, beq_iff_eq, beq_iff_eq, strncmpEq_asSize he,
    and_assoc]
  exact and_congr eq_comm (and_congr eq_comm eq_comm)

/-- Every reachable cache is a well-formed chain without duplicates; on the list it spells out,
a put moves the equal entry to the front or adds a new one there, a lookup returns the entries of
a name, and a refresh pass ages the list. -/
theorem cacheReachable_lru (h : CacheReachable cache) :
    ∃ xs, CacheRep cache xs ∧ (xs.length < 2 ^ 32 → cache.size.toNat = xs.length) ∧
      xs.Pairwise (fun x y => rrCmp x.2.rr y.2.rr = false ∧ rrCmp y.2.rr x.2.rr = false) ∧
      (∀ now rr, rr.InMemory → ∃ cache', cachePutRr now cache rr = some cache' ∧
        ((∃ pre x post, xs = pre ++ x :: post ∧ rrCmp x.2.rr rr = true ∧
            (∀ y ∈ pre ++ post, rrCmp y.2.rr rr = false) ∧
            CacheRep cache' (x :: (pre ++ post))) ∨
          ((∀ y ∈ xs, rrCmp y.2.rr rr = false) ∧
            CacheRep cache' ((cache.brk, ⟨rrCopy rr, now + rr.ttl.toNat⟩) :: xs)))) ∧
      (∀ domain type rrclass, cacheFindRr cache domain type rrclass =
        some (((xs.map fun x => x.2.rr).filter fun e =>
          e.type = type ∧ e.rrclass = rrclass ∧ cstr e.name = cstr domain).map rrCopy)) ∧
      (∀ now, ∃ cache', refreshCache now cache = some cache' ∧
        CacheRep cache' (refreshEntries now xs)) := by
  obtain ⟨xs, hrep, hok⟩ := cacheReachable_rep h
  refine ⟨xs, hrep, ?_, ?_, ?_, ?_, fun now => hrep.refresh now⟩
  · intro hlen
    rw [hrep.size, UInt32.toNat_ofNat']
    exact Nat.mod_eq_of_lt hlen
  · refine (List.pairwise_map.1 hok.distinct).imp_of_mem ?_
    intro x y hx hy hne
    constructor
    · exact Bool.eq_false_iff.2 fun hc => hne ((rrCmp_iff (hok.inMemory x hx)).1 hc)
    · exact Bool.eq_false_iff.2 fun hc => hne ((rrCmp_iff (hok.inMemory y hy)).1 hc).symm
  · intro now rr _
    obtain ⟨cache', hput, hrep'⟩ := hrep.put now rr
    refine ⟨cache', hput, ?_⟩
    rcases putEntry_cases now rr cache.brk xs with ⟨pre, x, post, rfl, hx, -, heq⟩ | ⟨hno, heq⟩
    · rw [heq] at hrep'
      exact .inl ⟨pre, x, post, rfl, hx, hok.rrCmp_unique hx, hrep'⟩
    · rw [heq] at hrep'
      exact .inr ⟨hno, hrep'⟩
  · intro domain type rrclass
    rw [hrep.find]
    congr 2
    refine List.filter_congr fun e he => ?_
    obtain ⟨x, hx, rfl⟩ := List.mem_map.1 he
    rw [Bool.eq_iff_iff, cacheFinds_iff (hok.inMemory x hx), decide_eq_true_iff]

/-- An address record. -/
def sampleRecord : ResourceRecord := ⟨[1, 97, 0], rrtypeA, rrclassIn, 60, 4, [10, 0, 0, 1]⟩

/-- Another address of the name of `sampleRecord`. -/
def secondRecord : ResourceRecord := { sampleRecord with rdata := [11, 0, 0, 2] }

/-- A record of another name, with three seconds to live. -/
def briefRecord : ResourceRecord := { sampleRecord with name := [1, 98, 0], ttl := 3 }

theorem sample_inMemory (ttl : UInt32) (rdata : List UInt8) :
    ResourceRecord.InMemory { sampleRecord with ttl := ttl, rdata := rdata } := by
  change [(1 : UInt8), 97].length < 2 ^ 64 - 1
  norm_num

/-- Three puts, and a pass that finds one of the records over; then the record that was put first,
and is now last, once more. -/
theorem cacheReachable_lru_sample :
    ∃ c₁ c₂ c₃ cache cache', cachePutRr 5 (initCache 0) sampleRecord = some c₁ ∧
      cachePutRr 5 c₁ briefRecord = some c₂ ∧ cachePutRr 6 c₂ secondRecord = some c₃ ∧
      refreshCache 10 c₃ = some cache ∧ cachePutRr 11 cache sampleRecord = some cache' ∧
      ∃ a b, CacheRep cache [(b, ⟨{ secondRecord with ttl := 56 }, 66⟩),
          (a, ⟨{ sampleRecord with ttl := 55 }, 65⟩)] ∧
        CacheRep cache' [(a, ⟨{ sampleRecord with ttl := 55 }, 65⟩),
          (b, ⟨{ secondRecord with ttl := 56 }, 66⟩)] := by
  have hbrief : briefRecord.InMemory := by
    change [(1 : UInt8), 98].length < 2 ^ 64 - 1
    norm_num
  obtain ⟨c₁, h₁, hrep₁⟩ := (initCache_rep 0).put 5 sampleRecord
  obtain ⟨c₂, h₂, hrep₂⟩ := hrep₁.put 5 briefRecord
  obtain ⟨c₃, h₃, hrep₃⟩ := hrep₂.put 6 secondRecord
  obtain ⟨cache, hrefresh, hrep⟩ := hrep₃.refresh 10
  have hreach : CacheReachable cache :=
    ((((CacheReachable.init 0).step (.put 5 _ (sample_inMemory _ _) h₁)).step
      (.put 5 _ hbrief h₂)).step (.put 6 _ (sample_inMemory _ _) h₃)).step (.refresh 10 hrefresh)
  change CacheRep cache [(c₂.brk, ⟨{ secondRecord with ttl := 56 }, 66⟩),
    (1, ⟨{ sampleRecord with ttl := 55 }, 65⟩)] at hrep
  obtain ⟨xs, hxs, -, -, hput, -⟩ := cacheReachable_lru hreach
  obtain rfl := hxs.unique hrep
  obtain ⟨cache', h₄, hcases⟩ := hput 11 sampleRecord (sample_inMemory _ _)
  refine ⟨c₁, c₂, c₃, cache, cache', h₁, h₂, h₃, hrefresh, h₄, 1, c₂.brk, hrep, ?_⟩
  rcases hcases with ⟨pre, x, post, hsplit, hx, -, hrep'⟩ | ⟨hno, -⟩
  · -- the first entry does not match
    rcases pre with _ | ⟨y, pre⟩
    · obtain ⟨rfl, -⟩ := List.cons.inj hsplit
      change rrCmp { secondRecord with ttl := 56 } sampleRecord = true at hx
      exact absurd hx (by decide)
    · obtain ⟨rfl, hrest⟩ := List.cons.inj hsplit
      obtain ⟨rfl, h⟩ | ⟨-, h⟩ := List.singleton_eq_append_iff.1 hrest
      · obtain ⟨rfl, rfl⟩ := List.cons.inj h
        exact hrep'
      · cases h
  · exact absurd (hno _ (List.mem_cons_of_mem _ List.mem_cons_self)) (by decide)

end Invariant

/-! Which records a series of puts keeps. -/

section Puts

variable {cache : RrCache} {xs ys : List (Addr × CacheEntry)} {rr x : ResourceRecord}

/-- One `cache_put_rr` after another, each with the time it is called at. -/
def putAll (cache : RrCache) : List (ℕ × ResourceRecord) → Option RrCache
  | [] => some cache
  | (now, rr) :: puts => do
    let cache ← cachePutRr now cache rr
    putAll cache puts

/-- Same name, type, class and length of the data. -/
def SameShape (x rr : ResourceRecord) : Prop :=
  cstr x.name = cstr rr.name ∧ x.type = rr.type ∧ x.rrclass = rr.rrclass ∧
    x.rdlength = rr.rdlength

/-- The two blocks of `n` bytes differ, but only behind a zero byte up to which they agree. -/
def HiddenByZero (a b : List UInt8) (n : ℕ) : Prop :=
  copyOut a n ≠ copyOut b n ∧ ∃ i < n, byteAt a i = 0 ∧ copyOut a (i + 1) = copyOut b (i + 1)

instance (x rr : ResourceRecord) : Decidable (SameShape x rr) :=
  inferInstanceAs (Decidable (_ ∧ _ ∧ _ ∧ _))

instance (a b : List UInt8) (n : ℕ) : Decidable (HiddenByZero a b n) :=
  inferInstanceAs (Decidable (_ ∧ ∃ i < n, _ ∧ _))

/-- `f` carries the data of `rr`. -/
def sameData (rr f : ResourceRecord) : Bool :=
  f.rdlength == rr.rdlength &&
    copyOut f.rdata f.rdlength.toNat == copyOut rr.rdata rr.rdlength.toNat

/-- A lookup with the name, type and class of `rr` returns one record with its data. -/
def Kept (cache : RrCache) (rr : ResourceRecord) : Prop :=
  ∃ found, cacheFindRr cache rr.name rr.type rr.rrclass = some found ∧
    (found.filter (sameData rr)).length = 1

/-- What a series of puts leaves: the old entries, and one for the key of every record put. -/
structure Grown (xs : List (Addr × CacheEntry)) (rrs : List ResourceRecord)
    (ys : List (Addr × CacheEntry)) : Prop where
  old : ∀ x ∈ xs, x ∈ ys
  new : ∀ rr ∈ rrs, ∃ y ∈ ys, rrKey y.2.rr = rrKey rr
  source : ∀ y ∈ ys, y ∈ xs ∨ ∃ rr ∈ rrs, y.2.rr = rrCopy rr

theorem grown_putEntry (h : EntriesOk xs) (now : ℕ) (rr : ResourceRecord) (brk : Addr) :
    Grown xs [rr] (putEntry now rr brk xs) := by
  rcases putEntry_cases now rr brk xs with ⟨pre, x, post, rfl, hx, -, hput⟩ | ⟨-, hput⟩
  · have hperm : (x :: (pre ++ post)).Perm (pre ++ x :: post) := List.perm_middle.symm
    have hxmem : x ∈ pre ++ x :: post := hperm.mem_iff.1 List.mem_cons_self
    rw [hput]
    refine ⟨fun y hy => hperm.mem_iff.2 hy, ?_, fun y hy => .inl (hperm.mem_iff.1 hy)⟩
    intro r hr
    rw [List.mem_singleton.1 hr]
    exact ⟨x, List.mem_cons_self, (rrCmp_iff (h.inMemory x hxmem)).1 hx⟩
  · rw [hput]
    refine ⟨fun y hy => List.mem_cons_of_mem _ hy, ?_, ?_⟩
    · intro r hr
      rw [List.mem_singleton.1 hr]
      exact ⟨_, List.mem_cons_self, rrKey_rrCopy rr⟩
    · intro y hy
      rcases List.mem_cons.1 hy with rfl | hy
      · exact .inr ⟨rr, List.mem_cons_self, rfl⟩
      · exact .inl hy

theorem Grown.trans {zs : List (Addr × CacheEntry)} {rrs : List ResourceRecord}
    (h₁ : Grown xs [rr] ys) (h₂ : Grown ys rrs zs) : Grown xs (rr :: rrs) zs where
  old x hx := h₂.old x (h₁.old x hx)
  new r hr := by
    rcases List.mem_cons.1 hr with rfl | hr
    · obtain ⟨y, hy, hk⟩ := h₁.new r List.mem_cons_self
      exact ⟨y, h₂.old y hy, hk⟩
    · exact h₂.new r hr
  source z hz := by
    rcases h₂.source z hz with hz | ⟨r, hr, heq⟩
    · rcases h₁.source z hz with hz | ⟨r, hr, heq⟩
      · exact .inl hz
      · rw [List.mem_singleton.1 hr] at heq
        exact .inr ⟨rr, List.mem_cons_self, heq⟩
    · exact .inr ⟨r, List.mem_cons_of_mem _ hr, heq⟩

theorem putAll_spec {puts : List (ℕ × ResourceRecord)} (hrep : CacheRep cache xs)
    (hok : EntriesOk xs) (hputs : ∀ p ∈ puts, p.2.InMemory) :
    ∃ cache' ys, putAll cache puts = some cache' ∧ CacheRep cache' ys ∧ EntriesOk ys ∧
      Grown xs (puts.map Prod.snd) ys := by
  induction puts generalizing cache xs with
  | nil =>
    refine ⟨cache, xs, rfl, hrep, hok, fun x hx => hx, ?_, fun y hy => .inl hy⟩
    intro r hr
    cases hr
  | cons p puts ih =>
    obtain ⟨now, rr⟩ := p
    obtain ⟨cache₁, hput, hrep₁⟩ := hrep.put now rr
    have hok₁ := hok.putEntry (hputs (now, rr) List.mem_cons_self) now cache.brk
    obtain ⟨cache', ys, hall, hrep', hok', hgrown⟩ := ih hrep₁ hok₁ fun p hp =>
      hputs p (List.mem_cons_of_mem _ hp)
    refine ⟨cache', ys, ?_, hrep', hok', (grown_putEntry hok now rr cache.brk).trans hgrown⟩
    rw [putAll, hput]
    exact hall

/-- Equal keys with different data: what `rr_cmp` takes for one record. -/
theorem hiddenByZero_iff (hs : SameShape x rr) :
    HiddenByZero x.rdata rr.rdata rr.rdlength.toNat ↔ rrKey x = rrKey rr ∧
      copyOut x.rdata x.rdlength.toNat ≠ copyOut rr.rdata rr.rdlength.toNat := by
  obtain ⟨hn, ht, hc, hl⟩ := hs
  have hkey : rrKey x = rrKey rr ↔ strncmpEq x.rdata rr.rdata rr.rdlength.toNat = true := by
    rw [strncmpEq_iff, rrKey, rrKey, hn, ht, hc, hl, RrKey.mk.injEq]
    exact ⟨fun h => h.2.2.2.2, fun h => ⟨rfl, rfl, rfl, rfl, h⟩⟩
  rw [hkey, strncmpEq_iff_copyOut, hl, HiddenByZero]
  constructor
  · rintro ⟨hne, hzero⟩
    exact ⟨.inr hzero, hne⟩
  · rintro ⟨heq | hzero, hne⟩
    · exact absurd heq hne
    · exact ⟨hne, hzero⟩

theorem sameShape_of_key (h : rrKey x = rrKey rr) : SameShape x rr := by
  rw [rrKey, rrKey, RrKey.mk.injEq] at h
  exact ⟨h.1, h.2.1, h.2.2.1, h.2.2.2.1⟩

/-- An entry that a lookup for `rr` returns with the data of `rr`. -/
def Holds (e rr : ResourceRecord) : Prop :=
  SameShape e rr ∧ copyOut e.rdata e.rdlength.toNat = copyOut rr.rdata rr.rdlength.toNat

theorem Holds.key_eq {e : ResourceRecord} (h : Holds e rr) : rrKey e = rrKey rr := by
  obtain ⟨⟨hn, ht, hc, hl⟩, hd⟩ := h
  rw [hl] at hd
  rw [rrKey, rrKey, hn, ht, hc, hl, take_cstr_eq_of_copyOut hd]

theorem holds_iff_found {e : ResourceRecord} (he : e.InMemory) :
    (cacheFinds rr.name rr.type rr.rrclass e = true ∧ sameData rr (rrCopy e) = true) ↔
      Holds e rr := by
  rw [cacheFinds_iff he, sameData, rrCopy_rdlength, copyOut_rrCopy, Bool.and_eq_true, beq_iff_eq,
    beq_iff_eq]
  constructor
  · rintro ⟨⟨ht, hc, hn⟩, hl, hd⟩
    exact ⟨⟨hn, ht, hc, hl⟩, hd⟩
  · rintro ⟨⟨hn, ht, hc, hl⟩, hd⟩
    exact ⟨⟨ht, hc, hn⟩, hl, hd⟩

theorem length_filter_eq_one_iff {α : Type} {p : α → Bool} {l : List α} (hn : l.Nodup)
    (huniq : ∀ a ∈ l, ∀ b ∈ l, p a = true → p b = true → a = b) :
    (l.filter p).length = 1 ↔ ∃ a ∈ l, p a = true := by
  have hmem : ∀ a, a ∈ l.filter p ↔ a ∈ l ∧ p a = true := fun a => List.mem_filter
  have hnf : (l.filter p).Nodup := hn.filter p
  constructor
  · intro hlen
    obtain ⟨a, ha⟩ := List.length_eq_one_iff.1 hlen
    exact ⟨a, (hmem a).1 (ha ▸ List.mem_cons_self)⟩
  · rintro ⟨a, ha, hp⟩
    have hall : ∀ b ∈ l.filter p, b = a := fun b hb =>
      huniq b ((hmem b).1 hb).1 a ha ((hmem b).1 hb).2 hp
    have hle : (l.filter p).length ≤ 1 :=
      List.nodup_replicate.1 (List.eq_replicate_of_mem hall ▸ hnf)
    exact Nat.le_antisymm hle (List.length_pos_of_mem ((hmem a).2 ⟨ha, hp⟩))

/-- A record is kept exactly when some entry holds it: there is at most one. -/
theorem kept_iff (hrep : CacheRep cache xs) (hok : EntriesOk xs) :
    Kept cache rr ↔ ∃ x ∈ xs, Holds x.2.rr rr := by
  let p : Addr × CacheEntry → Bool := fun x =>
    sameData rr (rrCopy x.2.rr) && cacheFinds rr.name rr.type rr.rrclass x.2.rr
  have hp : ∀ x ∈ xs, p x = true ↔ Holds x.2.rr rr := by
    intro x hx
    rw [← holds_iff_found (hok.inMemory x hx), and_comm]
    exact Bool.and_eq_true_iff
  have hlen : ∀ found, cacheFindRr cache rr.name rr.type rr.rrclass = some found →
      (found.filter (sameData rr)).length = (xs.filter p).length := by
    intro found hfound
    rw [hrep.find] at hfound
    cases hfound
    rw [List.filter_map, List.length_map, List.filter_filter, List.filter_map, List.length_map]
    rfl
  have hone : (xs.filter p).length = 1 ↔ ∃ x ∈ xs, p x = true := by
    refine length_filter_eq_one_iff (List.Nodup.of_map _ hok.distinct) ?_
    intro x hx y hy hpx hpy
    exact hok.eq_of_key hx hy
      (((hp x hx).1 hpx).key_eq.trans ((hp y hy).1 hpy).key_eq.symm)
  have hex : (∃ x ∈ xs, p x = true) ↔ ∃ x ∈ xs, Holds x.2.rr rr :=
    exists_congr fun x => and_congr_right fun hx => hp x hx
  rw [← hex, ← hone]
  constructor
  · rintro ⟨found, hfound, hcount⟩
    rw [← hlen found hfound, hcount]
  · intro hcount
    exact ⟨_, hrep.find _ _ _, (hlen _ (hrep.find _ _ _)).trans hcount⟩

/-- No record is lost by a series of puts exactly when no record put has, among the cached
records and the others put, one of the same shape whose data differs only behind a zero byte. -/
theorem putAll_kept_iff {puts : List (ℕ × ResourceRecord)} (h : CacheReachable cache)
    (hrep : CacheRep cache xs) (hputs : ∀ p ∈ puts, p.2.InMemory) :
    ∃ cache', putAll cache puts = some cache' ∧
      ((∀ rr ∈ puts.map Prod.snd, Kept cache' rr) ↔
        ∀ rr ∈ puts.map Prod.snd, ∀ x ∈ (xs.map fun x => x.2.rr) ++ puts.map Prod.snd,
          SameShape x rr → ¬HiddenByZero x.rdata rr.rdata rr.rdlength.toNat) := by
  obtain ⟨zs, hzs, hok⟩ := cacheReachable_rep h
  obtain rfl := hzs.unique hrep
  obtain ⟨cache', ys, hall, hrep', hok', hgrown⟩ := putAll_spec hrep hok hputs
  refine ⟨cache', hall, ?_⟩
  have hkept : ∀ rr, Kept cache' rr ↔ ∃ y ∈ ys, Holds y.2.rr rr := fun rr => kept_iff hrep' hok'
  constructor
  · intro hkeep rr hrr x hx hshape hhidden
    obtain ⟨hkey, hdata⟩ := (hiddenByZero_iff hshape).1 hhidden
    -- the one entry of this key holds the data of `x`, and of `rr`
    obtain ⟨y, hy, hholds⟩ := (hkept rr).1 (hkeep rr hrr)
    obtain ⟨z, hz, hzholds⟩ : ∃ z ∈ ys, Holds z.2.rr x := by
      rcases List.mem_append.1 hx with hx | hx
      · obtain ⟨z, hz, rfl⟩ := List.mem_map.1 hx
        exact ⟨z, hgrown.old z hz, ⟨rfl, rfl, rfl, rfl⟩, rfl⟩
      · exact (hkept x).1 (hkeep x hx)
    have hzy : z = y := hok'.eq_of_key hz hy (hzholds.key_eq.trans (hkey.trans hholds.key_eq.symm))
    subst hzy
    exact hdata (hzholds.2.symm.trans hholds.2)
  · intro hcond rr hrr
    obtain ⟨y, hy, hkey⟩ := hgrown.new rr hrr
    rw [hkept]
    refine ⟨y, hy, sameShape_of_key hkey, ?_⟩
    by_contra hdata
    -- the entry is a cached record, or the copy of one that was put
    rcases hgrown.source y hy with hold | ⟨x, hx, heq⟩
    · have hshape := sameShape_of_key hkey
      exact hcond rr hrr _ (List.mem_append_left _ (List.mem_map.2 ⟨y, hold, rfl⟩)) hshape
        ((hiddenByZero_iff hshape).2 ⟨hkey, hdata⟩)
    · rw [heq, rrKey_rrCopy] at hkey
      have hshape := sameShape_of_key hkey
      rw [heq, rrCopy_rdlength, copyOut_rrCopy] at hdata
      exact hcond rr hrr x (List.mem_append_right _ hx) hshape
        ((hiddenByZero_iff hshape).2 ⟨hkey, hdata⟩)

/-- The addresses 10.0.0.1 and 10.0.0.2 of one name. -/
def sampleOther : ResourceRecord := { sampleRecord with rdata := [10, 0, 0, 2] }

/-- The second address is merged into the first: a lookup does not return it. -/
theorem sampleOther_not_kept :
    CacheReachable (initCache 0) ∧
      ∃ cache, putAll (initCache 0) [(5, sampleRecord), (5, sampleOther)] = some cache ∧
        cacheFindRr cache sampleOther.name rrtypeA rrclassIn = some [sampleRecord] ∧
        ¬Kept cache sampleOther := by
  have hrun : (putAll (initCache 0) [(5, sampleRecord), (5, sampleOther)]).bind
      (fun cache => cacheFindRr cache sampleOther.name rrtypeA rrclassIn) =
        some [sampleRecord] := by decide +kernel
  obtain ⟨cache, hcache, hfind⟩ := Option.bind_eq_some_iff.1 hrun
  refine ⟨.init 0, cache, hcache, hfind, ?_⟩
  rintro ⟨found, hfound, hcount⟩
  cases hfind.symm.trans hfound
  exact absurd hcount (by decide)

/-- A third address, which differs from 10.0.0.1 before its first zero byte. -/
def thirdRecord : ResourceRecord := { sampleRecord with rdata := [10, 1, 0, 2] }

/-- A cache with 10.0.0.1: two more addresses are both kept, but 10.0.0.2 is not. -/
theorem putAll_kept_iff_sample :
    ∃ cache kept lost, cachePutRr 5 (initCache 0) sampleRecord = some cache ∧
      putAll cache [(6, secondRecord), (6, thirdRecord)] = some kept ∧
      (∀ rr ∈ [secondRecord, thirdRecord], Kept kept rr) ∧
      putAll cache [(6, secondRecord), (6, sampleOther)] = some lost ∧
      ¬∀ rr ∈ [secondRecord, sampleOther], Kept lost rr := by
  obtain ⟨cache, hput, hrep⟩ := (initCache_rep 0).put 5 sampleRecord
  have hreach : CacheReachable cache :=
    (CacheReachable.init 0).step (.put 5 _ (sample_inMemory _ _) hput)
  have hputs : ∀ rdata, ∀ p ∈ [(6, secondRecord), (6, { sampleRecord with rdata := rdata })],
      p.2.InMemory := by
    intro rdata
    simp only [List.forall_mem_cons]
    exact ⟨sample_inMemory _ _, sample_inMemory _ _, List.forall_mem_nil _⟩
  obtain ⟨kept, hkept, hall⟩ := putAll_kept_iff hreach hrep (hputs thirdRecord.rdata)
  obtain ⟨lost, hlost, hnone⟩ := putAll_kept_iff hreach hrep (hputs sampleOther.rdata)
  refine ⟨cache, kept, lost, hput, hkept, hall.2 ?_, hlost, fun h => ?_⟩
  · change ∀ rr ∈ [secondRecord, thirdRecord], ∀ x ∈ [sampleRecord, secondRecord, thirdRecord], _
    decide
  · have hdistinct : ∀ x ∈ [sampleRecord, secondRecord, sampleOther], SameShape x sampleOther →
        ¬HiddenByZero x.rdata sampleOther.rdata 4 :=
      hnone.1 h sampleOther (List.mem_cons_of_mem _ List.mem_cons_self)
    revert hdistinct
    decide

end Puts

end BakaDns
