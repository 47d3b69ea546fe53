import BakaDns.ResolvLookup

/-!
# The order of the cache

What a refresh pass keeps, and what a hit does to the order of the list. A pass sets the `ttl` of
a record to the time it has left, which is never more than it came with as long as the clock does
not go back behind a put.
-/

namespace BakaDns
open CBytes LinkedHeap

/-- The cache after these puts, latest first, with lookups and refresh passes at any time. -/
inductive CacheHistory : List (ℕ × ResourceRecord) → RrCache → Prop
  | init (now : ℕ) : CacheHistory [] (initCache now)
  | put {puts : List (ℕ × ResourceRecord)} {cache cache' : RrCache} (now : ℕ)
      (rr : ResourceRecord) (h : CacheHistory puts cache)
      (hput : cachePutRr now cache rr = some cache') : CacheHistory ((now, rr) :: puts) cache'
  | find {puts : List (ℕ × ResourceRecord)} {cache : RrCache} {found : List ResourceRecord}
      (domain : List UInt8) (type rrclass : UInt16) (h : CacheHistory puts cache)
      (hfind : cacheFindRr cache domain type rrclass = some found) : CacheHistory puts cache
  | refresh {puts : List (ℕ × ResourceRecord)} {cache cache' : RrCache} (now : ℕ)
      (h : CacheHistory puts cache) (hrefresh : refreshCache now cache = some cache') :
      CacheHistory puts cache'

/-- The put that made an entry: it set the expiry, and only the `ttl` has changed since. -/
structure MadeBy (e : CacheEntry) (put : ℕ × ResourceRecord) : Prop where
  expireTime : e.expireTime = put.1 + put.2.ttl.toNat
  rr : e.rr = { rrCopy put.2 with ttl := e.rr.ttl }

section Refresh

variable {puts : List (ℕ × ResourceRecord)} {cache : RrCache} {e : CacheEntry}
  {put : ℕ × ResourceRecord} {now : ℕ}

theorem madeBy_new (now : ℕ) (rr : ResourceRecord) :
    MadeBy ⟨rrCopy rr, now + rr.ttl.toNat⟩ (now, rr) := ⟨rfl, rfl⟩

theorem MadeBy.age (h : MadeBy e put) (now : ℕ) : MadeBy (e.age now) put := by
  refine ⟨h.expireTime, ?_⟩
  rw [CacheEntry.age, h.rr]

/-- Every entry goes back to a put. -/
theorem CacheHistory.entries (h : CacheHistory puts cache) :
    ∃ xs, CacheRep cache xs ∧ ∀ x ∈ xs, ∃ put ∈ puts, MadeBy x.2 put := by
  induction h with
  | init now =>
    refine ⟨[], initCache_rep now, fun x hx => ?_⟩
    cases hx
  | @put puts cache cache' now rr h hput ih =>
    obtain ⟨xs, hrep, hxs⟩ := ih
    obtain ⟨ys, hrep', hys⟩ := hrep.put_mem hput
    refine ⟨ys, hrep', fun y hy => ?_⟩
    rcases hys y hy with hy | ⟨heq, -⟩
    · obtain ⟨put, hmem, hmade⟩ := hxs y hy
      exact ⟨put, List.mem_cons_of_mem _ hmem, hmade⟩
    · rw [heq]
      exact ⟨(now, rr), List.mem_cons_self, madeBy_new now rr⟩
  | find domain type rrclass h hfind ih => exact ih
  | refresh now h hrefresh ih =>
    obtain ⟨xs, hrep, hxs⟩ := ih
    obtain ⟨ys, hrep', hys⟩ := hrep.refresh_mem hrefresh
    refine ⟨ys, hrep', fun y hy => ?_⟩
    obtain ⟨x, hx, -, heq⟩ := hys y hy
    obtain ⟨put, hmem, hmade⟩ := hxs x hx
    rw [heq]
    exact ⟨put, hmem, hmade.age now⟩

/-- What is left of a record is between a second and what it came with. -/
theorem MadeBy.left (h : MadeBy e put) (hput : put.1 ≤ now) (hlive : now < e.expireTime) :
    1 ≤ e.expireTime - now ∧ e.expireTime - now ≤ put.2.ttl.toNat := by
  rw [h.expireTime] at hlive ⊢
  omega

theorem toNat_ofNat_of_le_ttl {n : ℕ} {ttl : UInt32} (h : n ≤ ttl.toNat) :
    (UInt32.ofNat n).toNat = n :=
  UInt32.toNat_ofNat_of_lt (h.trans_lt ttl.toNat_lt)

/-- One pass at a time that is not before any put: the first 256 nodes with time left stay where
they are, each with a `ttl` of just that time. -/
theorem refreshCache_spec (h : CacheHistory puts cache) (hnow : ∀ put ∈ puts, put.1 ≤ now) :
    ∃ xs cache', CacheRep cache xs ∧ refreshCache now cache = some cache' ∧
      CacheRep cache' (((xs.filter fun x => now < x.2.expireTime).take 256).map fun x =>
        (x.1, { x.2 with rr := { x.2.rr with ttl := UInt32.ofNat (x.2.expireTime - now) } })) ∧
      cache'.size.toNat = ((xs.filter fun x => now < x.2.expireTime).take 256).length ∧
      ∀ x ∈ (xs.filter fun x => now < x.2.expireTime).take 256, ∃ put ∈ puts, MadeBy x.2 put ∧
        (UInt32.ofNat (x.2.expireTime - now)).toNat = x.2.expireTime - now ∧
        1 ≤ x.2.expireTime - now ∧ x.2.expireTime - now ≤ put.2.ttl.toNat := by
  obtain ⟨xs, hrep, hxs⟩ := h.entries
  obtain ⟨cache', hrefresh, hrep'⟩ := hrep.refresh now
  refine ⟨xs, cache', hrep, hrefresh, hrep', ?_, fun x hx => ?_⟩
  · have hle : ((xs.filter fun x => now < x.2.expireTime).take 256).length ≤ 256 :=
      List.length_take_le _ _
    rw [hrep'.size, refreshEntries, List.length_map]
    apply UInt32.toNat_ofNat_of_lt
    exact hle.trans_lt (by decide)
  · obtain ⟨hmem, hlive⟩ := List.mem_filter.1 (List.mem_of_mem_take hx)
    obtain ⟨put, hput, hmade⟩ := hxs x hmem
    obtain ⟨hpos, hle⟩ := hmade.left (hnow put hput) (of_decide_eq_true hlive)
    exact ⟨put, hput, hmade, toNat_ofNat_of_le_ttl hle, hpos, hle⟩

/-- Two records with a TTL of 60 seconds, and one between them that is over. -/
theorem refreshCache_spec_sample :
    ∃ c₁ c₂ c₃ cache', cachePutRr 5 (initCache 0) sampleRecord = some c₁ ∧
      cachePutRr 5 c₁ briefRecord = some c₂ ∧ cachePutRr 6 c₂ secondRecord = some c₃ ∧
      refreshCache 10 c₃ = some cache' ∧ cache'.size.toNat = 2 ∧
      ∃ a b, CacheRep c₃ [(b, ⟨secondRecord, 66⟩), (c₁.brk, ⟨briefRecord, 8⟩),
          (a, ⟨sampleRecord, 65⟩)] ∧
        CacheRep cache' [(b, ⟨{ secondRecord with ttl := 56 }, 66⟩),
          (a, ⟨{ sampleRecord with ttl := 55 }, 65⟩)] := by
  obtain ⟨c₁, h₁, hrep₁⟩ := (initCache_rep 0).put 5 sampleRecord
  obtain ⟨c₂, h₂, hrep₂⟩ := hrep₁.put 5 briefRecord
  obtain ⟨c₃, h₃, hrep₃⟩ := hrep₂.put 6 secondRecord
  have hhistory : CacheHistory [(6, secondRecord), (5, briefRecord), (5, sampleRecord)] c₃ :=
    .put 6 _ (.put 5 _ (.put 5 _ (.init 0) h₁) h₂) h₃
  obtain ⟨xs, cache', hxs, hrefresh, hrep', hsize, -⟩ := refreshCache_spec hhistory
    (show ∀ put ∈ [(6, secondRecord), (5, briefRecord), (5, sampleRecord)], put.1 ≤ 10 by decide)
  cases hxs.unique hrep₃
  exact ⟨c₁, c₂, c₃, cache', h₁, h₂, h₃, hrefresh, hsize, 1, c₂.brk, hrep₃, hrep'⟩

end Refresh

/-! A hit. -/

section Hit

variable {cache : RrCache} {xs ys : List (Addr × CacheEntry)} {x : Addr × CacheEntry}

/-- The entries that match come to the front, last one first; the others keep their order. -/
def frontFirst (p : Addr × CacheEntry → Bool) (xs : List (Addr × CacheEntry)) :
    List (Addr × CacheEntry) := (xs.filter p).reverse ++ xs.filter fun x => !p x

theorem frontFirst_perm (p : Addr × CacheEntry → Bool) (xs : List (Addr × CacheEntry)) :
    (frontFirst p xs).Perm xs :=
  ((List.reverse_perm _).append_right _).trans (List.filter_append_perm p xs)

theorem filter_frontFirst (p : Addr × CacheEntry → Bool) (xs : List (Addr × CacheEntry)) :
    (frontFirst p xs).filter p = (xs.filter p).reverse := by
  have hfront : ((xs.filter p).reverse).filter p = (xs.filter p).reverse := by
    rw [List.filter_eq_self]
    intro x hx
    exact (List.mem_filter.1 (List.mem_reverse.1 hx)).2
  have hback : (xs.filter fun x => !p x).filter p = [] := by
    rw [List.filter_eq_nil_iff]
    intro x hx
    have hno := (List.mem_filter.1 hx).2
    simpa using hno
  rw [frontFirst, List.filter_append, hfront, hback, List.append_nil]

/-- The put-backs, from a state in which `done` has been brought to the front and `xs` is left. -/
theorem putAll_copies {p : Addr × CacheEntry → Bool} {puts : List (ℕ × ResourceRecord)}
    {done : List (Addr × CacheEntry)} (hrep : CacheRep cache (done ++ xs))
    (hok : EntriesOk (done ++ xs))
    (hputs : puts.map Prod.snd = (xs.filter p).map fun x => rrCopy x.2.rr) :
    ∃ cache', putAll cache puts = some cache' ∧
      CacheRep cache' ((xs.filter p).reverse ++ (done ++ xs.filter fun x => !p x)) := by
  -- each round takes the first matching entry out of `xs` and puts it in front of `done`
  generalize hm : xs.filter p = matched at hputs
  induction matched generalizing cache puts done xs with
  | nil =>
    have hnone : (xs.filter fun x => !p x) = xs := by
      rw [List.filter_eq_self]
      intro x hx
      simpa using List.filter_eq_nil_iff.1 hm x hx
    rw [List.map_nil, List.map_eq_nil_iff] at hputs
    subst hputs
    refine ⟨cache, rfl, ?_⟩
    rw [hnone]
    exact hrep
  | cons x matched ih =>
    obtain ⟨pre, post, rfl, hpre, hpx, hpost⟩ := List.filter_eq_cons_iff.1 hm
    obtain ⟨⟨now, rr⟩, puts, rfl, rfl, hrest⟩ := List.map_eq_cons_iff.1 hputs
    have hpre' : pre.filter p = [] := List.filter_eq_nil_iff.2 hpre
    have hsplit : done ++ (pre ++ x :: post) = (done ++ pre) ++ x :: post :=
      (List.append_assoc _ _ _).symm
    rw [hsplit] at hrep hok
    have hcopy : rrCmp x.2.rr (rrCopy x.2.rr) = true := rrCmp_rrCopy x.2.rr
    have hfirst : ∀ y ∈ done ++ pre, rrCmp y.2.rr (rrCopy x.2.rr) = false := by
      intro y hy
      exact hok.rrCmp_unique hcopy y (List.mem_append_left _ hy)
    obtain ⟨cache₁, hput, hrep₁⟩ := hrep.put_hit hcopy hfirst now
    have hperm : (x :: (done ++ pre ++ post)).Perm ((done ++ pre) ++ x :: post) :=
      List.perm_middle.symm
    have hok₁ := hok.perm hperm
    rw [List.append_assoc, ← List.cons_append] at hrep₁ hok₁
    have hm₁ : (pre ++ post).filter p = matched := by
      rw [List.filter_append, hpre', hpost, List.nil_append]
    obtain ⟨cache', hall, hrep'⟩ := ih hrep₁ hok₁ hm₁ hrest
    have hothers : (pre ++ x :: post).filter (fun x => !p x) =
        (pre ++ post).filter fun x => !p x := by
      rw [List.filter_append, List.filter_append, List.filter_cons_of_neg (by simp [hpx])]
    refine ⟨cache', ?_, ?_⟩
    · rw [putAll, hput]
      exact hall
    · rw [hothers, List.reverse_cons, List.append_assoc]
      exact hrep'

/-- A lookup whose copies are put back one after another, at whatever times, reorders the list: no
node and no expiry changes, and the next lookup finds the same records in reverse order. -/
theorem cacheFindRr_putAll (h : CacheReachable cache) (domain : List UInt8)
    (type rrclass : UInt16) :
    ∃ xs found, CacheRep cache xs ∧ cacheFindRr cache domain type rrclass = some found ∧
      found = (xs.filter fun x => cacheFinds domain type rrclass x.2.rr).map
        (fun x => rrCopy x.2.rr) ∧
      ((xs.filter fun x => cacheFinds domain type rrclass x.2.rr).length ≤ ancountMax →
        (∀ ansBuffer, storeRecords ansBuffer found =
          .ok (found ++ ansBuffer.drop found.length)) ∧
        ∀ puts : List (ℕ × ResourceRecord), puts.map Prod.snd = found →
          ∃ cache', putAll cache puts = some cache' ∧
            CacheRep cache' (frontFirst (fun x => cacheFinds domain type rrclass x.2.rr) xs) ∧
            (frontFirst (fun x => cacheFinds domain type rrclass x.2.rr) xs).Perm xs ∧
            cache'.size = cache.size ∧
            cacheFindRr cache' domain type rrclass = some found.reverse) := by
  obtain ⟨xs, hrep, hok⟩ := cacheReachable_rep h
  have hfound : ∀ ys : List (Addr × CacheEntry),
      ((ys.map fun x => x.2.rr).filter (cacheFinds domain type rrclass)).map rrCopy =
        (ys.filter fun x => cacheFinds domain type rrclass x.2.rr).map fun x => rrCopy x.2.rr := by
    intro ys
    rw [List.filter_map, List.map_map]
    rfl
  refine ⟨xs, _, hrep, hrep.find domain type rrclass, hfound xs, fun hlen => ⟨?_, ?_⟩⟩
  · intro ansBuffer
    apply if_neg
    rw [hfound, List.length_map]
    exact Nat.not_lt.2 hlen
  · intro puts hputs
    rw [hfound] at hputs
    have hrep₀ : CacheRep cache ([] ++ xs) := hrep
    obtain ⟨cache', hall, hrep'⟩ := putAll_copies hrep₀ hok hputs
    have hperm := frontFirst_perm (fun x => cacheFinds domain type rrclass x.2.rr) xs
    refine ⟨cache', hall, hrep', hperm, ?_, ?_⟩
    · rw [hrep.size, ← hperm.length_eq]
      exact hrep'.size
    · rw [hrep'.find, hfound, hfound, ← List.map_reverse]
      exact congrArg (fun ys => some (ys.map fun x : Addr × CacheEntry => rrCopy x.2.rr))
        (filter_frontFirst _ xs)

theorem CacheReachable.putAll {cache' : RrCache} {puts : List (ℕ × ResourceRecord)}
    (h : CacheReachable cache) (hputs : ∀ p ∈ puts, p.2.InMemory)
    (hall : BakaDns.putAll cache puts = some cache') : CacheReachable cache' := by
  induction puts generalizing cache with
  | nil =>
    cases hall
    exact h
  | cons p puts ih =>
    obtain ⟨now, rr⟩ := p
    rw [BakaDns.putAll] at hall
    obtain ⟨cache₁, hput, hall⟩ := Option.bind_eq_some_iff.1 hall
    have hrr := hputs (now, rr) List.mem_cons_self
    exact ih (h.step (.put now rr hrr hput)) (fun p hp => hputs p (List.mem_cons_of_mem _ hp)) hall

theorem cacheFindRr_putAll_sample :
    ∃ cache cache', putAll (initCache 0) [(5, sampleRecord), (5, secondRecord)] = some cache ∧
      cacheFindRr cache [1, 97, 0] rrtypeA rrclassIn = some [secondRecord, sampleRecord] ∧
      putAll cache [(7, secondRecord), (8, sampleRecord)] = some cache' ∧
      cacheFindRr cache' [1, 97, 0] rrtypeA rrclassIn = some [sampleRecord, secondRecord] := by
  have hrun : (putAll (initCache 0) [(5, sampleRecord), (5, secondRecord)]).bind
      (fun cache => cacheFindRr cache [1, 97, 0] rrtypeA rrclassIn) =
        some [secondRecord, sampleRecord] := by decide +kernel
  obtain ⟨cache, hall, hfirst⟩ := Option.bind_eq_some_iff.1 hrun
  have hputs : ∀ p ∈ [(5, sampleRecord), (5, secondRecord)], p.2.InMemory := by
    simp only [List.forall_mem_cons]
    exact ⟨sample_inMemory _ _, sample_inMemory _ _, List.forall_mem_nil _⟩
  have hreach := (CacheReachable.init 0).putAll hputs hall
  obtain ⟨xs, found, -, hfind, hfound, hback⟩ :=
    cacheFindRr_putAll hreach [1, 97, 0] rrtypeA rrclassIn
  obtain rfl : [secondRecord, sampleRecord] = found := Option.some.inj (hfirst.symm.trans hfind)
  have hlen := congrArg List.length hfound
  rw [List.length_map] at hlen
  obtain ⟨-, hagain⟩ := hback (by rw [← hlen]; decide)
  obtain ⟨cache', hback, -, -, -, hreverse⟩ :=
    hagain [(7, secondRecord), (8, sampleRecord)] rfl
  exact ⟨cache, cache', hall, hfind, hback, hreverse⟩

end Hit

end BakaDns
