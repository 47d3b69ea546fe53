import BakaDns.Lib.LinkedHeap
import BakaDns.Message

/-!
# The record cache

`cache.c`: a doubly linked list behind a sentinel, most recently used records first. The lock is
held over every operation, so each of them is one step. Reading or writing where no node is, and a
loop that does not come to the end of the chain, give `none`.
-/

namespace BakaDns
open CBytes LinkedHeap

/-- What a node carries besides its pointers; `element` is NULL in the sentinel. -/
structure CacheData where
  element : Option ResourceRecord
  expireTime : ℕ
deriving Repr

/-- `struct rr_cache` with the heap its nodes live on. `brk` is the next address that `malloc`
returns, so that every address in use is below it. -/
structure RrCache where
  heap : Heap CacheData
  brk : Addr
  dummy : Addr
  size : UInt32

def cacheSizeMax : ℕ := 256

/-- `create_cache_node`; `now` is what `gettimeofday` reports. -/
def createCacheNode (now : ℕ) (next last : Option Addr) (rr : Option ResourceRecord) :
    Node CacheData :=
  match rr with
  | none => ⟨next, last, ⟨none, now⟩⟩
  | some rr => ⟨next, last, ⟨some (rrCopy rr), now + rr.ttl.toNat⟩⟩

def initCache (now : ℕ) : RrCache where
  heap := alloc (fun _ => none) 0 (createCacheNode now none none none)
  brk := 1
  dummy := 0
  size := 0

/-- The test in the loop of `cache_find_rr`. -/
def cacheFinds (domain : List UInt8) (type rrclass : UInt16) (e : ResourceRecord) : Bool :=
  type == e.type && rrclass == e.rrclass && strncmpEq domain e.name (asSize (domainLen e.name))

def cacheFindLoop (heap : Heap CacheData) (domain : List UInt8) (type rrclass : UInt16) :
    ℕ → Option Addr → Option (List ResourceRecord)
  | _, none => some []
  | 0, some _ => none
  | fuel + 1, some node => do
    let ln ← heap node
    let element ← ln.val.element
    let rest ← cacheFindLoop heap domain type rrclass fuel ln.next
    some (if cacheFinds domain type rrclass element then rrCopy element :: rest else rest)

/-- `cache_find_rr`: the records copied to `dest`, whose number it returns. -/
def cacheFindRr (cache : RrCache) (domain : List UInt8) (type rrclass : UInt16) :
    Option (List ResourceRecord) := do
  let dummy ← cache.heap cache.dummy
  cacheFindLoop cache.heap domain type rrclass cache.brk dummy.next

def cacheMatchLoop (heap : Heap CacheData) (rr : ResourceRecord) :
    ℕ → Option Addr → Option (Option Addr)
  | _, none => some none
  | 0, some _ => none
  | fuel + 1, some node => do
    let ln ← heap node
    let element ← ln.val.element
    if rrCmp element rr then some (some node) else cacheMatchLoop heap rr fuel ln.next

def cacheMatchLn (cache : RrCache) (rr : ResourceRecord) : Option (Option Addr) := do
  let dummy ← cache.heap cache.dummy
  cacheMatchLoop cache.heap rr cache.brk dummy.next

/-- `cache_put_rr`. -/
def cachePutRr (now : ℕ) (cache : RrCache) (rr : ResourceRecord) : Option RrCache := do
  match ← cacheMatchLn cache rr with
  | some old =>
    let heap ← moveFront cache.heap cache.dummy old
    some { cache with heap := heap }
  | none =>
    let dummy ← cache.heap cache.dummy
    let heap := alloc cache.heap cache.brk
      (createCacheNode now dummy.next (some cache.dummy) (some rr))
    let heap ← linkFront heap cache.dummy cache.brk
    some { cache with heap := heap, brk := cache.brk + 1, size := cache.size + 1 }

/-- The inner loop of `refresh_cache`, which drops every node from `node` on. -/
def truncateLoop : ℕ → Heap CacheData → UInt32 → Option Addr → Option (Heap CacheData × UInt32)
  | _, heap, size, none => some (heap, size)
  | 0, _, _, some _ => none
  | fuel + 1, heap, size, some node => do
    let ln ← heap node
    let _ ← ln.val.element
    let heap ← match ln.last with
      | none => some heap
      | some last => setNext heap last none
    let heap ← setLastIf heap ln.next ln.last
    truncateLoop fuel (free heap node) (size - 1) ln.next

/-- What a pass does to one node: it goes when it has expired, and otherwise its `ttl` is set to
what is left. The third component is `cnt`. The name and the data of a node that goes are freed with
it; for a record that has lost them already that is a second `free`, which is left out here. -/
def refreshNode (now : ℕ) (heap : Heap CacheData) (size : UInt32) (cnt : ℕ) (node : Addr) :
    Option (Heap CacheData × UInt32 × ℕ) := do
  let ln ← heap node
  let element ← ln.val.element
  if ln.val.expireTime ≤ now then
    let heap ← unlink heap node
    some (free heap node, size - 1, cnt)
  else
    let ttl := UInt32.ofNat (ln.val.expireTime - now)
    let heap ← modifyAt heap node fun ln =>
      { ln with val := { ln.val with element := some { element with ttl := ttl } } }
    some (heap, size, cnt + 1)

def refreshLoop (now : ℕ) :
    ℕ → Heap CacheData → UInt32 → ℕ → Option Addr → Option (Heap CacheData × UInt32)
  | _, heap, size, _, none => some (heap, size)
  | 0, _, _, _, some _ => none
  | fuel + 1, heap, size, cnt, some node => do
    let ln ← heap node
    let (heap, size, cnt) ← refreshNode now heap size cnt node
    if cnt = cacheSizeMax then truncateLoop fuel heap size ln.next
    else refreshLoop now fuel heap size cnt ln.next

/-- One pass of `refresh_cache`. -/
def refreshCache (now : ℕ) (cache : RrCache) : Option RrCache := do
  let dummy ← cache.heap cache.dummy
  let (heap, size) ← refreshLoop now cache.brk cache.heap cache.size 0 dummy.next
  some { cache with heap := heap, size := size }

/-! The list that the chain spells out. -/

/-- A cached record with its expiry. -/
structure CacheEntry where
  rr : ResourceRecord
  expireTime : ℕ
deriving DecidableEq, Repr

def CacheEntry.data (e : CacheEntry) : CacheData := ⟨some e.rr, e.expireTime⟩

def nodeOf (x : Addr × CacheEntry) : Addr × CacheData := (x.1, x.2.data)

/-- The nodes of a list of entries. -/
def nodesOf (xs : List (Addr × CacheEntry)) : List (Addr × CacheData) := xs.map nodeOf

/-- The cache holds these entries, each at its address: the chain of `next` pointers from the
sentinel runs through distinct nodes to NULL, every node points back to the one in front of it,
and `size` counts them. -/
structure CacheRep (cache : RrCache) (xs : List (Addr × CacheEntry)) : Prop where
  linked : ∃ now, Linked cache.heap none ((cache.dummy, ⟨none, now⟩) :: nodesOf xs) none
  nodup : (cache.dummy :: addrs xs).Nodup
  bound : ∀ a ∈ cache.dummy :: addrs xs, a < cache.brk
  size : cache.size = UInt32.ofNat xs.length

/-- What `cache_put_rr` does to the list. -/
def putEntry (now : ℕ) (rr : ResourceRecord) (brk : Addr) (xs : List (Addr × CacheEntry)) :
    List (Addr × CacheEntry) :=
  match xs.find? fun x => rrCmp x.2.rr rr with
  | some x => x :: xs.eraseP fun x => rrCmp x.2.rr rr
  | none => (brk, ⟨rrCopy rr, now + rr.ttl.toNat⟩) :: xs

/-- An entry after a pass that keeps it. -/
def CacheEntry.age (now : ℕ) (e : CacheEntry) : CacheEntry :=
  { e with rr := { e.rr with ttl := UInt32.ofNat (e.expireTime - now) } }

/-- What a pass of `refresh_cache` does to the list. -/
def refreshEntries (now : ℕ) (xs : List (Addr × CacheEntry)) : List (Addr × CacheEntry) :=
  ((xs.filter fun x => now < x.2.expireTime).take cacheSizeMax).map fun x => (x.1, x.2.age now)

section Lists

variable {cache : RrCache} {xs ys : List (Addr × CacheEntry)} {x : Addr × CacheEntry}
  {heap : Heap CacheData} {prev : Option Addr} {fuel : ℕ}

@[simp] theorem addrs_nodesOf (xs : List (Addr × CacheEntry)) : addrs (nodesOf xs) = addrs xs := by
  rw [addrs, nodesOf, List.map_map]
  rfl

theorem nodesOf_append (xs ys : List (Addr × CacheEntry)) :
    nodesOf (xs ++ ys) = nodesOf xs ++ nodesOf ys := List.map_append

theorem CacheRep.length_le (h : CacheRep cache xs) : xs.length ≤ cache.brk := by
  have hsub : cache.dummy :: addrs xs ⊆ List.range cache.brk := fun a ha =>
    List.mem_range.2 (h.bound a ha)
  have hlen := (h.nodup.subperm hsub).length_le
  rw [List.length_range, List.length_cons, addrs, List.length_map] at hlen
  omega

theorem CacheRep.dummy_eq (h : CacheRep cache xs) :
    ∃ now, cache.heap cache.dummy = some ⟨headPtr (nodesOf xs) none, none, ⟨none, now⟩⟩ ∧
      Linked cache.heap (some cache.dummy) (nodesOf xs) none := by
  obtain ⟨now, hd, hl⟩ := h.linked
  exact ⟨now, hd, hl⟩

theorem nodesOf_injective : Function.Injective nodesOf := by
  refine List.map_injective_iff.2 ?_
  rintro ⟨a, e⟩ ⟨b, f⟩ h
  cases e
  cases f
  cases h
  rfl

/-- A cache holds one list only. -/
theorem CacheRep.unique (hx : CacheRep cache xs) (hy : CacheRep cache ys) : xs = ys := by
  obtain ⟨t, hd, hl⟩ := hx.dummy_eq
  obtain ⟨t', hd', hl'⟩ := hy.dummy_eq
  rw [hd, Option.some.injEq, Node.mk.injEq] at hd'
  exact nodesOf_injective (hl.unique hl' hd'.1)

theorem initCache_rep (now : ℕ) : CacheRep (initCache now) [] where
  linked := ⟨now, rfl, trivial⟩
  nodup := List.nodup_singleton _
  bound a ha := by
    rw [List.mem_singleton.1 ha]
    exact Nat.zero_lt_one
  size := rfl

end Lists

/-! Lookups. -/

section Find

variable {cache : RrCache} {xs : List (Addr × CacheEntry)} {heap : Heap CacheData}
  {prev : Option Addr} {fuel : ℕ}

theorem cacheFindLoop_eq (hl : Linked heap prev (nodesOf xs) none) (hfuel : xs.length ≤ fuel)
    (domain : List UInt8) (type rrclass : UInt16) :
    cacheFindLoop heap domain type rrclass fuel (headPtr (nodesOf xs) none) =
      some (((xs.map fun x => x.2.rr).filter (cacheFinds domain type rrclass)).map rrCopy) := by
  induction xs generalizing prev fuel with
  | nil => cases fuel <;> rfl
  | cons x xs ih =>
    obtain ⟨hx, hxs⟩ := hl
    rw [List.length_cons] at hfuel
    obtain ⟨n, rfl⟩ : ∃ n, fuel = n + 1 := ⟨fuel - 1, by omega⟩
    have hrest := ih hxs (Nat.le_of_succ_le_succ hfuel)
    change cacheFindLoop heap domain type rrclass (n + 1) (some x.1) = _
    change heap x.1 = some ⟨headPtr (nodesOf xs) none, prev, x.2.data⟩ at hx
    simp only [cacheFindLoop, hx, CacheEntry.data, Option.bind_eq_bind, Option.bind_some, hrest,
      List.map_cons, List.filter_cons]
    split <;> rfl

/-- `cache_find_rr` copies the matching records out, in the order of the list. -/
theorem CacheRep.find (h : CacheRep cache xs) (domain : List UInt8) (type rrclass : UInt16) :
    cacheFindRr cache domain type rrclass =
      some (((xs.map fun x => x.2.rr).filter (cacheFinds domain type rrclass)).map rrCopy) := by
  obtain ⟨now, hd, hl⟩ := h.dummy_eq
  rw [cacheFindRr, hd]
  exact cacheFindLoop_eq hl h.length_le domain type rrclass

theorem cacheMatchLoop_eq (hl : Linked heap prev (nodesOf xs) none) (hfuel : xs.length ≤ fuel)
    (rr : ResourceRecord) :
    cacheMatchLoop heap rr fuel (headPtr (nodesOf xs) none) =
      some ((xs.find? fun x => rrCmp x.2.rr rr).map Prod.fst) := by
  induction xs generalizing prev fuel with
  | nil => cases fuel <;> rfl
  | cons x xs ih =>
    obtain ⟨hx, hxs⟩ := hl
    rw [List.length_cons] at hfuel
    obtain ⟨n, rfl⟩ : ∃ n, fuel = n + 1 := ⟨fuel - 1, by omega⟩
    have hrest := ih hxs (Nat.le_of_succ_le_succ hfuel)
    change cacheMatchLoop heap rr (n + 1) (some x.1) = _
    change heap x.1 = some ⟨headPtr (nodesOf xs) none, prev, x.2.data⟩ at hx
    simp only [cacheMatchLoop, hx, CacheEntry.data, Option.bind_eq_bind, Option.bind_some, hrest,
      List.find?_cons]
    cases rrCmp x.2.rr rr <;> rfl

theorem CacheRep.match (h : CacheRep cache xs) (rr : ResourceRecord) :
    cacheMatchLn cache rr = some ((xs.find? fun x => rrCmp x.2.rr rr).map Prod.fst) := by
  obtain ⟨now, hd, hl⟩ := h.dummy_eq
  rw [cacheMatchLn, hd]
  exact cacheMatchLoop_eq hl h.length_le rr

end Find

/-! Putting a record. -/

section Put

variable {cache : RrCache} {xs : List (Addr × CacheEntry)}

/-- The list after a put, by cases. -/
theorem putEntry_cases (now : ℕ) (rr : ResourceRecord) (brk : Addr)
    (xs : List (Addr × CacheEntry)) :
    (∃ pre x post, xs = pre ++ x :: post ∧ rrCmp x.2.rr rr = true ∧
      (∀ y ∈ pre, rrCmp y.2.rr rr = false) ∧ putEntry now rr brk xs = x :: (pre ++ post)) ∨
    ((∀ y ∈ xs, rrCmp y.2.rr rr = false) ∧
      putEntry now rr brk xs = (brk, ⟨rrCopy rr, now + rr.ttl.toNat⟩) :: xs) := by
  cases hfind : xs.find? fun x => rrCmp x.2.rr rr with
  | none =>
    right
    refine ⟨fun y hy => ?_, by rw [putEntry, hfind]⟩
    exact Bool.eq_false_iff.2 (List.find?_eq_none.1 hfind y hy)
  | some x =>
    left
    obtain ⟨hx, pre, post, rfl, hpre⟩ := List.find?_eq_some_iff_append.1 hfind
    have hno : ∀ y ∈ pre, rrCmp y.2.rr rr = false := fun y hy => by simpa using hpre y hy
    refine ⟨pre, x, post, rfl, hx, hno, ?_⟩
    have herase : (pre ++ x :: post).eraseP (fun x => rrCmp x.2.rr rr) = pre ++ post := by
      rw [List.eraseP_append_right _ fun y hy => Bool.eq_false_iff.1 (hno y hy)]
      exact congrArg (pre ++ ·) (List.eraseP_cons_of_pos hx)
    rw [putEntry, hfind, herase]

theorem CacheRep.nodup_nodes (h : CacheRep cache xs) (data : CacheData) :
    (addrs ((cache.dummy, data) :: nodesOf xs)).Nodup := by
  change (cache.dummy :: addrs (nodesOf xs)).Nodup
  rw [addrs_nodesOf]
  exact h.nodup

theorem addrs_perm {ys : List (Addr × CacheEntry)} (h : xs.Perm ys) : (addrs xs).Perm (addrs ys) :=
  h.map Prod.fst

/-- A record that is cached: its node is moved to the front. -/
theorem CacheRep.put_hit {pre post : List (Addr × CacheEntry)} {x : Addr × CacheEntry}
    {rr : ResourceRecord} (h : CacheRep cache (pre ++ x :: post)) (hx : rrCmp x.2.rr rr = true)
    (hpre : ∀ y ∈ pre, rrCmp y.2.rr rr = false) (now : ℕ) :
    ∃ cache', cachePutRr now cache rr = some cache' ∧ CacheRep cache' (x :: (pre ++ post)) := by
  have hmatch := h.match rr
  obtain ⟨t, hl⟩ := h.linked
  have hn := h.nodup_nodes ⟨none, t⟩
  have hfind : (pre ++ x :: post).find? (fun x => rrCmp x.2.rr rr) = some x :=
    List.find?_eq_some_iff_append.2 ⟨hx, pre, post, rfl, fun y hy => by simp [hpre y hy]⟩
  have hperm : (x :: (pre ++ post)).Perm (pre ++ x :: post) := List.perm_middle.symm
  have haddrs : (cache.dummy :: addrs (x :: (pre ++ post))).Perm
      (cache.dummy :: addrs (pre ++ x :: post)) := (addrs_perm hperm).cons _
  rw [nodesOf_append] at hl hn
  obtain ⟨heap, hmove, hl'⟩ : ∃ heap, moveFront cache.heap cache.dummy x.1 = some heap ∧
      Linked heap none (_ :: nodeOf x :: (nodesOf pre ++ nodesOf post)) none :=
    moveFront_spec hl hn
  refine ⟨{ cache with heap := heap }, ?_, ⟨t, ?_⟩, haddrs.nodup_iff.2 h.nodup, ?_, ?_⟩
  · rw [cachePutRr, hmatch, hfind]
    change (moveFront cache.heap cache.dummy x.1).bind _ = _
    rw [hmove]
    rfl
  · change Linked heap none (_ :: nodeOf x :: nodesOf (pre ++ post)) none
    rw [nodesOf_append]
    exact hl'
  · intro a ha
    exact h.bound a (haddrs.mem_iff.1 ha)
  · rw [hperm.length_eq]
    exact h.size

/-- Any other record: a new node at the front. -/
theorem CacheRep.put_miss {rr : ResourceRecord} (h : CacheRep cache xs)
    (hno : ∀ y ∈ xs, rrCmp y.2.rr rr = false) (now : ℕ) :
    ∃ cache', cachePutRr now cache rr = some cache' ∧
      CacheRep cache' ((cache.brk, ⟨rrCopy rr, now + rr.ttl.toNat⟩) :: xs) := by
  have hmatch := h.match rr
  obtain ⟨t, hl⟩ := h.linked
  have hfind : xs.find? (fun x => rrCmp x.2.rr rr) = none :=
    List.find?_eq_none.2 fun y hy => Bool.eq_false_iff.1 (hno y hy)
  have hfresh : cache.brk ∉ cache.dummy :: addrs xs := fun hm =>
    Nat.lt_irrefl _ (h.bound _ hm)
  have hfresh' : cache.brk ∉ addrs ((cache.dummy, ⟨none, t⟩) :: nodesOf xs) := by
    change cache.brk ∉ cache.dummy :: addrs (nodesOf xs)
    rwa [addrs_nodesOf]
  obtain ⟨heap, hlink, hl'⟩ : ∃ heap, linkFront (alloc cache.heap cache.brk
        (createCacheNode now (headPtr (nodesOf xs) none) (some cache.dummy) (some rr)))
        cache.dummy cache.brk = some heap ∧
      Linked heap none ((cache.dummy, ⟨none, t⟩) ::
        nodeOf (cache.brk, ⟨rrCopy rr, now + rr.ttl.toNat⟩) :: nodesOf xs) none :=
    linkFront_alloc_spec (y := nodeOf (cache.brk, ⟨rrCopy rr, now + rr.ttl.toNat⟩)) hl
      (h.nodup_nodes _) hfresh'
  refine ⟨{ cache with heap := heap, brk := cache.brk + 1, size := cache.size + 1 }, ?_,
    ⟨t, hl'⟩, ?_, ?_, ?_⟩
  · rw [cachePutRr, hmatch, hfind]
    change (cache.heap cache.dummy).bind _ = _
    rw [hl.1, Option.bind_some]
    change (linkFront (alloc cache.heap cache.brk (createCacheNode now (headPtr (nodesOf xs) none)
      (some cache.dummy) (some rr))) cache.dummy cache.brk).bind _ = _
    rw [hlink]
    rfl
  · have hperm : (cache.dummy :: cache.brk :: addrs xs).Perm
        (cache.brk :: cache.dummy :: addrs xs) := List.Perm.swap _ _ _
    exact hperm.nodup_iff.2 (List.nodup_cons.2 ⟨hfresh, h.nodup⟩)
  · intro a ha
    rcases List.mem_cons.1 ha with rfl | ha
    · exact Nat.lt_succ_of_lt (h.bound _ List.mem_cons_self)
    · rcases List.mem_cons.1 ha with rfl | ha
      · exact Nat.lt_succ_self _
      · exact Nat.lt_succ_of_lt (h.bound a (List.mem_cons_of_mem _ ha))
  · rw [h.size, List.length_cons, UInt32.ofNat_add]
    rfl

/-- `cache_put_rr` comes back, and does to the list what `putEntry` says. -/
theorem CacheRep.put (h : CacheRep cache xs) (now : ℕ) (rr : ResourceRecord) :
    ∃ cache', cachePutRr now cache rr = some cache' ∧
      CacheRep cache' (putEntry now rr cache.brk xs) := by
  rcases putEntry_cases now rr cache.brk xs with
    ⟨pre, x, post, rfl, hx, hpre, hput⟩ | ⟨hno, hput⟩
  · rw [hput]
    exact h.put_hit hx hpre now
  · rw [hput]
    exact h.put_miss hno now

end Put

/-! A pass of `refresh_cache`. -/

section Refresh

variable {cache : RrCache} {heap : Heap CacheData} {s : Addr × CacheData}
  {pre xs : List (Addr × CacheEntry)} {x : Addr × CacheEntry} {fuel m : ℕ}

theorem ofNat_succ_sub_one (n : ℕ) : UInt32.ofNat (n + 1) - 1 = UInt32.ofNat n := by
  rw [UInt32.ofNat_add]
  exact UInt32.add_sub_cancel _ _

/-- The inner loop leaves the nodes in front of the ones it drops, ended by NULL. -/
theorem truncateLoop_spec {q : Option Addr} (hpre : Linked heap none (s :: nodesOf pre) q)
    (hxs : Linked heap (lastPtr none (s :: nodesOf pre)) (nodesOf xs) none)
    (hend : xs = [] → q = none) (hn : (addrs (s :: nodesOf pre ++ nodesOf xs)).Nodup)
    (hfuel : xs.length ≤ fuel) :
    ∃ heap', truncateLoop fuel heap (UInt32.ofNat (m + xs.length)) (headPtr (nodesOf xs) none) =
      some (heap', UInt32.ofNat m) ∧ Linked heap' none (s :: nodesOf pre) none := by
  induction xs generalizing heap fuel q with
  | nil =>
    rw [hend rfl] at hpre
    cases fuel <;> exact ⟨heap, rfl, hpre⟩
  | cons x xs ih =>
    rw [List.length_cons] at hfuel
    obtain ⟨n, rfl⟩ : ∃ n, fuel = n + 1 := ⟨fuel - 1, by omega⟩
    have hn' := hn
    rw [addrs_append] at hn'
    obtain ⟨hx, hrest⟩ := hxs
    change heap x.1 = some ⟨headPtr (nodesOf xs) none, _, x.2.data⟩ at hx
    obtain ⟨hnrest, hxfresh⟩ : (addrs (s :: nodesOf pre ++ nodesOf xs)).Nodup ∧
      x.1 ∉ addrs (s :: nodesOf pre ++ nodesOf xs) := nodup_middle hn
    obtain ⟨l, heap₁, hlast, hset, hpre₁, hframe₁⟩ :=
      hpre.setNext_last hn'.of_append_left none
    rw [hlast] at hx ih
    have hrest₁ : Linked heap₁ (some x.1) (nodesOf xs) none :=
      hrest.frame fun a ha => hframe₁ a fun hb => addrs_disjoint hnrest hb ha
    obtain ⟨heap₂, hset₂, hrest₂, hframe₂⟩ :=
      hrest₁.setLastIf_head (List.Nodup.of_cons hn'.of_append_right) (some l)
    have hfree : ∀ a ∈ addrs (s :: nodesOf pre ++ nodesOf xs), free heap₂ x.1 a = heap₂ a := by
      intro a ha
      refine Function.update_of_ne ?_ _ _
      rintro rfl
      exact hxfresh ha
    have hpre₂ : Linked (free heap₂ x.1) none (s :: nodesOf pre) none := by
      refine hpre₁.frame fun a ha => ?_
      rw [hfree a (by rw [addrs_append]; exact List.mem_append_left _ ha)]
      exact hframe₂ a fun hb => addrs_disjoint hnrest ha hb
    have hrest₃ : Linked (free heap₂ x.1) (some l) (nodesOf xs) none :=
      hrest₂.frame fun a ha => hfree a (by rw [addrs_append]; exact List.mem_append_right _ ha)
    obtain ⟨heap', hloop, hl'⟩ := ih hpre₂ hrest₃ (fun _ => rfl) hnrest
      (Nat.le_of_succ_le_succ hfuel)
    refine ⟨heap', ?_, hl'⟩
    change truncateLoop (n + 1) heap _ (some x.1) = _
    simp only [truncateLoop, hx, CacheEntry.data, Option.bind_eq_bind, Option.bind_some, hset,
      hset₂]
    rw [List.length_cons, ← Nat.add_assoc, ofNat_succ_sub_one, hloop]

/-- The second loop of `refresh_cache`, from inside a list that is linked up. -/
theorem truncateLoop_linked (hl : Linked heap none (s :: nodesOf pre ++ nodesOf xs) none)
    (hn : (addrs (s :: nodesOf pre ++ nodesOf xs)).Nodup) (hfuel : xs.length ≤ fuel) :
    ∃ heap', truncateLoop fuel heap (UInt32.ofNat (m + xs.length)) (headPtr (nodesOf xs) none) =
      some (heap', UInt32.ofNat m) ∧ Linked heap' none (s :: nodesOf pre) none := by
  obtain ⟨hpre, hxs⟩ := linked_append.1 hl
  apply truncateLoop_spec hpre hxs _ hn hfuel
  rintro rfl
  rfl

/-- The nodes a pass keeps. -/
def live (now : ℕ) (x : Addr × CacheEntry) : Bool := now < x.2.expireTime

def ageNode (now : ℕ) (x : Addr × CacheEntry) : Addr × CacheEntry := (x.1, x.2.age now)

theorem refreshEntries_eq (now : ℕ) (xs : List (Addr × CacheEntry)) :
    refreshEntries now xs = ((xs.filter (live now)).take cacheSizeMax).map (ageNode now) := rfl

/-- An expired node is taken out of the chain. -/
theorem refreshNode_expired {now cnt : ℕ} {size : UInt32}
    (hl : Linked heap none (s :: nodesOf pre ++ nodesOf (x :: xs)) none)
    (hn : (addrs (s :: nodesOf pre ++ nodesOf (x :: xs))).Nodup) (hx : live now x = false) :
    ∃ heap', refreshNode now heap size cnt x.1 = some (heap', size - 1, cnt) ∧
      Linked heap' none (s :: nodesOf pre ++ nodesOf xs) none := by
  obtain ⟨heap₁, hunlink, hl₁, -⟩ : ∃ h', unlink heap x.1 = some h' ∧
      Linked h' none (s :: nodesOf pre ++ nodesOf xs) none ∧
        ∀ a, a ∉ addrs (s :: nodesOf pre ++ nodesOf xs) → h' a = heap a := unlink_spec hl hn
  obtain ⟨-, hnode, -⟩ := linked_append.1 hl
  change heap x.1 = some ⟨_, _, x.2.data⟩ at hnode
  have hxfresh : x.1 ∉ addrs (s :: nodesOf pre ++ nodesOf xs) := (nodup_middle hn).2
  have hexpired : x.2.expireTime ≤ now := by simpa [live] using hx
  refine ⟨free heap₁ x.1, ?_, hl₁.frame fun a ha => Function.update_of_ne ?_ _ _⟩
  · simp only [refreshNode, hnode, CacheEntry.data, Option.bind_eq_bind, Option.bind_some,
      if_pos hexpired, hunlink]
  · rintro rfl
    exact hxfresh ha

/-- A node that is kept gets its `ttl` set. -/
theorem refreshNode_live {now cnt : ℕ} {size : UInt32}
    (hl : Linked heap none (s :: nodesOf pre ++ nodesOf (x :: xs)) none)
    (hn : (addrs (s :: nodesOf pre ++ nodesOf (x :: xs))).Nodup) (hx : live now x = true) :
    ∃ heap', refreshNode now heap size cnt x.1 = some (heap', size, cnt + 1) ∧
      Linked heap' none (s :: nodesOf (pre ++ [ageNode now x]) ++ nodesOf xs) none := by
  obtain ⟨hpre, hnode, hxs⟩ := linked_append.1 hl
  change heap x.1 = some ⟨headPtr (nodesOf xs) none, _, x.2.data⟩ at hnode
  have hxfresh : x.1 ∉ addrs (s :: nodesOf pre ++ nodesOf xs) := (nodup_middle hn).2
  rw [addrs_append, List.mem_append, not_or] at hxfresh
  have hlive : ¬x.2.expireTime ≤ now := by simpa [live] using hx
  have hframe : ∀ n a, a ≠ x.1 → Function.update heap x.1 n a = heap a := fun n a ha =>
    Function.update_of_ne ha _ _
  refine ⟨Function.update heap x.1
    (some ⟨headPtr (nodesOf xs) none, lastPtr none (s :: nodesOf pre), (x.2.age now).data⟩),
    ?_, ?_⟩
  · simp only [refreshNode, hnode, CacheEntry.data, Option.bind_eq_bind, Option.bind_some,
      if_neg hlive, modifyAt, Option.map_some]
    rfl
  · have hsplit : s :: nodesOf (pre ++ [ageNode now x]) ++ nodesOf xs =
        s :: nodesOf pre ++ nodeOf (ageNode now x) :: nodesOf xs := by
      rw [nodesOf_append]
      simp [nodesOf]
    rw [hsplit]
    refine linked_append.2 ⟨hpre.frame fun a ha => hframe _ a ?_, Function.update_self _ _ _,
      Linked.frame hxs fun a ha => hframe _ a ?_⟩
    · rintro rfl
      exact hxfresh.1 ha
    · rintro rfl
      exact hxfresh.2 ha

theorem addrs_ageNode {now : ℕ} {x : Addr × CacheEntry} :
    addrs (s :: nodesOf (pre ++ [ageNode now x]) ++ nodesOf xs) =
      addrs (s :: nodesOf pre ++ nodesOf (x :: xs)) := by
  simp [addrs, nodesOf, nodeOf, ageNode]

/-- With room for one more node, the next live one is kept. -/
theorem append_take_ageNode {now : ℕ} {x : Addr × CacheEntry} (hcnt : pre.length < cacheSizeMax) :
    pre ++ ((x :: xs).take (cacheSizeMax - pre.length)).map (ageNode now) =
      pre ++ [ageNode now x] ++
        (xs.take (cacheSizeMax - (pre ++ [ageNode now x]).length)).map (ageNode now) := by
  obtain ⟨k, hk⟩ : ∃ k, cacheSizeMax - pre.length = k + 1 :=
    ⟨cacheSizeMax - pre.length - 1, by omega⟩
  have hk' : cacheSizeMax - (pre ++ [ageNode now x]).length = k := by
    rw [List.length_append, List.length_singleton]
    omega
  rw [hk, hk', List.take_succ_cons, List.map_cons, List.append_assoc]
  rfl

/-- The outer loop, from the state where `pre` has been gone through and kept. -/
theorem refreshLoop_spec {now : ℕ} (hl : Linked heap none (s :: nodesOf pre ++ nodesOf xs) none)
    (hn : (addrs (s :: nodesOf pre ++ nodesOf xs)).Nodup) (hcnt : pre.length < cacheSizeMax)
    (hfuel : xs.length ≤ fuel) :
    ∃ heap' ys, refreshLoop now fuel heap (UInt32.ofNat (pre.length + xs.length)) pre.length
        (headPtr (nodesOf xs) none) = some (heap', UInt32.ofNat ys.length) ∧
      ys = pre ++ ((xs.filter (live now)).take (cacheSizeMax - pre.length)).map (ageNode now) ∧
      Linked heap' none (s :: nodesOf ys) none := by
  induction xs generalizing heap pre fuel with
  | nil =>
    refine ⟨heap, pre, ?_, by simp, ?_⟩
    · cases fuel <;> rfl
    · simpa [nodesOf] using hl
  | cons x xs ih =>
    rw [List.length_cons] at hfuel
    obtain ⟨n, rfl⟩ : ∃ n, fuel = n + 1 := ⟨fuel - 1, by omega⟩
    obtain ⟨-, hnode, -⟩ := linked_append.1 hl
    change heap x.1 = some ⟨headPtr (nodesOf xs) none, _, x.2.data⟩ at hnode
    have hnrest : (addrs (s :: nodesOf pre ++ nodesOf xs)).Nodup := (nodup_middle hn).1
    have hfuel' := Nat.le_of_succ_le_succ hfuel
    change ∃ heap' ys, refreshLoop now (n + 1) heap _ _ (some x.1) = _ ∧ _
    simp only [refreshLoop, hnode, Option.bind_eq_bind, Option.bind_some]
    cases hx : live now x with
    | false =>
      obtain ⟨heap₁, hstep, hl₁⟩ : ∃ heap',
          refreshNode now heap (UInt32.ofNat (pre.length + (x :: xs).length)) pre.length x.1 =
            some (heap', UInt32.ofNat (pre.length + (x :: xs).length) - 1, pre.length) ∧
          Linked heap' none (s :: nodesOf pre ++ nodesOf xs) none := refreshNode_expired hl hn hx
      obtain ⟨heap', ys, hloop, hys, hl'⟩ := ih hl₁ hnrest hcnt hfuel'
      refine ⟨heap', ys, ?_, ?_, hl'⟩
      · rw [hstep, List.length_cons, ← Nat.add_assoc, ofNat_succ_sub_one, Option.bind_some,
          if_neg (Nat.ne_of_lt hcnt), hloop]
      · rw [hys, List.filter_cons_of_neg (by rw [hx]; exact Bool.false_ne_true)]
    | true =>
      obtain ⟨heap₁, hstep, hl₁⟩ : ∃ heap',
          refreshNode now heap (UInt32.ofNat (pre.length + (x :: xs).length)) pre.length x.1 =
            some (heap', UInt32.ofNat (pre.length + (x :: xs).length), pre.length + 1) ∧
          Linked heap' none (s :: nodesOf (pre ++ [ageNode now x]) ++ nodesOf xs) none :=
        refreshNode_live hl hn hx
      have hlen : (pre ++ [ageNode now x]).length = pre.length + 1 := List.length_append
      have hn₁ : (addrs (s :: nodesOf (pre ++ [ageNode now x]) ++ nodesOf xs)).Nodup := by
        rw [addrs_ageNode]
        exact hn
      have hsize : pre.length + (x :: xs).length = pre.length + 1 + xs.length := by
        rw [List.length_cons]
        omega
      have hfilter : (x :: xs).filter (live now) = x :: xs.filter (live now) :=
        List.filter_cons_of_pos hx
      simp only [hstep, Option.bind_some]
      rw [hsize, hfilter]
      split
      · next hfull =>
        -- this was the last node there is room for
        obtain ⟨heap', hloop, hl'⟩ := truncateLoop_linked hl₁ hn₁ hfuel'
        refine ⟨heap', pre ++ [ageNode now x], ?_, ?_, hl'⟩
        · rw [hloop, hlen]
        · rw [← hfull, Nat.add_sub_cancel_left]
          rfl
      · next hroom =>
        rw [← hlen] at hroom ⊢
        obtain ⟨heap', ys, hloop, hys, hl'⟩ := ih hl₁ hn₁ (by omega) hfuel'
        refine ⟨heap', ys, hloop, ?_, hl'⟩
        rw [hys, append_take_ageNode hcnt]

/-- A pass of `refresh_cache` comes to an end, and does to the list what `refreshEntries` says. -/
theorem CacheRep.refresh (h : CacheRep cache xs) (now : ℕ) :
    ∃ cache', refreshCache now cache = some cache' ∧ CacheRep cache' (refreshEntries now xs) := by
  obtain ⟨t, hl⟩ := h.linked
  have hn : (addrs ((cache.dummy, (⟨none, t⟩ : CacheData)) :: nodesOf [] ++ nodesOf xs)).Nodup :=
    h.nodup_nodes _
  obtain ⟨heap, ys, hloop, hys, hl'⟩ : ∃ heap' ys, refreshLoop now cache.brk cache.heap
      (UInt32.ofNat (0 + xs.length)) 0 (headPtr (nodesOf xs) none) =
        some (heap', UInt32.ofNat ys.length) ∧ ys = [] ++ refreshEntries now xs ∧
      Linked heap' none ((cache.dummy, ⟨none, t⟩) :: nodesOf ys) none :=
    refreshLoop_spec hl hn (by decide) h.length_le
  rw [List.nil_append] at hys
  rw [Nat.zero_add, ← h.size] at hloop
  have haddrs : (cache.dummy :: addrs ys).Sublist (cache.dummy :: addrs xs) := by
    have hage : addrs ys = addrs ((xs.filter (live now)).take cacheSizeMax) := by
      rw [hys, refreshEntries_eq, addrs, addrs, List.map_map]
      rfl
    rw [hage]
    exact (((List.take_sublist _ _).trans List.filter_sublist).map _).cons_cons _
  refine ⟨{ cache with heap := heap, size := UInt32.ofNat ys.length }, ?_, ?_⟩
  · rw [refreshCache, hl.1]
    change (refreshLoop now cache.brk cache.heap cache.size 0
      (headPtr (nodesOf xs) none)).bind _ = _
    rw [hloop]
    rfl
  · rw [← hys]
    exact ⟨⟨t, hl'⟩, h.nodup.sublist haddrs, fun a ha => h.bound a (haddrs.subset ha), rfl⟩

end Refresh

/-! Where the entries of a cache come from. -/

section Entries

variable {cache cache' : RrCache} {xs : List (Addr × CacheEntry)} {now : ℕ} {rr : ResourceRecord}

/-- After `cache_put_rr`: the old entries, and a new one only if none of them matched. -/
theorem CacheRep.put_mem (h : CacheRep cache xs) (hput : cachePutRr now cache rr = some cache') :
    ∃ ys, CacheRep cache' ys ∧ ∀ y ∈ ys, y ∈ xs ∨
      y.2 = ⟨rrCopy rr, now + rr.ttl.toNat⟩ ∧ ∀ x ∈ xs, rrCmp x.2.rr rr = false := by
  obtain ⟨c, hput', hrep⟩ := h.put now rr
  cases hput.symm.trans hput'
  refine ⟨_, hrep, fun y hy => ?_⟩
  rcases putEntry_cases now rr cache.brk xs with ⟨pre, x, post, rfl, -, -, heq⟩ | ⟨hno, heq⟩
  · rw [heq] at hy
    exact .inl (List.perm_middle.symm.mem_iff.1 hy)
  · rw [heq] at hy
    rcases List.mem_cons.1 hy with rfl | hy
    · exact .inr ⟨rfl, hno⟩
    · exact .inl hy

/-- After a pass: old entries that have time left. -/
theorem CacheRep.refresh_mem (h : CacheRep cache xs)
    (hcache : refreshCache now cache = some cache') :
    ∃ ys, CacheRep cache' ys ∧
      ∀ y ∈ ys, ∃ x ∈ xs, now < x.2.expireTime ∧ y.2 = x.2.age now := by
  obtain ⟨c, hcache', hrep⟩ := h.refresh now
  cases hcache.symm.trans hcache'
  refine ⟨_, hrep, fun y hy => ?_⟩
  obtain ⟨x, hx, rfl⟩ := List.mem_map.1 hy
  obtain ⟨hmem, hlive⟩ := List.mem_filter.1 (List.mem_of_mem_take hx)
  exact ⟨x, hmem, of_decide_eq_true hlive, rfl⟩

end Entries

end BakaDns
