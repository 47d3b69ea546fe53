import BakaDns.Expiry
import BakaDns.ServerThreads

/-!
# The list behind the cache

Workers, the refresh thread and whoever gets the blocks that were freed too early all write to the
nodes of the cache. None of them breaks the list: its nodes stay distinct and point to one another,
so that no lookup, put or pass ever follows a pointer to nothing. While no overlong name is stored,
the records own their blocks too, and a pass that frees them is the first to do so.
-/

namespace BakaDns
open LinkedHeap Threads

/-- The cache is a list of entries. -/
def Shared.Chained (s : Shared) : Prop := ∃ xs, CacheRep s.cache xs

variable {db : BucketTree} {s s' : Shared} {cache : RrCache} {xs : List (Addr × CacheEntry)}

/-! Somebody else's bytes in the blocks of a record. -/

def CacheEntry.rewrite (name rdata : List UInt8) (e : CacheEntry) : CacheEntry :=
  { e with rr := { e.rr with name := name, rdata := rdata } }

def CacheData.rewrite (name rdata : List UInt8) (d : CacheData) : CacheData :=
  { d with element := d.element.map fun e => { e with name := name, rdata := rdata } }

theorem nodesOf_rewrite (a : Addr) (name rdata : List UInt8) (xs : List (Addr × CacheEntry)) :
    nodesOf (withVal a (CacheEntry.rewrite name rdata) xs) =
      withVal a (CacheData.rewrite name rdata) (nodesOf xs) := by
  simp only [nodesOf, withVal, List.map_map]
  refine List.map_congr_left fun x _ => ?_
  by_cases ha : x.1 = a
  · simp [nodeOf, ha, CacheEntry.data, CacheEntry.rewrite, CacheData.rewrite]
  · simp [nodeOf, ha]

theorem CacheRep.rewrite (h : CacheRep cache xs) {a : Addr} {name rdata : List UInt8}
    {heap : Heap CacheData} (hheap : rewriteBlocks cache.heap a name rdata = some heap) :
    CacheRep { cache with heap := heap } (withVal a (CacheEntry.rewrite name rdata) xs) := by
  obtain ⟨now, hl⟩ := h.linked
  refine ⟨⟨now, ?_⟩, ?_, ?_, ?_⟩
  · rw [nodesOf_rewrite]
    have hlinked := hl.modifyVal (f := CacheData.rewrite name rdata) hheap
    have hdummy : (if cache.dummy = a then CacheData.rewrite name rdata ⟨none, now⟩
        else (⟨none, now⟩ : CacheData)) = ⟨none, now⟩ := ite_self _
    rwa [withVal, List.map_cons, hdummy] at hlinked
  · rw [addrs_withVal]
    exact h.nodup
  · rw [addrs_withVal]
    exact h.bound
  · rw [withVal, List.length_map]
    exact h.size

/-! Every step. -/

theorem Shared.Chained.put (h : s.Chained) {rr : ResourceRecord}
    (hput : cachePutRr s.now s.cache rr = some cache) : ∃ xs, CacheRep cache xs := by
  obtain ⟨xs, hrep⟩ := h
  obtain ⟨cache', hput', hrep'⟩ := hrep.put s.now rr
  cases hput.symm.trans hput'
  exact ⟨_, hrep'⟩

theorem Shared.Chained.exec (h : s.Chained) {i : ℕ} {op : CacheOp} {r : op.Res}
    (hexec : BakaDns.exec i op s = .ok (r, s')) : s'.Chained := by
  cases executed_of_exec hexec with
  | found hfind => exact h
  | put hput => exact h.put hput
  | received x => exact h
  | stored hput => exact h.put hput
  | kept sendbuf p => exact h
  | released sendbuf p => exact h

theorem Shared.Chained.environment {a : Action} {w : World} (h : s.Chained)
    (ha : step db ⟨s, fun _ => .ret ()⟩ a = some w) : w.shared.Chained := by
  obtain ⟨xs, hrep⟩ := h
  have hstep := stepped_of_step ha
  clear ha
  cases hstep with
  | spawn i fuel x sendbuf query hi => exact ⟨xs, hrep⟩
  | perform i op k r shared hi hexec => cases hi
  | tick now hle => exact ⟨xs, hrep⟩
  | refresh cache hcache =>
    obtain ⟨cache', hcache', hrep'⟩ := hrep.refresh s.now
    cases hcache'.symm.trans hcache
    exact ⟨_, hrep'⟩
  | reuse a name rdata heap ha hheap => exact ⟨_, hrep.rewrite hheap⟩

theorem chained_initial (now : ℕ) : (ServerState.initial now).shared.Chained :=
  ⟨[], initCache_rep now⟩

/-! What the operations return. -/

/-- The operation tells the thread that performs it nothing. -/
def CacheOp.IsBlind : CacheOp → Prop
  | .find _ _ _ => False
  | _ => True

/-- What the operations of a call return when the cache finds nothing. -/
def emptyResult : (op : CacheOp) → op.Res
  | .find _ _ _ => ([] : List ResourceRecord)
  | .putBack _ | .receive _ | .store _ | .finish _ _ => ()

theorem CacheOp.IsBlind.eq_empty {op : CacheOp} (h : op.IsBlind) (r : op.Res) :
    r = emptyResult op := by
  cases op with
  | find domain type rrclass => cases h
  | putBack rr | receive x | store rr | finish sendbuf p => rfl

/-- An operation that went well for one thread would go well for another, in any other state. -/
theorem exec_blind {i j : ℕ} {op : CacheOp} {r : op.Res} {t t' : Shared} (hblind : op.IsBlind)
    (hexec : BakaDns.exec i op t = .ok (r, t')) (h : s.Chained) :
    ∃ s', BakaDns.exec j op s = .ok (emptyResult op, s') ∧ s'.Chained := by
  have hok : ∃ s', BakaDns.exec j op s = .ok (emptyResult op, s') := by
    cases op with
    | find domain type rrclass => cases hblind
    | receive x => exact ⟨_, rfl⟩
    | putBack rr | store rr =>
      obtain ⟨xs, hrep⟩ := h
      obtain ⟨cache, hput, -⟩ := hrep.put s.now rr
      simp only [BakaDns.exec, hput, orCrash, bind, Except.bind]
      exact ⟨_, rfl⟩
    | finish sendbuf p =>
      obtain ⟨ans, hans, hexec⟩ := bind_eq_ok.1 hexec
      obtain ⟨⟨msgsize, mem⟩, hencoded, -⟩ := bind_eq_ok.1 hexec
      rw [completeAnswer_built p t.cache s.cache] at hans
      simp only [BakaDns.exec, hans, hencoded, bind, Except.bind]
      exact ⟨_, rfl⟩
  obtain ⟨s', hs'⟩ := hok
  exact ⟨s', hs', h.exec hs'⟩

/-- It does not matter which thread performs an operation. -/
theorem exec_other {i j : ℕ} {op : CacheOp} {r : op.Res} (hexec : BakaDns.exec i op s = .ok (r, s'))
    (h : s.Chained) : ∃ s'', BakaDns.exec j op s = .ok (r, s'') ∧ s''.Chained := by
  by_cases hblind : op.IsBlind
  · rw [hblind.eq_empty r]
    exact exec_blind hblind hexec h
  · cases op with
    | find domain type rrclass => exact ⟨s', hexec, h.exec hexec⟩
    | putBack | receive | store | finish => exact absurd trivial hblind

/-! While every stored name is good. -/

/-- The step does not store a record with an overlong name. -/
def StoresOwned (s : ServerState) (a : ServerAction) : Prop := ∀ op ∈ s.opOf a, op.NameIsGood

/-- The cache is a list whose records own their blocks: none shares them with a reply, and none has
lost them to the allocator. -/
structure Shared.Owned (s : Shared) : Prop where
  chained : s.Chained
  shallow : s.shallow = []
  stale : s.stale = []

theorem exec_blocks {i : ℕ} {op : CacheOp} {r : op.Res} (hname : op.NameIsGood)
    (hshallow : s.shallow = []) (hexec : BakaDns.exec i op s = .ok (r, s')) :
    s'.shallow = [] ∧ s'.stale = s.stale := by
  cases executed_of_exec hexec with
  | found hfind => exact ⟨hshallow, rfl⟩
  | put hput => exact ⟨hshallow, rfl⟩
  | received x => exact ⟨hshallow, rfl⟩
  | @stored rr cache hput => exact ⟨(Shared.shallow_store i hname cache).trans hshallow, rfl⟩
  | kept sendbuf p => exact ⟨hshallow, rfl⟩
  | released sendbuf p =>
    rw [Shared.release_eq_self hshallow]
    exact ⟨hshallow, rfl⟩

theorem Shared.Owned.exec (h : s.Owned) {i : ℕ} {op : CacheOp} {r : op.Res}
    (hname : op.NameIsGood) (hexec : BakaDns.exec i op s = .ok (r, s')) : s'.Owned := by
  obtain ⟨hshallow, hstale⟩ := exec_blocks hname h.shallow hexec
  exact ⟨h.chained.exec hexec, hshallow, hstale.trans h.stale⟩

/-- Nobody gets a block that a record still uses. -/
theorem Shared.Owned.environment {a : Action} {w : World} (h : s.Owned)
    (ha : step db ⟨s, fun _ => .ret ()⟩ a = some w) : w.shared.Owned := by
  have hchained := h.chained.environment ha
  have hstep := stepped_of_step ha
  clear ha
  cases hstep with
  | spawn i fuel x sendbuf query hi => exact h
  | perform i op k r shared hi hexec => cases hi
  | tick now hle => exact ⟨hchained, h.shallow, h.stale⟩
  | refresh cache hcache => exact ⟨hchained, h.shallow, h.stale⟩
  | reuse a name rdata heap ha hheap =>
    change a ∈ s.stale at ha
    rw [h.stale] at ha
    cases ha

theorem owned_initial (now : ℕ) : (ServerState.initial now).shared.Owned :=
  ⟨chained_initial now, rfl, rfl⟩

/-- However the threads take turns, as long as no overlong name is stored, every record of the cache
owns its blocks and the cache stays a list: a lookup goes through all of it, and every put and every
pass gets to its end. -/
theorem serverRun_chained {s : ServerState} (hrun : ServerRun db StoresOwned s) :
    s.shared.shallow = [] ∧ s.shared.stale = [] ∧ ∃ xs, CacheRep s.shared.cache xs ∧
      (∀ domain type rrclass, cacheFindRr s.shared.cache domain type rrclass =
        some (((xs.map fun x => x.2.rr).filter (cacheFinds domain type rrclass)).map rrCopy)) ∧
      (∀ now rr, ∃ cache, cachePutRr now s.shared.cache rr = some cache ∧
        CacheRep cache (putEntry now rr s.shared.cache.brk xs)) ∧
      ∀ now, ∃ cache, refreshCache now s.shared.cache = some cache ∧
        CacheRep cache (refreshEntries now xs) := by
  have howned : s.shared.Owned :=
    hrun.sharedInvariant owned_initial (fun hok hop h hexec => h.exec (hok _ hop) hexec)
      fun _ h ha => h.environment ha
  obtain ⟨xs, hrep⟩ := howned.chained
  exact ⟨howned.shallow, howned.stale, xs, hrep, hrep.find, hrep.put, hrep.refresh⟩

/-- A request for `a`, whose reply is cached; then a pass. -/
def shortArgs : ResolvArgs := ⟨⟨0x7F000001, 5353⟩, 0, .udp 64 shortReply
  [0, 9, 1, 0, 0, 1, 0, 0, 0, 0, 0, 0, 1, 97, 0, 0, 1, 0, 1] 19⟩

def shortPlan : List ServerAction :=
  [.receive shortArgs, .add .udp ∅, .pull firstWorker, .countOut firstWorker, .perform firstWorker,
    .perform firstWorker, .perform firstWorker, .environment .refresh]

def storesOwned (s : ServerState) (a : ServerAction) : Bool :=
  decide (∀ op ∈ s.opOf a, op.NameIsGood)

theorem serverRun_chained_short : ∃ s, ServerRun (treeInit rrHash) StoresOwned s ∧
    s.shared.shallow = [] ∧ s.shared.stale = [] ∧ ∃ xs, CacheRep s.shared.cache xs ∧
      shortRecord ∈ xs.map (fun x => rrCopy x.2.rr) ∧
      (∀ now rr, ∃ cache, cachePutRr now s.shared.cache rr = some cache ∧
        CacheRep cache (putEntry now rr s.shared.cache.brk xs)) ∧
      ∀ now, ∃ cache, refreshCache now s.shared.cache = some cache ∧
        CacheRep cache (refreshEntries now xs) := by
  have hplay : (shortPlan.foldlM (fun (s : ServerState) a => if storesOwned s a then
      serverStep (treeInit rrHash) s a else none) (ServerState.initial 0)).map
        (fun (s : ServerState) => cacheFindRr s.shared.cache [1, 97, 0] rrtypeA rrclassIn) =
      some (some [shortRecord]) := by decide +kernel
  obtain ⟨s, hs, hcached⟩ := Option.map_eq_some_iff.1 hplay
  have hrun : ServerRun (treeInit rrHash) StoresOwned s :=
    (ServerRun.start 0).playChecked storesOwned (fun _ _ => of_decide_eq_true) hs
  obtain ⟨hshallow, hstale, xs, hrep, hfind, hput, hrefresh⟩ := serverRun_chained hrun
  refine ⟨s, hrun, hshallow, hstale, xs, hrep, ?_, hput, hrefresh⟩
  have hmem : shortRecord ∈ ((xs.map fun x => x.2.rr).filter
      (cacheFinds [1, 97, 0] rrtypeA rrclassIn)).map rrCopy := by
    rw [hfind, Option.some.injEq] at hcached
    rw [hcached]
    exact List.mem_singleton_self _
  obtain ⟨rr, hrr, hcopy⟩ := List.mem_map.1 hmem
  obtain ⟨x, hx, rfl⟩ := List.mem_map.1 (List.mem_filter.1 hrr).1
  exact List.mem_map.2 ⟨x, hx, hcopy⟩

end BakaDns
