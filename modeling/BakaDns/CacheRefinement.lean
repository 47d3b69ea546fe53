import BakaDns.CacheIntegrity
import BakaDns.Lib.TimedMap

/-!
# The cache as a table

The list of nodes that the threads push around holds a table with deadlines: the first record stored
for a key stays, with the deadline it came with, until a pass finds it over. In a run in which no
copy is put back late and no pass has to cut the list, the log of stores and passes says what any
lookup finds.
-/

namespace BakaDns
open CBytes LinkedHeap Threads

/-- The table that stores and passes make, latest event first. -/
def replay : List Event → TimedMap RrKey ResourceRecord
  | [] => TimedMap.empty
  | .received _ :: log => replay log
  | .stored now rr :: log => (replay log).put (rrKey rr) (withoutTtl rr) (now + rr.ttl.toNat)
  | .refreshed now :: log => (replay log).expire now

def entryKey (x : Addr × CacheEntry) : RrKey := rrKey x.2.rr

/-- The record of an entry without its TTL, which passes count down, and its deadline. -/
def entryValue (x : Addr × CacheEntry) : ResourceRecord × ℕ := (withoutTtl x.2.rr, x.2.expireTime)

/-- The cache holds the table of the log. -/
structure Shared.Refines (s : Shared) : Prop where
  entries : ∃ xs, CacheRep s.cache xs ∧ EntriesOk xs ∧
    (replay s.log).HeldBy entryKey entryValue xs
  shallow : s.shallow = []
  stale : s.stale = []

/-- A pass finds no more live records than the cache may hold. -/
def Shared.HasRoom (s : Shared) : Prop :=
  ∀ xs, CacheRep s.cache xs → (xs.filter (live s.now)).length ≤ cacheSizeMax

/-- The condition on a run: copies are put back while they are cached, good names are stored, and
passes have room. -/
def KeepsTable (s : ServerState) (a : ServerAction) : Prop :=
  (∀ op ∈ s.opOf a, op.BackIsCached s.shared.cache ∧ op.NameIsGood) ∧
    (a = .environment .refresh → s.shared.HasRoom)

section Steps

variable {s s' : Shared} {xs : List (Addr × CacheEntry)} {m : TimedMap RrKey ResourceRecord}
  {rr : ResourceRecord} {cache : RrCache}

theorem inMemory_of_goodName (h : domainLen rr.name ≠ none) : rr.InMemory := by
  obtain ⟨n, hn⟩ := Option.ne_none_iff_exists'.1 h
  have hshort := domainLen_eq_some.1 hn
  unfold ResourceRecord.InMemory
  omega

/-- A put of a record that is cached changes the order only. -/
theorem Shared.Refines.putBack (h : s.Refines) (hhit : cacheMatchLn s.cache rr ≠ some none)
    (hput : cachePutRr s.now s.cache rr = some cache) :
    Shared.Refines { s with cache := cache } := by
  obtain ⟨xs, hrep, hok, hheld⟩ := h.entries
  obtain ⟨cache', hput', hrep'⟩ := hrep.put s.now rr
  cases hput.symm.trans hput'
  rcases putEntry_cases s.now rr s.cache.brk xs with ⟨pre, x, post, rfl, -, -, heq⟩ | ⟨hno, -⟩
  · rw [heq] at hrep'
    have hperm : (x :: (pre ++ post)).Perm (pre ++ x :: post) := List.perm_middle.symm
    exact ⟨⟨_, hrep', hok.perm hperm, hheld.perm hperm⟩, h.shallow, h.stale⟩
  · have hnone : xs.find? (fun x => rrCmp x.2.rr rr) = none := by
      rw [List.find?_eq_none]
      intro y hy
      rw [hno y hy]
      exact Bool.false_ne_true
    rw [hrep.match, hnone] at hhit
    exact absurd rfl hhit

/-- A record from the external server. -/
theorem Shared.Refines.store (h : s.Refines) (i : ℕ) (hname : domainLen rr.name ≠ none)
    (hput : cachePutRr s.now s.cache rr = some cache) : (s.store i rr cache).Refines := by
  obtain ⟨xs, hrep, hok, hheld⟩ := h.entries
  obtain ⟨cache', hput', hrep'⟩ := hrep.put s.now rr
  cases hput.symm.trans hput'
  have hmemory := inMemory_of_goodName hname
  refine ⟨⟨_, hrep', hok.putEntry hmemory s.now s.cache.brk, ?_⟩,
    (Shared.shallow_store i hname cache).trans h.shallow, h.stale⟩
  change ((replay s.log).put (rrKey rr) (withoutTtl rr) (s.now + rr.ttl.toNat)).HeldBy _ _ _
  rcases putEntry_cases s.now rr s.cache.brk xs with ⟨pre, x, post, rfl, hx, -, heq⟩ | ⟨hno, heq⟩
  · have hmem : x ∈ pre ++ x :: post := List.mem_append_right _ List.mem_cons_self
    have hkey : rrKey rr = entryKey x := ((rrCmp_iff (hok.inMemory x hmem)).1 hx).symm
    rw [heq, hkey]
    exact (hheld.put_old hmem _ _).perm List.perm_middle.symm
  · have hkey : entryKey (s.cache.brk, ⟨rrCopy rr, s.now + rr.ttl.toNat⟩) = rrKey rr :=
      rrKey_rrCopy rr
    rw [heq, ← hkey]
    refine hheld.put_new (fun y hy hsame => ?_) ?_
    · have hcmp := (rrCmp_iff (hok.inMemory y hy)).2 (hsame.trans hkey)
      rw [hno y hy] at hcmp
      cases hcmp
    · exact congrArg (fun r => (r, s.now + rr.ttl.toNat)) (withoutTtl_rrCopy rr)

theorem withoutTtl_setTtl (rr : ResourceRecord) (ttl : UInt32) :
    withoutTtl { rr with ttl := ttl } = withoutTtl rr := by
  rw [withoutTtl, rrCopy_setTtl, withoutTtl]

/-- A pass with room. -/
theorem Shared.Refines.refresh (h : s.Refines) (hroom : s.HasRoom)
    (hcache : refreshCache s.now s.cache = some cache) :
    Shared.Refines { s with cache := cache, log := .refreshed s.now :: s.log } := by
  obtain ⟨xs, hrep, hok, hheld⟩ := h.entries
  obtain ⟨cache', hrefresh, hrep'⟩ := hrep.refresh s.now
  cases hrefresh.symm.trans hcache
  refine ⟨⟨_, hrep', hok.refreshEntries s.now, ?_⟩, h.shallow, h.stale⟩
  rw [refreshEntries_eq, List.take_of_length_le (hroom xs hrep)]
  exact hheld.expire s.now (fun x => rfl) fun x => congrArg (·, x.2.expireTime) (withoutTtl_setTtl _ _)

/-- Every operation of a worker. -/
theorem Shared.Refines.exec (h : s.Refines) {i : ℕ} {op : CacheOp} {r : op.Res}
    (hback : op.BackIsCached s.cache) (hname : op.NameIsGood)
    (hexec : BakaDns.exec i op s = .ok (r, s')) : s'.Refines := by
  cases executed_of_exec hexec with
  | found hfind => exact h
  | put hput => exact h.putBack hback hput
  | received x => exact ⟨h.entries, h.shallow, h.stale⟩
  | stored hput => exact h.store i hname hput
  | kept sendbuf p => exact h
  | released sendbuf p =>
    rw [Shared.release_eq_self h.shallow]
    exact h

theorem refines_initial (now : ℕ) : (ServerState.initial now).shared.Refines where
  entries := by
    have hok : EntriesOk [] := ⟨fun _ hx => (List.not_mem_nil hx).elim, List.nodup_nil⟩
    exact ⟨[], initCache_rep now, hok, TimedMap.heldBy_empty⟩
  shallow := rfl
  stale := rfl

/-- The clock, the refresh thread and the allocator. -/
theorem Shared.Refines.environment {db : BucketTree} {a : Action} {w : World} (h : s.Refines)
    (hroom : a = .refresh → s.HasRoom) (ha : step db ⟨s, fun _ => .ret ()⟩ a = some w) :
    w.shared.Refines := by
  have hstep := stepped_of_step ha
  clear ha
  cases hstep with
  | spawn i fuel x sendbuf query hi => exact h
  | perform i op k r shared hi hexec => cases hi
  | tick now hle => exact ⟨h.entries, h.shallow, h.stale⟩
  | refresh cache hcache => exact h.refresh (hroom rfl) hcache
  | reuse a name rdata heap ha hheap =>
    change a ∈ s.stale at ha
    rw [h.stale] at ha
    cases ha

/-- What a lookup finds in a cache that holds the table. -/
theorem Shared.Refines.find (h : s.Refines) (domain : List UInt8) (type rrclass : UInt16) :
    ∃ found, cacheFindRr s.cache domain type rrclass = some found ∧ ∀ value,
      value ∈ found.map withoutTtl ↔ ∃ k deadline, replay s.log k = some (value, deadline) ∧
        k.name = cstr domain ∧ k.type = type ∧ k.rrclass = rrclass := by
  obtain ⟨xs, hrep, hok, hheld⟩ := h.entries
  refine ⟨_, hrep.find domain type rrclass, fun value => ?_⟩
  constructor
  · intro hvalue
    obtain ⟨copy, hcopy, rfl⟩ := List.mem_map.1 hvalue
    obtain ⟨e, he, rfl⟩ := List.mem_map.1 hcopy
    obtain ⟨hmem, hfinds⟩ := List.mem_filter.1 he
    obtain ⟨x, hx, rfl⟩ := List.mem_map.1 hmem
    obtain ⟨htype, hclass, hname⟩ := (cacheFinds_iff (hok.inMemory x hx) _ _ _).1 hfinds
    refine ⟨entryKey x, x.2.expireTime, ?_, hname, htype, hclass⟩
    rw [hheld.eq_some hx, withoutTtl_rrCopy]
    rfl
  · rintro ⟨k, deadline, htable, hname, htype, hclass⟩
    obtain ⟨x, hx, rfl, hvalue⟩ := (hheld _ _).1 htable
    have hfinds : cacheFinds domain type rrclass x.2.rr = true :=
      (cacheFinds_iff (hok.inMemory x hx) _ _ _).2 ⟨htype, hclass, hname⟩
    have hmem := List.mem_filter.2 ⟨List.mem_map_of_mem (f := fun x => x.2.rr) hx, hfinds⟩
    rw [← (Prod.mk.inj hvalue).1, ← withoutTtl_rrCopy]
    exact List.mem_map_of_mem (List.mem_map_of_mem hmem)

end Steps

theorem ServerRun.refines {db : BucketTree} {s : ServerState} (hrun : ServerRun db KeepsTable s) :
    s.shared.Refines := by
  apply hrun.sharedInvariant refines_initial
  · intro s i op r shared hok hop h hexec
    obtain ⟨hback, hname⟩ := hok.1 op hop
    exact h.exec hback hname hexec
  · intro s a w hok h ha
    exact h.environment (fun hrefresh => hok.2 (hrefresh ▸ rfl)) ha

/-- However the threads take turns, a lookup finds what the table of all stores and passes so far
has for its name, type and class. -/
theorem serverRun_findsTable {db : BucketTree} {s : ServerState} (hrun : ServerRun db KeepsTable s)
    (domain : List UInt8) (type rrclass : UInt16) :
    ∃ found, cacheFindRr s.shared.cache domain type rrclass = some found ∧ ∀ value,
      value ∈ found.map withoutTtl ↔ ∃ k deadline, replay s.shared.log k = some (value, deadline) ∧
        k.name = cstr domain ∧ k.type = type ∧ k.rrclass = rrclass :=
  hrun.refines.find domain type rrclass

def keepsTable (s : ServerState) (a : ServerAction) : Bool :=
  decide ((∀ op ∈ s.opOf a, op.BackIsCached s.shared.cache ∧ op.NameIsGood) ∧
    s.shared.cache.brk ≤ cacheSizeMax)

theorem keepsTable_of_check {s : ServerState} {a : ServerAction} (h : keepsTable s a = true) :
    KeepsTable s a := by
  obtain ⟨hops, hfew⟩ := of_decide_eq_true h
  exact ⟨hops, fun _ xs hrep => (List.length_filter_le _ _).trans (hrep.length_le.trans hfew)⟩

theorem serverRun_findsTable_short : ∃ s, ServerRun (treeInit rrHash) KeepsTable s ∧
    s.shared.log = [.refreshed 0, .stored 0 shortRecord, .received shortReply] ∧
      ∃ found, cacheFindRr s.shared.cache [1, 97, 0] rrtypeA rrclassIn = some found ∧
        withoutTtl shortRecord ∈ found.map withoutTtl := by
  have hplay : (shortPlan.foldlM (fun (s : ServerState) a => if keepsTable s a then
      serverStep (treeInit rrHash) s a else none) (ServerState.initial 0)).map
        (fun (s : ServerState) => s.shared.log) =
      some [.refreshed 0, .stored 0 shortRecord, .received shortReply] := by decide +kernel
  obtain ⟨s, hs, hlog⟩ := Option.map_eq_some_iff.1 hplay
  have hrun : ServerRun (treeInit rrHash) KeepsTable s :=
    (ServerRun.start 0).playChecked keepsTable (fun _ _ => keepsTable_of_check) hs
  obtain ⟨found, hfind, htable⟩ := serverRun_findsTable hrun [1, 97, 0] rrtypeA rrclassIn
  refine ⟨s, hrun, hlog, found, hfind, (htable _).2 ⟨rrKey shortRecord, 1, ?_, rfl, rfl, rfl⟩⟩
  rw [hlog]
  decide +kernel

end BakaDns
