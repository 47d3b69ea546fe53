import BakaDns.ResolvThreads

/-!
# Expiry under interleaving

A hit copies records out and puts them back in separate critical sections. A pass of the refresh
thread in between can remove an expired node, and the put then makes a new one with the old TTL.
-/

namespace BakaDns
open CBytes LinkedHeap Threads

/-- A record without its TTL, as the cache keeps it. -/
def withoutTtl (rr : ResourceRecord) : ResourceRecord := { rrCopy rr with ttl := 0 }

/-- The record came in from the external server. -/
def Event.receives (rr : ResourceRecord) : Event → Bool
  | .stored _ r => withoutTtl r == withoutTtl rr
  | _ => false

/-- A record that was received only once is gone after every pass that runs more than its TTL
later. -/
def Shared.ExpiresInTime (s : Shared) : Prop :=
  ∀ rr received now, s.log.filter (Event.receives rr) = [.stored received rr] →
    Event.refreshed now ∈ s.log → received + rr.ttl.toNat + 1 ≤ now →
    ∃ xs, CacheRep s.cache xs ∧ ∀ x ∈ xs, withoutTtl x.2.rr ≠ withoutTtl rr

/-- The entry was made when its record came in, and no pass has gone past its end. -/
def Timely (log : List Event) (e : CacheEntry) : Prop :=
  (∃ received rr, Event.stored received rr ∈ log ∧ withoutTtl e.rr = withoutTtl rr ∧
    e.expireTime = received + rr.ttl.toNat) ∧
  ∀ now, Event.refreshed now ∈ log → now ≤ e.expireTime

/-- The invariant of runs without late put-backs and without overlong names. -/
structure Shared.Timely (s : Shared) : Prop where
  entries : ∃ xs, CacheRep s.cache xs ∧ ∀ x ∈ xs, BakaDns.Timely s.log x.2
  past : ∀ now, Event.refreshed now ∈ s.log → now ≤ s.now
  shallow : s.shallow = []
  stale : s.stale = []

section Steps

variable {s s' : Shared} {log : List Event} {e : CacheEntry} {rr : ResourceRecord}

/-- Events other than passes do not touch what is known of an entry. -/
theorem Timely.cons (h : BakaDns.Timely log e) {event : Event}
    (hevent : ∀ now, event ≠ .refreshed now) : BakaDns.Timely (event :: log) e := by
  obtain ⟨⟨received, r, hmem, hrr, hexpire⟩, hpast⟩ := h
  refine ⟨⟨received, r, List.mem_cons_of_mem _ hmem, hrr, hexpire⟩, fun t ht => ?_⟩
  rcases List.mem_cons.1 ht with ht | ht
  · exact absurd ht.symm (hevent t)
  · exact hpast t ht

theorem past_cons {n : ℕ} (h : ∀ now, Event.refreshed now ∈ log → now ≤ n) {event : Event}
    (hevent : ∀ now, event ≠ .refreshed now) :
    ∀ now, Event.refreshed now ∈ event :: log → now ≤ n := by
  intro t ht
  rcases List.mem_cons.1 ht with ht | ht
  · exact absurd ht.symm (hevent t)
  · exact h t ht

/-- An entry that a pass keeps. -/
theorem Timely.refreshed {now : ℕ} (h : BakaDns.Timely log e) (hkept : now < e.expireTime) :
    BakaDns.Timely (.refreshed now :: log) (e.age now) := by
  obtain ⟨⟨received, r, hmem, hrr, hexpire⟩, hpast⟩ := h
  refine ⟨⟨received, r, List.mem_cons_of_mem _ hmem, ?_, hexpire⟩, fun t ht => ?_⟩
  · rw [← hrr, withoutTtl, CacheEntry.age, rrCopy_setTtl, withoutTtl]
  · rcases List.mem_cons.1 ht with ht | ht
    · cases ht
      exact Nat.le_of_lt hkept
    · exact hpast t ht

theorem withoutTtl_rrCopy (rr : ResourceRecord) : withoutTtl (rrCopy rr) = withoutTtl rr := by
  rw [withoutTtl, rrCopy_rrCopy, withoutTtl]

/-- Putting back a record that is cached changes the order only. -/
theorem Shared.Timely.putBack (h : s.Timely) (hhit : cacheMatchLn s.cache rr ≠ some none)
    {cache : RrCache} (hput : cachePutRr s.now s.cache rr = some cache) :
    Shared.Timely { s with cache := cache } := by
  obtain ⟨xs, hrep, hxs⟩ := h.entries
  obtain ⟨ys, hrep', hys⟩ := hrep.put_mem hput
  refine ⟨⟨ys, hrep', fun x hx => ?_⟩, h.past, h.shallow, h.stale⟩
  rcases hys x hx with hx | ⟨-, hno⟩
  · exact hxs x hx
  · have hnone : xs.find? (fun x => rrCmp x.2.rr rr) = none := by
      rw [List.find?_eq_none]
      intro y hy
      rw [hno y hy]
      exact Bool.false_ne_true
    rw [hrep.match, hnone] at hhit
    exact absurd rfl hhit

/-- Storing a record makes an entry that ends with the record's TTL, or none. -/
theorem Shared.Timely.store (h : s.Timely) (i : ℕ) (hname : domainLen rr.name ≠ none)
    {cache : RrCache} (hput : cachePutRr s.now s.cache rr = some cache) :
    (s.store i rr cache).Timely := by
  obtain ⟨xs, hrep, hxs⟩ := h.entries
  obtain ⟨ys, hrep', hys⟩ := hrep.put_mem hput
  have hshallow : (s.store i rr cache).shallow = [] :=
    (Shared.shallow_store i hname cache).trans h.shallow
  have hevent : ∀ now, Event.stored s.now rr ≠ .refreshed now := fun _ h => by cases h
  have hpast := past_cons h.past hevent
  refine ⟨⟨ys, hrep', fun x hx => ?_⟩, hpast, hshallow, h.stale⟩
  rcases hys x hx with hx | ⟨heq, -⟩
  · exact (hxs x hx).cons hevent
  · rw [heq]
    refine ⟨⟨s.now, rr, List.mem_cons_self, withoutTtl_rrCopy rr, rfl⟩, fun t ht => ?_⟩
    exact (hpast t ht).trans (Nat.le_add_right _ _)

theorem Shared.Timely.receive (h : s.Timely) (x : Exchange) :
    Shared.Timely { s with log := .received x :: s.log } := by
  obtain ⟨xs, hrep, hxs⟩ := h.entries
  have hevent : ∀ now, Event.received x ≠ .refreshed now := fun _ h => by cases h
  exact ⟨⟨xs, hrep, fun y hy => (hxs y hy).cons hevent⟩, past_cons h.past hevent, h.shallow,
    h.stale⟩

theorem Shared.Timely.release (h : s.Timely) (i : ℕ) : (s.release i).Timely := by
  rw [Shared.release_eq_self h.shallow]
  exact h

theorem Shared.Timely.refresh (h : s.Timely) {cache : RrCache}
    (hcache : refreshCache s.now s.cache = some cache) :
    Shared.Timely { s with cache := cache, log := .refreshed s.now :: s.log } := by
  obtain ⟨xs, hrep, hxs⟩ := h.entries
  obtain ⟨ys, hrep', hys⟩ := hrep.refresh_mem hcache
  refine ⟨⟨ys, hrep', fun y hy => ?_⟩, fun t ht => ?_, h.shallow, h.stale⟩
  · obtain ⟨x, hx, hkept, heq⟩ := hys y hy
    rw [heq]
    exact (hxs x hx).refreshed hkept
  · rcases List.mem_cons.1 ht with ht | ht
    · cases ht
      exact Nat.le_refl _
    · exact h.past t ht

/-- Every operation of a thread, under the two conditions. -/
theorem Shared.Timely.exec (h : s.Timely) {i : ℕ} {op : CacheOp} {r : op.Res}
    (hback : op.BackIsCached s.cache) (hname : op.NameIsGood)
    (hexec : BakaDns.exec i op s = .ok (r, s')) : s'.Timely := by
  cases executed_of_exec hexec with
  | found hfind => exact h
  | put hput => exact h.putBack hback hput
  | received x => exact h.receive x
  | stored hput => exact h.store i hname hput
  | kept sendbuf p => exact h
  | released sendbuf p => exact h.release i

end Steps

/-- The condition that rules out both ways in which a record can outlive its TTL. -/
def InTime (w : World) (a : Action) : Prop := PutsBackCached w a ∧ StoresGoodNames w a

instance (w : World) (a : Action) : Decidable (InTime w a) := inferInstanceAs (Decidable (_ ∧ _))

theorem timely_initial (now : ℕ) : (World.initial now).shared.Timely where
  entries := ⟨[], initCache_rep now, fun x hx => by cases hx⟩
  past t ht := by cases ht
  shallow := rfl
  stale := rfl

theorem timely_step {db : BucketTree} {w w' : World} {a : Action} (h : w.shared.Timely)
    (hok : InTime w a) (hstep : Stepped db w a w') : w'.shared.Timely := by
  cases hstep with
  | spawn i fuel x sendbuf query hi => exact h
  | perform i op k r shared hi hexec =>
    have hop : op ∈ w.opOf (.perform i) := World.opOf_perform hi
    exact h.exec (hok.1 op hop) (hok.2 op hop) hexec
  | tick now hle => exact ⟨h.entries, fun t ht => (h.past t ht).trans hle, h.shallow, h.stale⟩
  | refresh cache hcache => exact h.refresh hcache
  | reuse a name rdata heap ha hheap =>
    rw [h.stale] at ha
    cases ha

theorem Shared.Timely.expiresInTime {s : Shared} (h : s.Timely) : s.ExpiresInTime := by
  intro rr received now honce hpass hlate
  obtain ⟨xs, hrep, hxs⟩ := h.entries
  refine ⟨xs, hrep, fun x hx hsame => ?_⟩
  obtain ⟨⟨t, r, hmem, hr, hexpire⟩, hpast⟩ := hxs x hx
  have hfilter : Event.stored t r ∈ s.log.filter (Event.receives rr) := by
    apply List.mem_filter.2
    refine ⟨hmem, ?_⟩
    rw [Event.receives, beq_iff_eq, ← hr, hsame]
  rw [honce] at hfilter
  cases List.mem_singleton.1 hfilter
  have hle := hpast now hpass
  omega

/-- In every interleaving of any number of threads in which a copy is put back only while the cache
still has a node for it, and overlong names do not come in, no record outlives its TTL. -/
theorem run_expiresInTime {db : BucketTree} {w : World} (hrun : Run db InTime w) :
    w.shared.ExpiresInTime := by
  have htimely : w.shared.Timely :=
    hrun.invariant timely_initial fun _ _ _ h hok hstep => timely_step h hok hstep
  exact htimely.expiresInTime

/-- An address for `a` with a TTL of one second, and the reply that brings it. -/
def shortRecord : ResourceRecord := ⟨[1, 97, 0], rrtypeA, rrclassIn, 1, 4, [10, 9, 9, 9]⟩

def shortReply : Exchange where
  newId := 7
  outcome := .datagram [0, 7, 0x81, 0x80, 0, 0, 0, 1, 0, 0, 0, 0,
    1, 97, 0, 0, 1, 0, 1, 0, 0, 0, 1, 0, 4, 10, 9, 9, 9]

/-- A thread that asks for `a`. -/
def askShort (i : ℕ) : Action :=
  .spawn i 64 shortReply (fun _ => 0) (queryOf [⟨[1, 97, 0], rrtypeA, rrclassIn⟩])

/-- Thread 0 asks upstream and caches the reply; thread 1 finds it. -/
def shortSchedule : List Action :=
  [askShort 0, .perform 0, .perform 0, .perform 0, .perform 0, askShort 1, .perform 1]

/-- Put back before the pass: the node goes with the second pass. -/
theorem run_expiresInTime_short :
    ∃ w, Run (treeInit rrHash) InTime w ∧
      w.shared.log = [.refreshed 5, .refreshed 1, .stored 0 shortRecord, .received shortReply] ∧
      w.shared.ExpiresInTime := by
  have hplay : (play (treeInit rrHash) InTime
      (shortSchedule ++ [.perform 1, .tick 1, .refresh, .tick 5, .refresh])
      (World.initial 0)).map (fun w => w.shared.log) =
      some [.refreshed 5, .refreshed 1, .stored 0 shortRecord, .received shortReply] := by
    decide +kernel
  obtain ⟨w, hw, hlog⟩ := Option.map_eq_some_iff.1 hplay
  have hrun := (Run.start 0).play hw
  exact ⟨w, hrun, hlog, run_expiresInTime hrun⟩

/-- Put back after the pass that removed the node: five seconds after a record with a TTL of one
second came in, a pass leaves it in the cache. -/
theorem latePutBack_outlives :
    ∃ w, Run (treeInit rrHash) (fun _ _ => True) w ∧
      w.shared.log = [.refreshed 5, .refreshed 1, .stored 0 shortRecord, .received shortReply] ∧
      cacheFindRr w.shared.cache [1, 97, 0] rrtypeA rrclassIn = some [shortRecord] ∧
      ¬w.shared.ExpiresInTime := by
  have hplay : (play (treeInit rrHash) (fun _ _ => True)
      (shortSchedule ++ [.tick 1, .refresh, .tick 5, .perform 1, .refresh])
      (World.initial 0)).map
        (fun w => (w.shared.log, cacheFindRr w.shared.cache [1, 97, 0] rrtypeA rrclassIn)) =
      some ([.refreshed 5, .refreshed 1, .stored 0 shortRecord, .received shortReply],
        some [shortRecord]) := by
    decide +kernel
  obtain ⟨w, hw, hresult⟩ := Option.map_eq_some_iff.1 hplay
  obtain ⟨hlog, hfind⟩ := Prod.mk.inj hresult
  refine ⟨w, (Run.start 0).play hw, hlog, hfind, fun hexpires => ?_⟩
  obtain ⟨xs, hrep, hgone⟩ := hexpires shortRecord 0 5 (by rw [hlog]; decide)
    (by rw [hlog]; exact List.mem_cons_self) (by decide)
  rw [hrep.find, Option.some.injEq] at hfind
  have hmem : shortRecord ∈ ((xs.map fun x => x.2.rr).filter
      (cacheFinds [1, 97, 0] rrtypeA rrclassIn)).map rrCopy := by
    rw [hfind]
    exact List.mem_singleton_self _
  obtain ⟨e, he, hcopy⟩ := List.mem_map.1 hmem
  obtain ⟨x, hx, rfl⟩ := List.mem_map.1 (List.mem_of_mem_filter he)
  apply hgone x hx
  rw [← hcopy, withoutTtl_rrCopy]

end BakaDns
