import Mathlib.Data.Set.Function
import Surch.Api.DateMath
import Surch.Api.Touched

/-! The search cache: a search looks its body up, runs when it is not there and puts its response in;
a write updates the store and then drops the cached responses of the indices it touched. Any number
of searches and writes may be under way at once, and the days go by. -/
namespace Surch.Api
open Surch.Lib Surch.Index

structure SearchCacheEntry where
  bytes : List UInt8
  directMustFused : Bool
deriving DecidableEq, Repr

structure IndexSearchCache where
  entries : SortedMap Nat SearchCacheEntry
  order : List Nat

def searchCacheCapacity : Nat := 256

namespace IndexSearchCache

def default : IndexSearchCache := ⟨.empty, []⟩

def evict (entries : SortedMap Nat SearchCacheEntry) : List Nat → IndexSearchCache
  | [] => ⟨entries, []⟩
  | oldest :: rest =>
    if entries.entries.length > searchCacheCapacity then evict (entries.erase oldest) rest
    else ⟨entries, oldest :: rest⟩

/- `search_cache_put` on the cache of one index: a known key keeps its place in the queue. -/
def put (cache : IndexSearchCache) (key : Nat) (value : SearchCacheEntry) : IndexSearchCache :=
  let entries := cache.entries.upsert key fun _ => value
  if (cache.entries.get? key).isSome then { cache with entries }
  else evict entries (cache.order ++ [key])

/- The queue lists each cached key once, and there are no more than fit. -/
structure Ordered (cache : IndexSearchCache) : Prop where
  distinct : cache.order.Nodup
  listed : ∀ key, key ∈ cache.order ↔ key ∈ cache.entries.keys
  bounded : cache.entries.entries.length ≤ searchCacheCapacity

theorem default_ordered : default.Ordered where
  distinct := .nil
  listed := by simp [default, SortedMap.empty, SortedMap.keys]
  bounded := Nat.zero_le _

theorem mem_keys_erase (entries : SortedMap Nat SearchCacheEntry) (key x : Nat) :
    x ∈ (entries.erase key).keys ↔ x ≠ key ∧ x ∈ entries.keys := by
  simp only [SortedMap.mem_keys_iff, SortedMap.get?_erase]
  by_cases here : x = key
  · simp [here]
  · simp [here]

/-- The loop keeps the queue in step with the entries and stops under the capacity. -/
theorem evict_ordered (entries : SortedMap Nat SearchCacheEntry) (order : List Nat)
    (distinct : order.Nodup) (listed : ∀ key, key ∈ order ↔ key ∈ entries.keys) :
    (evict entries order).Ordered ∧
      ∀ key value, (evict entries order).entries.get? key = some value →
        entries.get? key = some value := by
  induction order generalizing entries with
  | nil =>
    have none_left : entries.entries = [] := by
      apply List.eq_nil_iff_forall_not_mem.mpr
      intro entry member
      have := (listed entry.1).mpr (List.mem_map.mpr ⟨entry, member, rfl⟩)
      cases this
    exact ⟨⟨.nil, listed, by rw [evict, none_left]; exact Nat.zero_le _⟩, fun _ _ found => found⟩
  | cons oldest rest ih =>
    rw [evict]
    split
    · obtain ⟨apart, distinct'⟩ := List.nodup_cons.mp distinct
      obtain ⟨ordered, kept⟩ := ih (entries.erase oldest) distinct' (by
        intro key
        rw [mem_keys_erase, ← listed, List.mem_cons]
        constructor
        · intro member
          refine ⟨?_, .inr member⟩
          rintro rfl
          exact apart member
        · rintro ⟨other, here | member⟩
          · exact absurd here other
          · exact member)
      refine ⟨ordered, ?_⟩
      intro key value found
      have erased := kept key value found
      rw [SortedMap.get?_erase] at erased
      split at erased
      · cases erased
      · exact erased
    · rename_i fits
      exact ⟨⟨distinct, listed, not_lt.mp fits⟩, fun _ _ found => found⟩

theorem Ordered.enqueue {cache : IndexSearchCache} (ordered : cache.Ordered) {key : Nat}
    (unknown : ¬ (cache.entries.get? key).isSome = true) (value : SearchCacheEntry) :
    (cache.order ++ [key]).Nodup ∧
      ∀ x, x ∈ cache.order ++ [key] ↔ x ∈ (cache.entries.upsert key fun _ => value).keys := by
  have absent : key ∉ cache.order := by
    rw [ordered.listed, SortedMap.mem_keys_iff]
    rintro ⟨old, found⟩
    rw [found] at unknown
    exact unknown rfl
  constructor
  · refine List.nodup_append.mpr ⟨ordered.distinct, List.nodup_singleton _, ?_⟩
    intro x member y here
    rw [List.mem_singleton] at here
    rintro rfl
    exact absent (here ▸ member)
  · intro x
    rw [List.mem_append, List.mem_singleton, SortedMap.mem_keys_upsert, ordered.listed, or_comm]

theorem put_ordered {cache : IndexSearchCache} (ordered : cache.Ordered) (key : Nat)
    (value : SearchCacheEntry) : (cache.put key value).Ordered := by
  unfold put
  split
  · rename_i known
    obtain ⟨old, found⟩ := Option.isSome_iff_exists.mp known
    refine ⟨ordered.distinct, ?_, ?_⟩
    · intro x
      rw [ordered.listed, SortedMap.mem_keys_upsert, or_iff_right_of_imp]
      rintro rfl
      exact (SortedMap.mem_keys_iff ..).mpr ⟨old, found⟩
    · rw [SortedMap.length_upsert_of_get? found]
      exact ordered.bounded
  · rename_i unknown
    obtain ⟨distinct, listed⟩ := ordered.enqueue unknown value
    exact (evict_ordered _ _ distinct listed).1

theorem get?_put {cache : IndexSearchCache} (ordered : cache.Ordered) {key : Nat}
    {value : SearchCacheEntry} {x : Nat} {found : SearchCacheEntry}
    (lookup : (cache.put key value).entries.get? x = some found) :
    (x = key ∧ found = value) ∨ (x ≠ key ∧ cache.entries.get? x = some found) := by
  have upserted : (cache.entries.upsert key fun _ => value).get? x = some found := by
    unfold put at lookup
    split at lookup
    · exact lookup
    · rename_i unknown
      obtain ⟨distinct, listed⟩ := ordered.enqueue unknown value
      exact (evict_ordered _ _ distinct listed).2 x found lookup
  rw [SortedMap.get?_upsert] at upserted
  split at upserted
  · rename_i here
    cases upserted
    exact .inl ⟨here, rfl⟩
  · rename_i other
    exact .inr ⟨other, upserted⟩

end IndexSearchCache

section Interleaving

variable {Digest : Type}

/- A search that found nothing in the cache, and one that has run: its response, and how many writes
had updated the store when it ran. -/
inductive PendingSearch where
  | missed (index body : String)
  | answered (index body : String) (entry : SearchCacheEntry) (seen : Nat)

/- A write that has updated the store: its number, and the indices it has yet to invalidate. -/
structure PendingWrite where
  ticket : Nat
  touched : List String

/- `updates` counts the writes and `purged` is, for each index, the last one that has invalidated its
cache. They are kept for the statement; no operation reads them. -/
structure CacheWorld (Digest : Type) where
  store : MemoryStore Digest
  cache : SortedMap String IndexSearchCache
  searches : List PendingSearch
  writes : List PendingWrite
  updates : Nat
  purged : String → Nat
  today : NaiveDate

/- A search that runs gets the days that its readings of the clock give, in order. -/
inductive CacheEvent where
  | searchCacheGet (index body : String)
  | runSearch (i : Nat) (clock : Nat → NaiveDate)
  | searchCachePut (i : Nat)
  | update (write : Write) (occasions : Occasions)
  | invalidateSearchCache (i : Nat)
  | newDay (today : NaiveDate)

namespace CacheWorld

def start (store : MemoryStore Digest) (today : NaiveDate) : CacheWorld Digest :=
  ⟨store, .empty, [], [], 0, fun _ => 0, today⟩

def steady (world : CacheWorld Digest) : Nat → NaiveDate := fun _ => world.today

def lookup (world : CacheWorld Digest) (index : String) (key : Nat) : Option SearchCacheEntry :=
  (world.cache.get? index).bind fun cache => cache.entries.get? key

variable (env : Environment Digest) (hash : String → Nat)
  (search : (Nat → NaiveDate) → Option (InMemoryIndex Digest) → String → Option SearchCacheEntry)

/- One step of one search or write, or a new day; none is a panic. `search` is what `run_search` makes
of a body on the state of the index, with the days that it reads for `now`; none when the body is
refused. -/
def step (world : CacheWorld Digest) : CacheEvent → Option (CacheWorld Digest)
  | .searchCacheGet index body =>
    match world.lookup index (hash body) with
    | some _ => some world
    | none => some { world with searches := world.searches ++ [.missed index body] }
  | .runSearch i clock =>
    match world.searches[i]? with
    | some (.missed index body) =>
      match search clock (world.store.indices.get? index) body with
      | some entry =>
        some { world with
          searches := world.searches.set i (.answered index body entry world.updates) }
      | none => some { world with searches := world.searches.eraseIdx i }
    | _ => some world
  | .searchCachePut i =>
    match world.searches[i]? with
    | some (.answered index body entry _) =>
      some { world with
        searches := world.searches.eraseIdx i
        cache := world.cache.upsert index fun cache => (cache.getD .default).put (hash body) entry }
    | _ => some world
  | .update write occasions => do
    let (touched, store) ← world.store.update env occasions write
    return { world with
      store
      updates := world.updates + 1
      writes := world.writes ++ [⟨world.updates + 1, touched⟩] }
  | .invalidateSearchCache i =>
    match world.writes[i]? with
    | some ⟨ticket, index :: rest⟩ =>
      some { world with
        cache := world.cache.erase index
        writes := world.writes.set i ⟨ticket, rest⟩
        purged := fun other =>
          if other = index then max (world.purged index) ticket else world.purged other }
    | _ => some world
  | .newDay today => some { world with today }

def run (world : CacheWorld Digest) : List CacheEvent → Option (CacheWorld Digest)
  | [] => some world
  | event :: rest => do
    let next ← world.step env hash search event
    run next rest

def Quiescent (world : CacheWorld Digest) : Prop := ∀ write ∈ world.writes, write.touched = []

/- A write of this index has yet to invalidate its cache. -/
def Awaits (world : CacheWorld Digest) (index : String) : Prop :=
  ∃ write ∈ world.writes, index ∈ write.touched

/- The index has a response to this body in its cache, or on the way there. -/
def Keeps (world : CacheWorld Digest) (index body : String) : Prop :=
  (world.lookup index (hash body)).isSome ∨
    ∃ entry seen, .answered index body entry seen ∈ world.searches

/- No `now` of the body tells the clocks apart. -/
def Dateless (body : String) (clock other : Nat → NaiveDate) : Prop :=
  ∀ data, search clock data body = search other data body

/- No body whose response is kept reads the clock over the change to this day. -/
def DatelessKept (bodies : Set String) (world : CacheWorld Digest) (today : NaiveDate) : Prop :=
  ∀ index, ∀ body ∈ bodies, world.Keeps hash index body →
    Dateless search body world.steady fun _ => today

/- Requests with these bodies; no search puts its response in when a write has updated the store
and invalidated the index since it ran; and no body reads the clock while the day changes, neither
in its run nor with its response kept. -/
def Admitted (bodies : Set String) (world : CacheWorld Digest) : CacheEvent → Prop
  | .searchCacheGet _ body => body ∈ bodies
  | .runSearch i clock => ∀ index body, world.searches[i]? = some (.missed index body) →
    Dateless search body clock world.steady
  | .searchCachePut i => ∀ index body entry seen,
    world.searches[i]? = some (.answered index body entry seen) → world.purged index ≤ seen
  | .newDay today => world.DatelessKept hash search bodies today
  | _ => True

def AdmittedAll (bodies : Set String) (world : CacheWorld Digest) : List CacheEvent → Prop
  | [] => True
  | event :: rest =>
    world.Admitted hash search bodies event ∧
      ∀ next, world.step env hash search event = some next → AdmittedAll bodies next rest

variable {env hash search} {world next : CacheWorld Digest} {bodies : Set String}

def Tidy (world : CacheWorld Digest) : Prop :=
  ∀ index cache, world.cache.get? index = some cache → cache.Ordered

theorem Tidy.getD (tidy : world.Tidy) (index : String) :
    ((world.cache.get? index).getD .default).Ordered := by
  cases found : world.cache.get? index with
  | none => exact IndexSearchCache.default_ordered
  | some cache => exact tidy index cache found

theorem step_tidy (tidy : world.Tidy) {event : CacheEvent}
    (stepped : world.step env hash search event = some next) : next.Tidy := by
  cases event with
  | searchCacheGet index body =>
    simp only [step] at stepped
    split at stepped <;> cases stepped <;> exact tidy
  | runSearch i clock =>
    simp only [step] at stepped
    split at stepped
    · split at stepped <;> cases stepped <;> exact tidy
    · cases stepped
      exact tidy
  | searchCachePut i =>
    simp only [step] at stepped
    split at stepped
    · rename_i index body entry seen _
      cases stepped
      intro other cache found
      rw [SortedMap.get?_upsert] at found
      split at found
      · cases found
        exact IndexSearchCache.put_ordered (tidy.getD index) _ _
      · exact tidy other cache found
    · cases stepped
      exact tidy
  | update write occasions =>
    obtain ⟨⟨touched, store⟩, _, result⟩ := Option.bind_eq_some_iff.mp stepped
    cases result
    exact tidy
  | invalidateSearchCache i =>
    simp only [step] at stepped
    split at stepped
    · cases stepped
      intro other cache found
      rw [SortedMap.get?_erase] at found
      split at found
      · cases found
      · exact tidy other cache found
    · cases stepped
      exact tidy
  | newDay today =>
    cases stepped
    exact tidy

variable (hash search bodies) in
/- Entries are fresh once the index awaits no write; a response waiting to be put in is fresh, or
outdated by a write that has its invalidation ahead or behind it. -/
structure Coherent (world : CacheWorld Digest) : Prop where
  entries : ∀ index body entry, body ∈ bodies → world.lookup index (hash body) = some entry →
    world.Awaits index ∨
      search world.steady (world.store.indices.get? index) body = some entry
  missed : ∀ index body, .missed index body ∈ world.searches → body ∈ bodies
  answered : ∀ index body entry seen, .answered index body entry seen ∈ world.searches →
    body ∈ bodies ∧ seen ≤ world.updates ∧
      (search world.steady (world.store.indices.get? index) body = some entry ∨
        (∃ write ∈ world.writes, seen < write.ticket ∧ index ∈ write.touched) ∨
        seen < world.purged index)

theorem start_coherent (store : MemoryStore Digest) (today : NaiveDate) :
    (start store today).Coherent hash search bodies where
  entries := by simp [lookup, start]
  missed := by simp [start]
  answered := by simp [start]

theorem get_coherent (coherent : world.Coherent hash search bodies) {index body : String}
    (asked : body ∈ bodies)
    (stepped : world.step env hash search (.searchCacheGet index body) = some next) :
    next.Coherent hash search bodies := by
  simp only [step] at stepped
  split at stepped
  · cases stepped
    exact coherent
  · cases stepped
    refine ⟨coherent.entries, ?_, ?_⟩
    · intro index' body' member
      rcases List.mem_append.mp member with member | member
      · exact coherent.missed index' body' member
      · cases List.mem_singleton.mp member
        exact asked
    · intro index' body' entry seen member
      rcases List.mem_append.mp member with member | member
      · exact coherent.answered index' body' entry seen member
      · cases List.mem_singleton.mp member

theorem run_coherent (coherent : world.Coherent hash search bodies) {i : Nat}
    {clock : Nat → NaiveDate}
    (even : world.Admitted hash search bodies (.runSearch i clock))
    (stepped : world.step env hash search (.runSearch i clock) = some next) :
    next.Coherent hash search bodies := by
  simp only [step] at stepped
  split at stepped
  · rename_i index body pending
    have asked := coherent.missed index body (List.mem_of_getElem? pending)
    split at stepped
    · rename_i entry response
      cases stepped
      refine ⟨coherent.entries, ?_, ?_⟩
      · intro index' body' member
        rcases List.mem_or_eq_of_mem_set member with member | here
        · exact coherent.missed index' body' member
        · cases here
      · intro index' body' entry' seen member
        rcases List.mem_or_eq_of_mem_set member with member | here
        · exact coherent.answered index' body' entry' seen member
        · cases here
          exact ⟨asked, le_refl _, .inl ((even _ _ pending _).symm.trans response)⟩
    · cases stepped
      exact ⟨coherent.entries,
        fun index' body' member => coherent.missed index' body' (List.mem_of_mem_eraseIdx member),
        fun index' body' entry seen member =>
          coherent.answered index' body' entry seen (List.mem_of_mem_eraseIdx member)⟩
  · cases stepped
    exact coherent

theorem put_coherent (coherent : world.Coherent hash search bodies) (tidy : world.Tidy)
    (injective : bodies.InjOn hash) {i : Nat}
    (undisturbed : world.Admitted hash search bodies (.searchCachePut i))
    (stepped : world.step env hash search (.searchCachePut i) = some next) :
    next.Coherent hash search bodies := by
  simp only [step] at stepped
  split at stepped
  · rename_i index body entry seen pending
    obtain ⟨asked, _, state⟩ :=
      coherent.answered index body entry seen (List.mem_of_getElem? pending)
    have clean := undisturbed index body entry seen pending
    have fresh : world.Awaits index ∨
        search world.steady (world.store.indices.get? index) body = some entry := by
      rcases state with fresh | ⟨write, member, _, covers⟩ | purged
      · exact .inr fresh
      · exact .inl ⟨write, member, covers⟩
      · omega
    cases stepped
    refine ⟨?_, fun index' body' member =>
      coherent.missed index' body' (List.mem_of_mem_eraseIdx member),
      fun index' body' entry' seen' member =>
        coherent.answered index' body' entry' seen' (List.mem_of_mem_eraseIdx member)⟩
    intro index' body' entry' asked' found
    simp only [lookup, SortedMap.get?_upsert] at found
    by_cases here : index' = index
    · subst here
      rw [if_pos rfl, Option.bind_some] at found
      rcases IndexSearchCache.get?_put (tidy.getD index') found with ⟨same, rfl⟩ | ⟨_, old⟩
      · cases injective asked' asked same
        exact fresh
      · refine coherent.entries index' body' entry' asked' ?_
        rw [lookup]
        cases cached : world.cache.get? index' with
        | none =>
          rw [cached] at old
          simp [IndexSearchCache.default] at old
        | some cache =>
          rw [cached] at old
          exact old
    · rw [if_neg here] at found
      exact coherent.entries index' body' entry' asked' found
  · cases stepped
    exact coherent

theorem update_coherent (coherent : world.Coherent hash search bodies) {write : Write}
    {occasions : Occasions}
    (stepped : world.step env hash search (.update write occasions) = some next) :
    next.Coherent hash search bodies := by
  obtain ⟨⟨touched, store⟩, updated, result⟩ := Option.bind_eq_some_iff.mp stepped
  have same := MemoryStore.update_sameBut updated
  cases result
  refine ⟨?_, coherent.missed, ?_⟩
  · intro index body entry asked found
    by_cases covered : index ∈ touched
    · exact .inl ⟨_, List.mem_append_right _ List.mem_cons_self, covered⟩
    · rcases coherent.entries index body entry asked found with ⟨other, member, covers⟩ | fresh
      · exact .inl ⟨other, List.mem_append_left _ member, covers⟩
      · rw [same index covered]
        exact .inr fresh
  · intro index body entry seen member
    obtain ⟨asked, earlier, state⟩ := coherent.answered index body entry seen member
    refine ⟨asked, Nat.le_succ_of_le earlier, ?_⟩
    by_cases covered : index ∈ touched
    · exact .inr (.inl ⟨_, List.mem_append_right _ List.mem_cons_self, Nat.lt_succ_of_le earlier,
        covered⟩)
    · rw [same index covered]
      rcases state with fresh | ⟨other, member, later, covers⟩ | purged
      · exact .inl fresh
      · exact .inr (.inl ⟨other, List.mem_append_left _ member, later, covers⟩)
      · exact .inr (.inr purged)

theorem invalidate_coherent (coherent : world.Coherent hash search bodies) {i : Nat}
    (stepped : world.step env hash search (.invalidateSearchCache i) = some next) :
    next.Coherent hash search bodies := by
  simp only [step] at stepped
  split at stepped
  · rename_i ticket index rest pending
    cases stepped
    have kept : ∀ write ∈ world.writes, write = ⟨ticket, index :: rest⟩ ∨
        write ∈ world.writes.set i ⟨ticket, rest⟩ := by
      intro write member
      obtain ⟨j, found⟩ := List.mem_iff_getElem?.mp member
      by_cases here : i = j
      · subst here
        rw [pending] at found
        cases found
        exact .inl rfl
      · refine .inr (List.mem_iff_getElem?.mpr ⟨j, ?_⟩)
        rw [List.getElem?_set_ne here]
        exact found
    have changed : ⟨ticket, rest⟩ ∈ world.writes.set i ⟨ticket, rest⟩ := by
      refine List.mem_iff_getElem?.mpr ⟨i, ?_⟩
      rw [List.getElem?_set_self (List.getElem?_eq_some_iff.mp pending).1]
    have covered : ∀ other, other ≠ index → ∀ write ∈ world.writes, other ∈ write.touched →
        ∃ write' ∈ world.writes.set i ⟨ticket, rest⟩, write'.ticket = write.ticket ∧
          other ∈ write'.touched := by
      intro other apart write member covers
      rcases kept write member with rfl | member
      · rcases List.mem_cons.mp covers with here | covers
        · exact absurd here apart
        · exact ⟨_, changed, rfl, covers⟩
      · exact ⟨write, member, rfl, covers⟩
    refine ⟨?_, coherent.missed, ?_⟩
    · intro other body entry asked found
      simp only [lookup, SortedMap.get?_erase] at found
      by_cases here : other = index
      · rw [if_pos here] at found
        cases found
      · rw [if_neg here] at found
        rcases coherent.entries other body entry asked found with ⟨write, member, covers⟩ | fresh
        · obtain ⟨write', member', _, covers'⟩ := covered other here write member covers
          exact .inl ⟨write', member', covers'⟩
        · exact .inr fresh
    · intro other body entry seen member
      obtain ⟨asked, earlier, state⟩ := coherent.answered other body entry seen member
      refine ⟨asked, earlier, ?_⟩
      dsimp only
      rcases state with fresh | ⟨write, member, later, covers⟩ | purged
      · exact .inl fresh
      · rcases kept write member with rfl | member'
        · by_cases here : other = index
          · refine .inr (.inr ?_)
            rw [if_pos here]
            exact lt_max_of_lt_right later
          · obtain ⟨write', member', same, covers'⟩ := covered other here _ member covers
            exact .inr (.inl ⟨write', member', by rw [same]; exact later, covers'⟩)
        · exact .inr (.inl ⟨write, member', later, covers⟩)
      · refine .inr (.inr ?_)
        split
        · rename_i here
          rw [here] at purged
          exact lt_max_of_lt_left purged
        · exact purged
  · cases stepped
    exact coherent

/-- What was fresh on the day before is fresh on a new day when it does not depend on the day. -/
theorem newDay_coherent (coherent : world.Coherent hash search bodies) {today : NaiveDate}
    (dateless : world.Admitted hash search bodies (.newDay today)) :
    ({ world with today } : CacheWorld Digest).Coherent hash search bodies := by
  refine ⟨?_, coherent.missed, ?_⟩
  · intro index body entry asked found
    rcases coherent.entries index body entry asked found with awaits | fresh
    · exact .inl awaits
    · have kept : world.Keeps hash index body := .inl (Option.isSome_of_mem found)
      exact .inr ((dateless index body asked kept _).symm.trans fresh)
  · intro index body entry seen member
    obtain ⟨asked, earlier, state⟩ := coherent.answered index body entry seen member
    refine ⟨asked, earlier, ?_⟩
    rcases state with fresh | later
    · have kept : world.Keeps hash index body := .inr ⟨entry, seen, member⟩
      exact .inl ((dateless index body asked kept _).symm.trans fresh)
    · exact .inr later

theorem step_coherent (coherent : world.Coherent hash search bodies) (tidy : world.Tidy)
    (injective : bodies.InjOn hash) {event : CacheEvent}
    (admitted : world.Admitted hash search bodies event)
    (stepped : world.step env hash search event = some next) : next.Coherent hash search bodies := by
  cases event with
  | searchCacheGet index body => exact get_coherent coherent admitted stepped
  | runSearch i clock => exact run_coherent coherent admitted stepped
  | searchCachePut i => exact put_coherent coherent tidy injective admitted stepped
  | update write occasions => exact update_coherent coherent stepped
  | invalidateSearchCache i => exact invalidate_coherent coherent stepped
  | newDay today =>
    cases stepped
    exact newDay_coherent coherent admitted

theorem run_tidy {events : List CacheEvent} {last : CacheWorld Digest} (tidy : world.Tidy)
    (finished : world.run env hash search events = some last) : last.Tidy := by
  induction events generalizing world with
  | nil =>
    cases finished
    exact tidy
  | cons event rest ih =>
    obtain ⟨next, stepped, later⟩ := Option.bind_eq_some_iff.mp finished
    exact ih (step_tidy tidy stepped) later

theorem runAll_coherent {events : List CacheEvent} {last : CacheWorld Digest}
    (coherent : world.Coherent hash search bodies) (tidy : world.Tidy)
    (injective : bodies.InjOn hash) (admitted : AdmittedAll env hash search bodies world events)
    (finished : world.run env hash search events = some last) :
    last.Coherent hash search bodies := by
  induction events generalizing world with
  | nil =>
    cases finished
    exact coherent
  | cons event rest ih =>
    obtain ⟨next, stepped, later⟩ := Option.bind_eq_some_iff.mp finished
    exact ih (step_coherent coherent tidy injective admitted.1 stepped) (step_tidy tidy stepped)
      (admitted.2 next stepped) later

end CacheWorld

open CacheWorld in
/-- In every run the queue of a cache lists its keys once each and there are at most 256. When no
write does both its steps between the run of a search and its put, no body reads the clock while the
day changes, and the bodies hash apart, the cached responses are those a search would give now,
whenever no write is between its steps. -/
theorem search_cache_coherent (env : Environment Digest) (hash : String → Nat)
    (search : (Nat → NaiveDate) → Option (InMemoryIndex Digest) → String → Option SearchCacheEntry)
    (bodies : Set String) (store : MemoryStore Digest) (today : NaiveDate) (events : List CacheEvent)
    (last : CacheWorld Digest)
    (finished : (start store today).run env hash search events = some last) :
    (∀ index cache, last.cache.get? index = some cache →
      cache.entries.entries.length ≤ 256 ∧ cache.order.Nodup ∧
        ∀ key, key ∈ cache.order ↔ key ∈ cache.entries.keys) ∧
    (bodies.InjOn hash → AdmittedAll env hash search bodies (start store today) events →
      last.Quiescent → ∀ index, ∀ body ∈ bodies, ∀ entry,
        last.lookup index (hash body) = some entry →
          search last.steady (last.store.indices.get? index) body = some entry) := by
  have started : (start store today).Tidy := by
    intro index cache found
    simp [start] at found
  constructor
  · intro index cache found
    have ordered := run_tidy started finished index cache found
    exact ⟨ordered.bounded, ordered.distinct, ordered.listed⟩
  · intro injective admitted quiet index body asked entry found
    have coherent := runAll_coherent (start_coherent store today) started injective admitted finished
    rcases coherent.entries index body entry asked found with ⟨write, member, covers⟩ | fresh
    · rw [quiet write member] at covers
      cases covers
    · exact fresh

end Interleaving

section Sample

def totalOfAll (_ : Nat → NaiveDate) (data : Option (InMemoryIndex (List UInt8))) (_ : String) :
    Option SearchCacheEntry :=
  some ⟨utf8 (toString ((data.map fun data => data.maps.liveCount).getD 0)), false⟩

theorem mayDay_valid {day : Nat} (low : 1 ≤ day) (high : day ≤ 31) :
    Calendar.Date.Valid ⟨2024, 5, day⟩ :=
  ⟨(by decide : 1 ≤ 5), (by decide : 5 ≤ 12), low, high⟩

def mayFirst : NaiveDate where
  date := ⟨2024, 5, 1⟩
  valid := mayDay_valid (by decide) (by decide)
  low := by decide
  high := by decide

def maySecond : NaiveDate where
  date := ⟨2024, 5, 2⟩
  valid := mayDay_valid (by decide) (by decide)
  low := by decide
  high := by decide

def peopleEnvironment : Environment (List UInt8) := sampleEnvironment [.object []]

def bareBody : String := "\x7b\x7d"

def indexPerson (id : String) : CacheEvent :=
  .update (.indexDocument "people" id (.object [])) sampleOccasions

namespace CacheWorld

variable {Digest : Type} {hash : String → Nat} (env : Environment Digest)
  {search : (Nat → NaiveDate) → Option (InMemoryIndex Digest) → String → Option SearchCacheEntry}
  {bodies : Set String} [∀ body, Decidable (body ∈ bodies)]
  [∀ body clock other, Decidable (Dateless search body clock other)]
  [∀ (world : CacheWorld Digest) today, Decidable (world.DatelessKept hash search bodies today)]

instance admittedDecidable (world : CacheWorld Digest) (event : CacheEvent) :
    Decidable (world.Admitted hash search bodies event) :=
  match event with
  | .searchCacheGet _ body => inferInstanceAs (Decidable (body ∈ bodies))
  | .runSearch i clock =>
    match pending : world.searches[i]? with
    | some (.missed _ body) =>
      decidable_of_iff (Dateless search body clock world.steady)
        ⟨fun even _ _ found => by
          rw [pending] at found
          cases found
          exact even, fun all => all _ _ pending⟩
    | some (.answered _ _ _ _) => .isTrue (by simp [Admitted, pending])
    | none => .isTrue (by simp [Admitted, pending])
  | .searchCachePut i =>
    match pending : world.searches[i]? with
    | some (.answered index _ _ seen) =>
      decidable_of_iff (world.purged index ≤ seen)
        ⟨fun low _ _ _ _ found => by
          rw [pending] at found
          cases found
          exact low, fun all => all _ _ _ _ pending⟩
    | some (.missed _ _) => .isTrue (by simp [Admitted, pending])
    | none => .isTrue (by simp [Admitted, pending])
  | .update _ _ => .isTrue trivial
  | .invalidateSearchCache _ => .isTrue trivial
  | .newDay today => inferInstanceAs (Decidable (world.DatelessKept hash search bodies today))

instance admittedAllDecidable : (world : CacheWorld Digest) →
    (events : List CacheEvent) → Decidable (AdmittedAll env hash search bodies world events)
  | _, [] => .isTrue trivial
  | world, event :: rest =>
    have : ∀ next, Decidable (AdmittedAll env hash search bodies next rest) :=
      fun next => admittedAllDecidable next rest
    match stepped : world.step env hash search event with
    | none =>
      decidable_of_iff (world.Admitted hash search bodies event) (by simp [AdmittedAll, stepped])
    | some next =>
      decidable_of_iff
        (world.Admitted hash search bodies event ∧ AdmittedAll env hash search bodies next rest)
        (by simp [AdmittedAll, stepped])

instance datelessTotal (body : String) (clock other : Nat → NaiveDate) :
    Decidable (Dateless totalOfAll body clock other) := .isTrue fun _ => rfl

instance datelessKeptTotal (world : CacheWorld (List UInt8)) (today : NaiveDate) :
    Decidable (world.DatelessKept hash totalOfAll bodies today) := .isTrue fun _ _ _ _ _ => rfl

end CacheWorld

def freshEvents : List CacheEvent :=
  [indexPerson "1", .invalidateSearchCache 0, .searchCacheGet "people" bareBody,
    .runSearch 0 fun _ => mayFirst, .searchCachePut 0, .newDay maySecond]

def staleEvents : List CacheEvent :=
  [indexPerson "1", .invalidateSearchCache 0, .searchCacheGet "people" bareBody,
    .runSearch 0 fun _ => mayFirst, indexPerson "2", .invalidateSearchCache 1, .searchCachePut 0]

open CacheWorld in
theorem search_cache_coherent_before_write :
    ∃ last, (start .empty mayFirst).run peopleEnvironment String.length totalOfAll freshEvents =
        some last ∧
      last.Quiescent ∧ last.lookup "people" 2 = some ⟨utf8 "1", false⟩ ∧
      totalOfAll last.steady (last.store.indices.get? "people") bareBody = some ⟨utf8 "1", false⟩ := by
  have evaluated : ((start .empty mayFirst).run peopleEnvironment String.length totalOfAll
      freshEvents).map (fun last =>
        (last.writes.all fun write => write.touched.isEmpty, last.lookup "people" 2)) =
      some (true, some ⟨utf8 "1", false⟩) := by decide +kernel
  obtain ⟨last, finished, read⟩ := Option.map_eq_some_iff.mp evaluated
  obtain ⟨settled, found⟩ := Prod.mk.injEq .. ▸ read
  have quiet : last.Quiescent := by
    intro write member
    exact List.isEmpty_iff.mp (List.all_eq_true.mp settled write member)
  have coherent := search_cache_coherent peopleEnvironment String.length totalOfAll
    {bareBody} .empty mayFirst freshEvents last finished
  exact ⟨last, finished, quiet, found, coherent.2 (Set.injOn_singleton _ _) (by decide +kernel) quiet
    "people" bareBody rfl _ found⟩

open CacheWorld in
/-- The response from before a write stays in the cache when all is quiet. -/
theorem search_cache_keeps_stale_response :
    ∃ last, (start .empty mayFirst).run peopleEnvironment String.length totalOfAll staleEvents =
        some last ∧
      last.Quiescent ∧ last.lookup "people" (String.length bareBody) = some ⟨utf8 "1", false⟩ ∧
      totalOfAll last.steady (last.store.indices.get? "people") bareBody = some ⟨utf8 "2", false⟩ := by
  have evaluated : ((start .empty mayFirst).run peopleEnvironment String.length totalOfAll
      staleEvents).map (fun last =>
        (last.writes.all fun write => write.touched.isEmpty, last.lookup "people" 2,
        totalOfAll last.steady (last.store.indices.get? "people") bareBody)) =
      some (true, some ⟨utf8 "1", false⟩, some ⟨utf8 "2", false⟩) := by decide +kernel
  obtain ⟨last, finished, read⟩ := Option.map_eq_some_iff.mp evaluated
  rw [Prod.mk.injEq, Prod.mk.injEq] at read
  obtain ⟨settled, found, now⟩ := read
  refine ⟨last, finished, ?_, found, now⟩
  intro write member
  exact List.isEmpty_iff.mp (List.all_eq_true.mp settled write member)

-- A response that compares with `now` is kept over midnight.
example : ((CacheWorld.start .empty mayFirst).run peopleEnvironment String.length
    (fun clock _ _ => some ⟨utf8 (toString (clock 0).date.day), false⟩)
    [.searchCacheGet "people" bareBody, .runSearch 0 fun _ => mayFirst, .searchCachePut 0,
      .newDay maySecond]).map (fun last => (last.lookup "people" 2, last.today.date.day)) =
    some (some ⟨utf8 "1", false⟩, 2) := by decide +kernel

end Sample

end Surch.Api
