import Mathlib.Algebra.GroupWithZero.Nat
import Mathlib.Data.List.Sort

/-! Finite maps kept as a list of entries in strictly ascending key order. Maps that answer
every lookup alike are equal, and a traversal visits the keys in order. -/
namespace Surch.Lib

structure SortedMap (K V : Type) [LinearOrder K] where
  entries : List (K × V)
  sorted : (entries.map Prod.fst).Pairwise (· < ·)

namespace SortedMap

variable {K V W σ : Type} [LinearOrder K]

@[ext] theorem eq_of_entries {m n : SortedMap K V} (same : m.entries = n.entries) : m = n := by
  cases m
  cases n
  cases same
  rfl

instance [DecidableEq V] : DecidableEq (SortedMap K V) := fun m n =>
  decidable_of_iff (m.entries = n.entries) ⟨eq_of_entries, congrArg entries⟩

def empty : SortedMap K V := ⟨[], .nil⟩

instance : Inhabited (SortedMap K V) := ⟨empty⟩

def keys (m : SortedMap K V) : List K := m.entries.map Prod.fst

def get? (m : SortedMap K V) (k : K) : Option V := m.entries.lookup k

@[simp] theorem get?_empty (k : K) : (empty : SortedMap K V).get? k = none := rfl

def singleton (k : K) (v : V) : SortedMap K V := ⟨[(k, v)], List.pairwise_singleton _ _⟩

@[simp] theorem get?_singleton (k : K) (v : V) (x : K) :
    (singleton k v).get? x = if x = k then some v else none := by
  rw [get?, singleton, List.lookup_cons, List.lookup_nil]
  by_cases same : x = k
  · rw [beq_iff_eq.mpr same, if_pos same]
  · rw [beq_false_of_ne same, if_neg same]

theorem lookup_of_mem {entries : List (K × V)} (sorted : (entries.map Prod.fst).Pairwise (· < ·))
    {k : K} {v : V} (member : (k, v) ∈ entries) : entries.lookup k = some v := by
  induction entries with
  | nil => cases member
  | cons entry entries ih =>
    rw [List.map_cons, List.pairwise_cons] at sorted
    rcases List.mem_cons.mp member with rfl | later
    · exact List.lookup_cons_self
    · have distinct : k ≠ entry.1 :=
        (sorted.1 k (List.mem_map.mpr ⟨_, later, rfl⟩)).ne'
      rw [List.lookup_cons, beq_false_of_ne distinct]
      exact ih sorted.2 later

theorem mem_of_lookup {entries : List (K × V)} {k : K} {v : V}
    (found : entries.lookup k = some v) : (k, v) ∈ entries := by
  induction entries with
  | nil => cases found
  | cons entry entries ih =>
    rw [List.lookup_cons] at found
    split at found
    · rename_i here
      cases found
      rw [eq_of_beq here]
      exact List.mem_cons_self
    · exact List.mem_cons_of_mem _ (ih found)

theorem get?_eq_some_iff (m : SortedMap K V) (k : K) (v : V) :
    m.get? k = some v ↔ (k, v) ∈ m.entries :=
  ⟨mem_of_lookup, lookup_of_mem m.sorted⟩

theorem mem_keys_iff (m : SortedMap K V) (k : K) : k ∈ m.keys ↔ ∃ v, m.get? k = some v := by
  simp only [keys, List.mem_map, get?_eq_some_iff, Prod.exists, exists_and_right, exists_eq_right]

theorem keys_nodup (m : SortedMap K V) : m.keys.Nodup := m.sorted.imp ne_of_lt

theorem get?_eq_none_iff (m : SortedMap K V) (k : K) : m.get? k = none ↔ k ∉ m.keys := by
  rw [mem_keys_iff]
  cases m.get? k <;> simp

theorem entries_nodup (m : SortedMap K V) : m.entries.Nodup :=
  (List.pairwise_map.mp m.sorted).imp fun below same => below.ne (congrArg Prod.fst same)

/-- Two maps with the same lookups are the same map. -/
theorem ext_get? {m n : SortedMap K V} (same : ∀ k, m.get? k = n.get? k) : m = n := by
  have pairwise : ∀ o : SortedMap K V, o.entries.Pairwise fun a b => a.1 < b.1 := fun o =>
    List.pairwise_map.mp o.sorted
  apply eq_of_entries
  refine @List.Perm.eq_of_pairwise _ (fun a b => a.1 < b.1) _ _ ?_ (pairwise m) (pairwise n) ?_
  · intro a b _ _ below above
    exact absurd below above.asymm
  · rw [List.perm_ext_iff_of_nodup m.entries_nodup n.entries_nodup]
    intro entry
    rw [← get?_eq_some_iff m, ← get?_eq_some_iff n, same]

/- Insert or update one entry: `f` is given what the key held before. -/
def upsertEntries (k : K) (f : Option V → V) : List (K × V) → List (K × V)
  | [] => [(k, f none)]
  | entry :: rest =>
    if k < entry.1 then (k, f none) :: entry :: rest
    else if k = entry.1 then (k, f (some entry.2)) :: rest
    else entry :: upsertEntries k f rest

theorem mem_upsertEntries_keys {k : K} {f : Option V → V} {entries : List (K × V)} {x : K}
    (member : x ∈ (upsertEntries k f entries).map Prod.fst) :
    x = k ∨ x ∈ entries.map Prod.fst := by
  induction entries with
  | nil => simpa [upsertEntries] using member
  | cons entry entries ih =>
    rw [upsertEntries] at member
    split at member
    · simpa using member
    · split at member
      · rename_i here
        rw [List.map_cons, List.mem_cons] at member
        rw [List.map_cons, List.mem_cons]
        tauto
      · rw [List.map_cons, List.mem_cons] at member
        rw [List.map_cons, List.mem_cons]
        rcases member with rfl | later
        · exact .inr (.inl rfl)
        · rcases ih later with rfl | inside
          · exact .inl rfl
          · exact .inr (.inr inside)

theorem upsertEntries_sorted (k : K) (f : Option V → V) {entries : List (K × V)}
    (sorted : (entries.map Prod.fst).Pairwise (· < ·)) :
    ((upsertEntries k f entries).map Prod.fst).Pairwise (· < ·) := by
  induction entries with
  | nil => exact List.pairwise_singleton _ _
  | cons entry entries ih =>
    have tail := List.pairwise_cons.mp sorted
    rw [upsertEntries]
    split
    · rename_i before
      refine List.pairwise_cons.mpr ⟨?_, sorted⟩
      intro x member
      rcases List.mem_cons.mp member with rfl | later
      · exact before
      · exact before.trans (tail.1 x later)
    · rename_i before
      split
      · rename_i here
        subst here
        exact List.pairwise_cons.mpr tail
      · rename_i distinct
        refine List.pairwise_cons.mpr ⟨?_, ih tail.2⟩
        intro x member
        rcases mem_upsertEntries_keys member with rfl | later
        · exact lt_of_le_of_ne (not_lt.mp before) (Ne.symm distinct)
        · exact tail.1 x later

def upsert (m : SortedMap K V) (k : K) (f : Option V → V) : SortedMap K V :=
  ⟨upsertEntries k f m.entries, upsertEntries_sorted k f m.sorted⟩

theorem lookup_upsertEntries (k : K) (f : Option V → V) {entries : List (K × V)}
    (sorted : (entries.map Prod.fst).Pairwise (· < ·)) (x : K) :
    (upsertEntries k f entries).lookup x =
      if x = k then some (f (entries.lookup k)) else entries.lookup x := by
  induction entries with
  | nil =>
    rw [upsertEntries, List.lookup_cons]
    by_cases here : x = k
    · simp [here]
    · simp [here, beq_false_of_ne here]
  | cons entry entries ih =>
    have tail := List.pairwise_cons.mp sorted
    rw [upsertEntries]
    split
    · rename_i before
      -- every key of the map is above `k`, so `k` was absent
      have absent : (entry :: entries).lookup k = none := by
        cases found : (entry :: entries).lookup k with
        | none => rfl
        | some v =>
          have member : k ∈ (entry :: entries).map Prod.fst :=
            List.mem_map.mpr ⟨_, mem_of_lookup found, rfl⟩
          rcases List.mem_cons.mp member with same | later
          · exact absurd same before.ne
          · exact absurd (tail.1 k later) before.asymm
      rw [List.lookup_cons, absent]
      by_cases here : x = k
      · simp [here]
      · simp [here, beq_false_of_ne here]
    · split
      · rename_i here
        rw [List.lookup_cons, List.lookup_cons, List.lookup_cons]
        by_cases found : x = k
        · simp [found, here]
        · simp [found, beq_false_of_ne found, ← here]
      · rename_i distinct
        rw [List.lookup_cons, List.lookup_cons, List.lookup_cons, ih tail.2]
        by_cases found : x = entry.1
        · subst found
          simp [Ne.symm distinct]
        · simp [beq_false_of_ne found, beq_false_of_ne distinct]

@[simp] theorem get?_upsert (m : SortedMap K V) (k : K) (f : Option V → V) (x : K) :
    (m.upsert k f).get? x = if x = k then some (f (m.get? k)) else m.get? x :=
  lookup_upsertEntries k f m.sorted x

/-- A key above all others goes to the end. -/
theorem upsert_last (m : SortedMap K V) {k : K} (above : ∀ x ∈ m.keys, x < k) (f : Option V → V) :
    (m.upsert k f).entries = m.entries ++ [(k, f none)] := by
  have last (entries : List (K × V)) (above : ∀ x ∈ entries.map Prod.fst, x < k) :
      upsertEntries k f entries = entries ++ [(k, f none)] := by
    induction entries with
    | nil => rfl
    | cons entry entries ih =>
      have here : entry.1 < k := above entry.1 List.mem_cons_self
      rw [upsertEntries, if_neg here.asymm, if_neg here.ne', List.cons_append]
      rw [ih fun x member => above x (List.mem_cons_of_mem _ member)]
  exact last m.entries above

def erase (m : SortedMap K V) (k : K) : SortedMap K V where
  entries := m.entries.filter fun entry => entry.1 ≠ k
  sorted := m.sorted.sublist ((List.filter_sublist).map Prod.fst)

theorem mem_erase (m : SortedMap K V) (k : K) (entry : K × V) :
    entry ∈ (m.erase k).entries ↔ entry ∈ m.entries ∧ entry.1 ≠ k := by
  simp only [erase, List.mem_filter, decide_eq_true_eq]

@[simp] theorem get?_erase (m : SortedMap K V) (k x : K) :
    (m.erase k).get? x = if x = k then none else m.get? x := by
  apply Option.ext
  intro v
  rw [get?_eq_some_iff, mem_erase]
  by_cases same : x = k
  · simp [same]
  · simp [same, get?_eq_some_iff]

/-- Erasing a key that is there takes its entry out. -/
theorem perm_erase {m : SortedMap K V} {k : K} {v : V} (found : m.get? k = some v) :
    m.entries.Perm ((k, v) :: (m.erase k).entries) := by
  have apart : (k, v) ∉ (m.erase k).entries := by simp [mem_erase]
  rw [List.perm_ext_iff_of_nodup m.entries_nodup
    (List.nodup_cons.mpr ⟨apart, (m.erase k).entries_nodup⟩)]
  rintro ⟨x, w⟩
  rw [List.mem_cons, mem_erase]
  by_cases same : x = k
  · subst same
    rw [← get?_eq_some_iff, found]
    simp [eq_comm]
  · simp [same]

theorem length_erase {m : SortedMap K V} {k : K} {v : V} (found : m.get? k = some v) :
    m.entries.length = (m.erase k).entries.length + 1 :=
  (perm_erase found).length_eq

def filterKeys (m : SortedMap K V) (p : K → Bool) : SortedMap K V where
  entries := m.entries.filter fun entry => p entry.1
  sorted := m.sorted.sublist ((List.filter_sublist).map Prod.fst)

@[simp] theorem get?_filterKeys (m : SortedMap K V) (p : K → Bool) (k : K) :
    (m.filterKeys p).get? k = if p k = true then m.get? k else none := by
  apply Option.ext
  intro v
  rw [get?_eq_some_iff]
  by_cases kept : p k = true
  · simp [filterKeys, kept, get?_eq_some_iff]
  · simp [filterKeys, kept]

/-- A new key puts one entry in. -/
theorem perm_upsert {m : SortedMap K V} {k : K} (missing : m.get? k = none) (f : Option V → V) :
    (m.upsert k f).entries.Perm ((k, f none) :: m.entries) := by
  have fresh : (m.upsert k f).get? k = some (f none) := by rw [get?_upsert, if_pos rfl, missing]
  have back : (m.upsert k f).erase k = m := by
    apply ext_get?
    intro x
    rw [get?_erase, get?_upsert]
    by_cases same : x = k
    · rw [if_pos same, same, missing]
    · rw [if_neg same, if_neg same]
  simpa only [back] using perm_erase fresh

theorem length_upsert {m : SortedMap K V} {k : K} (missing : m.get? k = none) (f : Option V → V) :
    (m.upsert k f).entries.length = m.entries.length + 1 :=
  (perm_upsert missing f).length_eq

/-- A key that is there keeps its place. -/
theorem length_upsert_of_get? {m : SortedMap K V} {k : K} {v : V} (found : m.get? k = some v)
    (f : Option V → V) : (m.upsert k f).entries.length = m.entries.length := by
  have fresh : (m.upsert k f).get? k = some (f (some v)) := by
    rw [get?_upsert, if_pos rfl, found]
  have back : (m.upsert k f).erase k = m.erase k := by
    apply ext_get?
    intro x
    rw [get?_erase, get?_erase, get?_upsert]
    split <;> rfl
  rw [length_erase fresh, back, length_erase found]

theorem sum_upsertEntries (w : V → Nat) (k : K) (f : Option V → V) {entries : List (K × V)}
    (sorted : (entries.map Prod.fst).Pairwise (· < ·)) :
    ((upsertEntries k f entries).map fun entry => w entry.2).sum +
        ((entries.lookup k).map w).getD 0 =
      (entries.map fun entry => w entry.2).sum + w (f (entries.lookup k)) := by
  induction entries with
  | nil => simp [upsertEntries]
  | cons entry rest ih =>
    obtain ⟨least, tail⟩ := List.pairwise_cons.mp sorted
    rw [upsertEntries, List.lookup_cons]
    split
    · rename_i before
      have missing : rest.lookup k = none := by
        apply Option.eq_none_iff_forall_not_mem.mpr
        intro v found
        exact absurd (least k (List.mem_map_of_mem (mem_of_lookup found))) before.asymm
      rw [beq_false_of_ne before.ne, missing]
      simp [Nat.add_comm]
    · split
      · rename_i here
        rw [beq_iff_eq.mpr here]
        simp only [List.map_cons, List.sum_cons, Option.map_some, Option.getD_some]
        omega
      · rename_i distinct
        rw [beq_false_of_ne distinct]
        simp only [List.map_cons, List.sum_cons]
        have shorter := ih tail
        omega

/-- An update changes a sum over the values by what it does to its own. -/
theorem sum_upsert (w : V → Nat) (m : SortedMap K V) (k : K) (f : Option V → V) :
    ((m.upsert k f).entries.map fun entry => w entry.2).sum + ((m.get? k).map w).getD 0 =
      (m.entries.map fun entry => w entry.2).sum + w (f (m.get? k)) :=
  sum_upsertEntries w k f m.sorted

theorem mem_keys_upsert (m : SortedMap K V) (k x : K) (f : Option V → V) :
    x ∈ (m.upsert k f).keys ↔ x = k ∨ x ∈ m.keys := by
  simp only [mem_keys_iff, get?_upsert]
  by_cases here : x = k
  · simp [here]
  · simp [here]

theorem upsert_singleton (k : K) (v : V) (f : Option V → V) :
    (singleton k v).upsert k f = singleton k (f (some v)) := by
  apply eq_of_entries
  simp [upsert, upsertEntries, singleton]

/-- A fold that updates the keys of a map, each once. -/
theorem get?_foldl_entries {entries : List (K × V)}
    (sorted : (entries.map Prod.fst).Pairwise (· < ·)) (f : V → Option W → W) (m : SortedMap K W)
    (k : K) :
    (entries.foldl (fun m entry => m.upsert entry.1 (f entry.2)) m).get? k =
      match entries.lookup k with
      | some v => some (f v (m.get? k))
      | none => m.get? k := by
  induction entries generalizing m with
  | nil => rfl
  | cons entry rest ih =>
    obtain ⟨least, sorted⟩ := List.pairwise_cons.mp sorted
    rw [List.foldl_cons, ih sorted, get?_upsert, List.lookup_cons]
    by_cases here : k = entry.1
    · have missing : rest.lookup k = none := by
        apply Option.eq_none_iff_forall_not_mem.mpr
        intro v found
        exact absurd (least k (List.mem_map_of_mem (mem_of_lookup found)))
          (by rw [here]; exact lt_irrefl _)
      rw [missing, if_pos here, beq_iff_eq.mpr here, here]
    · rw [if_neg here, beq_false_of_ne here]

def extend (m other : SortedMap K V) : SortedMap K V :=
  other.entries.foldl (fun m entry => m.upsert entry.1 fun _ => entry.2) m

@[simp] theorem get?_extend (m other : SortedMap K V) (k : K) :
    (m.extend other).get? k = (other.get? k).or (m.get? k) := by
  have folded := get?_foldl_entries other.sorted (fun v _ => v) m k
  rw [extend, folded]
  cases found : other.entries.lookup k <;> rw [get?, get?, found] <;> rfl

theorem empty_extend (m : SortedMap K V) : empty.extend m = m := by
  apply ext_get?
  intro k
  rw [get?_extend, get?_empty, Option.or_none]

def ofKeys (ks : List K) (f : K → V) : SortedMap K V :=
  ks.foldl (fun m k => m.upsert k fun _ => f k) empty

theorem get?_foldl_upsert (ks : List K) (f : K → V) (m : SortedMap K V) (x : K) :
    (ks.foldl (fun m k => m.upsert k fun _ => f k) m).get? x =
      if x ∈ ks then some (f x) else m.get? x := by
  induction ks generalizing m with
  | nil => simp
  | cons k ks ih =>
    rw [List.foldl_cons, ih, get?_upsert]
    by_cases later : x ∈ ks
    · simp [later]
    · by_cases here : x = k
      · subst here
        simp
      · simp [later, here]

@[simp] theorem get?_ofKeys (ks : List K) (f : K → V) (x : K) :
    (ofKeys ks f).get? x = if x ∈ ks then some (f x) else none := by
  rw [ofKeys, get?_foldl_upsert, get?_empty]

omit [LinearOrder K] in
theorem mapIdx_keys (entries : List (K × V)) (f : Nat → K → V → W) :
    (entries.mapIdx fun i entry => (entry.1, f i entry.1 entry.2)).map Prod.fst =
      entries.map Prod.fst := by
  apply List.ext_getElem?
  intro i
  rw [List.getElem?_map, List.getElem?_map, List.getElem?_mapIdx]
  cases entries[i]? <;> rfl

/- Same keys, new values; the value may depend on the position of its key. -/
def mapIdx (m : SortedMap K V) (f : Nat → K → V → W) : SortedMap K W where
  entries := m.entries.mapIdx fun i entry => (entry.1, f i entry.1 entry.2)
  sorted := by
    rw [mapIdx_keys]
    exact m.sorted

def map (m : SortedMap K V) (f : V → W) : SortedMap K W where
  entries := m.entries.map fun entry => (entry.1, f entry.2)
  sorted := by
    rw [List.map_map]
    exact m.sorted

@[simp] theorem map_entries (m : SortedMap K V) (f : V → W) :
    (m.map f).entries = m.entries.map fun entry => (entry.1, f entry.2) := rfl

@[simp] theorem keys_map (m : SortedMap K V) (f : V → W) : (m.map f).keys = m.keys := by
  rw [keys, map, List.map_map]
  rfl

@[simp] theorem get?_map (m : SortedMap K V) (f : V → W) (k : K) :
    (m.map f).get? k = (m.get? k).map f := by
  rw [get?, get?, map_entries]
  induction m.entries with
  | nil => rfl
  | cons entry entries ih =>
    rw [List.map_cons, List.lookup_cons, List.lookup_cons, ih]
    split <;> rfl

/-- A key is found in an indexed map together with its position. -/
theorem map_upsert (m : SortedMap K V) (k : K) (v : V) (f : V → W) :
    (m.upsert k fun _ => v).map f = (m.map f).upsert k fun _ => f v := by
  apply ext_get?
  intro x
  simp only [get?_map, get?_upsert]
  split <;> rfl

theorem map_erase (m : SortedMap K V) (k : K) (f : V → W) :
    (m.erase k).map f = (m.map f).erase k := by
  apply ext_get?
  intro x
  simp only [get?_map, get?_erase]
  split <;> rfl

theorem map_singleton (k : K) (v : V) (f : V → W) :
    (singleton k v).map f = singleton k (f v) := rfl

theorem get?_mapIdx_eq_some_iff (m : SortedMap K V) (f : Nat → K → V → W) (k : K) (w : W) :
    (m.mapIdx f).get? k = some w ↔ ∃ i v, m.entries[i]? = some (k, v) ∧ w = f i k v := by
  rw [get?_eq_some_iff, mapIdx, List.mem_mapIdx]
  constructor
  · rintro ⟨i, inside, same⟩
    cases same
    exact ⟨i, _, List.getElem?_eq_getElem inside, rfl⟩
  · rintro ⟨i, v, found, rfl⟩
    obtain ⟨inside, value⟩ := List.getElem?_eq_some_iff.mp found
    exact ⟨i, inside, by rw [value]⟩

theorem exists_index {m : SortedMap K V} {k : K} {v : V} (found : m.get? k = some v) :
    ∃ i : Nat, m.entries[i]? = some (k, v) :=
  List.mem_iff_getElem?.mp ((m.get?_eq_some_iff k v).mp found)

theorem get?_mapIdx_of_getElem? {m : SortedMap K V} {i : Nat} {k : K} {v : V}
    (f : Nat → K → V → W) (found : m.entries[i]? = some (k, v)) :
    (m.mapIdx f).get? k = some (f i k v) :=
  (m.get?_mapIdx_eq_some_iff f k _).mpr ⟨i, v, found, rfl⟩

@[simp] theorem keys_mapIdx (m : SortedMap K V) (f : Nat → K → V → W) :
    (m.mapIdx f).keys = m.keys :=
  mapIdx_keys m.entries f

/-- Numbering the keys does not look at the values. -/
theorem mapIdx_map (m : SortedMap K V) (f : V → W) (g : Nat → K → σ) :
    (m.map f).mapIdx (fun i k _ => g i k) = m.mapIdx (fun i k _ => g i k) := by
  apply eq_of_entries
  apply List.ext_getElem?
  intro i
  simp only [mapIdx, map_entries, List.getElem?_mapIdx, List.getElem?_map]
  cases m.entries[i]? <;> rfl

def sequenceEntries : List (K × Option V) → Option (List (K × V))
  | [] => some []
  | entry :: rest => do
    let v ← entry.2
    let tail ← sequenceEntries rest
    return (entry.1, v) :: tail

omit [LinearOrder K] in
theorem sequenceEntries_eq_some_iff (entries : List (K × Option V)) (result : List (K × V)) :
    sequenceEntries entries = some result ↔
      entries = result.map fun entry => (entry.1, some entry.2) := by
  induction entries generalizing result with
  | nil => cases result <;> simp [sequenceEntries]
  | cons entry entries ih =>
    obtain ⟨k, v⟩ := entry
    cases result with
    | nil =>
      cases v with
      | none => simp [sequenceEntries]
      | some v =>
        rw [sequenceEntries]
        cases sequenceEntries entries <;> simp
    | cons head tail =>
      have rest := ih tail
      cases v with
      | none => simp [sequenceEntries]
      | some v =>
        simp only [sequenceEntries, Option.bind_eq_bind, Option.bind_some, Option.bind_eq_some_iff,
          Option.pure_def, Option.some.injEq, List.cons.injEq, List.map_cons, Prod.mk.injEq]
        constructor
        · rintro ⟨found, same, rfl, rfl⟩
          exact ⟨⟨rfl, rfl⟩, rest.mp same⟩
        · rintro ⟨⟨rfl, rfl⟩, same⟩
          exact ⟨tail, rest.mpr same, rfl, rfl⟩

def sequence (m : SortedMap K (Option V)) : Option (SortedMap K V) :=
  match found : sequenceEntries m.entries with
  | none => none
  | some entries =>
    some ⟨entries, by
      have keys_eq := congrArg (List.map Prod.fst)
        ((sequenceEntries_eq_some_iff m.entries entries).mp found)
      rw [List.map_map] at keys_eq
      have same : entries.map Prod.fst = m.entries.map Prod.fst := keys_eq.symm
      rw [same]
      exact m.sorted⟩

theorem sequence_eq_some_iff (m : SortedMap K (Option V)) (n : SortedMap K V) :
    m.sequence = some n ↔ m = n.map some := by
  have listed := sequenceEntries_eq_some_iff m.entries n.entries
  rw [sequence]
  split
  · rename_i failed
    rw [failed] at listed
    simp only [reduceCtorEq, false_iff] at listed ⊢
    intro same
    exact listed (congrArg entries same)
  · rename_i entries found
    rw [found] at listed
    rw [Option.some.injEq] at listed ⊢
    constructor
    · intro same
      exact eq_of_entries (listed.mp (congrArg SortedMap.entries same))
    · intro same
      exact eq_of_entries (listed.mpr (congrArg SortedMap.entries same))

section Traversal

/- A traversal in key order that threads a state; the step also sees the position. -/
def mapAccumEntries (f : σ → Nat → K → V → σ × W) : Nat → σ → List (K × V) → σ × List (K × W)
  | _, s, [] => (s, [])
  | i, s, entry :: rest =>
    let step := f s i entry.1 entry.2
    let tail := mapAccumEntries f (i + 1) step.1 rest
    (tail.1, (entry.1, step.2) :: tail.2)

omit [LinearOrder K] in
theorem mapAccumEntries_keys (f : σ → Nat → K → V → σ × W) (i : Nat) (s : σ)
    (entries : List (K × V)) :
    (mapAccumEntries f i s entries).2.map Prod.fst = entries.map Prod.fst := by
  induction entries generalizing i s with
  | nil => rfl
  | cons entry entries ih => rw [mapAccumEntries, List.map_cons, List.map_cons, ih]

def mapAccum (m : SortedMap K V) (f : σ → Nat → K → V → σ × W) (s : σ) : σ × SortedMap K W :=
  ((mapAccumEntries f 0 s m.entries).1,
    ⟨(mapAccumEntries f 0 s m.entries).2, by rw [mapAccumEntries_keys]; exact m.sorted⟩)

omit [LinearOrder K] in
theorem mapAccumEntries_rule (f : σ → Nat → K → V → σ × W) (R : σ → List (K × V × W) → Prop)
    (entries : List (K × V)) (s : σ) (done : List (K × V × W)) (start : R s done)
    (step : ∀ s done k v, (k, v) ∈ entries → R s done →
      R (f s done.length k v).1 (done ++ [(k, v, (f s done.length k v).2)])) :
    ∃ visited, R (mapAccumEntries f done.length s entries).1 (done ++ visited) ∧
      visited.map (fun e => (e.1, e.2.1)) = entries ∧
      visited.map (fun e => (e.1, e.2.2)) = (mapAccumEntries f done.length s entries).2 := by
  induction entries generalizing s done with
  | nil => exact ⟨[], by rw [List.append_nil]; exact start, rfl, rfl⟩
  | cons entry entries ih =>
    obtain ⟨k, v⟩ := entry
    have next := step s done k v List.mem_cons_self start
    obtain ⟨visited, final, inputs, outputs⟩ := ih _ _ next fun s done k v member =>
      step s done k v (List.mem_cons_of_mem _ member)
    rw [List.length_append, List.length_singleton] at final outputs
    refine ⟨(k, v, (f s done.length k v).2) :: visited, ?_, ?_, ?_⟩
    · rw [List.append_assoc] at final
      exact final
    · rw [List.map_cons, inputs]
    · rw [List.map_cons, outputs]
      rfl

/-- What holds of the state and the entries visited so far, held at the start and kept by every
step, holds at the end of all entries. -/
theorem mapAccum_rule (m : SortedMap K V) (f : σ → Nat → K → V → σ × W) (s : σ)
    (R : σ → List (K × V × W) → Prop) (start : R s [])
    (step : ∀ s done k v, (k, v) ∈ m.entries → R s done →
      R (f s done.length k v).1 (done ++ [(k, v, (f s done.length k v).2)])) :
    ∃ visited, R (m.mapAccum f s).1 visited ∧
      visited.map (fun e => (e.1, e.2.1)) = m.entries ∧
      visited.map (fun e => (e.1, e.2.2)) = (m.mapAccum f s).2.entries :=
  mapAccumEntries_rule f R m.entries s [] start step

@[simp] theorem keys_mapAccum (m : SortedMap K V) (f : σ → Nat → K → V → σ × W) (s : σ) :
    (m.mapAccum f s).2.keys = m.keys :=
  mapAccumEntries_keys f 0 s m.entries

end Traversal

end SortedMap

end Surch.Lib
