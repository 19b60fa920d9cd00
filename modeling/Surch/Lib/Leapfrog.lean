import Surch.Lib.SortedMap

/-! Conjunctions of ascending lists. A driver is walked entry by entry and every follower is probed
for the driver's key, up to the first that misses it. A follower is only probed for keys that ascend,
so it may be a cursor that moves forward. -/
namespace Surch.Lib

variable {κ P : Type} [LinearOrder κ]

def common : List (List (κ × P)) → List κ
  | [] => []
  | first :: rest =>
    (first.map Prod.fst).filter fun key => rest.all fun list => (list.lookup key).isSome

section Lookup

variable {list : List (κ × P)} {key : κ}

theorem lookup_isSome : (list.lookup key).isSome = true ↔ key ∈ list.map Prod.fst := by
  rw [List.lookup_isSome_iff]
  simp only [beq_iff_eq, List.mem_map, @eq_comm _ key]

end Lookup

theorem mapM_lookup (lists : List (List (κ × P))) (key : κ) :
    lists.mapM (List.lookup key) =
      if lists.all fun list => (list.lookup key).isSome then
        some (lists.filterMap (List.lookup key))
      else none := by
  induction lists with
  | nil => rfl
  | cons list rest ih =>
    rw [List.mapM_cons, ih]
    cases found : list.lookup key with
    | none => simp [found]
    | some payload =>
      simp only [found, Option.bind_eq_bind, Option.bind_some, List.all_cons, Option.isSome_some,
        Bool.true_and, List.filterMap_cons]
      split <;> simp

section Common

variable {lists : List (List (κ × P))}

theorem mem_common {key : κ} :
    key ∈ common lists ↔ lists ≠ [] ∧ ∀ list ∈ lists, key ∈ list.map Prod.fst := by
  cases lists with
  | nil => simp [common]
  | cons first rest =>
    rw [common, List.mem_filter, List.all_eq_true]
    simp only [lookup_isSome, ne_eq, reduceCtorEq, not_false_eq_true, true_and, List.forall_mem_cons]

theorem common_ascending (ascending : ∀ list ∈ lists, (list.map Prod.fst).Pairwise (· < ·)) :
    (common lists).Pairwise (· < ·) := by
  cases lists with
  | nil => exact List.Pairwise.nil
  | cons first rest => exact (ascending first List.mem_cons_self).filter _

theorem common_perm {others : List (List (κ × P))} (perm : lists.Perm others)
    (ascending : ∀ list ∈ lists, (list.map Prod.fst).Pairwise (· < ·)) :
    common lists = common others := by
  refine List.Pairwise.eq_of_mem_iff (common_ascending ascending)
    (common_ascending fun list member => ascending list (perm.mem_iff.mpr member)) fun key => ?_
  rw [mem_common, mem_common]
  refine and_congr (not_congr ⟨?_, ?_⟩) (forall_congr' fun list => by rw [perm.mem_iff])
  · rintro rfl
    exact perm.nil_eq.symm
  · rintro rfl
    exact perm.eq_nil

end Common

def conjunction (lists : List (List (κ × P))) : List (κ × List P) :=
  (common lists).map fun key => (key, lists.filterMap (List.lookup key))

theorem conjunction_cons {first : List (κ × P)} (rest : List (List (κ × P)))
    (ascending : (first.map Prod.fst).Pairwise (· < ·)) :
    conjunction (first :: rest) = first.filterMap fun entry =>
      (rest.mapM (List.lookup entry.1)).map fun payloads => (entry.1, entry.2 :: payloads) := by
  rw [conjunction, common, ← List.filterMap_eq_map, List.filterMap_filter, List.filterMap_map]
  refine List.filterMap_congr fun entry member => ?_
  have own : first.lookup entry.1 = some entry.2 :=
    SortedMap.lookup_of_mem ascending member
  simp only [Function.comp_apply, mapM_lookup, List.filterMap_cons, own]
  split <;> simp

section Blocks

variable {τ σ : Type} {terms : List τ}

theorem conjunction_append (nonempty : terms ≠ []) {low high : τ → List (κ × P)}
    (ascending : ∀ t ∈ terms, ((low t).map Prod.fst).Pairwise (· < ·))
    (ascending' : ∀ t ∈ terms, ((high t).map Prod.fst).Pairwise (· < ·))
    (apart : ∀ t ∈ terms, ∀ t' ∈ terms, ∀ x ∈ (low t).map Prod.fst, ∀ y ∈ (high t').map Prod.fst,
      x < y) :
    conjunction (terms.map fun t => low t ++ high t) =
      conjunction (terms.map low) ++ conjunction (terms.map high) := by
  have some_term : ∀ f : τ → List (κ × P), terms.map f ≠ [] := by
    intro f empty
    exact nonempty (List.map_eq_nil_iff.mp empty)
  have keys : common (terms.map fun t => low t ++ high t) =
      common (terms.map low) ++ common (terms.map high) := by
    refine List.Pairwise.eq_of_mem_iff (common_ascending ?_)
      (List.pairwise_append.mpr ⟨common_ascending ?_, common_ascending ?_, ?_⟩) fun key => ?_
    · rw [List.forall_mem_map]
      intro t member
      rw [List.map_append, List.pairwise_append]
      exact ⟨ascending t member, ascending' t member, apart t member t member⟩
    · rw [List.forall_mem_map]
      exact ascending
    · rw [List.forall_mem_map]
      exact ascending'
    · intro x member y member'
      obtain ⟨t, here⟩ := List.exists_mem_of_ne_nil terms nonempty
      exact apart t here t here x ((mem_common.mp member).2 _ (List.mem_map.mpr ⟨t, here, rfl⟩)) y
        ((mem_common.mp member').2 _ (List.mem_map.mpr ⟨t, here, rfl⟩))
    · simp only [List.mem_append, mem_common, List.forall_mem_map, List.map_append, ne_eq,
        some_term, not_false_eq_true, true_and]
      constructor
      · intro every
        by_cases somewhere : ∃ t ∈ terms, key ∈ (low t).map Prod.fst
        · obtain ⟨t, here, found⟩ := somewhere
          refine .inl fun t' there => (every t' there).resolve_right fun above => ?_
          exact lt_irrefl key (apart t here t' there key found key above)
        · refine .inr fun t there => (every t there).resolve_left fun below => ?_
          exact somewhere ⟨t, there, below⟩
      · rintro (every | every) t there
        · exact .inl (every t there)
        · exact .inr (every t there)
  rw [conjunction, keys, List.map_append]
  congr 1
  · refine List.map_congr_left fun key member => ?_
    rw [List.filterMap_map, List.filterMap_map]
    refine congrArg (Prod.mk key) (List.filterMap_congr fun t there => ?_)
    have found := (mem_common.mp member).2 _ (List.mem_map.mpr ⟨t, there, rfl⟩)
    rw [← lookup_isSome] at found
    simp only [Function.comp_apply, List.lookup_append, Option.or_of_isSome found]
  · refine List.map_congr_left fun key member => ?_
    rw [List.filterMap_map, List.filterMap_map]
    refine congrArg (Prod.mk key) (List.filterMap_congr fun t there => ?_)
    have found := (mem_common.mp member).2 _ (List.mem_map.mpr ⟨t, there, rfl⟩)
    have missing : (low t).lookup key = none := by
      rw [← Option.not_isSome_iff_eq_none, lookup_isSome]
      intro below
      exact lt_irrefl key (apart t there t there key below key found)
    simp only [Function.comp_apply, List.lookup_append, missing, Option.none_or]

theorem conjunction_flatMap (nonempty : terms ≠ []) {segments : List σ}
    {entries : σ → τ → List (κ × P)}
    (ascending : ∀ s ∈ segments, ∀ t ∈ terms, ((entries s t).map Prod.fst).Pairwise (· < ·))
    (apart : segments.Pairwise fun s s' => ∀ t ∈ terms, ∀ t' ∈ terms,
      ∀ x ∈ (entries s t).map Prod.fst, ∀ y ∈ (entries s' t').map Prod.fst, x < y) :
    conjunction (terms.map fun t => segments.flatMap fun s => entries s t) =
      segments.flatMap fun s => conjunction (terms.map (entries s)) := by
  induction segments with
  | nil =>
    obtain ⟨t, rest, rfl⟩ := List.exists_cons_of_ne_nil nonempty
    rfl
  | cons s segments ih =>
    obtain ⟨here, later⟩ := List.pairwise_cons.mp apart
    have ascending_later : ∀ t ∈ terms,
        ((segments.flatMap fun s => entries s t).map Prod.fst).Pairwise (· < ·) := by
      intro t member
      rw [List.map_flatMap, List.pairwise_flatMap]
      refine ⟨fun s' there => ascending s' (List.mem_cons_of_mem _ there) t member, ?_⟩
      exact later.imp fun apart x inside y inside' => apart t member t member x inside y inside'
    simp only [List.flatMap_cons]
    rw [conjunction_append nonempty (ascending s List.mem_cons_self) ascending_later, ih
      (fun s' there => ascending s' (List.mem_cons_of_mem _ there)) later]
    intro t member t' member' x inside y inside'
    rw [List.map_flatMap] at inside'
    obtain ⟨s', there, inside'⟩ := List.mem_flatMap.mp inside'
    exact here s' there t member t' member' x inside y inside'

end Blocks

section Walk

variable {S ε : Type} (probe : S → κ → Except ε (Option P × S))

def probeAll : List S → κ → Except ε (Option (List P) × List S)
  | [], _ => .ok (some [], [])
  | follower :: rest, key => do
    let (hit, follower) ← probe follower key
    match hit with
    | none => return (none, follower :: rest)
    | some payload =>
      let (payloads, rest) ← probeAll rest key
      return (payloads.map (payload :: ·), follower :: rest)

def leapfrog : List S → List (κ × P) → Except ε (List (κ × List P))
  | _, [] => .ok []
  | followers, entry :: entries => do
    let (hits, followers) ← probeAll probe followers entry.1
    let later ← leapfrog followers entries
    return (hits.map fun payloads => (entry.1, entry.2 :: payloads)).toList ++ later

/- The walk whose driver is a cursor, asked each time for a key past the last one. -/
def drive {D : Type} (advance : D → κ → Except ε (Option (κ × P) × D)) (next : κ → κ) :
    (fuel : Nat) → D → κ → List S → Except ε (List (κ × List P))
  | 0, _, _, _ => .ok []
  | fuel + 1, driver, target, followers => do
    let (found, driver) ← advance driver target
    match found with
    | none => return []
    | some entry =>
      let (hits, followers) ← probeAll probe followers entry.1
      let later ← drive advance next fuel driver (next entry.1) followers
      return (hits.map fun payloads => (entry.1, entry.2 :: payloads)).toList ++ later

/- A follower that stands for a list answers every key from its bound on as the list does. -/
structure Answers (stands : List (κ × P) → κ → S → Prop) : Prop where
  later : ∀ list bound bound' follower, stands list bound follower → bound ≤ bound' →
    stands list bound' follower
  probe : ∀ list bound follower key, stands list bound follower → bound ≤ key →
    ∃ follower', probe follower key = .ok (list.lookup key, follower') ∧ stands list key follower'

variable {probe} {stands : List (κ × P) → κ → S → Prop}

theorem probeAll_answers (answers : Answers probe stands) {lists : List (List (κ × P))}
    {followers : List S} {bound key : κ}
    (standing : List.Forall₂ (fun list follower => stands list bound follower) lists followers)
    (ordered : bound ≤ key) :
    ∃ followers', probeAll probe followers key =
        .ok (lists.mapM (List.lookup key), followers') ∧
      List.Forall₂ (fun list follower => stands list key follower) lists followers' := by
  induction standing with
  | nil => exact ⟨[], rfl, .nil⟩
  | @cons list follower lists followers here rest ih =>
    obtain ⟨follower', probed, stays⟩ := answers.probe list bound follower key here ordered
    obtain ⟨followers', others, standing⟩ := ih
    rw [probeAll, probed, List.mapM_cons]
    cases found : list.lookup key with
    | none =>
      -- the followers behind the first miss are left where they are
      exact ⟨follower' :: followers, rfl, .cons stays
        (rest.imp fun list follower stood => answers.later list bound key follower stood ordered)⟩
    | some payload =>
      refine ⟨follower' :: followers', ?_, .cons stays standing⟩
      simp only [bind, Except.bind, others, pure, Except.pure, Option.bind_some]
      cases lists.mapM (List.lookup key) <;> rfl

theorem leapfrog_answers (answers : Answers probe stands) {lists : List (List (κ × P))}
    {followers : List S} {bound : κ}
    (standing : List.Forall₂ (fun list follower => stands list bound follower) lists followers)
    {entries : List (κ × P)} (ascending : (entries.map Prod.fst).Pairwise (· < ·))
    (ordered : ∀ entry ∈ entries, bound ≤ entry.1) :
    leapfrog probe followers entries = .ok (conjunction (entries :: lists)) := by
  rw [conjunction_cons lists ascending]
  induction entries generalizing followers bound with
  | nil => rfl
  | cons entry entries ih =>
    rw [List.map_cons, List.pairwise_cons] at ascending
    obtain ⟨followers', probed, standing'⟩ :=
      probeAll_answers answers standing (ordered entry List.mem_cons_self)
    have later := ih standing' ascending.2 fun other member =>
      (ascending.1 other.1 (List.mem_map.mpr ⟨other, member, rfl⟩)).le
    rw [leapfrog, probed, List.filterMap_cons]
    simp only [bind, Except.bind, later, pure, Except.pure]
    cases lists.mapM (List.lookup entry.1) <;> rfl

/- A driver that has these entries ahead of it hands them out one by one. -/
structure HandsOut {D : Type} (advance : D → κ → Except ε (Option (κ × P) × D))
    (ahead : List (κ × P) → κ → D → Prop) : Prop where
  entry : ∀ entry entries bound driver target, ahead (entry :: entries) bound driver →
    bound ≤ target → target ≤ entry.1 →
    ∃ driver', advance driver target = .ok (some entry, driver') ∧ ahead entries target driver'
  done : ∀ bound driver target, ahead [] bound driver → bound ≤ target →
    ∃ driver', advance driver target = .ok (none, driver')

theorem drive_eq_leapfrog {D : Type} {advance : D → κ → Except ε (Option (κ × P) × D)}
    {next : κ → κ} {ahead : List (κ × P) → κ → D → Prop} (handsOut : HandsOut advance ahead)
    {entries : List (κ × P)} (ascending : (entries.map Prod.fst).Pairwise (· < ·))
    (grows : ∀ entry ∈ entries, entry.1 ≤ next entry.1)
    (short : ∀ entry ∈ entries, ∀ other ∈ entries, entry.1 < other.1 → next entry.1 ≤ other.1)
    {driver : D} {bound target : κ} (before : ahead entries bound driver) (ordered : bound ≤ target)
    (reach : ∀ entry ∈ entries, target ≤ entry.1) {fuel : Nat} (enough : entries.length < fuel)
    (followers : List S) :
    drive probe advance next fuel driver target followers = leapfrog probe followers entries := by
  induction entries generalizing driver bound target fuel followers with
  | nil =>
    obtain ⟨fuel, rfl⟩ : ∃ less, fuel = less + 1 := ⟨fuel - 1, by omega⟩
    obtain ⟨driver', exhausted⟩ := handsOut.done bound driver target before ordered
    rw [drive, exhausted]
    rfl
  | cons entry entries ih =>
    obtain ⟨fuel, rfl⟩ : ∃ less, fuel = less + 1 := ⟨fuel - 1, by omega⟩
    rw [List.map_cons, List.pairwise_cons] at ascending
    obtain ⟨driver', advanced, after⟩ := handsOut.entry entry entries bound driver target before
      ordered (reach entry List.mem_cons_self)
    have onward := (reach entry List.mem_cons_self).trans (grows entry List.mem_cons_self)
    have rest := fun followers => ih ascending.2
      (fun other member => grows other (List.mem_cons_of_mem _ member))
      (fun one member other member' => short one (List.mem_cons_of_mem _ member) other
        (List.mem_cons_of_mem _ member'))
      after onward
      (fun other member => short entry List.mem_cons_self other (List.mem_cons_of_mem _ member)
        (ascending.1 other.1 (List.mem_map.mpr ⟨other, member, rfl⟩)))
      (Nat.lt_of_succ_lt_succ enough) followers
    rw [drive, advanced, leapfrog]
    simp only [bind, Except.bind]
    cases probeAll probe followers entry.1 with
    | error e => rfl
    | ok probed => simp only [rest]

end Walk

end Surch.Lib
