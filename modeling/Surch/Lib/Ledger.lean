import Mathlib.Data.List.Nodup

/-! Maps that keep their entries in the order in which the keys came: a known key keeps its place, a new
one goes to the end. Written again in their order, the entries of a ledger make the same ledger. -/
namespace Surch.Lib

structure Ledger (K V : Type) where
  entries : List (K × V)
  distinct : (entries.map Prod.fst).Nodup

namespace Ledger

variable {K V : Type} [DecidableEq K]

omit [DecidableEq K] in
theorem eq_of_entries {l m : Ledger K V} (same : l.entries = m.entries) : l = m := by
  cases l
  cases m
  cases same
  rfl

def empty : Ledger K V := ⟨[], .nil⟩

instance : Inhabited (Ledger K V) := ⟨empty⟩

def keys (l : Ledger K V) : List K := l.entries.map Prod.fst

def contains (l : Ledger K V) (k : K) : Bool := k ∈ l.keys

def putEntries (k : K) (v : V) : List (K × V) → List (K × V)
  | [] => [(k, v)]
  | entry :: rest => if entry.1 = k then (k, v) :: rest else entry :: putEntries k v rest

theorem keys_putEntries (k : K) (v : V) (entries : List (K × V)) :
    (putEntries k v entries).map Prod.fst =
      if k ∈ entries.map Prod.fst then entries.map Prod.fst else entries.map Prod.fst ++ [k] := by
  induction entries with
  | nil => rfl
  | cons entry rest ih =>
    rw [putEntries]
    by_cases here : entry.1 = k
    · rw [if_pos here, if_pos (by simp [here]), List.map_cons, List.map_cons, here]
    · have inside : k ∈ (entry :: rest).map Prod.fst ↔ k ∈ rest.map Prod.fst := by
        rw [List.map_cons, List.mem_cons, or_iff_right (Ne.symm here)]
      rw [if_neg here, List.map_cons, ih]
      simp only [inside]
      split <;> rfl

def put (l : Ledger K V) (k : K) (v : V) : Ledger K V where
  entries := putEntries k v l.entries
  distinct := by
    rw [keys_putEntries]
    split
    · exact l.distinct
    · rename_i new
      exact List.nodup_append.mpr ⟨l.distinct, List.nodup_singleton k, by
        intro x member y last
        rw [List.mem_singleton.mp last]
        exact fun same => new (same ▸ member)⟩

def remove (l : Ledger K V) (k : K) : Ledger K V where
  entries := l.entries.filter fun entry => entry.1 ≠ k
  distinct := l.distinct.sublist ((List.filter_sublist).map Prod.fst)

theorem putEntries_new {k : K} {entries : List (K × V)} (new : k ∉ entries.map Prod.fst) (v : V) :
    putEntries k v entries = entries ++ [(k, v)] := by
  induction entries with
  | nil => rfl
  | cons entry rest ih =>
    rw [List.map_cons, List.mem_cons, not_or] at new
    rw [putEntries, if_neg (Ne.symm new.1), ih new.2]
    rfl

/-- What an update leaves is what was there, and the new entry. -/
theorem mem_put {l : Ledger K V} {k : K} {v : V} {entry : K × V}
    (member : entry ∈ (l.put k v).entries) : entry = (k, v) ∨ entry ∈ l.entries := by
  have among (entries : List (K × V)) (member : entry ∈ putEntries k v entries) :
      entry = (k, v) ∨ entry ∈ entries := by
    induction entries with
    | nil => exact .inl (List.mem_singleton.mp member)
    | cons head rest ih =>
      rw [putEntries] at member
      split at member
      · rcases List.mem_cons.mp member with here | later
        · exact .inl here
        · exact .inr (List.mem_cons_of_mem _ later)
      · rcases List.mem_cons.mp member with here | later
        · exact .inr (here ▸ List.mem_cons_self)
        · rcases ih later with new | old
          · exact .inl new
          · exact .inr (List.mem_cons_of_mem _ old)
  exact among l.entries member

theorem contains_put (l : Ledger K V) (k other : K) (v : V) :
    (l.put k v).contains other = (decide (other = k) || l.contains other) := by
  have listed : other ∈ (l.put k v).keys ↔ other = k ∨ other ∈ l.keys := by
    rw [keys, put, keys_putEntries, ← keys]
    split
    · rename_i known
      exact ⟨.inr, fun either => either.elim (fun same => same ▸ known) id⟩
    · rw [List.mem_append, List.mem_singleton, or_comm]
  simp [contains, listed]

theorem contains_remove (l : Ledger K V) (k other : K) :
    (l.remove k).contains other = (decide (other ≠ k) && l.contains other) := by
  have listed : other ∈ (l.remove k).keys ↔ other ≠ k ∧ other ∈ l.keys := by
    simp [keys, remove, and_comm]
  simp [contains, listed]

def replay (l : Ledger K V) (entries : List (K × V)) : Ledger K V :=
  entries.foldl (fun l entry => l.put entry.1 entry.2) l

/-- Entries with new keys are appended. -/
theorem replay_new {l : Ledger K V} {entries : List (K × V)}
    (distinct : ((l.entries ++ entries).map Prod.fst).Nodup) :
    (l.replay entries).entries = l.entries ++ entries := by
  induction entries generalizing l with
  | nil => exact (List.append_nil _).symm
  | cons entry rest ih =>
    have new : entry.1 ∉ l.entries.map Prod.fst := by
      rw [List.map_append, List.map_cons] at distinct
      intro old
      exact (List.nodup_append.mp distinct).2.2 _ old _ List.mem_cons_self rfl
    have appended : (l.put entry.1 entry.2).entries = l.entries ++ [entry] :=
      putEntries_new new entry.2
    have step := @ih (l.put entry.1 entry.2) (by
      rw [appended, List.append_assoc]
      exact distinct)
    rw [replay, List.foldl_cons]
    rw [appended, List.append_assoc] at step
    exact step

/-- Written again in their order, the entries of a ledger make the same ledger. -/
theorem replay_entries (l : Ledger K V) : empty.replay l.entries = l :=
  eq_of_entries (replay_new l.distinct)

end Ledger

end Surch.Lib
