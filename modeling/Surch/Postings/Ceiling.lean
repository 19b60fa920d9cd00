import Surch.Lib.Tiling
import Surch.Postings.Spill

/-! The attestation table of one dictionary: it stays under its byte limit, and the regions of
the fields that publish cut it into consecutive pieces. -/
namespace Surch.Postings
open Surch.Lib Surch.Codec

variable {Digest : Type}

namespace P2IntegrityBuilder

/- The table fits its limit and its counters their 32 bits. -/
structure Within (builder : P2IntegrityBuilder Digest) : Prop where
  digests : builder.digests.length < 2 ^ 32
  protectedFields : builder.protectedFields < 2 ^ 32
  cost : p2ByteCost builder.digests.length builder.protectedFields ≤ builder.maxBytes

theorem withMaxBytes_within (maxBytes : Nat) :
    (withMaxBytes maxBytes : P2IntegrityBuilder Digest).Within where
  digests := Nat.two_pow_pos 32
  protectedFields := Nat.two_pow_pos 32
  cost := Nat.zero_le _

theorem Unpublished.within {before after : P2IntegrityBuilder Digest}
    (same : before.Unpublished after) (within : before.Within) : after.Within where
  digests := by rw [same.digests]; exact within.digests
  protectedFields := by rw [same.protectedFields]; exact within.protectedFields
  cost := by rw [same.digests, same.protectedFields, same.maxBytes]; exact within.cost

end P2IntegrityBuilder

def publishedRegions (fields : List FieldPostings) : List P2VerifiedRegion :=
  fields.flatMap fun field =>
    match field.p2Integrity with
    | none => []
    | some integrity => [integrity.directory, integrity.entries]

/- Regions laid end to end over the digests from `first` to `last`. -/
abbrev DigestTiles (first last : Nat) (regions : List P2VerifiedRegion) : Prop :=
  Tiles P2VerifiedRegion.digestStart P2VerifiedRegion.digestCount first last regions

theorem p2DigestRegion_range {hash : List UInt8 → Digest} {kind : P2RegionKind}
    {fieldOrdinal dataBase digestStart : Nat} {data : List UInt8}
    {digested : P2DigestedRegion Digest}
    (produced : p2DigestRegion hash kind fieldOrdinal dataBase data digestStart = some digested) :
    digested.region.digestStart = digestStart ∧
      digested.region.digestCount = digested.digests.length := by
  unfold p2DigestRegion at produced
  split at produced <;> cases produced
  simp

/-- One field: either nothing is published, or its two regions follow the digests so far. -/
theorem finishField_published (hash : List UInt8 → Digest) {diskEnabled : Bool} {fst : Fst}
    {channels : FieldChannels} {fieldOrdinal : Nat} {before after : BuildState Digest}
    {field : FieldPostings}
    (finished : finishField hash diskEnabled fst channels fieldOrdinal before = (after, field)) :
    (field.p2Integrity = none ∧ before.p2Integrity.Unpublished after.p2Integrity) ∨
      (∃ integrity, field.p2Integrity = some integrity) ∧
        (∃ more, after.p2Integrity.digests = before.p2Integrity.digests ++ more) ∧
        (before.p2Integrity.Within → after.p2Integrity.Within) ∧
        after.p2Integrity.maxBytes = before.p2Integrity.maxBytes ∧
        DigestTiles before.p2Integrity.digests.length after.p2Integrity.digests.length
          (publishedRegions [field]) := by
  obtain ⟨flushed, tables, _, persisted, rfl⟩ := finishField_steps hash finished
  rcases persist_cases hash persisted with kept | ⟨ordinal, blockDirBase, entriesBase, entries,
    directoryIntegrity, entriesIntegrity, spilled⟩
  · have tables_eq := kept.tables_eq
    subst tables_eq
    exact .inl ⟨rfl, kept.p2Integrity⟩
  · have tables_eq := spilled.tables_eq
    subst tables_eq
    obtain ⟨directory_start, directory_count⟩ := p2DigestRegion_range spilled.directory
    obtain ⟨entries_start, entries_count⟩ := p2DigestRegion_range spilled.entries_region
    have total : after.p2Integrity.digests.length =
        before.p2Integrity.digests.length + directoryIntegrity.digests.length +
          entriesIntegrity.digests.length := by
      rw [spilled.digests, List.length_append, List.length_append]
    refine .inr ⟨⟨_, rfl⟩, ⟨_, by rw [spilled.digests, List.append_assoc]⟩, ?_, spilled.maxBytes, ?_⟩
    · intro within
      have admitted := spilled.admitted
      simp only [P2IntegrityBuilder.admits, Bool.and_eq_true, decide_eq_true_eq] at admitted
      exact ⟨by rw [total]; exact admitted.1.1.1, by rw [spilled.protectedFields]; exact admitted.1.1.2,
        by rw [total, spilled.protectedFields, spilled.maxBytes]; exact admitted.2⟩
    · refine ⟨directory_start, ?_, ?_⟩
      · rw [entries_start, directory_count]
      · change _ = after.p2Integrity.digests.length
        rw [total, entries_count, directory_count]

/-- The table of an assembled dictionary: under its limit, and tiled by the published regions. -/
theorem assemble_table (hash : List UInt8 → Digest) (device : Device) (diskEnabled : Bool)
    (maxBytes : Nat) (fields : SortedMap String (Fst × FieldChannels)) :
    (assemble hash device diskEnabled maxBytes fields).p2Integrity.digests.length < 2 ^ 32 ∧
      (assemble hash device diskEnabled maxBytes fields).p2Integrity.protectedFields < 2 ^ 32 ∧
      p2ByteCost (assemble hash device diskEnabled maxBytes fields).p2Integrity.digests.length
        (assemble hash device diskEnabled maxBytes fields).p2Integrity.protectedFields ≤ maxBytes ∧
      DigestTiles 0 (assemble hash device diskEnabled maxBytes fields).p2Integrity.digests.length
        (publishedRegions
          ((assemble hash device diskEnabled maxBytes fields).fields.entries.map Prod.snd)) := by
  obtain ⟨visited, ⟨within, limit, tiles⟩, _, outputs⟩ := fields.mapAccum_rule
    (fun state fieldOrdinal _ field =>
      finishField hash diskEnabled field.1 field.2 fieldOrdinal state)
    { postingsSegment := PostingsSegment.tryNew device
      p2Integrity := .withMaxBytes maxBytes
      postingsSkippedTerms := 0 }
    (fun state done => state.p2Integrity.Within ∧ state.p2Integrity.maxBytes = maxBytes ∧
      DigestTiles 0 state.p2Integrity.digests.length (publishedRegions (done.map fun e => e.2.2)))
    ⟨P2IntegrityBuilder.withMaxBytes_within maxBytes, rfl, rfl⟩
    (by
      rintro state done name ⟨fst, channels⟩ _ ⟨within, limit, tiles⟩
      cases finished : finishField hash diskEnabled fst channels done.length state with
      | mk after field =>
        have shape : publishedRegions
              ((done ++ [(name, (fst, channels), field)]).map fun e => e.2.2) =
            publishedRegions (done.map fun e => e.2.2) ++ publishedRegions [field] := by
          rw [List.map_append, publishedRegions, List.flatMap_append]
          rfl
        rw [shape]
        rcases finishField_published hash finished with ⟨missing, same⟩ |
          ⟨_, _, kept, limit_kept, next⟩
        · refine ⟨same.within within, same.maxBytes.trans limit, ?_⟩
          have none_added : publishedRegions [field] = [] := by
            simp [publishedRegions, missing]
          rw [none_added, List.append_nil, same.digests]
          exact tiles
        · exact ⟨kept within, limit_kept.trans limit, tiles.append next⟩)
  have fields_eq : (assemble hash device diskEnabled maxBytes fields).fields.entries.map Prod.snd =
      visited.map fun e => e.2.2 := by
    have values := congrArg (List.map Prod.snd) outputs
    rw [List.map_map] at values
    exact values.symm
  refine ⟨within.digests, within.protectedFields, ?_, ?_⟩
  · have cost := within.cost
    rw [limit] at cost
    exact cost
  · rw [fields_eq]
    exact tiles

end Surch.Postings
