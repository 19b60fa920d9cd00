import Surch.Postings.Integrity

/-! Reading an attested range: whatever the file holds by now, a range that verifies is the
range that was attested, and an intact file verifies. -/
namespace Surch.Postings
open Surch.Lib

variable {Digest : Type} {hash : List UInt8 → Digest}

/-- The shared table holds the digests of `data` from the region's start on. -/
structure Attested (hash : List UInt8 → Digest) (integrity : P2IntegrityTable Digest)
    (region : P2VerifiedRegion) (data : List UInt8) : Prop where
  dataLen : region.dataLen = data.length
  digestCount : region.digestCount = p2DigestCount data.length
  inside : region.digestStart + region.digestCount < 2 ^ 32
  digest : ∀ pageIndex, pageIndex < region.digestCount →
    integrity.digests[region.digestStart + pageIndex]? =
      some (p2DigestPage hash region.kind region.fieldOrdinal region.dataBase region.dataLen
        pageIndex (p2Page data pageIndex))

/-- What `p2_digest_region` returns is attested wherever its digests were published. -/
theorem attested_of_digestRegion {kind : P2RegionKind} {fieldOrdinal dataBase digestStart : Nat}
    {data : List UInt8} {digested : P2DigestedRegion Digest}
    (produced : p2DigestRegion hash kind fieldOrdinal dataBase data digestStart = some digested)
    {integrity : P2IntegrityTable Digest} {before after : List Digest}
    (published : integrity.digests = before ++ digested.digests ++ after)
    (start : before.length = digestStart) (small : integrity.digests.length < 2 ^ 32) :
    Attested hash integrity digested.region data := by
  unfold p2DigestRegion at produced
  split at produced
  · cases produced
    rw [published] at small
    simp only [List.length_append, List.length_map, List.length_range] at small
    refine ⟨rfl, rfl, by simp only; omega, ?_⟩
    intro pageIndex bound
    simp only at bound ⊢
    rw [published, ← start, List.append_assoc, List.getElem?_append_right (by omega),
      Nat.add_sub_cancel_left, List.getElem?_append_left (by simpa using bound),
      List.getElem?_map, List.getElem?_range bound]
    rfl
  · cases produced

theorem p2PageHeader_length (kind : P2RegionKind)
    (fieldOrdinal dataBase dataLen pageIndex pageLen : Nat) :
    (p2PageHeader kind fieldOrdinal dataBase dataLen pageIndex pageLen).length = 53 := by
  simp [p2PageHeader, p2IntegrityDomain]

theorem page_eq_of_digest_eq (injective : Function.Injective hash) {kind : P2RegionKind}
    {fieldOrdinal dataBase dataLen pageIndex : Nat} {page other : List UInt8}
    (same : p2DigestPage hash kind fieldOrdinal dataBase dataLen pageIndex page =
      p2DigestPage hash kind fieldOrdinal dataBase dataLen pageIndex other) : page = other := by
  have inputs := injective same
  exact (List.append_inj inputs (by simp only [p2PageHeader_length])).2

theorem p2Page_getElem? (data : List UInt8) {pageIndex x : Nat}
    (page : x / p2IntegrityPageLen = pageIndex) :
    (p2Page data pageIndex)[x - pageIndex * p2IntegrityPageLen]? = data[x]? := by
  simp only [p2IntegrityPageLen] at page ⊢
  rw [p2Page, List.getElem?_take_of_lt (by simp only [p2IntegrityPageLen]; omega),
    List.getElem?_drop]
  congr 1
  simp only [p2IntegrityPageLen]
  omega

variable [DecidableEq Digest]

theorem verifyPage_sound (injective : Function.Injective hash) {region : P2VerifiedRegion}
    {integrity : P2IntegrityTable Digest} {data bytes : List UInt8}
    (attested : Attested hash integrity region data) {pageStart pageIndex : Nat}
    (bound : pageIndex < region.digestCount)
    (verified : verifyPage hash region integrity bytes pageStart pageIndex = .ok ()) (x : Nat)
    (page : x / p2IntegrityPageLen = pageIndex) (inside : x < data.length) :
    pageStart ≤ pageIndex * p2IntegrityPageLen ∧ bytes[x - pageStart]? = data[x]? := by
  unfold verifyPage at verified
  rw [attested.digest pageIndex bound] at verified
  split at verified
  · cases verified
  · dsimp only at verified
    split at verified
    · cases verified
    · rename_i ordered
      split at verified
      · rename_i fits
        split at verified
        · rename_i same
          have equal := page_eq_of_digest_eq injective same
          have at_x := p2Page_getElem? data page
          rw [attested.dataLen] at equal ordered fits
          rw [← equal] at at_x
          simp only [p2IntegrityPageLen] at page ordered fits at_x ⊢
          refine ⟨by omega, ?_⟩
          rw [List.getElem?_take_of_lt (by omega), List.getElem?_drop] at at_x
          rw [← at_x]
          congr 1
          omega
        · cases verified
      · cases verified

theorem verifyPages_sound (injective : Function.Injective hash) {region : P2VerifiedRegion}
    {integrity : P2IntegrityTable Digest} {data bytes : List UInt8}
    (attested : Attested hash integrity region data) (pageStart pages pageIndex : Nat)
    (bound : pageIndex + pages ≤ region.digestCount)
    (verified : verifyPages hash region integrity bytes pageStart pages pageIndex = .ok ())
    (x : Nat) (first : pageIndex ≤ x / p2IntegrityPageLen)
    (last : x / p2IntegrityPageLen < pageIndex + pages) (inside : x < data.length) :
    bytes[x - pageStart]? = data[x]? := by
  induction pages generalizing pageIndex with
  | zero => omega
  | succ pages ih =>
    rw [verifyPages] at verified
    cases head : verifyPage hash region integrity bytes pageStart pageIndex with
    | error e =>
      rw [head] at verified
      cases verified
    | ok done =>
      rw [head] at verified
      by_cases here : x / p2IntegrityPageLen = pageIndex
      · exact (verifyPage_sound injective attested (by omega) head x here inside).2
      · exact ih (pageIndex + 1) (by omega) verified (by omega) (by omega)

theorem readVerifiedRange_ok {segment : PostingsSegment} {region : P2VerifiedRegion}
    {integrity : P2IntegrityTable Digest} {rangeBase rangeLen : Nat} {result : List UInt8}
    (accepted : readVerifiedRange hash segment region integrity rangeBase rangeLen = .ok result) :
    0 < rangeLen ∧ region.dataBase ≤ rangeBase ∧
      rangeBase + rangeLen ≤ region.dataBase + region.dataLen ∧
      (rangeBase + rangeLen - region.dataBase - 1) / p2IntegrityPageLen < region.digestCount ∧
      coveringEnd region rangeBase rangeLen - coveringStart region rangeBase < 2 ^ 32 ∧
      ∃ bytes,
        verifyPages hash region integrity bytes (coveringStart region rangeBase)
          ((rangeBase + rangeLen - region.dataBase - 1) / p2IntegrityPageLen + 1 -
            (rangeBase - region.dataBase) / p2IntegrityPageLen)
          ((rangeBase - region.dataBase) / p2IntegrityPageLen) = .ok () ∧
        rangeBase - region.dataBase - coveringStart region rangeBase + rangeLen ≤ bytes.length ∧
        result = (bytes.drop (rangeBase - region.dataBase -
          coveringStart region rangeBase)).take rangeLen := by
  unfold readVerifiedRange at accepted
  obtain ⟨-, accepted⟩ := guarded_ok.mp accepted
  obtain ⟨-, accepted⟩ := guarded_ok.mp accepted
  obtain ⟨range, accepted⟩ := guarded_ok.mp accepted
  dsimp only at accepted
  obtain ⟨counted, accepted⟩ := guarded_ok.mp accepted
  obtain ⟨-, accepted⟩ := guarded_ok.mp accepted
  obtain ⟨-, accepted⟩ := guarded_ok.mp accepted
  obtain ⟨narrow, accepted⟩ := guarded_ok.mp accepted
  cases read : segment.readChecked (region.dataBase + coveringStart region rangeBase)
      (coveringEnd region rangeBase rangeLen - coveringStart region rangeBase) with
  | error e =>
    rw [read] at accepted
    cases e <;> cases accepted
  | ok bytes =>
    simp only [read] at accepted
    obtain ⟨done, checked, accepted⟩ := except_bind_ok.mp accepted
    rw [not_or, not_or] at range
    rw [not_or] at narrow
    split at accepted
    · rename_i enough
      cases accepted
      exact ⟨Nat.pos_of_ne_zero range.1, not_lt.mp range.2.1, not_lt.mp range.2.2,
        not_le.mp counted, not_le.mp narrow.2, bytes, checked, enough, rfl⟩
    · cases accepted

theorem readVerifiedRange_sound (injective : Function.Injective hash)
    {region : P2VerifiedRegion} {integrity : P2IntegrityTable Digest} {data : List UInt8}
    (attested : Attested hash integrity region data) (segment : PostingsSegment)
    (rangeBase rangeLen : Nat) {result : List UInt8}
    (accepted : readVerifiedRange hash segment region integrity rangeBase rangeLen = .ok result) :
    result = (data.drop (rangeBase - region.dataBase)).take rangeLen := by
  obtain ⟨positive, after, before, counted, _, bytes, verified, enough, rfl⟩ :=
    readVerifiedRange_ok accepted
  have len := attested.dataLen
  obtain ⟨start, hstart⟩ : ∃ start, start = rangeBase - region.dataBase := ⟨_, rfl⟩
  have covering : coveringStart region rangeBase = start / p2IntegrityPageLen * p2IntegrityPageLen := by
    rw [coveringStart, hstart]
  rw [← hstart] at verified enough ⊢
  rw [covering] at verified enough ⊢
  have below : start / p2IntegrityPageLen * p2IntegrityPageLen ≤ start := Nat.div_mul_le_self _ _
  have ending : rangeBase + rangeLen - region.dataBase - 1 = start + rangeLen - 1 := by omega
  rw [ending] at verified counted
  have ordered : start / p2IntegrityPageLen ≤ (start + rangeLen - 1) / p2IntegrityPageLen :=
    Nat.div_le_div_right (by omega)
  apply List.ext_getElem?
  intro j
  by_cases small : j < rangeLen
  · have page : (start + j) / p2IntegrityPageLen ≤ (start + rangeLen - 1) / p2IntegrityPageLen :=
      Nat.div_le_div_right (by omega)
    have first : start / p2IntegrityPageLen ≤ (start + j) / p2IntegrityPageLen :=
      Nat.div_le_div_right (by omega)
    have agree := verifyPages_sound injective attested _ _ _ (by omega) verified (start + j) first
      (by omega) (by omega)
    rw [List.getElem?_take_of_lt small, List.getElem?_take_of_lt small, List.getElem?_drop,
      List.getElem?_drop, ← agree]
    congr 1
    omega
  · rw [List.getElem?_eq_none (by rw [List.length_take, List.length_drop]; omega),
      List.getElem?_eq_none (by rw [List.length_take, List.length_drop]; omega)]

theorem p2Page_of_covering {data : List UInt8} {pageStart pageEnd pageIndex : Nat}
    (after : pageStart ≤ pageIndex * p2IntegrityPageLen)
    (before : min (pageIndex * p2IntegrityPageLen + p2IntegrityPageLen) data.length ≤ pageEnd)
    (inside : pageIndex * p2IntegrityPageLen ≤ data.length) :
    (((data.drop pageStart).take (pageEnd - pageStart)).drop
        (pageIndex * p2IntegrityPageLen - pageStart)).take
      (min (pageIndex * p2IntegrityPageLen + p2IntegrityPageLen) data.length - pageStart -
        (pageIndex * p2IntegrityPageLen - pageStart)) = p2Page data pageIndex := by
  rw [List.drop_take, List.drop_drop, List.take_take, p2Page]
  generalize pageIndex * p2IntegrityPageLen = position at after before inside ⊢
  have reached : pageStart + (position - pageStart) = position := by omega
  rw [reached]
  by_cases full : position + p2IntegrityPageLen ≤ data.length
  · congr 1
    omega
  · rw [List.take_of_length_le, List.take_of_length_le]
    · rw [List.length_drop]
      omega
    · rw [List.length_drop]
      omega

theorem verifyPage_complete {region : P2VerifiedRegion} {integrity : P2IntegrityTable Digest}
    {data : List UInt8} (attested : Attested hash integrity region data)
    {pageStart pageEnd pageIndex : Nat} (bound : pageIndex < region.digestCount)
    (after : pageStart ≤ pageIndex * p2IntegrityPageLen)
    (before : min ((pageIndex + 1) * p2IntegrityPageLen) data.length ≤ pageEnd)
    (inside : pageIndex * p2IntegrityPageLen ≤ data.length) (ending : pageEnd ≤ data.length) :
    verifyPage hash region integrity ((data.drop pageStart).take (pageEnd - pageStart)) pageStart
      pageIndex = .ok () := by
  have numbered : ¬ region.digestStart + pageIndex ≥ 2 ^ 32 := by
    have small := attested.inside
    omega
  rw [Nat.add_mul, Nat.one_mul] at before
  have page := p2Page_of_covering after before inside
  unfold verifyPage
  rw [if_neg numbered, attested.digest pageIndex bound, attested.dataLen]
  dsimp only
  rw [page]
  clear page attested bound numbered
  generalize pageIndex * p2IntegrityPageLen = position at after before inside ⊢
  rw [if_neg (by omega), if_pos, if_pos rfl]
  rw [List.length_take, List.length_drop]
  omega

theorem verifyPages_complete {region : P2VerifiedRegion} {integrity : P2IntegrityTable Digest}
    {data : List UInt8} (attested : Attested hash integrity region data)
    {pageStart pageEnd : Nat} (ending : pageEnd ≤ data.length) (pages pageIndex : Nat)
    (bound : pageIndex + pages ≤ region.digestCount)
    (after : pageStart ≤ pageIndex * p2IntegrityPageLen)
    (before : min ((pageIndex + pages) * p2IntegrityPageLen) data.length ≤ pageEnd)
    (inside : ∀ i, i < pages → (pageIndex + i) * p2IntegrityPageLen ≤ data.length) :
    verifyPages hash region integrity ((data.drop pageStart).take (pageEnd - pageStart)) pageStart
      pages pageIndex = .ok () := by
  induction pages generalizing pageIndex with
  | zero => rfl
  | succ pages ih =>
    have wider : (pageIndex + 1) * p2IntegrityPageLen ≤
        (pageIndex + (pages + 1)) * p2IntegrityPageLen := Nat.mul_le_mul_right _ (by omega)
    have head := verifyPage_complete attested (by omega) after (by omega) (inside 0 (by omega))
      ending
    have shift : pageIndex + 1 + pages = pageIndex + (pages + 1) := by omega
    rw [verifyPages, head]
    refine ih (pageIndex + 1) (by omega) ?_ (by rw [shift]; exact before) ?_
    · rw [Nat.add_mul]
      omega
    · intro i small
      have := inside (i + 1) (by omega)
      rwa [show pageIndex + 1 + i = pageIndex + (i + 1) by omega]

theorem covering_spec {start rangeLen size : Nat} (positive : 0 < rangeLen)
    (inside : start + rangeLen ≤ size) :
    start / p2IntegrityPageLen * p2IntegrityPageLen ≤ start ∧
      start / p2IntegrityPageLen ≤ (start + rangeLen - 1) / p2IntegrityPageLen ∧
      start + rangeLen ≤ ((start + rangeLen - 1) / p2IntegrityPageLen + 1) * p2IntegrityPageLen ∧
      (start + rangeLen - 1) / p2IntegrityPageLen * p2IntegrityPageLen ≤ start + rangeLen - 1 ∧
      (start + rangeLen - 1) / p2IntegrityPageLen < p2DigestCount size := by
  refine ⟨Nat.div_mul_le_self _ _, Nat.div_le_div_right (by omega), ?_, Nat.div_mul_le_self _ _, ?_⟩
  · simp only [p2IntegrityPageLen]
    omega
  · rw [p2DigestCount]
    split <;> simp only [p2IntegrityPageLen] at * <;> omega

/-- On an intact file every non-empty range inside the region is served, as long as the pages
covering it fit one read. -/
theorem readVerifiedRange_complete {region : P2VerifiedRegion}
    {integrity : P2IntegrityTable Digest} {data : List UInt8}
    (attested : Attested hash integrity region data) {segment : PostingsSegment}
    (holds : segment.Holds region.dataBase data)
    (readable : ∀ offset length, segment.device.reads offset length = true)
    {rangeBase rangeLen : Nat} (positive : 0 < rangeLen) (after : region.dataBase ≤ rangeBase)
    (before : rangeBase + rangeLen ≤ region.dataBase + data.length)
    (narrow : coveringEnd region rangeBase rangeLen - coveringStart region rangeBase < 2 ^ 32) :
    readVerifiedRange hash segment region integrity rangeBase rangeLen =
      .ok ((data.drop (rangeBase - region.dataBase)).take rangeLen) := by
  have len := attested.dataLen
  obtain ⟨start, rfl⟩ := Nat.exists_eq_add_of_le after
  have inside : start + rangeLen ≤ data.length := by omega
  have relative_end : region.dataBase + start + rangeLen - region.dataBase = start + rangeLen := by
    omega
  have region_fits : ¬ region.dataBase + data.length ≥ 2 ^ 64 := by
    have below := holds.below
    have offset_fits := segment.offset_fits
    omega
  have range_fits : ¬ region.dataBase + start + rangeLen ≥ 2 ^ 64 := by omega
  have proper : ¬ (rangeLen = 0 ∨ region.dataBase + start < region.dataBase ∨
      region.dataBase + start + rangeLen > region.dataBase + data.length) := by omega
  obtain ⟨low, ordered, high, last_inside, pages⟩ := covering_spec positive inside
  have counted : ¬ (start + rangeLen - 1) / p2IntegrityPageLen ≥ region.digestCount := by
    rw [attested.digestCount]
    exact not_le.mpr pages
  have many : (start + rangeLen - 1) / p2IntegrityPageLen + 1 ≤ region.digestCount := by omega
  simp only [coveringStart, coveringEnd, Nat.add_sub_cancel_left, relative_end, len] at narrow
  simp only [readVerifiedRange, coveringStart, coveringEnd, Nat.add_sub_cancel_left, relative_end,
    len, if_neg region_fits, if_neg range_fits, if_neg proper, if_neg counted]
  have page_fits : ¬ ((start + rangeLen - 1) / p2IntegrityPageLen + 1) * p2IntegrityPageLen ≥
      2 ^ 64 := by
    have small := attested.inside
    have most := Nat.mul_le_mul_right p2IntegrityPageLen (show
      (start + rangeLen - 1) / p2IntegrityPageLen + 1 ≤ 2 ^ 32 by omega)
    have limit : 2 ^ 32 * p2IntegrityPageLen < 2 ^ 64 := by decide
    omega
  rw [if_neg page_fits]
  clear after before pages relative_end proper range_fits page_fits counted len
  generalize start / p2IntegrityPageLen = first at *
  generalize (start + rangeLen - 1) / p2IntegrityPageLen = last at *
  obtain ⟨pageEnd, hpageEnd⟩ : ∃ pageEnd, pageEnd =
    min ((last + 1) * p2IntegrityPageLen) data.length := ⟨_, rfl⟩
  have reached : start + rangeLen ≤ pageEnd := by omega
  have ending : pageEnd ≤ data.length := by omega
  rw [← hpageEnd] at narrow ⊢
  have verified : verifyPages hash region integrity
      ((data.drop (first * p2IntegrityPageLen)).take (pageEnd - first * p2IntegrityPageLen))
      (first * p2IntegrityPageLen) (last + 1 - first) first = .ok () := by
    have total : first + (last + 1 - first) = last + 1 := by omega
    apply verifyPages_complete attested ending (last + 1 - first) first
    · rw [total]
      exact many
    · exact le_rfl
    · rw [total]
      exact hpageEnd.ge
    · intro i early
      have most := Nat.mul_le_mul_right p2IntegrityPageLen (show first + i ≤ last by omega)
      omega
  clear ordered high last_inside many hpageEnd
  generalize first * p2IntegrityPageLen = pageStart at *
  have bytes_length : ((data.drop pageStart).take (pageEnd - pageStart)).length =
      pageEnd - pageStart := by
    rw [List.length_take, List.length_drop]
    omega
  have read : segment.readChecked (region.dataBase + pageStart) (pageEnd - pageStart) =
      .ok ((data.drop pageStart).take (pageEnd - pageStart)) := by
    have parts : data = data.take pageStart ++ (data.drop pageStart).take (pageEnd - pageStart) ++
        (data.drop pageStart).drop (pageEnd - pageStart) := by
      rw [List.append_assoc, List.take_append_drop, List.take_append_drop]
    rw [parts] at holds
    have held := holds.inner
    rw [List.length_take, Nat.min_eq_left (by omega)] at held
    have whole := held.readChecked (by rw [← List.length_pos_iff, bytes_length]; omega) readable
    rwa [bytes_length] at whole
  have requested : min rangeLen (pageEnd - pageStart - (start - pageStart)) = rangeLen := by omega
  have position : pageStart + (start - pageStart) = start := by omega
  rw [if_neg (by omega), if_neg (by omega), read]
  simp only [verified, bind, Except.bind, bytes_length]
  rw [if_pos (by omega), List.drop_take, List.drop_drop, List.take_take, position, requested]

/-- Page attestation is sound against any later content of the file and complete on an intact
one. -/
theorem attestation_sound_and_complete (injective : Function.Injective hash)
    (kind : P2RegionKind) (fieldOrdinal dataBase digestStart : Nat) (data : List UInt8)
    (digested : P2DigestedRegion Digest)
    (produced : p2DigestRegion hash kind fieldOrdinal dataBase data digestStart = some digested)
    (integrity : P2IntegrityTable Digest) (before after : List Digest)
    (published : integrity.digests = before ++ digested.digests ++ after)
    (start : before.length = digestStart) (small : integrity.digests.length < 2 ^ 32) :
    (∀ (later : PostingsSegment) (rangeBase rangeLen : Nat),
      (∃ e, readVerifiedRange hash later digested.region integrity rangeBase rangeLen = .error e) ∨
        readVerifiedRange hash later digested.region integrity rangeBase rangeLen =
          .ok ((data.drop (rangeBase - dataBase)).take rangeLen) ∧
        dataBase ≤ rangeBase ∧ rangeBase + rangeLen ≤ dataBase + data.length) ∧
    ∀ intact : PostingsSegment, intact.Holds dataBase data →
      (∀ offset length, intact.device.reads offset length = true) →
      ∀ rangeBase rangeLen : Nat,
        (if 0 < rangeLen ∧ dataBase ≤ rangeBase ∧ rangeBase + rangeLen ≤ dataBase + data.length ∧
            coveringEnd digested.region rangeBase rangeLen -
              coveringStart digested.region rangeBase < 2 ^ 32
        then readVerifiedRange hash intact digested.region integrity rangeBase rangeLen =
          .ok ((data.drop (rangeBase - dataBase)).take rangeLen)
        else ∃ e, readVerifiedRange hash intact digested.region integrity rangeBase rangeLen =
          .error e) := by
  have attested := attested_of_digestRegion produced published start small
  have base : digested.region.dataBase = dataBase := by
    unfold p2DigestRegion at produced
    split at produced <;> cases produced
    rfl
  have len := attested.dataLen
  rw [← base]
  constructor
  · intro later rangeBase rangeLen
    cases outcome : readVerifiedRange hash later digested.region integrity rangeBase rangeLen with
    | error e => exact .inl ⟨e, rfl⟩
    | ok result =>
      obtain ⟨_, low, high, _⟩ := readVerifiedRange_ok outcome
      rw [readVerifiedRange_sound injective attested later rangeBase rangeLen outcome]
      exact .inr ⟨rfl, low, by omega⟩
  · intro intact holds readable rangeBase rangeLen
    split
    · rename_i range
      exact readVerifiedRange_complete attested holds readable range.1 range.2.1 range.2.2.1
        range.2.2.2
    · rename_i outside
      cases outcome : readVerifiedRange hash intact digested.region integrity rangeBase rangeLen with
      | error e => exact ⟨e, rfl⟩
      | ok result =>
        obtain ⟨positive, low, high, _, narrow, _⟩ := readVerifiedRange_ok outcome
        exact absurd ⟨positive, low, by omega, narrow⟩ outside

def longEntries : List UInt8 := List.replicate 5000 7

/-- With the identity as hash and other digests around, a range over the end of the first page is read
from both pages, which are fetched whole. -/
theorem attestation_of_two_pages :
    ∃ digested, p2DigestRegion id .entries 0 0 longEntries 1 = some digested ∧
      digested.digests.length = 2 ∧
      coveringStart digested.region 4000 = 0 ∧ coveringEnd digested.region 4000 200 = 5000 ∧
      readVerifiedRange id (freshSegment longEntries) digested.region
        ⟨[[9]] ++ digested.digests ++ [[8]], 1, 0, 1, 1, 1⟩ 4000 200 = .ok (List.replicate 200 7) := by
  have computed : (p2DigestRegion id .entries 0 0 longEntries 1).map (fun digested =>
      (digested.digests.length, coveringStart digested.region 4000,
        coveringEnd digested.region 4000 200)) = some (2, 0, 5000) := by decide +kernel
  obtain ⟨digested, produced, values⟩ := Option.map_eq_some_iff.mp computed
  rw [Prod.mk.injEq, Prod.mk.injEq] at values
  obtain ⟨pages, first, last⟩ := values
  have bytes : longEntries = List.replicate 5000 7 := rfl
  generalize longEntries = data at *
  have length : data.length = 5000 := by rw [bytes, List.length_replicate]
  have room : data.length < 2 ^ 63 := by omega
  have served := (attestation_sound_and_complete Function.injective_id .entries 0 0 1 data digested
    produced ⟨[[9]] ++ digested.digests ++ [[8]], 1, 0, 1, 1, 1⟩ [[9]] [[8]] rfl rfl
    (by simp [pages])).2 (freshSegment data) (freshSegment_holds _ room).1
      (freshSegment_holds _ room).2 4000 200
  rw [if_pos (by rw [length, first, last]; decide), bytes, List.drop_replicate, List.take_replicate]
    at served
  rw [bytes]
  exact ⟨digested, bytes ▸ produced, pages, first, last, served⟩

end Surch.Postings
