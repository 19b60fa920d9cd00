import Surch.Codec.Block
import Mathlib.Data.Nat.Log
import Mathlib.Tactic.Linarith

/-! What the planner promises of the deltas it was given, and that the block reader
inverts every channel under that promise. -/
namespace Surch.Codec
open Surch.Lib

theorem bitWidth_le_iff (value width : Nat) : bitWidth value ≤ width ↔ value < 2 ^ width := by
  unfold bitWidth
  split
  · rename_i zero
    simp [zero]
  · rename_i nonzero
    rw [Nat.succ_le_iff, Nat.log2_lt nonzero]

theorem lt_bitWidth_iff (value width : Nat) : width < bitWidth value ↔ 2 ^ width ≤ value := by
  rw [← not_le, bitWidth_le_iff, not_lt]

theorem histogram_modify (histogram : List Nat) (delta w : Nat) (inside : w < histogram.length) :
    (histogram.modify (bitWidth delta) (· + 1)).getD w 0 =
      histogram.getD w 0 + if bitWidth delta = w then 1 else 0 := by
  rw [List.getD_eq_getElem?_getD, List.getD_eq_getElem?_getD, List.getElem?_modify,
    List.getElem?_eq_getElem inside]
  split <;> rfl

theorem deltaHistogram_getD (deltas : List Nat) (w : Nat) (inside : w < 33) :
    (deltaHistogram deltas).getD w 0 = deltas.countP fun delta => bitWidth delta = w := by
  have counted : ∀ histogram : List Nat, w < histogram.length →
      (deltas.foldl (fun histogram delta => histogram.modify (bitWidth delta) (· + 1))
        histogram).getD w 0 =
        histogram.getD w 0 + deltas.countP fun delta => bitWidth delta = w := by
    induction deltas with
    | nil => intro histogram _; simp
    | cons delta deltas ih =>
      intro histogram long
      rw [List.foldl_cons, ih _ (by rw [List.length_modify]; exact long),
        histogram_modify _ _ _ long, List.countP_cons]
      simp only [decide_eq_true_eq]
      omega
  have start := counted (List.replicate 33 0) (by simpa using inside)
  have clear : (List.replicate 33 0).getD w 0 = 0 := by
    rw [List.getD_eq_getElem?_getD, List.getElem?_replicate_of_lt inside, Option.getD_some]
  rw [deltaHistogram, start, clear, Nat.zero_add]

theorem countP_width_split (deltas : List Nat) (start n : Nat) :
    (deltas.countP fun d => start ≤ bitWidth d ∧ bitWidth d < start + (n + 1)) =
      (deltas.countP fun d => bitWidth d = start) +
        deltas.countP fun d => start + 1 ≤ bitWidth d ∧ bitWidth d < start + 1 + n := by
  induction deltas with
  | nil => rfl
  | cons d deltas ih =>
    simp only [List.countP_cons, ih, decide_eq_true_eq]
    by_cases here : bitWidth d = start
    · rw [if_pos (by omega), if_pos here, if_neg (by omega)]
      omega
    · by_cases above : start + 1 ≤ bitWidth d ∧ bitWidth d < start + 1 + n
      · rw [if_pos (by omega), if_neg here, if_pos above]
        omega
      · rw [if_neg (by omega), if_neg here, if_neg above]
        omega

theorem exceptionCost_foldl (deltas : List Nat) (n start count cost : Nat)
    (room : start + n ≤ 33) :
    ((List.range' start n).foldl (fun (exceptions, exceptionBytes) bits =>
      let c := (deltaHistogram deltas).getD bits 0
      (exceptions + c, exceptionBytes + c * (1 + varintLenForBits bits))) (count, cost)).1 =
      count + deltas.countP fun d => start ≤ bitWidth d ∧ bitWidth d < start + n := by
  induction n generalizing start count cost with
  | zero =>
    have none_left :
        (deltas.countP fun d => start ≤ bitWidth d ∧ bitWidth d < start + 0) = 0 := by
      rw [List.countP_eq_zero]
      intro d _
      simp only [decide_eq_true_eq]
      omega
    rw [none_left]
    rfl
  | succ n ih =>
    rw [List.range'_succ, List.foldl_cons]
    simp only
    rw [ih _ _ _ (by omega), deltaHistogram_getD _ _ (by omega), countP_width_split]
    omega

/-- The exceptions counted from the histogram are the deltas wider than the candidate. -/
theorem exceptionCost_fst (deltas : List Nat) (width widthMax : Nat) (ordered : width ≤ widthMax)
    (bound : widthMax ≤ 32) (widest : ∀ d ∈ deltas, bitWidth d ≤ widthMax) :
    (exceptionCost (deltaHistogram deltas) width widthMax).1 =
      deltas.countP fun delta => 2 ^ width ≤ delta := by
  rw [exceptionCost, exceptionCost_foldl _ _ _ _ _ (by omega), Nat.zero_add]
  apply List.countP_congr
  intro d member
  have := widest d member
  have wide := lt_bitWidth_iff d width
  simp only [decide_eq_true_eq]
  omega

/-- What a plan says about the deltas it is used for. -/
def DocPlan.Suits (deltas : List Nat) : DocPlan → Prop
  | .varint => True
  | .packed width => 1 ≤ width ∧ width ≤ 32 ∧ ∀ d ∈ deltas, d < 2 ^ width
  | .patched width exceptions =>
    1 ≤ width ∧ width < 32 ∧ 1 ≤ exceptions ∧
      exceptions = deltas.countP fun delta => 2 ^ width ≤ delta

/-- The candidate loop only ever keeps a plan that suits the deltas. -/
theorem suits_foldl {deltas : List Nat} (cost : Nat → Nat) (exceptions : Nat → Nat)
    (widths : List Nat)
    (sound : ∀ width ∈ widths, (DocPlan.patched width (exceptions width)).Suits deltas)
    (best : DocPlan × Nat) (good : best.1.Suits deltas) :
    (widths.foldl (fun best width =>
      if cost width < best.2 then (DocPlan.patched width (exceptions width), cost width)
      else best) best).1.Suits deltas := by
  induction widths generalizing best with
  | nil => exact good
  | cons width widths ih =>
    rw [List.foldl_cons]
    apply ih fun w hw => sound w (List.mem_cons_of_mem _ hw)
    split
    · exact sound width (List.mem_cons_self ..)
    · exact good

theorem bitWidth_le_of_find (deltas : List Nat) (widthMax : Nat) (fits : ∀ d ∈ deltas, d < 2 ^ 32)
    (found : ((List.range' 1 maxPackedWidth).reverse.find? fun w =>
      (deltaHistogram deltas).getD w 0 > 0) = some widthMax) :
    ∀ d ∈ deltas, bitWidth d ≤ widthMax := by
  intro d member
  by_contra wider
  have small : bitWidth d ≤ 32 := (bitWidth_le_iff d 32).mpr (fits d member)
  obtain ⟨_, before, after, parts, none_before⟩ := List.find?_eq_some_iff_append.mp found
  have listed : bitWidth d ∈ before ++ widthMax :: after := by
    rw [← parts]
    simp only [List.mem_reverse, List.mem_range'_1, maxPackedWidth]
    omega
  have descending : (before ++ widthMax :: after).Pairwise (· > ·) := by
    rw [← parts, List.pairwise_reverse]
    exact List.pairwise_lt_range'
  rw [List.mem_append] at listed
  rcases listed with early | late
  · have empty := none_before _ early
    rw [deltaHistogram_getD _ _ (by omega)] at empty
    simp only [gt_iff_lt, Bool.not_eq_eq_eq_not, Bool.not_true, decide_eq_false_iff_not,
      not_lt, Nat.le_zero, List.countP_eq_zero] at empty
    exact empty d member (by simp)
  · rcases List.mem_cons.mp late with here | later
    · omega
    · have := List.rel_of_pairwise_cons (List.pairwise_append.mp descending).2.1 later
      omega

theorem docPlan_suits (deltas : List Nat) (fits : ∀ d ∈ deltas, d < 2 ^ 32) :
    (docPlan deltas).Suits deltas := by
  unfold docPlan planDocChannel
  split
  · trivial
  · split
    · trivial
    · rename_i widthMax found
      have range := List.mem_of_find?_eq_some found
      simp only [List.mem_reverse, List.mem_range'_1, maxPackedWidth] at range
      have present := List.find?_some found
      simp only [decide_eq_true_eq, gt_iff_lt] at present
      rw [deltaHistogram_getD _ _ (by omega)] at present
      have widest := bitWidth_le_of_find deltas widthMax fits found
      have candidates : ∀ width ∈ List.range' 1 (widthMax - 1),
          (DocPlan.patched width
            (exceptionCost (deltaHistogram deltas) width widthMax).1).Suits deltas := by
        intro width member
        rw [List.mem_range'_1] at member
        have counted := exceptionCost_fst deltas width widthMax (by omega) (by omega) widest
        refine ⟨by omega, by omega, ?_, counted⟩
        obtain ⟨d, hd, width_d⟩ := List.countP_pos_iff.mp present
        rw [counted]
        apply List.countP_pos_iff.mpr
        refine ⟨d, hd, ?_⟩
        simp only [decide_eq_true_eq] at width_d ⊢
        rw [← lt_bitWidth_iff]
        omega
      have kept := suits_foldl
        (fun width => 2 + packedLen deltas.length width +
          (exceptionCost (deltaHistogram deltas) width widthMax).2)
        (fun width => (exceptionCost (deltaHistogram deltas) width widthMax).1)
        (List.range' 1 (widthMax - 1)) candidates
        (.varint, (deltas.map fun delta => varintLenForBits (bitWidth delta)).sum) trivial
      simp only
      split
      · refine ⟨by omega, by omega, fun d member => ?_⟩
        exact (bitWidth_le_iff d widthMax).mp (widest d member)
      · exact kept

theorem reads_byte (byte : UInt8) : Reads readByte [byte] byte := fun _ => rfl

theorem reads_width (width : Nat) (positive : 1 ≤ width) (small : width ≤ 32) :
    Reads readWidth [UInt8.ofNat width] width := by
  have byte : (UInt8.ofNat width).toNat = width := by rw [UInt8.toNat_ofNat']; omega
  refine Reads.bind_silent (reads_byte _) ?_
  simp only [byte, maxPackedWidth]
  rw [if_neg (by omega)]
  exact Reads.pure width

theorem reads_varints (values : List Nat) (fits : ∀ v ∈ values, v < 2 ^ 32) :
    Reads (readVarints values.length) (values.flatMap writeVarintU32) values := by
  induction values with
  | nil => exact Reads.pure []
  | cons v values ih =>
    have head := reads_varint v (fits v (List.mem_cons_self ..))
    have tail := ih fun x hx => fits x (List.mem_cons_of_mem _ hx)
    exact Reads.bind head (Reads.bind_silent tail (Reads.pure (v :: values)))

/-- Reading the exceptions restores the deltas that packing had zeroed. -/
theorem reads_exceptions (threshold : Nat) (deltas : List Nat) (done : List Nat)
    (previousIndex : Option Nat)
    (fits : ∀ d ∈ deltas, d < 2 ^ 32) (small : done.length + deltas.length ≤ 256)
    (behind : ∀ previous ∈ previousIndex, previous < done.length) :
    Reads
      (readExceptions threshold (done.length + deltas.length)
        (deltas.countP fun d => threshold ≤ d) previousIndex
        (done ++ deltas.map fun d => if d ≥ threshold then 0 else d))
      ((exceptionsFrom threshold done.length deltas).flatMap writeException) (done ++ deltas) := by
  induction deltas generalizing done previousIndex with
  | nil => simpa [readExceptions, exceptionsFrom] using Reads.pure done
  | cons d deltas ih =>
    simp only [List.length_cons] at small ⊢
    have rest_fits : ∀ x ∈ deltas, x < 2 ^ 32 := fun x hx => fits x (List.mem_cons_of_mem _ hx)
    have next := ih (done ++ [d])
    simp only [List.length_append, List.length_cons, List.length_nil, Nat.zero_add,
      List.append_assoc, List.singleton_append] at next
    rw [show done.length + (deltas.length + 1) = done.length + 1 + deltas.length by omega]
    by_cases exceeds : threshold ≤ d
    · have index : (UInt8.ofNat done.length).toNat = done.length := by
        rw [UInt8.toNat_ofNat']; omega
      have slot : (done ++ 0 :: deltas.map fun d => if d ≥ threshold then 0 else d).getD
          done.length 0 = 0 := by
        simp [List.getD_eq_getElem?_getD]
      have patched : (done ++ 0 :: deltas.map fun d => if d ≥ threshold then 0 else d).set
          done.length d = done ++ d :: deltas.map fun d => if d ≥ threshold then 0 else d := by
        simp [List.set_append_right]
      have ordered : ¬ (done.length ≥ done.length + 1 + deltas.length ∨
          (previousIndex.any fun previous => done.length ≤ previous) = true) := by
        rintro (outside | repeated)
        · omega
        · cases previousIndex with
          | none => cases repeated
          | some previous =>
            have := behind previous rfl
            simp only [Option.any_some, decide_eq_true_eq] at repeated
            omega
      rw [List.countP_cons_of_pos (by simpa using exceeds), exceptionsFrom, if_pos exceeds,
        List.flatMap_cons, List.map_cons, if_pos exceeds, readExceptions, writeException,
        List.cons_append]
      refine Reads.symbol_bind (reads_byte _) ?_
      rw [index, if_neg ordered]
      refine Reads.bind (reads_varint d (fits d (List.mem_cons_self ..))) ?_
      rw [if_neg (by rw [slot]; omega), patched]
      exact next (some done.length) rest_fits (by omega) (by simp)
    · rw [List.countP_cons_of_neg (by simpa using exceeds), exceptionsFrom, if_neg exceeds,
        List.map_cons, if_neg exceeds]
      refine next previousIndex rest_fits (by omega) fun previous member => ?_
      have := behind previous member
      omega

theorem reads_docChannel (plan : DocPlan) (deltas : List Nat) (suits : plan.Suits deltas)
    (fits : ∀ d ∈ deltas, d < 2 ^ 32) (small : deltas.length < 256) :
    Reads (readDocChannel plan.docMode deltas.length) (writeDocChannel plan deltas) deltas := by
  cases plan with
  | varint => exact reads_varints deltas fits
  | packed width =>
    obtain ⟨positive, bound, narrow⟩ := suits
    exact Reads.symbol_bind (reads_width width positive bound)
      (reads_packBits deltas width positive narrow)
  | patched width exceptions =>
    obtain ⟨positive, bound, some_exception, counted⟩ := suits
    have few : exceptions ≤ deltas.length := counted ▸ List.countP_le_length
    have byte : (UInt8.ofNat exceptions).toNat = exceptions := by
      rw [UInt8.toNat_ofNat']; omega
    have zeroed : ∀ v ∈ deltas.map (fun d => if d ≥ 2 ^ width then 0 else d), v < 2 ^ width := by
      intro v member
      obtain ⟨d, _, rfl⟩ := List.mem_map.mp member
      split
      · exact Nat.two_pow_pos width
      · omega
    have packed := reads_packBits _ width positive zeroed
    rw [List.length_map] at packed
    have restored := reads_exceptions (2 ^ width) deltas [] none fits (by simpa using small.le)
      (by simp)
    simp only [List.length_nil, Nat.zero_add, List.nil_append, ← counted] at restored
    refine Reads.symbol_bind (reads_width width positive bound.le) ?_
    rw [if_neg (by unfold maxPackedWidth; omega)]
    refine Reads.symbol_bind (reads_byte _) ?_
    rw [byte, if_neg (by omega)]
    exact packed.bind restored

/-- Summing the deltas of a strictly increasing chunk gives the chunk back. -/
theorem reads_accumulated (first : Nat) (docs : List Nat) (increasing : (first :: docs).IsChain (· < ·))
    (fits : ∀ d ∈ docs, d < 2 ^ 32) :
    Reads (accumulateDocIds first (blockDeltas (first :: docs))) [] docs := by
  induction docs generalizing first with
  | nil => exact Reads.pure []
  | cons doc docs ih =>
    rw [List.isChain_cons_cons] at increasing
    have bound := fits doc (List.mem_cons_self ..)
    have restored : first + (doc - first) = doc := by omega
    have tail := ih doc increasing.2 fun x hx => fits x (List.mem_cons_of_mem _ hx)
    simp only [blockDeltas, windows2_cons_cons, List.map_cons, accumulateDocIds, restored]
    rw [if_neg (by omega), if_neg (by omega)]
    exact Reads.silent_bind tail (Reads.pure (doc :: docs))

theorem bitWidth_le_freqWidth (freqs : List Nat) : ∀ f ∈ freqs, bitWidth f ≤ freqWidth freqs := by
  have folded : ∀ (widths : List Nat) (best w : Nat), w ≤ best ∨ w ∈ widths →
      w ≤ widths.foldl max best := by
    intro widths
    induction widths with
    | nil => simp
    | cons x widths ih =>
      intro best w place
      rw [List.foldl_cons]
      apply ih
      rw [List.mem_cons] at place
      rcases place with before | rfl | after
      · exact .inl (by omega)
      · exact .inl (by omega)
      · exact .inr after
  intro f member
  have := folded (freqs.map bitWidth) 0 (bitWidth f) (.inr (List.mem_map_of_mem member))
  unfold freqWidth
  omega

theorem freqWidth_le (freqs : List Nat) (fits : ∀ f ∈ freqs, f < 2 ^ 32) :
    freqWidth freqs ≤ 32 := by
  have folded : ∀ (widths : List Nat) (best : Nat), best ≤ 32 → (∀ w ∈ widths, w ≤ 32) →
      widths.foldl max best ≤ 32 := by
    intro widths
    induction widths with
    | nil => simp
    | cons x widths ih =>
      intro best small each
      have := each x (List.mem_cons_self ..)
      exact ih _ (by omega) fun w hw => each w (List.mem_cons_of_mem _ hw)
  have widths : ∀ w ∈ freqs.map bitWidth, w ≤ 32 := by
    intro w member
    obtain ⟨f, hf, rfl⟩ := List.mem_map.mp member
    exact (bitWidth_le_iff f 32).mpr (fits f hf)
  have := folded _ 0 (by decide) widths
  unfold freqWidth
  omega

theorem eq_replicate_of_windows {freq : Nat} {freqs : List Nat}
    (equal : ((windows2 (freq :: freqs)).all fun pair => pair.1 == pair.2) = true) :
    freq :: freqs = List.replicate (freqs.length + 1) freq := by
  induction freqs generalizing freq with
  | nil => rfl
  | cons next freqs ih =>
    simp only [windows2_cons_cons, List.all_cons, Bool.and_eq_true, beq_iff_eq] at equal
    obtain ⟨rfl, rest⟩ := equal
    rw [ih rest]
    simp [List.replicate_succ]

theorem reads_freqChannel (freqs : List Nat) (nonempty : freqs ≠ [])
    (fits : ∀ f ∈ freqs, f < 2 ^ 32) :
    Reads (readFreqChannel (freqMode freqs).code freqs.length)
      (writeFreqChannel (freqMode freqs) freqs) freqs := by
  unfold freqMode
  split
  · rename_i ones
    have constant : freqs = List.replicate freqs.length 1 := by
      apply List.eq_replicate_of_mem
      intro f member
      simpa using List.all_eq_true.mp ones f member
    intro rest
    change Except.ok (List.replicate freqs.length 1, rest) = Except.ok (freqs, rest)
    rw [← constant]
  · rename_i mixed
    split
    · rename_i equal
      obtain ⟨freq, rest, rfl⟩ := List.exists_cons_of_ne_nil nonempty
      have constant := eq_replicate_of_windows equal
      have not_one : freq ≠ 1 := by
        rintro rfl
        apply mixed
        rw [constant]
        simp
      have read := reads_varint freq (fits freq (List.mem_cons_self ..))
      refine Reads.bind_silent read ?_
      rw [if_neg not_one, List.length_cons, ← constant]
      exact Reads.pure _
    · split
      · exact reads_varints freqs fits
      · refine Reads.symbol_bind
          (reads_width (freqWidth freqs) (by unfold freqWidth; omega) (freqWidth_le freqs fits)) ?_
        apply reads_packBits freqs _ (by unfold freqWidth; omega)
        intro f member
        exact (bitWidth_le_iff f _).mp (bitWidth_le_freqWidth freqs f member)

theorem header_reserved (plan : DocPlan) (mode : FreqMode) :
    (plan.docMode ||| mode.code <<< 2) &&& 0xf0 = 0 := by
  cases plan <;> simp only [DocPlan.docMode] <;> cases mode <;> decide

theorem header_docMode (plan : DocPlan) (mode : FreqMode) :
    (plan.docMode ||| mode.code <<< 2) &&& 0x03 = plan.docMode := by
  cases plan <;> simp only [DocPlan.docMode] <;> cases mode <;> decide

theorem header_freqMode (plan : DocPlan) (mode : FreqMode) :
    ((plan.docMode ||| mode.code <<< 2) >>> 2) &&& 0x03 = mode.code := by
  cases plan <;> simp only [DocPlan.docMode] <;> cases mode <;> decide

theorem blockDeltas_length (docs : List Nat) : (blockDeltas docs).length = docs.length - 1 := by
  simp [blockDeltas, windows2]

theorem blockDeltas_lt (docs : List Nat) (fits : ∀ d ∈ docs, d < 2 ^ 32) :
    ∀ delta ∈ blockDeltas docs, delta < 2 ^ 32 := by
  intro delta member
  obtain ⟨pair, inside, rfl⟩ := List.mem_map.mp member
  have := fits pair.2 (List.mem_of_mem_tail (List.of_mem_zip inside).2)
  omega

/-- A block of postings as the encoder receives it. -/
structure IsBlock (docs freqs : List Nat) : Prop where
  nonempty : docs ≠ []
  short : docs.length ≤ forBlockSize
  aligned : docs.length = freqs.length
  increasing : docs.IsChain (· < ·)
  docs_fit : ∀ d ∈ docs, d < 2 ^ 32
  freqs_fit : ∀ f ∈ freqs, f < 2 ^ 32

/-- Whatever plan and mode the encoder picked, the block reader inverts its bytes. -/
theorem reads_block {docs freqs : List Nat} (block : IsBlock docs freqs) :
    Reads (decodeBlockAt docs.length) (encodeBlockInto docs freqs).1 (docs, freqs) := by
  have fits := block.docs_fit
  have short := block.short
  have increasing := block.increasing
  have aligned := block.aligned
  have freqs_nonempty : freqs ≠ [] := by
    rw [← List.length_pos_iff, ← aligned]
    exact List.length_pos_iff.mpr block.nonempty
  obtain ⟨first, rest, rfl⟩ := List.exists_cons_of_ne_nil block.nonempty
  have deltas_fit := blockDeltas_lt (first :: rest) fits
  have deltas_length : (blockDeltas (first :: rest)).length = (first :: rest).length - 1 :=
    blockDeltas_length _
  have doc_channel := reads_docChannel _ _ (docPlan_suits _ deltas_fit) deltas_fit (by
    rw [deltas_length]; simp only [forBlockSize] at short; omega)
  have freq_channel := reads_freqChannel freqs freqs_nonempty block.freqs_fit
  have docs := reads_accumulated first rest increasing fun d hd => fits d (List.mem_cons_of_mem _ hd)
  rw [deltas_length] at doc_channel
  rw [← aligned] at freq_channel
  unfold decodeBlockAt encodeBlockInto docIdPart
  rw [if_neg (by simp)]
  simp only [List.headD_cons, List.cons_append, List.append_assoc]
  refine Reads.symbol_bind (reads_byte _) ?_
  simp only [header_reserved, header_docMode, header_freqMode, ne_eq, not_true_eq_false, if_false]
  refine Reads.bind (reads_varint first (fits first (List.mem_cons_self ..))) ?_
  refine Reads.bind doc_channel ?_
  refine Reads.silent_bind docs ?_
  exact Reads.bind_silent freq_channel (Reads.pure _)

end Surch.Codec
