import Surch.Index.Analysis

/-! ASCII folding and canonical equivalence. An override is looked up for a character as it is written,
and what the character decomposes into is only filtered, so a letter with an override keeps it or
loses it with the spelling. -/
namespace Surch.Index

section Normalization

variable (combiningClass : Char → Nat)

/- One step of the canonical ordering: a mark moves behind the marks of a smaller class. -/
def place (c : Char) : List Char → List Char
  | [] => [c]
  | d :: rest =>
    if combiningClass d ≠ 0 ∧ combiningClass d < combiningClass c then d :: place c rest
    else c :: d :: rest

def canonicalOrder (cs : List Char) : List Char := cs.foldr (place combiningClass) []

/- The NFD form of a string: its characters decomposed in full, their marks in order. -/
def nfdForm (unicode : Unicode) (s : String) : List Char :=
  canonicalOrder combiningClass (s.toList.flatMap unicode.nfd)

/- What the Unicode standard says of its tables: a decomposition is full, only a mark has a combining
class, and the ASCII characters and the letters with an override stand for themselves. -/
structure Canonical (unicode : Unicode) (combiningClass : Char → Nat) : Prop where
  nonempty : ∀ c, unicode.nfd c ≠ []
  full : ∀ c, ∀ d ∈ unicode.nfd c, unicode.nfd d = [d]
  marks : ∀ c, combiningClass c ≠ 0 → unicode.isCombiningMark c = true
  ascii : ∀ c, c.toNat < 128 → unicode.nfd c = [c] ∧ unicode.isCombiningMark c = false
  overrides : ∀ c r, asciifoldOverride c = some r →
    unicode.nfd c = [c] ∧ unicode.isCombiningMark c = false

variable {combiningClass}

theorem length_place (c : Char) (cs : List Char) : (place combiningClass c cs).length = cs.length + 1 := by
  induction cs with
  | nil => rfl
  | cons d rest ih =>
    unfold place
    split
    · rw [List.length_cons, ih, List.length_cons]
    · rfl

theorem length_canonicalOrder (cs : List Char) : (canonicalOrder combiningClass cs).length = cs.length := by
  induction cs with
  | nil => rfl
  | cons c rest ih => exact (length_place c _).trans (congrArg (· + 1) ih)

variable {unicode : Unicode}

theorem filter_place (canonical : Canonical unicode combiningClass) (c : Char) (cs : List Char) :
    (place combiningClass c cs).filter (!unicode.isCombiningMark ·) =
      (c :: cs).filter (!unicode.isCombiningMark ·) := by
  induction cs with
  | nil => rfl
  | cons d rest ih =>
    unfold place
    split
    · rename_i passes
      have first := canonical.marks d passes.1
      have second := canonical.marks c (by omega)
      rw [List.filter_cons_of_neg (by simp [first]), ih, List.filter_cons_of_neg (by simp [second]),
        List.filter_cons_of_neg (by simp [second]), List.filter_cons_of_neg (by simp [first])]
    · rfl

theorem filter_canonicalOrder (canonical : Canonical unicode combiningClass) (cs : List Char) :
    (canonicalOrder combiningClass cs).filter (!unicode.isCombiningMark ·) =
      cs.filter (!unicode.isCombiningMark ·) := by
  induction cs with
  | nil => rfl
  | cons c rest ih =>
    change (place combiningClass c (canonicalOrder combiningClass rest)).filter _ = _
    rw [filter_place canonical, List.filter_cons, List.filter_cons, ih]

theorem nfdForm_eq_nil_iff (canonical : Canonical unicode combiningClass) (s : String) :
    nfdForm combiningClass unicode s = [] ↔ s = "" := by
  rw [← List.length_eq_zero_iff, nfdForm, length_canonicalOrder, List.length_eq_zero_iff,
    List.flatMap_eq_nil_iff]
  constructor
  · intro all
    rw [← String.toList_eq_nil_iff]
    refine List.eq_nil_iff_forall_not_mem.mpr fun c member => ?_
    exact canonical.nonempty c (all c member)
  · rintro rfl
    simp

end Normalization

section Overrides

theorem asciifoldOverride_spec {c : Char} {r : String} (found : asciifoldOverride c = some r) :
    128 ≤ c.toNat ∧ r.toList ≠ [] ∧ r.toList.all (fun x => x.toNat < 128) = true := by
  unfold asciifoldOverride at found
  split at found <;> first | (cases found; decide) | cases found

theorem asciifoldOverride_ascii {c : Char} (ascii : c.toNat < 128) : asciifoldOverride c = none := by
  cases found : asciifoldOverride c with
  | none => rfl
  | some r =>
    have := (asciifoldOverride_spec found).1
    omega

end Overrides

section Folding

variable (unicode : Unicode)

def foldCharacter (character : Char) : List Char :=
  match asciifoldOverride character with
  | some replacement => replacement.toList
  | none => (unicode.nfd character).filter (!unicode.isCombiningMark ·)

def missesOverride (character : Char) : Bool :=
  (asciifoldOverride character).isNone &&
    (unicode.nfd character).any fun decomposed => (asciifoldOverride decomposed).isSome

def letters (character : Char) : List (Char × Bool) :=
  ((unicode.nfd character).filter (!unicode.isCombiningMark ·)).map fun decomposed =>
    (decomposed, (asciifoldOverride character).isNone && (asciifoldOverride decomposed).isSome)

def spelling (s : String) : List (Char × Bool) := s.toList.flatMap (letters unicode)

def emit (letter : Char × Bool) : List Char :=
  if letter.2 then [letter.1]
  else
    match asciifoldOverride letter.1 with
    | some replacement => replacement.toList
    | none => [letter.1]

theorem toList_asciifoldString (s : String) :
    (unicode.asciifoldString s).toList = s.toList.flatMap (foldCharacter unicode) :=
  String.toList_ofList

theorem emit_none {c : Char} (plain : asciifoldOverride c = none) (missed : Bool) :
    emit (c, missed) = [c] := by
  unfold emit
  rw [plain]
  cases missed <;> rfl

theorem emit_some {c : Char} {r : String} (found : asciifoldOverride c = some r) :
    emit (c, false) = r.toList := by
  unfold emit
  rw [found]
  rfl

variable {unicode} {combiningClass : Char → Nat}

theorem foldCharacter_ascii (canonical : Canonical unicode combiningClass) {c : Char}
    (ascii : c.toNat < 128) : foldCharacter unicode c = [c] := by
  obtain ⟨single, letter⟩ := canonical.ascii c ascii
  unfold foldCharacter
  rw [asciifoldOverride_ascii ascii, single]
  dsimp only
  rw [List.filter_cons_of_pos (by simp [letter]), List.filter_nil]

theorem letters_some (canonical : Canonical unicode combiningClass) {c : Char} {r : String}
    (found : asciifoldOverride c = some r) : letters unicode c = [(c, false)] := by
  obtain ⟨single, letter⟩ := canonical.overrides c r found
  unfold letters
  rw [single, List.filter_cons_of_pos (by simp [letter]), found]
  rfl

theorem foldCharacter_eq (canonical : Canonical unicode combiningClass) (c : Char) :
    foldCharacter unicode c = (letters unicode c).flatMap emit := by
  cases found : asciifoldOverride c with
  | some r =>
    rw [letters_some canonical found, List.flatMap_singleton, emit_some found, foldCharacter, found]
  | none =>
    unfold foldCharacter letters
    rw [found, List.flatMap_map]
    dsimp only [Option.isNone_none, Bool.true_and]
    generalize (unicode.nfd c).filter _ = kept
    induction kept with
    | nil => rfl
    | cons d rest ih =>
      rw [List.flatMap_cons, ← ih]
      cases own : asciifoldOverride d with
      | none => rw [emit_none own]; rfl
      | some r => rfl

theorem asciifoldString_eq (canonical : Canonical unicode combiningClass) (s : String) :
    (unicode.asciifoldString s).toList = (spelling unicode s).flatMap emit := by
  rw [toList_asciifoldString, spelling, List.flatMap_assoc]
  congr 1
  funext c
  exact foldCharacter_eq canonical c

theorem spelling_fst (canonical : Canonical unicode combiningClass) (s : String) :
    (spelling unicode s).map Prod.fst =
      (nfdForm combiningClass unicode s).filter (!unicode.isCombiningMark ·) := by
  rw [nfdForm, filter_canonicalOrder canonical, spelling, List.map_flatMap, List.filter_flatMap]
  congr 1
  funext c
  unfold letters
  rw [List.map_map]
  exact List.map_id _

theorem mem_spelling (canonical : Canonical unicode combiningClass) {s : String} {letter : Char × Bool}
    (member : letter ∈ spelling unicode s) :
    unicode.nfd letter.1 = [letter.1] ∧ unicode.isCombiningMark letter.1 = false ∧
      (letter.2 = true → (asciifoldOverride letter.1).isSome = true) := by
  obtain ⟨c, -, inside⟩ := List.mem_flatMap.mp member
  obtain ⟨d, kept, rfl⟩ := List.mem_map.mp inside
  obtain ⟨decomposed, letter⟩ := List.mem_filter.mp kept
  refine ⟨canonical.full c d decomposed, by simpa using letter, ?_⟩
  intro missed
  exact (Bool.and_eq_true_iff.mp missed).2

/-- The letters being the same, the folded texts agree exactly when the same overrides are missed: a
missed letter is outside ASCII, what replaces it begins inside. -/
theorem flatMap_emit_inj {first second : List (Char × Bool)} (same : first.map Prod.fst = second.map Prod.fst)
    (missed : ∀ letter ∈ first, letter.2 = true → (asciifoldOverride letter.1).isSome = true)
    (missed' : ∀ letter ∈ second, letter.2 = true → (asciifoldOverride letter.1).isSome = true) :
    first.flatMap emit = second.flatMap emit ↔ first = second := by
  have differ : ∀ (c : Char) (rest rest' : List Char), (asciifoldOverride c).isSome = true →
      emit (c, true) ++ rest ≠ emit (c, false) ++ rest' := by
    intro c rest rest' replaced equal
    obtain ⟨r, found⟩ := Option.isSome_iff_exists.mp replaced
    obtain ⟨outside, nonempty, ascii⟩ := asciifoldOverride_spec found
    rw [emit_some found] at equal
    cases written : r.toList with
    | nil => exact nonempty written
    | cons x more =>
      rw [written] at equal ascii
      have head : c = x := (List.cons.inj equal).1
      have inside := List.all_eq_true.mp ascii x List.mem_cons_self
      rw [decide_eq_true_eq] at inside
      rw [head] at outside
      omega
  refine ⟨?_, fun equal => equal ▸ rfl⟩
  intro equal
  induction first generalizing second with
  | nil => exact (List.map_eq_nil_iff.mp same.symm).symm
  | cons head tail ih =>
    cases second with
    | nil => cases same
    | cons head' tail' =>
      obtain ⟨c, flag⟩ := head
      obtain ⟨c', flag'⟩ := head'
      obtain ⟨letter, letters⟩ := List.cons.inj same
      obtain rfl : c = c' := letter
      rw [List.flatMap_cons, List.flatMap_cons] at equal
      have later := fun equal => ih letters (fun letter member => missed letter (List.mem_cons_of_mem _ member))
        (fun letter member => missed' letter (List.mem_cons_of_mem _ member)) equal
      cases flag with
      | false =>
        cases flag' with
        | false => rw [later (List.append_cancel_left equal)]
        | true => exact absurd equal.symm (differ c _ _ (missed' _ List.mem_cons_self rfl))
      | true =>
        cases flag' with
        | false => exact absurd equal (differ c _ _ (missed _ List.mem_cons_self rfl))
        | true => rw [later (List.append_cancel_left equal)]

theorem asciifoldString_twice (canonical : Canonical unicode combiningClass) (s : String) :
    (unicode.asciifoldString (unicode.asciifoldString s)).toList =
      ((spelling unicode s).map fun letter => (letter.1, false)).flatMap emit := by
  rw [toList_asciifoldString, asciifoldString_eq canonical, List.flatMap_assoc, List.flatMap_map]
  have pure : ∀ letter ∈ spelling unicode s,
      (emit letter).flatMap (foldCharacter unicode) = emit (letter.1, false) := by
    rintro ⟨c, flag⟩ member
    obtain ⟨single, kept, -⟩ := mem_spelling canonical member
    dsimp only at single kept ⊢
    cases found : asciifoldOverride c with
    | none =>
      rw [emit_none found, emit_none found, List.flatMap_singleton, foldCharacter, found]
      dsimp only
      rw [single, List.filter_cons_of_pos (by simp [kept]), List.filter_nil]
    | some r =>
      cases flag with
      | true =>
        change [c].flatMap _ = _
        rw [List.flatMap_singleton, foldCharacter, found, emit_some found]
      | false =>
        rw [emit_some found]
        have ascii := List.all_eq_true.mp (asciifoldOverride_spec found).2.2
        calc r.toList.flatMap (foldCharacter unicode)
            = r.toList.flatMap fun x => [x] := List.flatMap_congr fun x inside =>
                foldCharacter_ascii canonical (of_decide_eq_true (ascii x inside))
          _ = r.toList := List.flatMap_singleton' _
  exact List.flatMap_congr pure

theorem missesOverride_eq_false_iff (canonical : Canonical unicode combiningClass) (c : Char) :
    missesOverride unicode c = false ↔ ∀ letter ∈ letters unicode c, letter.2 = false := by
  unfold missesOverride letters
  constructor
  · intro found letter member
    obtain ⟨d, kept, rfl⟩ := List.mem_map.mp member
    rw [Bool.and_eq_false_iff] at found ⊢
    refine found.imp_right fun none => ?_
    rw [List.any_eq_false] at none
    simpa using none d (List.mem_of_mem_filter kept)
  · intro found
    by_contra missed
    rw [Bool.not_eq_false, Bool.and_eq_true_iff, List.any_eq_true] at missed
    obtain ⟨bare, d, decomposed, replaced⟩ := missed
    obtain ⟨r, own⟩ := Option.isSome_iff_exists.mp replaced
    have kept : d ∈ (unicode.nfd c).filter (!unicode.isCombiningMark ·) :=
      List.mem_filter.mpr ⟨decomposed, by simp [(canonical.overrides d r own).2]⟩
    have here := found _ (List.mem_map_of_mem kept)
    dsimp only at here
    rw [bare, replaced] at here
    cases here

theorem spelling_found_iff (canonical : Canonical unicode combiningClass) (s : String) :
    (∀ letter ∈ spelling unicode s, letter.2 = false) ↔ ∀ c ∈ s.toList, missesOverride unicode c = false := by
  simp only [missesOverride_eq_false_iff canonical, spelling, List.mem_flatMap]
  constructor
  · intro all c member letter inside
    exact all letter ⟨c, member, inside⟩
  · rintro all letter ⟨c, member, inside⟩
    exact all c member letter inside

theorem asciifoldString_eq_iff (canonical : Canonical unicode combiningClass) {s t : String}
    (same : nfdForm combiningClass unicode s = nfdForm combiningClass unicode t) :
    unicode.asciifoldString s = unicode.asciifoldString t ↔ spelling unicode s = spelling unicode t := by
  rw [← String.toList_inj, asciifoldString_eq canonical, asciifoldString_eq canonical]
  apply flatMap_emit_inj
  · rw [spelling_fst canonical, spelling_fst canonical, same]
  · exact fun letter member => (mem_spelling canonical member).2.2
  · exact fun letter member => (mem_spelling canonical member).2.2

theorem asciifoldString_idempotent_iff (canonical : Canonical unicode combiningClass) (s : String) :
    unicode.asciifoldString (unicode.asciifoldString s) = unicode.asciifoldString s ↔
      ∀ c ∈ s.toList, missesOverride unicode c = false := by
  rw [← String.toList_inj, asciifoldString_twice canonical, asciifoldString_eq canonical,
    flatMap_emit_inj, ← spelling_found_iff canonical]
  · rw [eq_comm]
    constructor
    · intro same letter member
      rw [same] at member
      obtain ⟨_, -, rfl⟩ := List.mem_map.mp member
      rfl
    · intro all
      conv_lhs => rw [← List.map_id (spelling unicode s)]
      refine List.map_congr_left fun letter member => ?_
      exact Prod.ext rfl (all letter member)
  · rw [List.map_map]
    rfl
  · intro letter member missed
    obtain ⟨_, -, rfl⟩ := List.mem_map.mp member
    cases missed
  · exact fun letter member => (mem_spelling canonical member).2.2

/-- Two spellings of a text whose overrides are all found have the same letters to fold. -/
theorem spelling_eq (canonical : Canonical unicode combiningClass) {s t : String}
    (same : nfdForm combiningClass unicode s = nfdForm combiningClass unicode t)
    (found : ∀ letter ∈ spelling unicode s, letter.2 = false)
    (found' : ∀ letter ∈ spelling unicode t, letter.2 = false) : spelling unicode s = spelling unicode t := by
  have letters : (spelling unicode s).map Prod.fst = (spelling unicode t).map Prod.fst := by
    rw [spelling_fst canonical, spelling_fst canonical, same]
  have flags : ∀ u : String, (∀ letter ∈ spelling unicode u, letter.2 = false) →
      spelling unicode u = ((spelling unicode u).map Prod.fst).map fun c => (c, false) := by
    intro u all
    rw [List.map_map]
    conv_lhs => rw [← List.map_id (spelling unicode u)]
    exact List.map_congr_left fun letter member => Prod.ext rfl (all letter member)
  rw [flags s found, flags t found', letters]

end Folding

/-- Folding respects canonical equivalence exactly on the spellings that miss no override: then two
spellings of a text fold to one string, folding again changes nothing, and the normalizer gives one
term. Between two spellings the folded strings agree exactly when the same overrides are missed. -/
theorem asciifold_canonical {unicode : Unicode} {combiningClass : Char → Nat}
    (canonical : Canonical unicode combiningClass) (s t : String)
    (same : nfdForm combiningClass unicode s = nfdForm combiningClass unicode t) :
    (unicode.asciifoldString s = unicode.asciifoldString t ∧
        unicode.asciifoldString (unicode.asciifoldString s) = unicode.asciifoldString s ∧
        (unicode.normalizerTokens s).map Token.term = (unicode.normalizerTokens t).map Token.term ↔
      ∀ c ∈ s.toList ++ t.toList, missesOverride unicode c = false) ∧
    (unicode.asciifoldString s = unicode.asciifoldString t ↔ spelling unicode s = spelling unicode t) := by
  refine ⟨⟨?_, ?_⟩, asciifoldString_eq_iff canonical same⟩
  · rintro ⟨folded, twice, -⟩ c member
    have here := (asciifoldString_idempotent_iff canonical s).mp twice
    rw [asciifoldString_eq_iff canonical same] at folded
    have found := (spelling_found_iff canonical s).mpr here
    rw [folded] at found
    rcases List.mem_append.mp member with member | member
    · exact here c member
    · exact (spelling_found_iff canonical t).mp found c member
  · intro found
    have first : ∀ c ∈ s.toList, missesOverride unicode c = false := fun c member =>
      found c (List.mem_append_left _ member)
    have second : ∀ c ∈ t.toList, missesOverride unicode c = false := fun c member =>
      found c (List.mem_append_right _ member)
    have folded : unicode.asciifoldString s = unicode.asciifoldString t :=
      (asciifoldString_eq_iff canonical same).mpr (spelling_eq canonical same
        ((spelling_found_iff canonical s).mpr first) ((spelling_found_iff canonical t).mpr second))
    refine ⟨folded, (asciifoldString_idempotent_iff canonical s).mpr first, ?_⟩
    have empty : s = "" ↔ t = "" := by
      rw [← nfdForm_eq_nil_iff canonical, ← nfdForm_eq_nil_iff canonical, same]
    unfold Unicode.normalizerTokens wholeToken
    simp only [String.isEmpty_iff, empty, folded]
    split <;> rfl

def acuteTables : Unicode where
  isAlphanumeric c := c.isAlphanum
  isAlphabetic c := c.isAlpha
  toLowercase s := s.map Char.toLower
  nfd c := if c = 'é' then ['e', '\u0301'] else if c = 'ǿ' then ['ø', '\u0301'] else [c]
  isCombiningMark c := c = '\u0301'

def acuteClass (c : Char) : Nat := if c = '\u0301' then 230 else 0

theorem acuteTables_plain {c : Char} (first : c ≠ 'é') (second : c ≠ 'ǿ') : acuteTables.nfd c = [c] := by
  change (if c = 'é' then _ else if c = 'ǿ' then _ else [c]) = [c]
  rw [if_neg first, if_neg second]

theorem acute_canonical : Canonical acuteTables acuteClass where
  nonempty c := by
    by_cases first : c = 'é'
    · rw [first]; decide
    by_cases second : c = 'ǿ'
    · rw [second]; decide
    rw [acuteTables_plain first second]
    exact List.cons_ne_nil c []
  full c d member := by
    by_cases first : c = 'é'
    · subst first
      have letters : (acuteTables.nfd 'é').all (fun d => acuteTables.nfd d = [d]) = true := by decide
      exact of_decide_eq_true (List.all_eq_true.mp letters d member)
    by_cases second : c = 'ǿ'
    · subst second
      have letters : (acuteTables.nfd 'ǿ').all (fun d => acuteTables.nfd d = [d]) = true := by decide
      exact of_decide_eq_true (List.all_eq_true.mp letters d member)
    rw [acuteTables_plain first second] at member
    obtain rfl := List.mem_singleton.mp member
    exact acuteTables_plain first second
  marks c := by
    unfold acuteClass acuteTables
    split
    · rename_i mark
      exact fun _ => decide_eq_true mark
    · exact fun some => absurd rfl some
  ascii c inside := by
    have outside : c ≠ 'é' ∧ c ≠ 'ǿ' ∧ c ≠ '\u0301' := by
      refine ⟨?_, ?_, ?_⟩ <;>
      · rintro rfl
        exact absurd inside (by decide)
    exact ⟨acuteTables_plain outside.1 outside.2.1, decide_eq_false outside.2.2⟩
  overrides c r found := by
    have outside : c ≠ 'é' ∧ c ≠ 'ǿ' ∧ c ≠ '\u0301' := by
      refine ⟨?_, ?_, ?_⟩ <;>
      · rintro rfl
        exact absurd found nofun
    exact ⟨acuteTables_plain outside.1 outside.2.1, decide_eq_false outside.2.2⟩

theorem asciifold_canonical_acute :
    acuteTables.asciifoldString "é" = acuteTables.asciifoldString "e\u0301" ∧
      (acuteTables.normalizerTokens "é").map Token.term =
        (acuteTables.normalizerTokens "e\u0301").map Token.term := by
  have found : ("é".toList ++ "e\u0301".toList).all (fun c => missesOverride acuteTables c = false) = true := by
    decide
  have law := (asciifold_canonical acute_canonical "é" "e\u0301" (by decide)).1.mpr fun c member =>
    of_decide_eq_true (List.all_eq_true.mp found c member)
  exact ⟨law.1, law.2.2⟩

/-- `ǿ` and `ø` with an acute accent are one text, and fold to two. -/
theorem not_asciifold_canonical :
    Canonical acuteTables acuteClass ∧
      nfdForm acuteClass acuteTables "ǿ" = nfdForm acuteClass acuteTables "ø\u0301" ∧
      acuteTables.asciifoldString "ǿ" = "ø" ∧ acuteTables.asciifoldString "ø\u0301" = "o" ∧
      acuteTables.asciifoldString (acuteTables.asciifoldString "ǿ") ≠ acuteTables.asciifoldString "ǿ" ∧
      (acuteTables.normalizerTokens "ǿ").map Token.term ≠
        (acuteTables.normalizerTokens "ø\u0301").map Token.term := by
  refine ⟨acute_canonical, ?_⟩
  decide +kernel

end Surch.Index
