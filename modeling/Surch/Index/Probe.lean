import Surch.Index.Chains

/-! A text that tells the simple analyzer from every other chain, whatever the tables say beyond
ASCII. -/
namespace Surch.Index
open Surch.Lib Surch.Postings

/- Tables that are the standard's on ASCII characters. -/
structure Unicode.AgreesOnAscii (unicode : Unicode) : Prop where
  alphanumeric : ∀ c : Char, c.toNat < 128 → unicode.isAlphanumeric c = c.isAlphanum
  alphabetic : ∀ c : Char, c.toNat < 128 → unicode.isAlphabetic c = c.isAlpha
  lowercase : ∀ s : String, (∀ c ∈ s.toList, c.toNat < 128) →
    unicode.toLowercase s = s.map Char.toLower
  decomposition : ∀ c : Char, c.toNat < 128 → unicode.nfd c = [c]
  marks : ∀ c : Char, c.toNat < 128 → unicode.isCombiningMark c = false

theorem Unicode.ascii_agrees : Unicode.ascii.AgreesOnAscii :=
  ⟨fun _ _ => rfl, fun _ _ => rfl, fun _ _ => rfl, fun _ _ => rfl, fun _ _ => rfl⟩

def probe : String := "1the b"

def probeTerms : List String := ["1", "1t", "1th", "1the", "the", "b", "1the b"]

section Cuts

theorem probe_characters : probe.toList = ['1', 't', 'h', 'e', ' ', 'b'] := by decide

/-- The characters of the probe are in lower case, and none is folded by the analyzer's own table. -/
theorem probe_plain :
    ∀ c ∈ probe.toList, c.toNat < 128 ∧ c.toLower = c ∧ asciifoldOverride c = none := by
  rw [probe_characters]
  simp only [List.forall_mem_cons]
  exact ⟨by decide, by decide, by decide, by decide, by decide, by decide, nofun⟩

theorem words_within : ∀ s ∈ ["1the", "the", "b"], ∀ c ∈ s.toList, c ∈ probe.toList := by
  have all : (["1the", "the", "b"].all fun s => s.toList.all (probe.toList.contains ·)) = true := by
    decide
  simpa only [List.all_eq_true, List.contains_iff_mem] using all

theorem splitTokens_blank {inside : Char → Bool} (digit : inside '1' = true) (t : inside 't' = true)
    (h : inside 'h' = true) (e : inside 'e' = true) (blank : inside ' ' = false)
    (b : inside 'b' = true) (finish : String → String) :
    (splitTokens inside finish probe).map Token.term = [finish "1the", finish "b"] := by
  simp [splitTokens, probe_characters, splitFrom, digit, t, h, e, blank, b]

theorem splitTokens_digit {inside : Char → Bool} (digit : inside '1' = false)
    (t : inside 't' = true) (h : inside 'h' = true) (e : inside 'e' = true)
    (blank : inside ' ' = false) (b : inside 'b' = true) (finish : String → String) :
    (splitTokens inside finish probe).map Token.term = [finish "the", finish "b"] := by
  simp [splitTokens, probe_characters, splitFrom, digit, t, h, e, blank, b]

theorem stopFilterFrom_terms (stopWords : List String) (skippedPositions : Nat)
    (tokens : List Token) :
    (stopFilterFrom stopWords skippedPositions tokens).map Token.term =
      (tokens.map Token.term).filter fun term => !stopWords.contains term := by
  induction tokens generalizing skippedPositions with
  | nil => rfl
  | cons token rest ih =>
    by_cases stop : token.term ∈ stopWords
    · simp [stopFilterFrom, stop, ih]
    · simp [stopFilterFrom, stop, ih]

theorem mem_edgeNgramTokens (unicode : Unicode) (minGram maxGram : Nat) (text term : String) :
    term ∈ (unicode.edgeNgramTokens minGram maxGram text).map Token.term ↔
      minGram ≠ 0 ∧ ∃ base ∈ (unicode.rawAlphanumericTokens text).map Token.term,
        ∃ k, minGram ≤ k ∧ k ≤ maxGram ∧ k ≤ base.toList.length ∧
          term = String.ofList (base.toList.take k) := by
  rw [Unicode.edgeNgramTokens]
  split
  · rename_i invalid
    constructor
    · simp
    · rintro ⟨positive, base, member, k, low, high, _, _⟩
      omega
  · rename_i valid
    simp only [List.map_flatMap, List.mem_flatMap, List.mem_map, List.mem_range'_1,
      exists_exists_and_eq_and]
    constructor
    · rintro ⟨token, member, k, bounds, rfl⟩
      exact ⟨by omega, token, member, k, by omega, by omega, by omega, rfl⟩
    · rintro ⟨_, token, member, k, low, high, inside, rfl⟩
      exact ⟨token, member, k, by omega, rfl⟩

end Cuts

section Tables

variable {unicode : Unicode} (tables : unicode.AgreesOnAscii)

include tables

/-- Strings over the characters of the probe are in lower case and fold to themselves. -/
theorem lowered {s : String} (within : ∀ c ∈ s.toList, c ∈ probe.toList) :
    unicode.toLowercase s = s := by
  have lower : ∀ c ∈ s.toList, c.toLower = c := fun c member =>
    (probe_plain c (within c member)).2.1
  rw [tables.lowercase s fun c member => (probe_plain c (within c member)).1, ← String.toList_inj,
    String.toList_map]
  exact (List.map_congr_left lower).trans (List.map_id _)

theorem folded {s : String} (within : ∀ c ∈ s.toList, c ∈ probe.toList) :
    unicode.asciifoldString s = s := by
  refine (congrArg String.ofList (List.flatMap_congr (g := fun c => [c]) fun c member => ?_)).trans ?_
  · obtain ⟨small, -, plain⟩ := probe_plain c (within c member)
    simp [plain, tables.decomposition c small, tables.marks c small]
  · rw [List.flatMap_singleton', String.ofList_toList]

theorem alphanumeric_probe (finish : String → String) :
    (splitTokens unicode.isAlphanumeric finish probe).map Token.term =
      [finish "1the", finish "b"] := by
  have agree : ∀ c : Char, c.toNat < 128 → unicode.isAlphanumeric c = c.isAlphanum :=
    tables.alphanumeric
  apply splitTokens_blank
  all_goals
    rw [agree _ (by decide)]
    decide

theorem alphabetic_probe (finish : String → String) :
    (splitTokens unicode.isAlphabetic finish probe).map Token.term =
      [finish "the", finish "b"] := by
  have agree : ∀ c : Char, c.toNat < 128 → unicode.isAlphabetic c = c.isAlpha :=
    tables.alphabetic
  apply splitTokens_digit
  all_goals
    rw [agree _ (by decide)]
    decide

theorem terms_probe (analyzer : AnalyzerName) :
    analyzer.terms unicode probe =
      match analyzer with
      | .standard | .whitespace | .norm => ["1the", "b"]
      | .simple => ["the", "b"]
      | .stop => ["b"]
      | .keyword => ["1the b"] := by
  have low : ∀ s ∈ ["1the", "the", "b"], unicode.toLowercase s = s := fun s member =>
    lowered tables (words_within s member)
  have standard : (unicode.standardTokens probe).map Token.term = ["1the", "b"] := by
    simp [Unicode.standardTokens, alphanumeric_probe tables, low]
  have simple : (unicode.simpleTokens probe).map Token.term = ["the", "b"] := by
    simp [Unicode.simpleTokens, alphabetic_probe tables, low]
  cases analyzer with
  | standard => exact standard
  | simple => exact simple
  | stop =>
    have kept := stopFilterFrom_terms englishStopWords 0 (unicode.simpleTokens probe)
    rw [simple] at kept
    exact kept
  | keyword => rfl
  | whitespace => exact splitTokens_blank rfl rfl rfl rfl rfl rfl id
  | norm =>
    have fold : ∀ s ∈ ["1the", "the", "b"], unicode.asciifoldString s = s := fun s member =>
      folded tables (words_within s member)
    have mapped := congrArg (List.map unicode.asciifoldString) standard
    simp only [List.map_map] at mapped
    simpa [AnalyzerName.terms, AnalyzerName.tokenStream, Unicode.normTokens, fold,
      Function.comp_def] using mapped

theorem normalizer_probe : (unicode.normalizerTokens probe).map Token.term = ["1the b"] := by
  have fold : unicode.asciifoldString probe = probe := folded tables fun _ member => member
  have low : unicode.toLowercase probe = probe := lowered tables fun _ member => member
  have nonempty : probe.isEmpty = false := by decide
  simp [Unicode.normalizerTokens, wholeToken, nonempty, fold, low]
  rfl

/-- The grams of the probe: beginnings of its two tokens, which no filter changes. -/
theorem mem_grams_probe (minGram maxGram : Nat) (lowercase asciifold : Bool) (term : String) :
    term ∈ (ResolvedAnalyzer.edgeNgram minGram maxGram lowercase asciifold).terms unicode probe ↔
      minGram ≠ 0 ∧ ∃ base ∈ ["1the", "b"], ∃ k, minGram ≤ k ∧ k ≤ maxGram ∧
        k ≤ base.toList.length ∧ term = String.ofList (base.toList.take k) := by
  have raw : (unicode.rawAlphanumericTokens probe).map Token.term = ["1the", "b"] :=
    alphanumeric_probe tables id
  have grams := mem_edgeNgramTokens unicode minGram maxGram probe
  simp only [raw] at grams
  have unchanged : ∀ token ∈ unicode.edgeNgramTokens minGram maxGram probe,
      (let term := if lowercase then unicode.toLowercase token.term else token.term
        if asciifold then unicode.asciifoldString term else term) = token.term := by
    intro token member
    obtain ⟨_, base, here, k, _, _, _, cut⟩ := (grams token.term).mp (List.mem_map_of_mem member)
    have within : ∀ c ∈ token.term.toList, c ∈ probe.toList := by
      intro c inside
      rw [cut, String.toList_ofList] at inside
      have word : base ∈ ["1the", "the", "b"] := (by decide : ["1the", "b"] ⊆ _) here
      exact words_within base word c (List.mem_of_mem_take inside)
    cases lowercase <;> cases asciifold <;> simp [lowered tables within, folded tables within]
  rw [← grams, ResolvedAnalyzer.terms, List.map_congr_left unchanged]

theorem chain_probe (chain : Chain) : ∀ term ∈ chain.terms unicode probe, term ∈ probeTerms := by
  cases chain with
  | resolved analyzer =>
    cases analyzer with
    | builtin analyzer =>
      simp only [Chain.terms, ResolvedAnalyzer.terms, terms_probe tables]
      cases analyzer <;> decide
    | edgeNgram minGram maxGram lowercase asciifold =>
      intro term member
      obtain ⟨positive, base, here, k, low, _, inside, rfl⟩ :=
        (mem_grams_probe tables minGram maxGram lowercase asciifold term).mp member
      have cuts : ∀ base ∈ ["1the", "b"], ∀ k ∈ List.range' 1 base.toList.length,
          String.ofList (base.toList.take k) ∈ probeTerms := by
        decide
      exact cuts base here k (List.mem_range'_1.mpr (by omega))
  | normalizer =>
    simp only [Chain.terms, normalizer_probe tables]
    decide
  | nothing => simp [Chain.terms]

theorem simple_apart {chain : Chain}
    (other : chain = .normalizer ∨ ∃ analyzer, analyzer ≠ .simple ∧ chain = .builtin analyzer) :
    chain.terms unicode probe ≠ [] ∧ "the" ∉ chain.terms unicode probe := by
  rcases other with rfl | ⟨analyzer, distinct, rfl⟩
  · simp only [Chain.terms, normalizer_probe tables]
    decide
  · simp only [Chain.builtin, Chain.terms, ResolvedAnalyzer.terms, terms_probe tables]
    cases analyzer with
    | simple => exact absurd rfl distinct
    | _ => decide

/-- Where there are grams at all, one of them begins with the probe's digit. -/
theorem grams_apart {minGram maxGram : Nat} {lowercase asciifold : Bool}
    (some_gram : (ResolvedAnalyzer.edgeNgram minGram maxGram lowercase asciifold).terms unicode
      probe ≠ []) :
    ∃ term ∈ (ResolvedAnalyzer.edgeNgram minGram maxGram lowercase asciifold).terms unicode probe,
      term ∉ AnalyzerName.simple.terms unicode probe := by
  obtain ⟨term, member⟩ := List.exists_mem_of_ne_nil _ some_gram
  obtain ⟨positive, base, here, k, low, high, inside, _⟩ :=
    (mem_grams_probe tables minGram maxGram lowercase asciifold term).mp member
  have short := (by decide : ∀ base ∈ ["1the", "b"], base.toList.length ≤ 4) base here
  refine ⟨String.ofList ("1the".toList.take minGram), ?_, ?_⟩
  · have whole : "1the".toList.length = 4 := by decide
    exact (mem_grams_probe tables minGram maxGram lowercase asciifold _).mpr
      ⟨positive, "1the", by decide, minGram, le_rfl, by omega, by omega, rfl⟩
  · rw [terms_probe tables]
    have cuts : ∀ k ∈ List.range' 1 4, String.ofList ("1the".toList.take k) ∉ ["the", "b"] := by
      decide
    exact cuts minGram (List.mem_range'_1.mpr (by omega))

end Tables

end Surch.Index
