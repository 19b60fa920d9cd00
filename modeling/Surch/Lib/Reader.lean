import Mathlib.Control.Monad.Basic
import Mathlib.Data.List.Basic

/-! Readers that consume a prefix of their input. `Reads` says that a reader turns a
given prefix into a value whatever follows it, which is the form in which round trips
compose; `Accepts` says which prefixes a reader takes, and as what. -/
namespace Surch.Lib

abbrev Reader (ε σ : Type) := StateT (List σ) (Except ε)

theorem except_bind_ok {ε α β : Type} {first : Except ε α} {next : α → Except ε β} {value : β} :
    (first >>= next) = .ok value ↔ ∃ middle, first = .ok middle ∧ next middle = .ok value := by
  cases first with
  | error e =>
    constructor
    · intro accepted
      cases accepted
    · rintro ⟨middle, impossible, -⟩
      cases impossible
  | ok middle =>
    constructor
    · intro accepted
      exact ⟨middle, rfl, accepted⟩
    · rintro ⟨_, same, accepted⟩
      cases same
      exact accepted

theorem guarded_ok {ε α : Type} {bad : Prop} [Decidable bad] {error : ε} {rest : Except ε α}
    {value : α} : (if bad then .error error else rest) = .ok value ↔ ¬ bad ∧ rest = .ok value := by
  by_cases failed : bad <;> simp [failed]

theorem except_map_ok {ε α β : Type} {outcome : Except ε α} {f : α → β} {value : β} :
    outcome.map f = .ok value ↔ ∃ middle, outcome = .ok middle ∧ f middle = value := by
  cases outcome <;> simp [Except.map]

theorem except_mapError_ok {ε ε' α : Type} {outcome : Except ε α} {f : ε → ε'} {value : α} :
    outcome.mapError f = .ok value ↔ outcome = .ok value := by
  cases outcome <;> simp [Except.mapError]

theorem except_mapM_ok {ε α β : Type} {f : α → Except ε β} {g : α → β} {xs : List α}
    (succeeds : ∀ x ∈ xs, f x = .ok (g x)) : xs.mapM f = .ok (xs.map g) := by
  induction xs with
  | nil => rfl
  | cons x xs ih =>
    rw [List.mapM_cons, succeeds x List.mem_cons_self,
      ih fun y member => succeeds y (List.mem_cons_of_mem _ member)]
    rfl

theorem except_mapM_exists {ε α β : Type} {f : α → Except ε β} {xs : List α}
    (each : ∀ x ∈ xs, ∃ y, f x = .ok y) : ∃ ys, xs.mapM f = .ok ys := by
  induction xs with
  | nil => exact ⟨[], rfl⟩
  | cons x xs ih =>
    obtain ⟨y, first⟩ := each x List.mem_cons_self
    obtain ⟨ys, later⟩ := ih fun other member => each other (List.mem_cons_of_mem _ member)
    exact ⟨y :: ys, by rw [List.mapM_cons, first, later]; rfl⟩

theorem except_mapM_mem {ε α β : Type} {f : α → Except ε β} {xs : List α} {ys : List β}
    (accepted : xs.mapM f = .ok ys) :
    (∀ x ∈ xs, ∃ y ∈ ys, f x = .ok y) ∧ ∀ y ∈ ys, ∃ x ∈ xs, f x = .ok y := by
  induction xs generalizing ys with
  | nil =>
    cases accepted
    exact ⟨by simp, by simp⟩
  | cons x xs ih =>
    rw [List.mapM_cons] at accepted
    obtain ⟨y, first, accepted⟩ := except_bind_ok.mp accepted
    obtain ⟨rest, later, same⟩ := except_bind_ok.mp accepted
    cases same
    obtain ⟨results, sources⟩ := ih later
    constructor
    · intro other member
      rcases List.mem_cons.mp member with rfl | member
      · exact ⟨y, List.mem_cons_self, first⟩
      · obtain ⟨z, inside, result⟩ := results other member
        exact ⟨z, List.mem_cons_of_mem _ inside, result⟩
    · intro other member
      rcases List.mem_cons.mp member with rfl | member
      · exact ⟨x, List.mem_cons_self, first⟩
      · obtain ⟨z, inside, result⟩ := sources other member
        exact ⟨z, List.mem_cons_of_mem _ inside, result⟩

def refuse {ε : Type} {m : Type → Type} [Monad m] [MonadExcept ε m] (bad : Prop) [Decidable bad]
    (error : ε) : m Unit :=
  if bad then throw error else pure ()

theorem refuse_of_not {ε : Type} {m : Type → Type} [Monad m] [MonadExcept ε m] {bad : Prop}
    [Decidable bad] {error : ε} (fine : ¬ bad) : refuse bad error = (pure () : m Unit) :=
  if_neg fine

variable {ε σ α β : Type}

/-- The reader consumes exactly `written` and yields `value`, whatever comes after. -/
def Reads (reader : Reader ε σ α) (written : List σ) (value : α) : Prop :=
  ∀ rest, reader (written ++ rest) = .ok (value, rest)

theorem reader_bind (first : Reader ε σ α) (next : α → Reader ε σ β) (input : List σ) :
    (first >>= next) input =
      match first input with
      | .ok (value, rest) => next value rest
      | .error e => .error e := by
  change Except.bind (first input) _ = _
  cases first input <;> rfl

theorem reader_bind_ok {first : Reader ε σ α} {next : α → Reader ε σ β} {input : List σ}
    {out : β × List σ} : (first >>= next) input = .ok out ↔
      ∃ value rest, first input = .ok (value, rest) ∧ next value rest = .ok out := by
  rw [reader_bind]
  cases first input with
  | error e => simp
  | ok reading =>
    constructor
    · intro accepted
      exact ⟨reading.1, reading.2, rfl, accepted⟩
    · rintro ⟨value, rest, same, accepted⟩
      cases same
      exact accepted

theorem reader_refuse_ok {bad : Prop} [Decidable bad] {error : ε} {input rest : List σ} {value : Unit} :
    (refuse bad error : Reader ε σ Unit) input = .ok (value, rest) ↔ ¬ bad ∧ rest = input := by
  by_cases failed : bad
  · simp only [refuse, if_pos failed]
    constructor
    · intro accepted
      cases accepted
    · rintro ⟨fine, -⟩
      exact absurd failed fine
  · simp only [refuse, if_neg failed]
    constructor
    · intro accepted
      cases accepted
      exact ⟨failed, rfl⟩
    · rintro ⟨-, rfl⟩
      rfl

namespace Reads

theorem pure (value : α) : Reads (Pure.pure value : Reader ε σ α) [] value := fun _ => rfl

theorem bind {first : Reader ε σ α} {next : α → Reader ε σ β} {written₁ written₂ : List σ}
    {value₁ : α} {value₂ : β} (head : Reads first written₁ value₁)
    (tail : Reads (next value₁) written₂ value₂) :
    Reads (first >>= next) (written₁ ++ written₂) value₂ := by
  intro rest
  rw [reader_bind, List.append_assoc, head]
  exact tail rest

theorem step {first : Reader ε σ α} {next : α → Reader ε σ β} {written rest : List σ} {value : α}
    (head : Reads first written value) : (first >>= next) (written ++ rest) = next value rest := by
  rw [reader_bind, head]

theorem silent_step {first : Reader ε σ α} {next : α → Reader ε σ β} {rest : List σ} {value : α}
    (head : Reads first [] value) : (first >>= next) rest = next value rest :=
  head.step

theorem bind_silent {first : Reader ε σ α} {next : α → Reader ε σ β} {written : List σ}
    {value₁ : α} {value₂ : β} (head : Reads first written value₁)
    (tail : Reads (next value₁) [] value₂) : Reads (first >>= next) written value₂ := by
  have both := head.bind tail
  rwa [List.append_nil] at both

theorem silent_bind {first : Reader ε σ α} {next : α → Reader ε σ β} {written : List σ}
    {value₁ : α} {value₂ : β} (head : Reads first [] value₁)
    (tail : Reads (next value₁) written value₂) : Reads (first >>= next) written value₂ :=
  head.bind tail

theorem symbol_bind {first : Reader ε σ α} {next : α → Reader ε σ β} {symbol : σ}
    {written : List σ} {value₁ : α} {value₂ : β} (head : Reads first [symbol] value₁)
    (tail : Reads (next value₁) written value₂) :
    Reads (first >>= next) (symbol :: written) value₂ :=
  head.bind tail

theorem lift {check : Except ε α} {value : α} (passed : check = .ok value) :
    Reads (liftM check : Reader ε σ α) [] value := by
  subst passed
  intro rest
  rfl

theorem refuse {bad : Prop} [Decidable bad] {error : ε} (fine : ¬ bad) :
    Reads (Lib.refuse bad error : Reader ε σ Unit) [] () := by
  rw [refuse_of_not fine]
  exact .pure ()

theorem exact {reader : Reader ε σ α} {written : List σ} {value : α}
    (reads : Reads reader written value) : reader written = .ok (value, []) := by
  simpa using reads []

end Reads

/- The next `n` symbols. -/
def readArray (tooShort : ε) (n : Nat) : Reader ε σ (List σ) := fun input =>
  if n ≤ input.length then .ok (input.take n, input.drop n) else .error tooShort

theorem reads_array (tooShort : ε) {n : Nat} {written : List σ} (length : written.length = n) :
    Reads (readArray tooShort n) written written := by
  intro rest
  subst length
  have inside : written.length ≤ (written ++ rest).length := by simp
  simp only [readArray, if_pos inside, List.take_left, List.drop_left]

theorem readArray_ok {tooShort : ε} {n : Nat} {input value rest : List σ} :
    readArray tooShort n input = .ok (value, rest) ↔
      n ≤ input.length ∧ value = input.take n ∧ rest = input.drop n := by
  unfold readArray
  split
  · rename_i inside
    constructor
    · intro accepted
      cases accepted
      exact ⟨inside, rfl, rfl⟩
    · rintro ⟨-, rfl, rfl⟩
      rfl
  · rename_i outside
    constructor
    · intro accepted
      cases accepted
    · rintro ⟨inside, -⟩
      exact absurd inside outside

theorem readArray_append {tooShort : ε} {n : Nat} {input value rest : List σ} :
    readArray tooShort n input = .ok (value, rest) ↔ value.length = n ∧ input = value ++ rest := by
  rw [readArray_ok]
  constructor
  · rintro ⟨inside, rfl, rfl⟩
    exact ⟨List.length_take_of_le inside, (List.take_append_drop n input).symm⟩
  · rintro ⟨rfl, rfl⟩
    exact ⟨by simp, by simp, by simp⟩

theorem reader_pure_ok {value value' : α} {input rest : List σ} :
    (Pure.pure value : Reader ε σ α) input = .ok (value', rest) ↔ value' = value ∧ rest = input := by
  constructor
  · intro accepted
    cases accepted
    exact ⟨rfl, rfl⟩
  · rintro ⟨rfl, rfl⟩
    rfl

theorem reader_lift_ok {check : Except ε α} {value : α} {input rest : List σ} :
    (liftM check : Reader ε σ α) input = .ok (value, rest) ↔ check = .ok value ∧ rest = input := by
  cases check with
  | error e =>
    constructor
    · intro accepted
      cases accepted
    · rintro ⟨impossible, -⟩
      cases impossible
  | ok result =>
    constructor
    · intro accepted
      cases accepted
      exact ⟨rfl, rfl⟩
    · rintro ⟨same, rfl⟩
      cases same
      rfl

def readMany (reader : Reader ε σ α) : Nat → Reader ε σ (List α)
  | 0 => return []
  | n + 1 => do
    let first ← reader
    let later ← readMany reader n
    return first :: later

theorem reads_many {reader : Reader ε σ α} {write : α → List σ} {values : List α}
    (each : ∀ value ∈ values, Reads reader (write value) value) :
    Reads (readMany reader values.length) (values.flatMap write) values := by
  induction values with
  | nil => exact .pure []
  | cons value values ih =>
    obtain ⟨first, later⟩ := List.forall_mem_cons.mp each
    exact first.bind ((ih later).bind_silent (.pure _))

theorem readMany_ok {Layout : Type} {reader : Reader ε σ α} {fine : Layout → Prop}
    {bytes : Layout → List σ} {value : Layout → α}
    (one : ∀ {input rest result}, reader input = .ok (result, rest) ↔
      ∃ layout, fine layout ∧ value layout = result ∧ input = bytes layout ++ rest)
    {n : Nat} {input rest : List σ} {results : List α} :
    readMany reader n input = .ok (results, rest) ↔
      ∃ layouts : List Layout, layouts.length = n ∧ (∀ layout ∈ layouts, fine layout) ∧
        layouts.map value = results ∧ input = layouts.flatMap bytes ++ rest := by
  induction n generalizing input results with
  | zero =>
    rw [readMany, reader_pure_ok]
    constructor
    · rintro ⟨rfl, rfl⟩
      exact ⟨[], rfl, by simp, rfl, rfl⟩
    · rintro ⟨layouts, none, -, rfl, rfl⟩
      obtain rfl := List.length_eq_zero_iff.mp none
      exact ⟨rfl, rfl⟩
  | succ n ih =>
    rw [readMany]
    constructor
    · intro read
      obtain ⟨first, left, read₁, read₂⟩ := reader_bind_ok.mp read
      obtain ⟨later, left₁, read₃, returned⟩ := reader_bind_ok.mp read₂
      obtain ⟨rfl, rfl⟩ := reader_pure_ok.mp returned
      obtain ⟨layout, here, rfl, rfl⟩ := one.mp read₁
      obtain ⟨layouts, rfl, each, rfl, rfl⟩ := ih.mp read₃
      refine ⟨layout :: layouts, rfl, List.forall_mem_cons.mpr ⟨here, each⟩, rfl, ?_⟩
      rw [List.flatMap_cons, List.append_assoc]
    · rintro ⟨layouts, counted, each, rfl, rfl⟩
      cases layouts with
      | nil => cases counted
      | cons layout layouts =>
        obtain ⟨here, each⟩ := List.forall_mem_cons.mp each
        rw [List.flatMap_cons, List.append_assoc]
        refine reader_bind_ok.mpr ⟨_, _, one.mpr ⟨layout, here, rfl, rfl⟩, ?_⟩
        exact reader_bind_ok.mpr ⟨_, _, ih.mpr ⟨layouts, Nat.succ.inj counted, each, rfl, rfl⟩, rfl⟩

/- A successful reading leaves a tail of its input. -/
def LeavesSuffix (reader : Reader ε σ α) : Prop :=
  ∀ input value rest, reader input = .ok (value, rest) → rest <:+ input

namespace LeavesSuffix

theorem pure (value : α) : LeavesSuffix (Pure.pure value : Reader ε σ α) := by
  intro input value' rest accepted
  cases accepted
  exact List.suffix_rfl

theorem bind {first : Reader ε σ α} {next : α → Reader ε σ β} (head : LeavesSuffix first)
    (tail : ∀ value, LeavesSuffix (next value)) : LeavesSuffix (first >>= next) := by
  intro input value rest accepted
  rw [reader_bind] at accepted
  cases outcome : first input with
  | error e =>
    rw [outcome] at accepted
    cases accepted
  | ok reading =>
    rw [outcome] at accepted
    exact (tail reading.1 reading.2 value rest accepted).trans
      (head input reading.1 reading.2 outcome)

end LeavesSuffix

/- What every value that is read satisfies. -/
def Yields (reader : Reader ε σ α) (P : α → Prop) : Prop :=
  ∀ input value rest, reader input = .ok (value, rest) → P value

namespace Yields

variable {P : α → Prop} {Q : β → Prop}

theorem pure {value : α} (holds : P value) : Yields (Pure.pure value : Reader ε σ α) P := by
  intro input value' rest accepted
  cases accepted
  exact holds

theorem bind {first : Reader ε σ α} {next : α → Reader ε σ β} (head : Yields first P)
    (tail : ∀ value, P value → Yields (next value) Q) : Yields (first >>= next) Q := by
  intro input value rest accepted
  rw [reader_bind] at accepted
  cases outcome : first input with
  | error e =>
    rw [outcome] at accepted
    cases accepted
  | ok reading =>
    rw [outcome] at accepted
    exact tail reading.1 (head input reading.1 reading.2 outcome) reading.2 value rest accepted

theorem bind_any {first : Reader ε σ α} {next : α → Reader ε σ β}
    (tail : ∀ value, Yields (next value) Q) : Yields (first >>= next) Q := by
  have anything : Yields first fun _ => True := fun _ _ _ _ => trivial
  exact anything.bind fun value _ => tail value

theorem ite {condition : Prop} [Decidable condition] {first second : Reader ε σ α}
    (left : condition → Yields first P) (right : ¬ condition → Yields second P) :
    Yields (if condition then first else second) P := by
  split
  · rename_i holds
    exact left holds
  · rename_i fails
    exact right fails

end Yields

/- A reading depends on nothing but what it takes. -/
def Prefixed (reader : Reader ε σ α) : Prop :=
  ∀ input value rest, reader input = .ok (value, rest) →
    ∃ written, input = written ++ rest ∧ Reads reader written value

namespace Prefixed

theorem pure (value : α) : Prefixed (Pure.pure value : Reader ε σ α) := by
  intro input value' rest accepted
  obtain ⟨rfl, rfl⟩ := reader_pure_ok.mp accepted
  exact ⟨[], rfl, .pure _⟩

theorem throw (e : ε) : Prefixed (MonadExcept.throw e : Reader ε σ α) := by
  intro input value rest accepted
  cases accepted

theorem refuse (bad : Prop) [Decidable bad] (error : ε) :
    Prefixed (Lib.refuse bad error : Reader ε σ Unit) := by
  intro input value rest accepted
  obtain ⟨fine, rfl⟩ := reader_refuse_ok.mp accepted
  exact ⟨[], rfl, .refuse fine⟩

theorem array (tooShort : ε) (n : Nat) : Prefixed (readArray tooShort n : Reader ε σ (List σ)) := by
  intro input value rest accepted
  obtain ⟨length, rfl⟩ := readArray_append.mp accepted
  exact ⟨value, rfl, reads_array tooShort length⟩

theorem bind {first : Reader ε σ α} {next : α → Reader ε σ β} (head : Prefixed first)
    (tail : ∀ value, Prefixed (next value)) : Prefixed (first >>= next) := by
  intro input value rest accepted
  obtain ⟨middle, left, read, then'⟩ := reader_bind_ok.mp accepted
  obtain ⟨written, rfl, reads⟩ := head input middle left read
  obtain ⟨written', rfl, reads'⟩ := tail middle left value rest then'
  exact ⟨written ++ written', by rw [List.append_assoc], reads.bind reads'⟩

theorem ite {condition : Prop} [Decidable condition] {first second : Reader ε σ α}
    (left : Prefixed first) (right : Prefixed second) :
    Prefixed (if condition then first else second) := by
  split
  · exact left
  · exact right

theorem many {reader : Reader ε σ α} (one : Prefixed reader) (n : Nat) : Prefixed (readMany reader n) := by
  induction n with
  | zero => exact .pure []
  | succ n ih => exact one.bind fun first => ih.bind fun later => .pure (first :: later)

end Prefixed

/- A reader takes just the spellings of what it yields. -/
def Accepts (reader : Reader ε σ α) (spells : List σ → α → Prop) : Prop :=
  ∀ input value rest, reader input = .ok (value, rest) ↔
    ∃ written, spells written value ∧ input = written ++ rest

namespace Accepts

variable {spells : List σ → α → Prop}

theorem pure (value : α) :
    Accepts (Pure.pure value : Reader ε σ α) fun written read => written = [] ∧ read = value := by
  intro input read rest
  rw [reader_pure_ok]
  constructor
  · rintro ⟨rfl, rfl⟩
    exact ⟨[], ⟨rfl, rfl⟩, rfl⟩
  · rintro ⟨_, ⟨rfl, rfl⟩, rfl⟩
    exact ⟨rfl, rfl⟩

theorem throw (e : ε) : Accepts (MonadExcept.throw e : Reader ε σ α) fun _ _ => False := by
  intro input read rest
  constructor
  · intro accepted
    cases accepted
  · rintro ⟨_, impossible, _⟩
    exact impossible.elim

theorem congr {reader : Reader ε σ α} {spells' : List σ → α → Prop} (accepts : Accepts reader spells)
    (same : ∀ written value, spells written value ↔ spells' written value) : Accepts reader spells' := by
  intro input value rest
  rw [accepts input value rest]
  exact exists_congr fun written => and_congr_left fun _ => same written value

theorem bind {first : Reader ε σ α} {next : α → Reader ε σ β} {later : α → List σ → β → Prop}
    (head : Accepts first spells) (tail : ∀ value, Accepts (next value) (later value)) :
    Accepts (first >>= next) fun written result =>
      ∃ front value back, spells front value ∧ later value back result ∧ written = front ++ back := by
  intro input result rest
  rw [reader_bind_ok]
  constructor
  · rintro ⟨value, left, read, read'⟩
    obtain ⟨front, spelled, rfl⟩ := (head _ _ _).mp read
    obtain ⟨back, spelled', rfl⟩ := (tail _ _ _ _).mp read'
    exact ⟨front ++ back, ⟨front, value, back, spelled, spelled', rfl⟩, (List.append_assoc ..).symm⟩
  · rintro ⟨_, ⟨front, value, back, spelled, spelled', rfl⟩, rfl⟩
    rw [List.append_assoc]
    exact ⟨value, back ++ rest, (head _ _ _).mpr ⟨front, spelled, rfl⟩,
      (tail _ _ _ _).mpr ⟨back, spelled', rfl⟩⟩

theorem ite {condition : Prop} [Decidable condition] {first second : Reader ε σ α}
    {spells' : List σ → α → Prop} (left : Accepts first spells) (right : Accepts second spells') :
    Accepts (if condition then first else second) fun written value =>
      if condition then spells written value else spells' written value := by
  split
  · exact left
  · exact right

/-- What is spelled is read, whatever follows it. -/
theorem reads {reader : Reader ε σ α} (accepts : Accepts reader spells) {written : List σ} {value : α}
    (spelled : spells written value) : Reads reader written value :=
  fun _ => (accepts _ _ _).mpr ⟨written, spelled, rfl⟩

end Accepts

end Surch.Lib
