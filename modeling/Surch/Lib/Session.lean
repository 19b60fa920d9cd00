import Surch.Lib.Program
import Surch.Lib.Runs

/-! One call on a store that others use as well: between two of its requests the others make any number
of theirs. `AtOnce` says that they cannot tell the call from one step. -/
namespace Surch.Lib

variable {Q R D : Type} {A : Q → Type}

/- The store, the number of requests that the call has made, and the rest of its program. -/
structure Session (Q : Type) (A : Q → Type) (R D : Type) where
  store : D
  turn : Nat
  rest : Program Q A R

inductive SessionEvent (Q : Type) where
  | own
  | other (q : Q)

namespace Session

variable (serve : (q : Q) → D → A q × D)

def start (program : Program Q A R) (store : D) : Session Q A R D := ⟨store, 0, program⟩

def step (s : Session Q A R D) : SessionEvent Q → Session Q A R D
  | .own => match s.rest with
    | .done _ => s
    | .ask q next => ⟨(serve q s.store).2, s.turn + 1, next (serve q s.store).1⟩
  | .other q => { s with store := (serve q s.store).2 }

variable {serve} in
theorem step_ask {s : Session Q A R D} {q : Q} {next : A q → Program Q A R} (here : s.rest = .ask q next) :
    s.step serve .own = ⟨(serve q s.store).2, s.turn + 1, next (serve q s.store).1⟩ := by
  simp only [step, here]

variable {serve} in
theorem step_done {s : Session Q A R D} {result : R} (here : s.rest = .done result) :
    s.step serve .own = s := by
  simp only [step, here]

def others : List (SessionEvent Q) → List Q
  | [] => []
  | .own :: rest => others rest
  | .other q :: rest => q :: others rest

def answers : List (SessionEvent Q) → Session Q A R D → List (Sigma A)
  | [], _ => []
  | .own :: rest, s => answers rest (s.step serve .own)
  | .other q :: rest, s => ⟨q, (serve q s.store).1⟩ :: answers rest (s.step serve (.other q))

def serveAll : List Q → D → List (Sigma A) × D
  | [], d => ([], d)
  | q :: rest, d =>
    let later := serveAll rest (serve q d).2
    (⟨q, (serve q d).1⟩ :: later.1, later.2)

/- The others are answered, and the store is left, as if they were alone. -/
def Unnoticed (s : Session Q A R D) (events : List (SessionEvent Q)) : Prop :=
  serveAll serve (others events) s.store =
    (answers serve events s, (runEvents (step serve) events s).store)

/- The same if the store changes at one moment, at which it meets a condition. -/
def AtOnce (change : D → D) (ready : D → Prop) (s : Session Q A R D) (events : List (SessionEvent Q)) :
    Prop :=
  ∃ before after, others events = before ++ after ∧
    let first := serveAll serve before s.store
    let second := serveAll serve after (change first.2)
    ready first.2 ∧ answers serve events s = first.1 ++ second.1 ∧
      (runEvents (step serve) events s).store = second.2

/- The answers alone are so, whether or not the call has come to its end. -/
def AnsweredAtOnce (change : D → D) (s : Session Q A R D) (events : List (SessionEvent Q)) : Prop :=
  ∃ before after, others events = before ++ after ∧
    let first := serveAll serve before s.store
    answers serve events s = first.1 ++ (serveAll serve after (change first.2)).1

variable {serve}

theorem Unnoticed.answered {s : Session Q A R D} {events : List (SessionEvent Q)}
    (unnoticed : Unnoticed serve s events) (change : D → D) : AnsweredAtOnce serve change s events := by
  refine ⟨others events, [], (List.append_nil _).symm, ?_⟩
  rw [unnoticed]
  exact (List.append_nil _).symm

theorem Unnoticed.atOnce {s : Session Q A R D} {events : List (SessionEvent Q)}
    (unnoticed : Unnoticed serve s events) {ready : D → Prop} (always : ∀ d, ready d) :
    AtOnce serve id ready s events := by
  refine ⟨others events, [], (List.append_nil _).symm, always _, ?_⟩
  rw [unnoticed]
  exact ⟨(List.append_nil _).symm, rfl⟩

variable (serve)

section Rules

variable (change : D → D) (ready : D → Prop) (early : Session Q A R D → Prop)
  (late : Session Q A R D → (D → D) → Prop) (allowed : Session Q A R D → SessionEvent Q → Prop)

/-- What has to be shown of a call that first only reads and then changes the store in several steps:
what is left to change commutes with all that others may do meanwhile. -/
structure Rules : Prop where
  early_own : ∀ s, early s → allowed s .own →
    (s.step serve .own).store = s.store ∧ early (s.step serve .own) ∨
      ready s.store ∧ ∃ left, late (s.step serve .own) left ∧
        left (s.step serve .own).store = change s.store
  early_other : ∀ s q, early s → early (s.step serve (.other q))
  late_own : ∀ s left, late s left → allowed s .own →
    ∃ left', late (s.step serve .own) left' ∧ left' (s.step serve .own).store = left s.store
  late_other : ∀ s left q, late s left → allowed s (.other q) →
    late (s.step serve (.other q)) left ∧
      serve q (left s.store) = ((serve q s.store).1, left (serve q s.store).2)

variable {serve change ready early late allowed}

theorem Rules.late_run (rules : Rules serve change ready early late allowed) {s : Session Q A R D}
    {left : D → D} {events : List (SessionEvent Q)} (started : late s left)
    (admitted : Admitted (step serve) allowed s events) :
    ∃ left', late (runEvents (step serve) events s) left' ∧
      serveAll serve (others events) (left s.store) =
        (answers serve events s, left' (runEvents (step serve) events s).store) := by
  induction events generalizing s left with
  | nil => exact ⟨left, started, rfl⟩
  | cons e rest ih =>
    obtain ⟨here, later⟩ := admitted
    cases e with
    | own =>
      obtain ⟨left', goes_on, same⟩ := rules.late_own s left started here
      obtain ⟨final, ended, served⟩ := ih goes_on later
      refine ⟨final, ended, ?_⟩
      rw [same] at served
      exact served
    | other q =>
      obtain ⟨goes_on, commutes⟩ := rules.late_other s left q started here
      obtain ⟨final, ended, served⟩ := ih goes_on later
      refine ⟨final, ended, ?_⟩
      have after : left (s.step serve (.other q)).store = (serve q (left s.store)).2 := by
        rw [commutes]
        rfl
      rw [after] at served
      simp only [others, serveAll, answers, served]
      rw [commutes]
      rfl

/-- A run of such a call goes unnoticed, or what has happened so far and what is left happen at once. -/
theorem Rules.run (rules : Rules serve change ready early late allowed) {s : Session Q A R D}
    {events : List (SessionEvent Q)} (started : early s)
    (admitted : Admitted (step serve) allowed s events) :
    early (runEvents (step serve) events s) ∧ Unnoticed serve s events ∨
      ∃ left, late (runEvents (step serve) events s) left ∧
        ∃ before after, others events = before ++ after ∧
          let first := serveAll serve before s.store
          let second := serveAll serve after (change first.2)
          ready first.2 ∧ answers serve events s = first.1 ++ second.1 ∧
            left (runEvents (step serve) events s).store = second.2 := by
  induction events generalizing s with
  | nil => exact .inl ⟨started, rfl⟩
  | cons e rest ih =>
    obtain ⟨here, later⟩ := admitted
    cases e with
    | own =>
      rcases rules.early_own s started here with ⟨unchanged, goes_on⟩ | ⟨met, left, goes_on, begun⟩
      · have run := ih goes_on later
        unfold Unnoticed at run
        rw [unchanged] at run
        exact run
      · obtain ⟨final, ended, served⟩ := rules.late_run goes_on later
        rw [begun] at served
        refine .inr ⟨final, ended, [], others rest, rfl, met, ?_, ?_⟩
        · exact (congrArg Prod.fst served).symm
        · exact (congrArg Prod.snd served).symm
    | other q =>
      rcases ih (rules.early_other s q started) later with
        ⟨ended, unnoticed⟩ | ⟨left, ended, before, after, split, met, answered, changed⟩
      · refine .inl ⟨ended, ?_⟩
        unfold Unnoticed at unnoticed ⊢
        simp only [others, serveAll, answers]
        exact congrArg (fun served => (⟨q, (serve q s.store).1⟩ :: served.1, served.2)) unnoticed
      · refine .inr ⟨left, ended, q :: before, after, congrArg (q :: ·) split, met, ?_, changed⟩
        exact congrArg (⟨q, (serve q s.store).1⟩ :: ·) answered

end Rules

end Session

end Surch.Lib
