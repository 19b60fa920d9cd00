/-! Programs that make requests of a store, one at a time. Each request is served, fails, or is never
made because the process stops before it; `Keeps` is the rule for what holds in all these cases. -/
namespace Surch.Lib

inductive Program (Q : Type) (A : Q → Type) (R : Type) where
  | done (result : R)
  | ask (request : Q) (next : A request → Program Q A R)

inductive Verdict where
  | served
  | failed
  | stopped
deriving DecidableEq, Repr

namespace Program

variable {Q D R S : Type} {A : Q → Type}

def bind : Program Q A R → (R → Program Q A S) → Program Q A S
  | .done result, next => next result
  | .ask request rest, next => .ask request fun answer => (rest answer).bind next

instance : Monad (Program Q A) where
  pure := .done
  bind := bind

def request (q : Q) : Program Q A (A q) := .ask q .done

def result? : Program Q A R → Option R
  | .done result => some result
  | .ask _ _ => none

@[simp] theorem pure_eq (result : R) : (pure result : Program Q A R) = .done result := rfl

@[simp] theorem done_bind (result : R) (next : R → Program Q A S) :
    (Program.done result >>= next) = next result := rfl

@[simp] theorem ask_bind (q : Q) (rest : A q → Program Q A R) (next : R → Program Q A S) :
    (Program.ask q rest >>= next) = .ask q fun answer => rest answer >>= next := rfl

@[simp] theorem request_bind (q : Q) (next : A q → Program Q A S) :
    (request q >>= next) = .ask q next := rfl

section Protocol

variable {G : Type}

/- Every request is one that the knowledge gathered so far allows, and so is the result. -/
def Obeys (learn : G → (q : Q) → A q → G) (may : G → Q → Prop) (ends : G → R → Prop) :
    G → Program Q A R → Prop
  | g, .done result => ends g result
  | g, .ask q next => may g q ∧ ∀ answer, Obeys learn may ends (learn g q answer) (next answer)

variable {learn : G → (q : Q) → A q → G} {may : G → Q → Prop}

theorem Obeys.bind {ends : G → S → Prop} {program : Program Q A R} {next : R → Program Q A S} {g : G}
    (first : Obeys learn may (fun g result => Obeys learn may ends g (next result)) g program) :
    Obeys learn may ends g (program >>= next) := by
  induction program generalizing g with
  | done result => exact first
  | ask q rest ih =>
    constructor
    · exact first.1
    · intro answer
      exact ih answer (first.2 answer)

theorem Obeys.mono {ends weaker : G → R → Prop} {program : Program Q A R} {g : G}
    (obeys : Obeys learn may ends g program) (weakens : ∀ g result, ends g result → weaker g result) :
    Obeys learn may weaker g program := by
  induction program generalizing g with
  | done result => exact weakens g result obeys
  | ask q rest ih =>
    constructor
    · exact obeys.1
    · intro answer
      exact ih answer (obeys.2 answer)

end Protocol

section Runs

variable (serve : (failed : Bool) → (q : Q) → D → A q × D)

/- The run under these verdicts; past their end every request is served. Without a result the process
stopped. -/
def run : List Verdict → Program Q A R → D → Option R × D
  | _, .done result, d => (some result, d)
  | [], .ask q next, d => run [] (next (serve false q d).1) (serve false q d).2
  | .served :: verdicts, .ask q next, d => run verdicts (next (serve false q d).1) (serve false q d).2
  | .failed :: verdicts, .ask q next, d => run verdicts (next (serve true q d).1) (serve true q d).2
  | .stopped :: _, .ask _ _, d => (none, d)

@[simp] theorem run_done (verdicts : List Verdict) (result : R) (d : D) :
    run serve verdicts (.done result : Program Q A R) d = (some result, d) := by
  cases verdicts <;> rfl

theorem run_served (program : Program Q A R) (d : D) : (run serve [] program d).1.isSome := by
  induction program generalizing d with
  | done result => rfl
  | ask q next ih => exact ih _ _

def stoppedBefore : List Verdict → Program Q A R → D → Option Q
  | _, .done _, _ => none
  | [], .ask q next, d => stoppedBefore [] (next (serve false q d).1) (serve false q d).2
  | .served :: verdicts, .ask q next, d =>
    stoppedBefore verdicts (next (serve false q d).1) (serve false q d).2
  | .failed :: verdicts, .ask q next, d =>
    stoppedBefore verdicts (next (serve true q d).1) (serve true q d).2
  | .stopped :: _, .ask q _, _ => some q

/- Whenever the program stops before `q` on `d`, `crash q d` holds, and when it ends `post` does.
Requests may fail only where `faults` is set. -/
def Keeps (faults : Bool) (crash : Q → D → Prop) (post : R → D → Prop) : Program Q A R → D → Prop
  | .done result, d => post result d
  | .ask q next, d =>
    crash q d ∧ ∀ failed, (failed = true → faults = true) →
      Keeps faults crash post (next (serve failed q d).1) (serve failed q d).2

variable {serve} {faults : Bool} {crash : Q → D → Prop} {post : R → D → Prop}

theorem Keeps.bind {first : Program Q A R} {next : R → Program Q A S} {final : S → D → Prop} {d : D}
    (head : Keeps serve faults crash post first d)
    (tail : ∀ result d, post result d → Keeps serve faults crash final (next result) d) :
    Keeps serve faults crash final (first >>= next) d := by
  induction first generalizing d with
  | done result => exact tail result d head
  | ask q rest ih =>
    refine ⟨head.1, ?_⟩
    intro failed may
    exact ih _ (head.2 failed may)

theorem Keeps.mono {program : Program Q A R} {weaker : R → D → Prop} {d : D}
    (keeps : Keeps serve faults crash post program d)
    (weakens : ∀ result d, post result d → weaker result d) :
    Keeps serve faults crash weaker program d := by
  induction program generalizing d with
  | done result => exact weakens result d keeps
  | ask q rest ih =>
    constructor
    · exact keeps.1
    · intro failed may
      exact ih _ (keeps.2 failed may)

theorem Keeps.crash_mono {program : Program Q A R} {weaker : Q → D → Prop} {d : D}
    (keeps : Keeps serve faults crash post program d)
    (weakens : ∀ q d, crash q d → weaker q d) :
    Keeps serve faults weaker post program d := by
  induction program generalizing d with
  | done result => exact keeps
  | ask q rest ih =>
    constructor
    · exact weakens q d keeps.1
    · intro failed may
      exact ih _ (keeps.2 failed may)

/-- What a run leaves: the result with `post`, or a stop with `crash`. -/
theorem Keeps.run {program : Program Q A R} {d : D} {verdicts : List Verdict}
    (keeps : Keeps serve faults crash post program d)
    (mild : .failed ∈ verdicts → faults = true) :
    (∃ result, (Program.run serve verdicts program d).1 = some result ∧
        post result (Program.run serve verdicts program d).2 ∧
        stoppedBefore serve verdicts program d = none) ∨
      ∃ q, (Program.run serve verdicts program d).1 = none ∧
        stoppedBefore serve verdicts program d = some q ∧
        crash q (Program.run serve verdicts program d).2 := by
  induction program generalizing d verdicts with
  | done result =>
    left
    cases verdicts <;> exact ⟨result, rfl, keeps, rfl⟩
  | ask q next ih =>
    cases verdicts with
    | nil =>
      simp only [Program.run, stoppedBefore]
      exact ih _ (keeps.2 false nofun) mild
    | cons verdict verdicts =>
      have rest : .failed ∈ verdicts → faults = true := fun member =>
        mild (List.mem_cons_of_mem _ member)
      cases verdict with
      | served =>
        simp only [Program.run, stoppedBefore]
        exact ih _ (keeps.2 false nofun) rest
      | failed =>
        simp only [Program.run, stoppedBefore]
        exact ih _ (keeps.2 true fun _ => mild List.mem_cons_self) rest
      | stopped => exact .inr ⟨q, rfl, rfl, keeps.1⟩

/- The run in which every request is answered, the failing ones of the list with a failure. -/
def complete (serve : (failed : Bool) → (q : Q) → D → A q × D) :
    List Bool → Program Q A R → D → R × D
  | _, .done result, d => (result, d)
  | [], .ask q next, d => complete serve [] (next (serve false q d).1) (serve false q d).2
  | failed :: failures, .ask q next, d =>
    complete serve failures (next (serve failed q d).1) (serve failed q d).2

@[simp] theorem complete_done (failures : List Bool) (result : R) (d : D) :
    complete serve failures (.done result : Program Q A R) d = (result, d) := by
  cases failures <;> rfl

theorem complete_bind (program : Program Q A R) (next : R → Program Q A S) (d : D) :
    complete serve [] (program >>= next) d =
      complete serve [] (next (complete serve [] program d).1) (complete serve [] program d).2 := by
  induction program generalizing d with
  | done result => rfl
  | ask q rest ih => exact ih _ _

theorem Keeps.complete {program : Program Q A R} {d : D} {failures : List Bool}
    (keeps : Keeps serve faults crash post program d)
    (mild : true ∈ failures → faults = true) :
    post (Program.complete serve failures program d).1 (Program.complete serve failures program d).2 := by
  induction program generalizing d failures with
  | done result =>
    rw [complete_done]
    exact keeps
  | ask q next ih =>
    cases failures with
    | nil => exact ih _ (keeps.2 false nofun) mild
    | cons failed failures =>
      have rest : true ∈ failures → faults = true := fun member =>
        mild (List.mem_cons_of_mem _ member)
      apply ih _ (keeps.2 failed _) rest
      rintro rfl
      exact mild List.mem_cons_self

end Runs

end Program

end Surch.Lib
