/-! Runs of a machine that takes one event after the other. -/
namespace Surch.Lib

variable {S E : Type}

def runEvents (step : S → E → S) (events : List E) (s : S) : S := events.foldl step s

/- Every event of the run is allowed in the state that it finds. -/
def Admitted (step : S → E → S) (allowed : S → E → Prop) : S → List E → Prop
  | _, [] => True
  | s, e :: rest => allowed s e ∧ Admitted step allowed (step s e) rest

variable {step : S → E → S} {allowed : S → E → Prop}

instance decidableAdmitted [∀ s e, Decidable (allowed s e)] :
    ∀ s events, Decidable (Admitted step allowed s events)
  | _, [] => isTrue trivial
  | s, e :: rest =>
    have := decidableAdmitted (step s e) rest
    inferInstanceAs (Decidable (allowed s e ∧ Admitted step allowed (step s e) rest))

theorem Admitted.keeps {holds : S → Prop}
    (preserved : ∀ s e, holds s → allowed s e → holds (step s e))
    {s : S} {events : List E} (admitted : Admitted step allowed s events) (initial : holds s) :
    holds (runEvents step events s) := by
  induction events generalizing s with
  | nil => exact initial
  | cons e rest ih => exact ih admitted.2 (preserved s e initial admitted.1)

/-- What allows an event in a state where something holds, allows it all along a run that keeps that. -/
theorem Admitted.mono {weaker : S → E → Prop} (holds : S → Prop)
    (preserved : ∀ s e, holds s → allowed s e → holds (step s e))
    (weakens : ∀ s e, holds s → allowed s e → weaker s e)
    {s : S} {events : List E} (admitted : Admitted step allowed s events) (initial : holds s) :
    Admitted step weaker s events := by
  induction events generalizing s with
  | nil => exact trivial
  | cons e rest ih =>
    exact ⟨weakens s e initial admitted.1, ih admitted.2 (preserved s e initial admitted.1)⟩

theorem Admitted.of_append {s : S} {events later : List E}
    (admitted : Admitted step allowed s (events ++ later)) :
    Admitted step allowed s events ∧ Admitted step allowed (runEvents step events s) later := by
  induction events generalizing s with
  | nil => exact ⟨trivial, admitted⟩
  | cons e rest ih =>
    have tail := ih admitted.2
    exact ⟨⟨admitted.1, tail.1⟩, tail.2⟩

/-- Where an event keeps what holds exactly if it is allowed, every event of a run is allowed exactly if
it holds in every state of the run. -/
theorem admitted_iff (holds : S → Prop) (keeps_iff : ∀ s e, holds s → (holds (step s e) ↔ allowed s e))
    {s : S} {events : List E} (initial : holds s) :
    Admitted step allowed s events ↔ ∀ earlier, earlier <+: events → holds (runEvents step earlier s) := by
  induction events generalizing s with
  | nil =>
    constructor
    · intro _ earlier first
      cases List.prefix_nil.mp first
      exact initial
    · exact fun _ => trivial
  | cons e rest ih =>
    constructor
    · rintro ⟨here, later⟩ earlier first
      rcases List.prefix_cons_iff.mp first with rfl | ⟨tail, rfl, tail_first⟩
      · exact initial
      · exact (ih ((keeps_iff s e initial).mpr here)).mp later tail tail_first
    · intro every
      have next : holds (step s e) := every [e] (List.prefix_append [e] rest)
      refine ⟨(keeps_iff s e initial).mp next, (ih next).mpr fun tail tail_first => ?_⟩
      exact every (e :: tail) (List.prefix_cons_inj e |>.mpr tail_first)

end Surch.Lib
