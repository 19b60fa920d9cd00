import Surch.Lib.Program
import Surch.Lib.Runs

/-! Calls that run side by side on one store: between two requests of a call, others can make any number
of theirs. What a call knows of the store has to survive them. -/
namespace Surch.Lib

variable {Q R G D C : Type} {A : Q → Type}

/- A call under way: what it has learnt from the answers so far, and the rest of its program. -/
structure Running (Q : Type) (A : Q → Type) (R G : Type) where
  knowledge : G
  program : Program Q A R

/- The store, all calls ever started, and the results in the order in which they came back. -/
structure Pool (Q : Type) (A : Q → Type) (R G D : Type) where
  store : D
  calls : List (Running Q A R G)
  returned : List R

inductive PoolEvent (C : Type) where
  | start (call : C)
  | advance (position : Nat) (failed : Bool)

/- What calls there are, how the store serves a request, and what its answer teaches. -/
structure Service (Q : Type) (A : Q → Type) (R G D C : Type) where
  program : C → Program Q A R
  serve : Bool → (q : Q) → D → A q × D
  fresh : G
  learn : G → (q : Q) → A q → G

namespace Pool

variable (service : Service Q A R G D C)

def step (w : Pool Q A R G D) : PoolEvent C → Pool Q A R G D
  | .start call => { w with calls := w.calls ++ [⟨service.fresh, service.program call⟩] }
  | .advance position failed =>
    match w.calls[position]? with
    | some ⟨g, .ask q next⟩ =>
      let served := service.serve failed q w.store
      let program := next served.1
      { store := served.2
        calls := w.calls.set position ⟨service.learn g q served.1, program⟩
        returned := w.returned ++ program.result?.toList }
    | _ => w

def knowledges (w : Pool Q A R G D) : List G := w.calls.map Running.knowledge

/- A condition on each request, on the store and the calls as they are when it is served. -/
def Allows (condition : D → List G → G → (q : Q) → (failed : Bool) → Prop) (w : Pool Q A R G D) :
    PoolEvent C → Prop
  | .start _ => True
  | .advance position failed =>
    match w.calls[position]? with
    | some ⟨g, .ask q _⟩ => condition w.store w.knowledges g q failed
    | _ => True

instance {condition : D → List G → G → (q : Q) → (failed : Bool) → Prop}
    [∀ d gs g q failed, Decidable (condition d gs g q failed)] (w : Pool Q A R G D) :
    ∀ e : PoolEvent C, Decidable (w.Allows condition e)
  | .start _ => isTrue trivial
  | .advance position failed =>
    match found : w.calls[position]? with
    | some ⟨g, .ask q _⟩ =>
      decidable_of_iff (condition w.store w.knowledges g q failed) (by rw [Allows, found])
    | some ⟨_, .done _⟩ => isTrue (by rw [Allows, found]; trivial)
    | none => isTrue (by rw [Allows, found]; trivial)

def Idle (w : Pool Q A R G D) : Prop := ∀ call ∈ w.calls, call.program.result?.isSome

instance (w : Pool Q A R G D) : Decidable w.Idle := by
  unfold Idle
  infer_instance

end Pool

/-- What has to be shown of a service: the programs obey the protocol, and serving an allowed request
keeps what is known, by the call that makes it and by all others, and what all share. -/
structure Service.Rules (service : Service Q A R G D C) (may : G → Q → Prop) (ends : G → R → Prop)
    (shared : D → List R → List G → Prop) (knows : D → G → Prop) (apart : G → G → Prop)
    (condition : D → List G → G → (q : Q) → (failed : Bool) → Prop) : Prop where
  obeys : ∀ call, Program.Obeys service.learn may ends service.fresh (service.program call)
  fresh_knows : ∀ d, knows d service.fresh
  fresh_apart : ∀ g, apart g service.fresh
  fresh_shared : ∀ d returned gs, shared d returned gs → shared d returned (gs ++ [service.fresh])
  apart_symm : ∀ g h, apart g h → apart h g
  own : ∀ d returned gs g q failed, shared d returned gs → knows d g → may g q →
    condition d gs g q failed →
      knows (service.serve failed q d).2 (service.learn g q (service.serve failed q d).1)
  others : ∀ d returned gs g q failed h, shared d returned gs → knows d g → may g q →
    condition d gs g q failed → knows d h → apart g h →
      knows (service.serve failed q d).2 h ∧
        apart (service.learn g q (service.serve failed q d).1) h
  goes_on : ∀ d returned gs i g q failed q', gs[i]? = some g → shared d returned gs → knows d g →
    may g q → condition d gs g q failed →
      may (service.learn g q (service.serve failed q d).1) q' →
        shared (service.serve failed q d).2 returned
          (gs.set i (service.learn g q (service.serve failed q d).1))
  returns : ∀ d returned gs i g q failed result, gs[i]? = some g → shared d returned gs → knows d g →
    may g q → condition d gs g q failed →
      ends (service.learn g q (service.serve failed q d).1) result →
        shared (service.serve failed q d).2 (returned ++ [result])
          (gs.set i (service.learn g q (service.serve failed q d).1))

namespace Pool

section Soundness

variable {service : Service Q A R G D C} {may : G → Q → Prop} {ends : G → R → Prop}
  {shared : D → List R → List G → Prop} {knows : D → G → Prop} {apart : G → G → Prop}
  {condition : D → List G → G → (q : Q) → (failed : Bool) → Prop}

variable (service may ends shared knows apart) in
structure Sound (w : Pool Q A R G D) : Prop where
  obeys : ∀ call ∈ w.calls, Program.Obeys service.learn may ends call.knowledge call.program
  knows : ∀ call ∈ w.calls, knows w.store call.knowledge
  apart : ∀ (i j : Nat) (call other : Running Q A R G), i ≠ j → w.calls[i]? = some call →
    w.calls[j]? = some other → apart call.knowledge other.knowledge
  shared : shared w.store w.returned w.knowledges

variable {w : Pool Q A R G D}

theorem Sound.start (rules : service.Rules may ends shared knows apart condition)
    (sound : w.Sound service may ends shared knows apart) (call : C) :
    (w.step service (.start call)).Sound service may ends shared knows apart := by
  have found {i : Nat} {running : Running Q A R G}
      (here : (w.calls ++ [⟨service.fresh, service.program call⟩])[i]? = some running) :
      w.calls[i]? = some running ∨ (i = w.calls.length ∧ running.knowledge = service.fresh) := by
    rcases Nat.lt_trichotomy i w.calls.length with lt | rfl | gt
    · rw [List.getElem?_append_left lt] at here
      exact .inl here
    · rw [List.getElem?_append_right (Nat.le_refl _), Nat.sub_self] at here
      cases here
      exact .inr ⟨rfl, rfl⟩
    · rw [List.getElem?_eq_none (by rw [List.length_append, List.length_singleton]; omega)] at here
      cases here
  constructor
  · intro running member
    rcases List.mem_append.mp member with old | new
    · exact sound.obeys running old
    · cases List.mem_singleton.mp new
      exact rules.obeys call
  · intro running member
    rcases List.mem_append.mp member with old | new
    · exact sound.knows running old
    · cases List.mem_singleton.mp new
      exact rules.fresh_knows _
  · intro i j running other distinct here there
    rcases found here with old | ⟨at_end, new⟩
    · rcases found there with old' | ⟨_, new'⟩
      · exact sound.apart i j running other distinct old old'
      · rw [new']
        exact rules.fresh_apart _
    · rcases found there with old' | ⟨at_end', _⟩
      · rw [new]
        exact rules.apart_symm _ _ (rules.fresh_apart _)
      · omega
  · have shared := rules.fresh_shared _ _ _ sound.shared
    unfold knowledges at shared ⊢
    rw [show (w.step service (.start call)).calls = w.calls ++ [⟨service.fresh, service.program call⟩]
      from rfl, List.map_append]
    exact shared

theorem Sound.advance (rules : service.Rules may ends shared knows apart condition)
    (sound : w.Sound service may ends shared knows apart) {position : Nat} {failed : Bool}
    (allowed : w.Allows condition (C := C) (.advance position failed)) :
    (w.step service (.advance position failed)).Sound service may ends shared knows apart := by
  unfold Pool.step
  unfold Pool.Allows at allowed
  dsimp only at allowed ⊢
  split
  · rename_i g q next here
    rw [here] at allowed
    have member := List.mem_of_getElem? here
    obtain ⟨may_ask, obeys⟩ := sound.obeys _ member
    have knows_here := sound.knows _ member
    have obeys_next := obeys (service.serve failed q w.store).1
    have moved {i : Nat} {running : Running Q A R G}
        (found : (w.calls.set position ⟨service.learn g q (service.serve failed q w.store).1,
          next (service.serve failed q w.store).1⟩)[i]? = some running) :
        (i = position ∧ running.knowledge = service.learn g q (service.serve failed q w.store).1) ∨
          (i ≠ position ∧ w.calls[i]? = some running) := by
      by_cases same : i = position
      · subst same
        rw [List.getElem?_set_self (List.getElem?_eq_some_iff.mp here).1] at found
        cases found
        exact .inl ⟨rfl, rfl⟩
      · rw [List.getElem?_set_ne (Ne.symm same)] at found
        exact .inr ⟨same, found⟩
    have other_knows {i : Nat} {running : Running Q A R G} (distinct : i ≠ position)
        (found : w.calls[i]? = some running) :=
      rules.others w.store w.returned w.knowledges g q failed running.knowledge sound.shared knows_here may_ask
        allowed (sound.knows _ (List.mem_of_getElem? found))
        (sound.apart position i _ running (Ne.symm distinct) here found)
    have own_knows := rules.own w.store w.returned w.knowledges g q failed sound.shared knows_here may_ask allowed
    constructor
    · intro running inside
      rcases List.mem_or_eq_of_mem_set inside with old | new
      · exact sound.obeys running old
      · rw [new]
        exact obeys_next
    · intro running inside
      obtain ⟨i, found⟩ := List.getElem?_of_mem inside
      rcases moved found with ⟨_, same⟩ | ⟨distinct, old⟩
      · rw [same]
        exact own_knows
      · exact (other_knows distinct old).1
    · intro i j running other distinct first second
      rcases moved first with ⟨at_i, same⟩ | ⟨not_i, old⟩
      · rcases moved second with ⟨at_j, _⟩ | ⟨not_j, old'⟩
        · omega
        · rw [same]
          exact (other_knows not_j old').2
      · rcases moved second with ⟨_, same'⟩ | ⟨_, old'⟩
        · rw [same']
          exact rules.apart_symm _ _ (other_knows not_i old).2
        · exact sound.apart i j running other distinct old old'
    · have known : w.knowledges[position]? = some g := by
        rw [knowledges, List.getElem?_map, here]
        rfl
      unfold knowledges at known ⊢
      rw [List.map_set]
      dsimp only
      cases ended : next (service.serve failed q w.store).1 with
      | done result =>
        rw [ended] at obeys_next
        exact rules.returns w.store w.returned _ position g q failed result known sound.shared knows_here
          may_ask allowed obeys_next
      | ask q' rest =>
        rw [ended] at obeys_next
        rw [Program.result?, Option.toList_none, List.append_nil]
        exact rules.goes_on w.store w.returned _ position g q failed q' known sound.shared knows_here
          may_ask allowed obeys_next.1
  · exact sound

theorem Sound.step (rules : service.Rules may ends shared knows apart condition)
    (sound : w.Sound service may ends shared knows apart) {e : PoolEvent C}
    (allowed : w.Allows condition e) : (w.step service e).Sound service may ends shared knows apart := by
  cases e with
  | start call => exact sound.start rules call
  | advance position failed => exact sound.advance rules allowed

theorem Allows.mono {weaker : D → List G → G → (q : Q) → (failed : Bool) → Prop} {e : PoolEvent C}
    (allowed : w.Allows condition e)
    (weakens : ∀ gs g q failed, condition w.store gs g q failed → weaker w.store gs g q failed) :
    w.Allows weaker e := by
  cases e with
  | start call => exact trivial
  | advance position failed =>
    unfold Allows at allowed ⊢
    dsimp only at allowed ⊢
    split
    · rename_i g q next here
      rw [here] at allowed
      exact weakens _ _ _ _ allowed
    · trivial

theorem Sound.run (rules : service.Rules may ends shared knows apart condition)
    (sound : w.Sound service may ends shared knows apart) {events : List (PoolEvent C)}
    (admitted : Admitted (Pool.step service) (Allows condition) w events) :
    (runEvents (Pool.step service) events w).Sound service may ends shared knows apart := by
  exact admitted.keeps (fun _ _ sound allowed => sound.step rules allowed) sound

end Soundness

end Pool

end Surch.Lib
