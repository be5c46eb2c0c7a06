import LispRuntime.Proofs.Printing.Completion
import LispRuntime.Proofs.Printing.Stores

/-! Which values have texts, and which errors can be told. A value that shows no cell inside itself
has a text, and so have the errors that are told by its text. Where a cell is shown inside itself
there is no end to the text, and none to what is told by it. -/

namespace LispRuntime

/-- The same machine, but so many steps may be taken. -/
def Machine.allowing (machine : Machine) (limit : Nat) : Machine := { machine with limit := limit }

/-- Unless the condition holds there is an answer of this kind, if only enough steps may be taken.
If it holds there is none, however many steps may be taken. -/
structure Run.AnswersUnless {α : Type} (machine : Machine) (world : World) (condition : Prop)
    (computation : Run α) (expected : α → Prop) : Prop where
  answers : ¬ condition → ∃ enough, ∀ limit, enough ≤ limit → ∃ answer after,
    computation (machine.allowing limit) world = some (answer, after) ∧ expected answer
  runsOn : condition → ∀ limit, computation (machine.allowing limit) world = none

namespace Run

variable {α β : Type} {machine : Machine} {base world : World} {condition : Prop}

theorem EndsIff.mapM {items : List α} {visit : α → Run β} {condition : α → Prop}
    (each : ∀ item ∈ items, Run.EndsIff base machine (visit item) (condition item)) :
    Run.EndsIff base machine (items.mapM visit) (∀ item ∈ items, condition item) := by
  induction items with
  | nil => exact .pure [] nofun
  | cons item items induction =>
      rw [List.mapM_cons]
      have visits := each item (List.mem_cons_self ..)
      have others := induction fun other member => each other (List.mem_cons_of_mem _ member)
      exact (visits.bind fun _ => others.map _).congr List.forall_mem_cons.symm

/-- Whatever is enough, more is enough, too. -/
theorem EndsIff.answersUnless {computation : Run α} {isEnough : Nat → Prop}
    (ends : ∀ limit, Run.EndsIff world (machine.allowing limit) computation (isEnough limit))
    (mono : ∀ few more, few ≤ more → isEnough few → isEnough more)
    (exists_iff : (∃ limit, isEnough limit) ↔ ¬ condition) :
    Run.AnswersUnless machine world condition computation fun _ => True where
  answers free := by
    rcases exists_iff.mpr free with ⟨enough, isEnough⟩
    refine ⟨enough, fun limit le => ?_⟩
    rcases (ends limit world (.refl world)).1 (mono enough limit le isEnough) with
      ⟨answer, after, ran, _⟩
    exact ⟨answer, after, ran, trivial⟩
  runsOn holds limit :=
    (ends limit world (.refl world)).2 fun isEnough => exists_iff.mp ⟨limit, isEnough⟩ holds

/-- An error that is told by the answer. -/
theorem AnswersUnless.told {computation : Run α} {expected : α → Prop}
    (answers : Run.AnswersUnless machine world condition computation expected) (error : α → Error) :
    Run.AnswersUnless machine world condition
      (do throw (error (← computation)) : Attempt β).run
      fun outcome => ∃ answer, outcome = .error (error answer) where
  answers free := by
    rcases answers.answers free with ⟨enough, answers⟩
    refine ⟨enough, fun limit le => ?_⟩
    rcases answers limit le with ⟨answer, after, ran, _⟩
    exact ⟨_, after, Attempt.run_first ran, answer, rfl⟩
  runsOn holds limit := by
    have never : computation (machine.allowing limit) world =
        Run.stuck (machine.allowing limit) world := answers.runsOn holds limit
    exact Attempt.run_first_congr never

end Run

namespace Value

open Holdings (Within Knotted)

variable {machine : Machine} {world : World} {value : Value}

theorem display_endsIff (presents : world.Presents value) (limit : Nat) :
    Run.EndsIff world (machine.allowing limit) value.display
      (Within world.printLength world.holdings limit value) := by
  cases limit with
  | zero =>
      have stuck : Run.EndsIff world (machine.allowing 0) (Run.stuck : Run String) False := .stuck
      exact stuck
  | succ limit => exact displayWithin_endsIff (Nat.succ_pos limit) presents (limit + 1)

theorem display_answers (machine : Machine) (presents : world.Presents value) :
    Run.AnswersUnless machine world (Knotted world.printLength world.holdings value) value.display
      fun _ => True :=
  Run.EndsIff.answersUnless (display_endsIff presents) (fun _ _ le within => within.mono le)
    (Holdings.exists_within_iff world.holdings_isFinite)

/-- What is enough for each of some values is enough for all of them. -/
theorem exists_within_all_iff {limit : Option Nat} {holdings : Holdings} {values : List Value}
    (finite : holdings.IsFinite) :
    (∃ fuel, ∀ value ∈ values, Within limit holdings fuel value) ↔
      ¬ ∃ value ∈ values, Knotted limit holdings value := by
  constructor
  · rintro ⟨fuel, within⟩ ⟨value, member, knotted⟩
    exact (Holdings.exists_within_iff finite).mp ⟨fuel, within value member⟩ knotted
  · intro free
    induction values with
    | nil => exact ⟨0, nofun⟩
    | cons value values induction =>
        rcases (Holdings.exists_within_iff finite).mpr fun knotted =>
          free ⟨value, List.mem_cons_self .., knotted⟩ with ⟨fuel, within⟩
        rcases induction fun ⟨other, member, knotted⟩ =>
          free ⟨other, List.mem_cons_of_mem _ member, knotted⟩ with ⟨more, others⟩
        refine ⟨max fuel more, List.forall_mem_cons.mpr ⟨within.mono (Nat.le_max_left ..), ?_⟩⟩
        exact fun other member => (others other member).mono (Nat.le_max_right ..)

theorem texts_answer (machine : Machine) {values : List Value}
    (presents : ∀ value ∈ values, world.Presents value) :
    Run.AnswersUnless machine world
      (∃ value ∈ values, Knotted world.printLength world.holdings value)
      (values.mapM Value.display) fun _ => True :=
  Run.EndsIff.answersUnless
    (fun limit => Run.EndsIff.mapM fun value member =>
      display_endsIff (presents value member) limit)
    (fun _ _ le within value member => (within value member).mono le)
    (exists_within_all_iff world.holdings_isFinite)

/-- What cannot be called says so by its text. -/
theorem apply_eq_of_not_callable (refused : value.isCallable = false)
    (runFunction : Ref .function → List Value → Attempt Value) (arguments : List Value) :
    value.apply runFunction arguments = (do throw (.notCallable (← value.display))) := by
  cases value <;> first | rfl | cases refused

theorem apply_answers (machine : Machine) (presents : world.Presents value)
    (refused : value.isCallable = false)
    (runFunction : Ref .function → List Value → Attempt Value) (arguments : List Value) :
    Run.AnswersUnless machine world (Knotted world.printLength world.holdings value)
      (value.apply runFunction arguments).run
      fun outcome => ∃ text, outcome = .error (.notCallable text) := by
  rw [apply_eq_of_not_callable refused]
  exact (display_answers machine presents).told Error.notCallable

end Value

open Holdings (Knotted)
open Holding (performAll PassesThrough IsLoose)

/-! ## A ring of cells -/

/-- A machine on which every function gives its first argument back. -/
def Machine.echoing (limit : Nat) : Machine where
  call _ _ arguments world := some (.ok (arguments.headD .nil), world)
  held := []
  limit := limit

theorem Machine.echoing_keepsHoldings (limit : Nat) : (Machine.echoing limit).KeepsHoldings := by
  intro function arguments world outcome after ran
  cases ran
  rfl

namespace Ring

/-- A volatile holds an atom, and a vector of the item is stored in the atom. -/
def commands (item : Value) : List Holding.Command :=
  [.newAtom .nil, .newVolatile (.atom ⟨0⟩), .update ⟨0⟩ (.reset (.vector 0 [item] none))]

def world (item : Value) : World :=
  Atom.installedIn ⟨0⟩ { Atom.newIn .nil with volatiles := Store.empty.push (.atom ⟨0⟩) }
    (.vector 0 [item] none)

variable {item inner : Value}

theorem volatile_shows_iff :
    Holdings.Shows none (world item).holdings (.volatile ⟨0⟩) inner ↔ inner = .atom ⟨0⟩ := by
  have holds : (world item).holdings (.volatile ⟨0⟩) = some (.atom ⟨0⟩) := rfl
  rw [Holdings.shows_volatile_iff, holds, Option.some.injEq, eq_comm]

theorem atom_shows_iff :
    Holdings.Shows none (world item).holdings (.atom ⟨0⟩) inner ↔
      inner = .vector 0 [item] none := by
  have holds : (world item).holdings (.atom ⟨0⟩) = some (.vector 0 [item] none) := rfl
  rw [Holdings.shows_atom_iff, holds, Option.some.injEq, eq_comm]

theorem presents
    (below : ∀ inner, Holdings.Shows none (world item).holdings item inner → inner = .atom ⟨0⟩)
    (atHand : item.ChartedIn .empty ∧ item.StandsIn (world item)) :
    (world item).Presents (.volatile ⟨0⟩) := by
  have closed : ∀ outer ∈ [.volatile ⟨0⟩, .atom ⟨0⟩, .vector 0 [item] none, item], ∀ inner,
      Holdings.Shows none (world item).holdings outer inner →
        inner ∈ [.volatile ⟨0⟩, .atom ⟨0⟩, .vector 0 [item] none, item] := by
    simp only [List.forall_mem_cons, volatile_shows_iff, atom_shows_iff]
    refine ⟨by simp, by simp, fun inner shows => ?_, fun inner shows => ?_, nofun⟩
    · simp [List.mem_singleton.mp (Holdings.mem_of_shows_vector shows)]
    · simp [below inner shows]
  intro inner reached
  have among := Holdings.mem_of_reaches closed reached (List.mem_cons_self ..)
  simp only [List.mem_cons, List.not_mem_nil, or_false] at among
  rcases among with rfl | rfl | rfl | rfl
  · exact ⟨trivial, rfl⟩
  · exact ⟨trivial, rfl⟩
  · exact ⟨trivial, trivial⟩
  · exact atHand

/-- The ring is closed if the item is the volatile itself. -/
theorem knotted : Knotted none (world (.volatile ⟨0⟩)).holdings (.volatile ⟨0⟩) :=
  ⟨.volatile ⟨0⟩, .refl, .head (volatile_shows_iff.mpr rfl) (.head (atom_shows_iff.mpr rfl)
    (.single ((Holdings.shows_walked_iff rfl).mpr ⟨0, rfl, rfl⟩)))⟩

/-- Nothing leads to its cell if the item is an integer. -/
theorem isLoose (number : Int64) :
    IsLoose (.echoing 9) World.initial (commands (.integer number)) := by
  refine Holding.isLoose_of_given rfl rfl (fun leads => ?_) rfl
    (Holding.isLoose_of_given rfl rfl (fun leads => ?_) rfl
      (Holding.isLoose_of_given rfl rfl (fun leads => ?_) rfl Holding.isLoose_nil))
  · cases Holdings.eq_of_reaches_leaf rfl leads
  · rcases leads.cases_head with same | ⟨inner, shows, leads⟩
    · cases same
    · cases Holdings.shows_atom_iff.mp shows
      cases Holdings.eq_of_reaches_leaf rfl leads
  · rcases leads.cases_head with same | ⟨inner, shows, leads⟩
    · cases same
    · cases List.mem_singleton.mp (Holdings.mem_of_shows_vector shows)
      cases Holdings.eq_of_reaches_leaf rfl leads

end Ring

/-! ## Texts and errors -/

/-- An atom that holds itself is all that is shown for it. -/
theorem World.presents_of_self {world : World} {cell : Ref .atom}
    (itself : world.holdings (.atom cell) = some (.atom cell)) : world.Presents (.atom cell) := by
  have closed : ∀ outer ∈ [Value.atom cell], ∀ inner,
      Holdings.Shows world.printLength world.holdings outer inner → inner ∈ [Value.atom cell] := by
    intro outer member inner shows
    cases List.mem_singleton.mp member
    cases itself.symm.trans (Holdings.shows_atom_iff.mp shows)
    exact List.mem_singleton_self _
  intro inner reached
  have among := Holdings.mem_of_reaches closed reached (List.mem_singleton_self _)
  cases List.mem_singleton.mp among
  rcases Option.map_eq_some_iff.mp itself with ⟨atom, here, _⟩
  exact ⟨trivial, Option.isSome_of_eq_some here⟩

end LispRuntime
