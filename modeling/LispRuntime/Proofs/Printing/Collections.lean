import LispRuntime.Proofs.Printing.Record
import LispRuntime.Proofs.Sequence.Opening
import LispRuntime.Proofs.Value.Making

/-! The text of a collection. It is told by a record of the elements that are written under the
print length that the thread has when the writing begins, and the same is true of the collections
inside. What is done for it is done by the steps and the texts of the record. -/

namespace LispRuntime

/-- How many elements of a collection the current thread writes. -/
def World.printLength (world : World) : Option Nat := (world.printLengths.get? world.thread).join

theorem Cursor.meets_items : Printing.Meets Cursor.next Cursor.items where
  nothing := ⟨.done, rfl⟩
  element _ _ := rfl

namespace Value

/-- The brackets of a collection that is no map, and how its elements are met. -/
def walked? : Value → Option (String × Cursor × String)
  | list _ items _ => some ("(", .items items, ")")
  | vector _ items _ => some ("[", .items items, "]")
  | hashSet _ items _ => some ("#\x7b", .items (items.map Prod.snd), "\x7d")
  | sortedSet _ items _ => some ("#\x7b", .items items, "\x7d")
  | cons address first rest => some ("(", .pending (.cons address first rest), ")")
  | lazySeq cell => some ("(", .pending (.lazySeq cell), ")")
  | _ => none

/-- A key and its value, with a space between them. -/
def PrintsEntry (machine : Machine) (entry : Value × Value) (world : World) (text : String)
    (after : World) : Prop :=
  ∃ keyText between valueText, entry.1.Prints machine world keyText between ∧
    entry.2.Prints machine between valueText after ∧ text = keyText ++ " " ++ valueText

variable {machine : Machine} {world after : World} {text : String}

theorem prints_iff {value : Value} :
    value.Prints machine world text after ↔
      ∃ fuel, value.displayWithin (fuel + 1) machine world = some (text, after) := by
  constructor
  · rintro ⟨_ | fuel, ran⟩
    · cases ran
    · exact ⟨fuel, ran⟩
  · rintro ⟨fuel, ran⟩
    exact ⟨fuel + 1, ran⟩

/-! ## Brackets -/

section

open Printing (Record)

/-- What a record tells of the text between the brackets, it tells of the whole text. -/
theorem exists_bracketed_iff {σ α : Type} {tells : Record σ α → Prop}
    {computation : Nat → Run String} {separator : String}
    (inner : ∀ text, (∃ fuel, computation fuel machine world = some (text, after)) ↔
      ∃ record, tells record ∧ text = record.text separator) (opening closing : String) :
    (∃ fuel, (do
        let text ← computation fuel
        return opening ++ text ++ closing) machine world = some (text, after)) ↔
      ∃ record, tells record ∧ text = opening ++ record.text separator ++ closing := by
  constructor
  · rintro ⟨fuel, ran⟩
    rcases Run.exists_of_bind ran with ⟨text, between, ran, rest⟩
    cases rest
    rcases (inner text).mp ⟨fuel, ran⟩ with ⟨record, told, rfl⟩
    exact ⟨record, told, rfl⟩
  · rintro ⟨record, told, rfl⟩
    rcases (inner _).mpr ⟨record, told, rfl⟩ with ⟨fuel, ran⟩
    exact ⟨fuel, Run.run_bind ran⟩

/-- The print length is looked up first. -/
theorem run_limited {α : Type} (next : Option Nat → Run α) :
    (do next (← Run.printLength)) machine world = next world.printLength machine world :=
  Run.run_bind rfl

theorem exists_displayItems_iff (opening closing : String) (items : List Value) :
    (∃ fuel, displayItems (displayWithin fuel) opening closing items machine world =
      some (text, after)) ↔
    ∃ record : Record Cursor Value,
      record.Tells machine Cursor.next (Value.Prints machine) world.printLength (.items items)
        world after ∧ text = opening ++ record.text " " ++ closing := by
  simp only [displayItems, run_limited]
  exact exists_bracketed_iff (fun text => Printing.exists_items_iff Cursor.meets_items
    (fun le => displayWithin_agrees le) " ") opening closing

theorem exists_displaySteps_iff (value : Value) :
    (∃ fuel, displaySteps (displayWithin fuel) fuel value machine world = some (text, after)) ↔
    ∃ record : Record Cursor Value,
      record.Tells machine Cursor.next (Value.Prints machine) world.printLength (.pending value)
        world after ∧ text = "(" ++ record.text " " ++ ")" := by
  simp only [displaySteps, run_limited, Printing.steps_eq_loop]
  exact exists_bracketed_iff (fun text => Printing.exists_loop_iff
    (fun le => displayWithin_agrees le) " ") "(" ")"

theorem shows_entry (machine : Machine) :
    Printing.Shows (fun fuel => Printing.entry (displayWithin fuel)) machine =
      PrintsEntry machine := by
  funext entry world text after
  apply propext
  constructor
  · rintro ⟨fuel, ran⟩
    rcases Run.exists_of_bind ran with ⟨keyText, between, key, ran⟩
    rcases Run.exists_of_bind ran with ⟨valueText, last, value, ran⟩
    cases ran
    exact ⟨keyText, between, valueText, ⟨fuel, key⟩, ⟨fuel, value⟩, rfl⟩
  · rintro ⟨keyText, between, valueText, ⟨first, key⟩, ⟨second, value⟩, rfl⟩
    have key := displayWithin_agrees (Nat.le_max_left first second) _ _ _ _ key
    have value := displayWithin_agrees (Nat.le_max_right first second) _ _ _ _ value
    exact ⟨max first second, (Run.run_bind key).trans (Run.run_bind value)⟩

theorem exists_displayEntries_iff (entries : List (Value × Value)) :
    (∃ fuel, displayEntries (displayWithin fuel) entries machine world = some (text, after)) ↔
    ∃ record : Record (List (Value × Value)) (Value × Value),
      record.Tells machine Printing.nextOf (PrintsEntry machine) world.printLength entries
        world after ∧ text = "\x7b" ++ record.text ", " ++ "\x7d" := by
  simp only [displayEntries, run_limited]
  rw [← shows_entry]
  exact exists_bracketed_iff (fun text => Printing.exists_items_iff Printing.meets_nextOf
    (fun le => Printing.entry_agrees (displayWithin_agrees le)) ", ") "\x7b" "\x7d"

end

/-! ## Each collection -/

/-- What is written of a collection that is no map. -/
theorem prints_walked_iff {value : Value} {opening closing : String} {cursor : Cursor}
    (walked : value.walked? = some (opening, cursor, closing)) :
    value.Prints machine world text after ↔
      ∃ record : Printing.Record Cursor Value,
        record.Tells machine Cursor.next (Value.Prints machine) world.printLength cursor world
          after ∧ text = opening ++ record.text " " ++ closing := by
  rw [prints_iff]
  cases value with
  | list | vector | hashSet | sortedSet =>
      cases walked
      exact exists_displayItems_iff _ _ _
  | cons | lazySeq =>
      cases walked
      exact exists_displaySteps_iff _
  | _ => cases walked

/-- The same by the loop, whichever way the elements are met. -/
theorem prints_walked_iff_loop {value : Value} {opening closing : String} {cursor : Cursor}
    (walked : value.walked? = some (opening, cursor, closing)) :
    value.Prints machine world text after ↔
      ∃ inner, (∃ fuel, Printing.loop Cursor.next (displayWithin fuel) " " world.printLength fuel 0
        cursor machine world = some (inner, after)) ∧ text = opening ++ inner ++ closing := by
  rw [prints_walked_iff walked]
  constructor
  · rintro ⟨record, tells, rfl⟩
    exact ⟨_, (Printing.exists_loop_iff displayWithin_agrees " ").mpr ⟨record, tells, rfl⟩, rfl⟩
  · rintro ⟨inner, ran, rfl⟩
    rcases (Printing.exists_loop_iff displayWithin_agrees " ").mp ran with ⟨record, tells, rfl⟩
    exact ⟨record, tells, rfl⟩

theorem prints_map_iff {map : Value} {entries : List (Value × Value)}
    (contents : map.mapEntries? = some entries) :
    map.Prints machine world text after ↔
      ∃ record : Printing.Record (List (Value × Value)) (Value × Value),
        record.Tells machine Printing.nextOf (PrintsEntry machine) world.printLength entries
          world after ∧ text = "\x7b" ++ record.text ", " ++ "\x7d" := by
  rw [prints_iff]
  cases map with
  | arrayMap | hashMap | sortedMap =>
      cases contents
      exact exists_displayEntries_iff _
  | _ => cases contents

end Value

/-! ## What is done for it -/

namespace Printing

section

variable {σ α : Type} {machine : Machine} {next : σ → Run (Option (Except Error α) × σ)}
  {shows : α → World → String → World → Prop} {limit : Option Nat} {place last : σ}
  {world between after : World} {record : Record σ α}

theorem Writes.shown {shown : List (Shown σ α)}
    (writes : Writes machine next shows place world shown last between) :
    ∀ element ∈ shown, shows element.item element.between element.text element.after := by
  induction writes with
  | nothing => exact nofun
  | element _ written _ induction => exact List.forall_mem_cons.mpr ⟨written, induction⟩

/-- Nothing is done but by the steps of the record and by the texts of its elements. What these
leave as it is is so all the time. -/
theorem Record.Tells.unchanged {β : Type} (view : World → β)
    (tells : record.Tells machine next shows limit place world after)
    (steps : ∀ step ∈ record.steps, ∀ met rest after,
      next step.1 machine step.2 = some ((met, rest), after) → view after = view step.2)
    (texts : ∀ shown ∈ record.shown, view shown.after = view shown.between) :
    (∀ shown ∈ record.shown, view shown.between = view world) ∧ view after = view world := by
  rcases record with ⟨shown, last, between, ending⟩
  induction shown generalizing limit place world with
  | nil =>
      rcases tells_nil_iff.mp tells with ⟨rfl, rfl, met, rest, stepped, _⟩
      exact ⟨nofun, steps _ (List.mem_singleton_self _) _ _ _ stepped⟩
  | cons shown others induction =>
      rcases tells_cons_iff.mp tells with ⟨_, rfl, rfl, stepped, _, tells⟩
      have first := steps _ (List.mem_cons_self ..) _ _ _ stepped
      have written := (texts shown (List.mem_cons_self ..)).trans first
      have goesOn := induction tells (fun step member => steps step (List.mem_cons_of_mem _ member))
        fun shown member => texts shown (List.mem_cons_of_mem _ member)
      exact ⟨List.forall_mem_cons.mpr ⟨first, fun other member =>
        (goesOn.1 other member).trans written⟩, goesOn.2.trans written⟩

/-- There is one step more than there are elements that are written. -/
theorem Record.Tells.length_steps_le
    (tells : record.Tells machine next shows limit place world after) {count : Nat}
    (isLimit : limit = some count) : record.steps.length ≤ count + 1 := by
  rw [Record.steps, List.length_append, List.length_map]
  exact Nat.succ_le_succ (tells.within count isLimit)

end

end Printing

/-! ### Cells -/

/-- The step of a walk that is taken here leaves the cell alone. It is not forced for the step, and
the bodies that run do nothing to it. -/
def Cursor.Spares (machine : Machine) (cell : Ref .deferred) (step : Cursor × World) : Prop :=
  ∃ forced bodies met after, Advances machine step.1 step.2 forced bodies met after ∧
    cell ∉ forced ∧ ∀ application ∈ bodies, application.Spares cell

/-- A cell for which no step is taken stays as it is, unless the text of an element does something
to it. -/
theorem Printing.Record.Tells.get?_eq {machine : Machine}
    {shows : Value → World → String → World → Prop} {limit : Option Nat} {cursor : Cursor}
    {world after : World} {record : Record Cursor Value}
    (tells : record.Tells machine Cursor.next shows limit cursor world after) {cell : Ref .deferred}
    (steps : ∀ step ∈ record.steps, Cursor.Spares machine cell step)
    (texts : ∀ shown ∈ record.shown,
      shown.after.deferred.get? cell.index = shown.between.deferred.get? cell.index) :
    after.deferred.get? cell.index = world.deferred.get? cell.index := by
  refine (tells.unchanged (fun world => world.deferred.get? cell.index) ?_ texts).2
  intro step member met rest after stepped
  rcases steps step member with ⟨forced, bodies, _, _, advances, notForced, spared⟩
  cases advances.ran.symm.trans stepped
  exact advances.keeps notForced spared

/-! ### The print length -/

/-- No call changes how many elements the current thread writes. -/
def Machine.KeepsPrintLength (machine : Machine) : Prop :=
  ∀ function arguments world outcome after,
    machine.call machine.held function arguments world = some (outcome, after) →
    after.printLength = world.printLength

section

variable {machine : Machine} (keeps : machine.KeepsPrintLength) {world after : World}
include keeps

theorem Made.printLength_eq {α : Type} {computation : Run α} (made : Made computation) {answer : α}
    (ran : computation machine world = some (answer, after)) :
    after.printLength = world.printLength := by
  induction made generalizing world after with
  | plain isPlain =>
      rw [isPlain.keeps ran]
      rfl
  | bind _ _ first rest =>
      rcases Run.exists_of_bind ran with ⟨middle, between, ranFirst, ranRest⟩
      exact (rest middle ranRest).trans (first ranFirst)
  | call function arguments => exact keeps function arguments world answer after ran
  | force cell _ completes =>
      rcases exists_of_force ran with ⟨_, _, _, rfl⟩ | ⟨body, between, pending, called, rfl⟩
      · rfl
      · change between.printLength = (world.settingDeferred cell.index (.running body)).printLength
        rcases Attempt.exists_of_bind called with ⟨error, failed, _⟩ | ⟨value, middle, ran, rest⟩
        · exact keeps _ _ _ _ _ failed
        · exact (completes value rest).trans (keeps _ _ _ _ _ ran)

theorem Value.Prints.printLength_eq {value : Value} {text : String}
    (prints : value.Prints machine world text after) : after.printLength = world.printLength := by
  rcases prints with ⟨fuel, ran⟩
  exact (Made.displayWithin fuel value).printLength_eq keeps ran

theorem Value.PrintsEntry.printLength_eq {entry : Value × Value} {text : String}
    (prints : Value.PrintsEntry machine entry world text after) :
    after.printLength = world.printLength := by
  rcases prints with ⟨_, between, _, key, value, _⟩
  exact (value.printLength_eq keeps).trans (key.printLength_eq keeps)

/-- Whatever is written inside a collection is written under the print length that holds for the
collection. -/
theorem Printing.Record.Tells.printLength_eq {record : Record Cursor Value} {limit : Option Nat}
    {cursor : Cursor}
    (tells : record.Tells machine Cursor.next (Value.Prints machine) limit cursor world after) :
    ∀ shown ∈ record.shown, shown.between.printLength = world.printLength := by
  have displayed := tells.writes.shown
  refine (tells.unchanged World.printLength ?_ ?_).1
  · exact fun step _ met rest after stepped => (Made.step step.1).printLength_eq keeps stepped
  · exact fun shown member => (displayed shown member).printLength_eq keeps

theorem Printing.Record.Tells.printLength_eq_of_entries
    {record : Record (List (Value × Value)) (Value × Value)} {limit : Option Nat}
    {entries : List (Value × Value)}
    (tells : record.Tells machine nextOf (Value.PrintsEntry machine) limit entries world after) :
    ∀ shown ∈ record.shown, shown.between.printLength = world.printLength := by
  have displayed := tells.writes.shown
  refine (tells.unchanged World.printLength ?_ ?_).1
  · rintro ⟨_ | _, _⟩ _ met rest after stepped <;> cases stepped <;> rfl
  · exact fun shown member => (displayed shown member).printLength_eq keeps

end

end LispRuntime
