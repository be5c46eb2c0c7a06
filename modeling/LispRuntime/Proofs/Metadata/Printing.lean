import LispRuntime.Proofs.Metadata.Walking
import LispRuntime.Proofs.Value.Making

/-! Alike values are printed as the same text. What they hold is printed in step, whatever is in
the cells that are shown with it. -/

namespace LispRuntime

variable {machine : Machine} {cells : Store Deferred}

namespace Printing

theorem items_inStep {α β : Type} {display : α → Run String} {displayToo : β → Run String}
    {elements : List α} {others : List β}
    (displays : List.Forall₂ (fun element other =>
      InStep machine cells (display element) (displayToo other) Eq) elements others)
    (separator : String) (limit : Option Nat) (index : Nat) :
    InStep machine cells (items display separator limit index elements)
      (items displayToo separator limit index others) Eq := by
  induction displays generalizing index with
  | nil => exact .pure rfl
  | cons first _ induction =>
      unfold items
      by_cases full : isFull limit index = true
      · rw [if_pos full, if_pos full]
        exact .pure rfl
      · rw [if_neg full, if_neg full]
        refine first.bind ?_
        rintro text _ rfl
        exact (induction (index + 1)).map fun more _ same => by rw [same]

theorem steps_inStep (keeps : machine.KeepsRealized) {display : Value → Run String}
    (displays : ∀ left right, Alike cells left right →
      InStep machine cells (display left) (display right) Eq)
    (limit : Option Nat) (fuel index : Nat) {cursor other : Cursor}
    (alike : CursorsAlike cells cursor other) :
    InStep machine cells (steps display limit fuel index cursor)
      (steps display limit fuel index other) Eq := by
  induction fuel generalizing index cursor other with
  | zero => exact .stuck
  | succ fuel induction =>
      refine (Cursor.next_inStep keeps alike).bind ?_
      rintro ⟨step, rest⟩ ⟨otherStep, otherRest⟩ ⟨yields, restAlike⟩
      cases yields with
      | none => exact .pure rfl
      | some same =>
          dsimp only
          by_cases full : isFull limit index = true
          · rw [if_pos full, if_pos full]
            exact .pure rfl
          · rw [if_neg full, if_neg full]
            cases same with
            | error error => exact .pure rfl
            | ok alikeItem =>
                refine (displays _ _ alikeItem).bind ?_
                rintro text _ rfl
                exact (induction (index + 1) restAlike).map fun more _ same => by rw [same]

end Printing

namespace Value

section

variable {display : Value → Run String} (displays : ∀ left right, Alike cells left right →
  InStep machine cells (display left) (display right) Eq)

include displays

theorem displayItems_inStep (keeps : machine.KeepsRealized) (opening closing : String)
    {items others : List Value} (alike : AllAlike cells items others) :
    InStep machine cells (displayItems display opening closing items)
      (displayItems display opening closing others) Eq := by
  refine (InStep.refl keeps .printLength).bind ?_
  rintro limit _ rfl
  exact (Printing.items_inStep (alike.forall₂.imp displays) " " limit 0).map
    fun _ _ same => by rw [same]

theorem displayEntries_inStep (keeps : machine.KeepsRealized)
    {entries others : List (Value × Value)}
    (alike : List.Forall₂ (EntriesAlike cells) entries others) :
    InStep machine cells (displayEntries display entries) (displayEntries display others) Eq := by
  have shown : ∀ entry other, EntriesAlike cells entry other →
      InStep machine cells (Printing.entry display entry) (Printing.entry display other) Eq := by
    intro entry other both
    refine (displays _ _ both.1).bind ?_
    rintro key _ rfl
    exact (displays _ _ both.2).map fun _ _ same => by rw [same]
  refine (InStep.refl keeps .printLength).bind ?_
  rintro limit _ rfl
  exact (Printing.items_inStep (alike.imp shown) ", " limit 0).map fun _ _ same => by rw [same]

theorem displaySteps_inStep (keeps : machine.KeepsRealized) (fuel : Nat) {left right : Value}
    (alike : Alike cells left right) :
    InStep machine cells (displaySteps display fuel left) (displaySteps display fuel right) Eq := by
  refine (InStep.refl keeps .printLength).bind ?_
  rintro limit _ rfl
  exact (Printing.steps_inStep keeps displays limit fuel 0 (.pending alike)).map
    fun _ _ same => by rw [same]

end

theorem displayWithin_inStep (keeps : machine.KeepsRealized) (fuel : Nat) {left right : Value}
    (alike : Alike cells left right) :
    InStep machine cells (left.displayWithin fuel) (right.displayWithin fuel) Eq := by
  induction fuel generalizing left right with
  | zero => exact .stuck
  | succ fuel induction =>
      have displays : ∀ left right, Alike cells left right →
          InStep machine cells (left.displayWithin fuel) (right.displayWithin fuel) Eq :=
        fun _ _ => induction
      have whole := alike
      cases alike with
      | same => exact InStep.refl keeps (.displayWithin (fuel + 1) left)
      | string | symbol => exact .pure rfl
      | list alike | vector alike | sortedSet alike =>
          exact displayItems_inStep displays keeps _ _ alike
      | hashSet _ alike => exact displayItems_inStep displays keeps _ _ alike
      | cons | lazySeq => exact displaySteps_inStep displays keeps fuel whole
      | arrayMap keys values | hashMap _ keys values | sortedMap keys values =>
          exact displayEntries_inStep displays keeps (AllAlike.entries keys values)

/-- Alike values are printed alike, from every world in which what is realized in them is. -/
theorem display_inStep (keeps : machine.KeepsRealized) {left right : Value}
    (alike : Alike cells left right) :
    InStep machine cells left.display right.display Eq := by
  refine InStep.limit.bind ?_
  rintro fuel _ rfl
  exact displayWithin_inStep keeps fuel alike

end Value

end LispRuntime
