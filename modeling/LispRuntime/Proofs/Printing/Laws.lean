import LispRuntime.Proofs.Printing.Limit
import LispRuntime.Proofs.Sequence.Views

/-! What is true of the texts of collections, whatever the print length is and whatever the bodies
of lazy seqs do. -/

namespace LispRuntime

namespace Printing

/-- The laws of printing on a machine. The texts of the elements are under the same laws. -/
structure Laws (machine : Machine) : Prop where
  display : ∀ (value : Value) world text after,
    value.display machine world = some (text, after) → value.Prints machine world text after
  unique : ∀ {value : Value} {world text after other otherAfter},
    value.Prints machine world text after → value.Prints machine world other otherAfter →
      text = other ∧ after = otherAfter
  /-- Lists, vectors, sets, cons chains and lazy seqs. -/
  walked : ∀ {value : Value} {opening cursor closing},
    value.walked? = some (opening, cursor, closing) → ∀ world text after,
      value.Prints machine world text after ↔ ∃ record : Record Cursor Value,
        record.Tells machine Cursor.next (Value.Prints machine) world.printLength cursor world
          after ∧ text = opening ++ record.text " " ++ closing
  map : ∀ {map : Value} {entries}, map.mapEntries? = some entries → ∀ world text after,
    map.Prints machine world text after ↔
      ∃ record : Record (List (Value × Value)) (Value × Value),
        record.Tells machine nextOf (Value.PrintsEntry machine) world.printLength entries world
          after ∧ text = "\x7b" ++ record.text ", " ++ "\x7d"
  /-- For an element over the limit a step is taken, but none for those behind it. -/
  steps : ∀ {record : Record Cursor Value} {cursor world after count},
    record.Tells machine Cursor.next (Value.Prints machine) (some count) cursor world after →
      record.steps.length ≤ count + 1
  /-- What the steps do not force is not realized. -/
  spared : ∀ {record : Record Cursor Value} {limit cursor world after} {cell : Ref .deferred},
    record.Tells machine Cursor.next (Value.Prints machine) limit cursor world after →
      (∀ step ∈ record.steps, Cursor.Spares machine cell step) →
      (∀ shown ∈ record.shown,
        shown.after.deferred.get? cell.index = shown.between.deferred.get? cell.index) →
      after.deferred.get? cell.index = world.deferred.get? cell.index
  /-- Collections inside are written under the same print length, at whatever depth. -/
  kept : machine.KeepsPrintLength → ∀ {value : Value} {world text after},
    value.Prints machine world text after → after.printLength = world.printLength
  inner : machine.KeepsPrintLength → ∀ {record : Record Cursor Value} {limit cursor world after},
    record.Tells machine Cursor.next (Value.Prints machine) limit cursor world after →
      ∀ shown ∈ record.shown, shown.between.printLength = world.printLength
  innerEntries : machine.KeepsPrintLength →
    ∀ {record : Record (List (Value × Value)) (Value × Value)} {limit entries world after},
    record.Tells machine nextOf (Value.PrintsEntry machine) limit entries world after →
      ∀ shown ∈ record.shown, shown.between.printLength = world.printLength
  /-- With a limit there is an end to what is written, even if there is none to the course. -/
  covered : ∀ (course : Course) {limit : Option Nat},
    (limit = none → ∃ length last, course.Comes length last ∧ ∀ item, last ≠ some (.ok item)) →
      ∃ length last, Covers course limit length last
  /-- What the text is where lazy seqs are accounted for, whether they end or not. -/
  charted : ∀ {account : Account machine} {stage : Stage account} {value : Value}
    {opening cursor closing course length last textOf},
    value.walked? = some (opening, cursor, closing) → value.ChartedIn stage.chart → stage.Idle →
      account.toLikeness.Same (value.courseIn stage.chart) course →
      Covers course stage.world.printLength length last → Texts stage course length textOf →
      ∃ after : Stage account, stage ≤ after ∧
        value.Prints machine stage.world
          (opening ++ (Ending.at stage.world.printLength length last).join " "
            ((List.range length).map textOf) ++ closing)
          after.world
  /-- Collections with the same brackets and the same elements have one text. -/
  same : ∀ {account : Account machine} {stage : Stage account} {left right : Value}
    {opening cursor otherCursor closing course length last textOf},
    left.walked? = some (opening, cursor, closing) →
      right.walked? = some (opening, otherCursor, closing) →
      left.ChartedIn stage.chart → right.ChartedIn stage.chart → stage.Idle →
      account.toLikeness.Same (left.courseIn stage.chart) course →
      account.toLikeness.Same (right.courseIn stage.chart) course →
      Covers course stage.world.printLength length last → Texts stage course length textOf →
      ∃ (text : String) (after otherAfter : Stage account),
        stage ≤ after ∧ left.Prints machine stage.world text after.world ∧
        stage ≤ otherAfter ∧ right.Prints machine stage.world text otherAfter.world
  chained : 0 < machine.limit → ∀ {address first} {rest : Value} {items},
    rest.chained? = some items → ∀ listAddress metadata world text after,
      (Value.cons address first rest).Prints machine world text after ↔
        (Value.list listAddress (first :: items) metadata).Prints machine world text after

end Printing

/-! A lazy seq that never ends, of lazy seqs that never end. -/

def endless (item : Value) : Course := fun _ => some (.ok item)

def endlessChart : Chart
  | 0 => some ⟨endless (.lazySeq ⟨1⟩), 0⟩
  | 1 => some ⟨endless (.character 'a'), 0⟩
  | _ => none

def endlessMachine : Machine where
  call _ body _ world :=
    match body with
    | .character 'o' => some (.ok (.cons 0 (.lazySeq ⟨1⟩) (.lazySeq ⟨0⟩)), world)
    | _ => some (.ok (.cons 0 (.character 'a') (.lazySeq ⟨1⟩)), world)
  held := []
  limit := 2

theorem endlessMachine_keeps : endlessMachine.KeepsPrintLength := by
  intro function arguments world outcome after ran
  change (match function with
    | .character 'o' => some (Except.ok _, world)
    | _ => some (Except.ok _, world)) = _ at ran
  split at ran <;> cases ran <;> rfl

def endlessBodies : FixedBodies endlessMachine .sameEntry endlessChart where
  body
    | 0 => .character 'o'
    | _ => .character 'i'
  outcome
    | 0 => .ok (.cons 0 (.lazySeq ⟨1⟩) (.lazySeq ⟨0⟩))
    | _ => .ok (.cons 0 (.character 'a') (.lazySeq ⟨1⟩))
  starts := by decide
  shallow {cell _} marked := by
    match cell with
    | 0 | 1 => cases marked; decide
    | _ + 2 => cases marked
  calls {cell _} marked world := by
    match cell with
    | 0 | 1 => rfl
    | _ + 2 => cases marked
  answers {cell _} marked := by
    match cell with
    | 0 | 1 =>
        cases marked
        refine ⟨⟨_, rfl⟩, Nat.le_refl 0, fun index => ?_⟩
        cases index <;> exact .refl _
    | _ + 2 => cases marked

def endlessAccount : Account endlessMachine :=
  endlessBodies.toAccount.under endlessMachine_keeps (some 2)

def endlessStage : Stage endlessAccount where
  chart := endlessChart
  world := { World.initial with
    deferred := ⟨#[.pending (.character 'o'), .pending (.character 'i')]⟩
    printLengths := Store.empty.push (some 2) }
  kept := by
    refine ⟨⟨rfl, fun cell mark marked => ?_⟩, rfl⟩
    match cell with
    | 0 | 1 => exact ⟨_, rfl, .pending⟩
    | _ + 2 => cases marked

theorem endless_covers (item : Value) :
    Printing.Covers (endless item) (some 2) 2 (some (.ok item)) where
  comes := ⟨fun _ _ => ⟨item, rfl⟩, rfl⟩
  within := by
    rintro _ ⟨⟩
    exact Nat.le_refl 2
  stops _ _ := rfl

theorem Printing.Texts.of_endless {stage : Stage endlessAccount} {item : Value} {text : String}
    (sole : ∀ found, SameEntry found item → found = item)
    (displayed : ∀ later, stage ≤ later → ∃ after : Stage endlessAccount, later ≤ after ∧
      item.Prints endlessMachine later.world text after.world) (length : Nat) :
    Printing.Texts stage (endless item) length fun _ => text := by
  intro later le index _ other found here alike
  cases here
  cases sole found alike
  exact displayed later le

/-- What is inside, at any stage. -/
theorem endless_element (stage : Stage endlessAccount) (idle : stage.Idle) :
    ∃ after : Stage endlessAccount, stage ≤ after ∧
      (Value.lazySeq ⟨1⟩).Prints endlessMachine stage.world "(\\a \\a ...)" after.world := by
  rcases stage with ⟨chart, world, ⟨rfl, kept⟩, limited⟩
  have texts : Printing.Texts (⟨endlessChart, world, ⟨rfl, kept⟩, limited⟩ : Stage endlessAccount)
      (endless (.character 'a')) 2 fun _ => "\\a" := by
    refine .of_endless (fun found alike => ?_) (fun later _ => ?_) 2
    · cases alike
      rfl
    · exact ⟨later, le_refl _, 1, rfl⟩
  have covers := endless_covers (.character 'a')
  rw [← limited] at covers
  have walked : (Value.lazySeq ⟨1⟩).walked? = some ("(", .pending (.lazySeq ⟨1⟩), ")") := rfl
  have charted : (Value.lazySeq ⟨1⟩).ChartedIn endlessChart := ⟨_, rfl⟩
  rcases Value.prints_charted walked charted idle (.refl _) covers texts with ⟨after, le, prints⟩
  dsimp only at prints
  rw [limited] at prints
  exact ⟨after, le, prints⟩

end LispRuntime
