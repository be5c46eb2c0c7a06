import LispRuntime.Proofs.Printing.Collections
import LispRuntime.Proofs.Sequence.Walking

/-! Collections under a print length. So many elements are written as there are and as the print
length allows, and whatever comes next decides how the text ends. One more step is taken for that
and no other, so a text comes to an end if the collection does not. It is made of the texts of the
elements alone: a list and a walk that meets the same elements have the same text. -/

namespace LispRuntime

namespace Printing

/-- How the writing ends when this is met after so many elements. -/
def Ending.at (limit : Option Nat) (count : Nat) {α : Type} : Option (Except Error α) → Ending
  | none => complete
  | some _ => if limit = some count then cut else broken

theorem Ending.meets_at {α : Type} {limit : Option Nat} {count : Nat}
    {met : Option (Except Error α)} (full : ∀ item, met = some (.ok item) → limit = some count) :
    (Ending.at limit count met).Meets limit count met := by
  rcases met with _ | error | item
  · exact .complete
  · rw [Ending.at]
    split
    case isTrue full => exact .cut full
    case isFalse hasRoom => exact .broken hasRoom
  · rw [Ending.at, if_pos (full item rfl)]
    exact .cut (full item rfl)

theorem Ending.at_succ {α : Type} {limit : Option Nat} (notFull : limit ≠ some 0) (count : Nat)
    (met : Option (Except Error α)) :
    Ending.at limit (count + 1) met = Ending.at (limit.map (· - 1)) count met := by
  cases met with
  | none => rfl
  | some step => simp only [Ending.at, eq_some_succ_iff notFull]

theorem Ending.at_of_agree {likeness : Likeness} {met last : Cursor.Yield}
    (agree : likeness.Agree met last) (limit : Option Nat) (count : Nat) :
    Ending.at limit count met = Ending.at limit count last := by
  cases agree <;> rfl

/-- Under the limit so many elements of the course are written, and then this is met. -/
structure Covers (course : Course) (limit : Option Nat) (length : Nat) (last : Cursor.Yield) :
    Prop where
  comes : course.Comes length last
  within : ∀ count, limit = some count → length ≤ count
  stops : ∀ item, last = some (.ok item) → limit = some length

theorem covers_succ_iff {course : Course} {limit : Option Nat} {length : Nat}
    {last : Cursor.Yield} {item : Value} (here : course 0 = some (.ok item)) :
    Covers course limit (length + 1) last ↔
      limit ≠ some 0 ∧ Covers course.tail (limit.map (· - 1)) length last := by
  constructor
  · rintro ⟨comes, within, stops⟩
    have notFull : limit ≠ some 0 := fun full => Nat.not_succ_le_zero _ (within 0 full)
    refine ⟨notFull, (Course.comes_succ_iff here).mp comes, fun count few => ?_, fun item met => ?_⟩
    · exact Nat.le_of_succ_le_succ (within _ ((eq_some_succ_iff notFull).mpr few))
    · exact (eq_some_succ_iff notFull).mp (stops item met)
  · rintro ⟨notFull, comes, within, stops⟩
    refine ⟨(Course.comes_succ_iff here).mpr comes, fun count few => ?_, fun item met => ?_⟩
    · rcases count with _ | count
      · exact (notFull few).elim
      · exact Nat.succ_le_succ (within count ((eq_some_succ_iff notFull).mp few))
    · exact (eq_some_succ_iff notFull).mpr (stops item met)

/-- If there is a limit, the course does not have to end. -/
theorem exists_covers (course : Course) {limit : Option Nat}
    (ends : limit = none → ∃ length last, course.Comes length last ∧
      ∀ item, last ≠ some (.ok item)) :
    ∃ length last, Covers course limit length last := by
  cases limit with
  | none =>
      rcases ends rfl with ⟨length, last, comes, ended⟩
      exact ⟨length, last, comes, nofun, fun item met => (ended item met).elim⟩
  | some count =>
      rcases course.exists_stops count with ⟨length, comes, stops⟩
      refine ⟨length, _, comes, ?_, fun item met => ?_⟩
      · rintro _ ⟨⟩
        rcases stops with here | ⟨before, _⟩
        · exact Nat.le_of_eq here
        · exact Nat.le_of_lt before
      · rcases stops with here | ⟨_, ended⟩
        · exact congrArg some here.symm
        · exact (ended item met).elim

section

variable {machine : Machine} {account : Account machine} {stage : Stage account}

/-- From this stage on the elements of the course have these texts, and so has what is like them. -/
def Texts (stage : Stage account) (course : Course) (length : Nat) (textOf : Nat → String) :
    Prop :=
  ∀ later, stage ≤ later → ∀ index < length, ∀ item found, course index = some (.ok item) →
    account.Alike found item →
      ∃ after : Stage account, later ≤ after ∧
        found.Prints machine later.world (textOf index) after.world

theorem Texts.later {course : Course} {length : Nat} {textOf : Nat → String}
    (texts : Texts stage course length textOf) {after : Stage account} (le : stage ≤ after) :
    Texts after course length textOf :=
  fun later leLater => texts later (le.trans leLater)

theorem Texts.tail {course : Course} {length : Nat} {textOf : Nat → String}
    (texts : Texts stage course (length + 1) textOf) :
    Texts stage course.tail length fun index => textOf (index + 1) :=
  fun later le index bound => texts later le (index + 1) (Nat.succ_lt_succ bound)

/-- The elements are written as they come, as far as the limit goes, and no more than one step
further is taken. -/
theorem exists_tells {cursor : Cursor} {course : Course} {limit : Option Nat} {length : Nat}
    {last : Cursor.Yield} {textOf : Nat → String} (charted : cursor.ChartedIn stage.chart)
    (idle : stage.Idle) (same : account.toLikeness.Same (cursor.courseIn stage.chart) course)
    (covers : Covers course limit length last) (texts : Texts stage course length textOf) :
    ∃ (record : Record Cursor Value) (after : Stage account), stage ≤ after ∧
      record.Tells machine Cursor.next (Value.Prints machine) limit cursor stage.world
        after.world ∧
      record.texts = (List.range length).map textOf ∧
      record.ending = Ending.at limit length last := by
  induction length generalizing stage cursor course limit textOf with
  | zero =>
      rcases Cursor.next_ends charted idle same with ⟨⟨met, rest⟩, after, stepped, le, steps⟩
      have agree : account.toLikeness.Agree met last := covers.comes.2 ▸ steps.agree
      refine ⟨⟨[], cursor, stage.world, Ending.at limit 0 last⟩, after, le,
        Record.tells_nil_iff.mpr ⟨rfl, rfl, met, rest, stepped, ?_⟩, rfl, rfl⟩
      rw [← Ending.at_of_agree agree]
      refine Ending.meets_at fun item found => ?_
      subst found
      rcases agree.of_element with ⟨other, isElement, _⟩
      exact covers.stops other isElement
  | succ length induction =>
      rcases covers.comes.1 0 (Nat.succ_pos length) with ⟨item, here⟩
      rcases (covers_succ_iff here).mp covers with ⟨notFull, coversRest⟩
      rcases Cursor.next_ends charted idle same with ⟨⟨met, rest⟩, between, stepped, le, steps⟩
      cases steps with
      | ended ended => cases here.symm.trans ended
      | error failed => cases here.symm.trans failed
      | @element found _ _ isElement alike chartedRest sameRest =>
          cases here.symm.trans isElement
          rcases texts between le 0 (Nat.succ_pos length) item found here alike with
            ⟨middle, leMiddle, displayed⟩
          have grows := leMiddle.chart
          rw [← Cursor.courseIn_later grows chartedRest] at sameRest
          rcases induction (Cursor.chartedIn_later grows chartedRest)
            (idle.later (le.trans leMiddle)) sameRest coversRest
            (texts.later (le.trans leMiddle)).tail with
            ⟨record, after, leAfter, tells, same, ending⟩
          refine ⟨{ record with shown := ⟨cursor, stage.world, found, rest, between.world, textOf 0,
              middle.world⟩ :: record.shown }, after, (le.trans leMiddle).trans leAfter,
            Record.tells_cons_iff.mpr ⟨notFull, rfl, rfl, stepped, displayed, tells⟩, ?_, ?_⟩
          · rw [List.range_succ_eq_map, List.map_cons, List.map_map]
            exact congrArg (textOf 0 :: ·) same
          · exact ending.trans (Ending.at_succ notFull length last).symm

end

end Printing

/-! ## Accounts under a print length -/

theorem Realizes.printLength_eq {likeness : Likeness} {chart : Chart} {world after : World}
    (realizes : Realizes likeness chart world after) : after.printLength = world.printLength := by
  cases realizes <;> rfl

/-- The account for worlds in which the print length is this. -/
def Account.under {machine : Machine} (account : Account machine)
    (keeps : machine.KeepsPrintLength) (limit : Option Nat) : Account machine where
  toLikeness := account.toLikeness
  Kept chart world := account.Kept chart world ∧ world.printLength = limit
  starts := account.starts
  shallow kept marked := account.shallow kept.1 marked
  charted kept marked := account.charted kept.1 marked
  realizes kept realizes :=
    ⟨account.realizes kept.1 realizes, realizes.printLength_eq.trans kept.2⟩
  answers kept marked running free := by
    rcases account.answers kept.1 marked running free with
      ⟨outcome, later, after, ran, grows, keptLater, same, answers⟩
    exact ⟨outcome, later, after, ran, grows,
      ⟨keptLater, (keeps _ _ _ _ _ ran).trans kept.2⟩, same, answers⟩

/-! ## Charted collections -/

namespace Value

section

variable {value : Value} {opening closing : String} {cursor : Cursor}
  (walked : value.walked? = some (opening, cursor, closing))
include walked

theorem courseIn_of_walked (chart : Chart) : cursor.courseIn chart = value.courseIn chart := by
  cases value with
  | list | vector | hashSet | sortedSet | cons | lazySeq =>
      cases walked
      rfl
  | _ => cases walked

theorem chartedIn_of_walked {chart : Chart} (charted : value.ChartedIn chart) :
    cursor.ChartedIn chart := by
  cases value with
  | list | vector | hashSet | sortedSet =>
      cases walked
      trivial
  | cons | lazySeq =>
      cases walked
      exact charted
  | _ => cases walked

/-- A collection comes to have its text even if it never ends, as long as its elements do. -/
theorem prints_charted {machine : Machine} {account : Account machine} {stage : Stage account}
    {course : Course} {length : Nat} {last : Cursor.Yield} {textOf : Nat → String}
    (charted : value.ChartedIn stage.chart) (idle : stage.Idle)
    (same : account.toLikeness.Same (value.courseIn stage.chart) course)
    (covers : Printing.Covers course stage.world.printLength length last)
    (texts : Printing.Texts stage course length textOf) :
    ∃ after : Stage account, stage ≤ after ∧
      value.Prints machine stage.world
        (opening ++ (Printing.Ending.at stage.world.printLength length last).join " "
          ((List.range length).map textOf) ++ closing)
        after.world := by
  rw [← courseIn_of_walked walked] at same
  rcases Printing.exists_tells (chartedIn_of_walked walked charted) idle same covers texts with
    ⟨record, after, le, tells, written, ending⟩
  refine ⟨after, le, (prints_walked_iff walked).mpr ⟨record, tells, ?_⟩⟩
  rw [Printing.Record.text, written, ending]

end

/-! ## Chains -/

/-- The elements of cons cells, one behind the other, with a list, a vector or nil at the end. -/
def chained? : Value → Option (List Value)
  | nil => some []
  | list _ items _ | vector _ items _ => some items
  | cons _ first rest => rest.chained?.map (first :: ·)
  | _ => none

section

variable {machine : Machine} (hasSteps : 0 < machine.limit) {world after : World}
include hasSteps

/-- One step is enough for the seq of what is at hand. -/
theorem seq_run_of_asked {value : Value} {outcome : Except Error Value}
    (asked : ∀ fuel, (value.seqWithin (fuel + 1)).run machine world = some (outcome, after)) :
    value.seq.run machine world = some (outcome, after) := by
  rcases Nat.exists_eq_add_of_lt hasSteps with ⟨fuel, enough⟩
  have found : (value.seqWithin machine.limit).run machine world = some (outcome, after) := by
    rw [enough]
    exact asked _
  exact (Attempt.run_first rfl).trans found

theorem next_run_nil : (Cursor.pending nil).next machine world = some ((none, .done), world) := by
  have ended : nil.seq.run machine world = some (.ok nil, world) :=
    seq_run_of_asked hasSteps fun _ => rfl
  exact Run.run_bind ended

theorem next_run_cons (address : Nat) (first rest : Value) :
    (Cursor.pending (cons address first rest)).next machine world =
      some ((some (.ok first), .pending rest), world) := by
  have full : (cons address first rest).seq.run machine world =
      some (.ok (cons address first rest), world) := seq_run_of_asked hasSteps fun _ => rfl
  exact Run.run_bind full

/-- A walk over a chain is as good as one over its elements at hand. -/
theorem loop_run_chained {value : Value} {items : List Value}
    (chained : value.chained? = some items) (display : Value → Run String) (separator : String)
    (limit : Option Nat) (fuel index : Nat) :
    Printing.loop Cursor.next display separator limit fuel index (.pending value) machine world =
      Printing.loop Cursor.next display separator limit fuel index (.items items) machine
        world := by
  induction fuel generalizing value items index world with
  | zero => rfl
  | succ fuel induction =>
      cases value with
      | nil =>
          cases chained
          exact Run.run_bind (next_run_nil hasSteps)
      | list | vector =>
          cases chained
          rfl
      | cons address first rest =>
          rcases Option.map_eq_some_iff.mp chained with ⟨others, chainedRest, rfl⟩
          have atHand : (Cursor.items (first :: others)).next machine world =
              some ((some (.ok first), .items others), world) := rfl
          have goesOn : Printing.loop Cursor.next display separator limit (fuel + 1) index
              (.items (first :: others)) machine world = _ := Run.run_bind atHand
          refine (Run.run_bind (next_run_cons hasSteps address first rest)).trans
            (Eq.trans ?_ goesOn.symm)
          dsimp only
          split
          case isTrue => rfl
          case isFalse =>
            cases displayed : display first machine world with
            | none => rw [Run.run_bind_none displayed, Run.run_bind_none displayed]
            | some answered =>
                rw [Run.run_bind displayed, Run.run_bind displayed]
                exact Run.run_bind_congr (induction chainedRest _) fun _ => rfl
      | _ => cases chained

/-- A chain has the text of the list of its elements. -/
theorem prints_chained_iff {address : Nat} {first rest : Value} {items : List Value}
    (chained : rest.chained? = some items) (listAddress : Nat) (metadata : Option Value)
    {text : String} :
    (cons address first rest).Prints machine world text after ↔
      (list listAddress (first :: items) metadata).Prints machine world text after := by
  have whole : (cons address first rest).chained? = some (first :: items) := by
    rw [chained?, chained]
    rfl
  rw [prints_walked_iff_loop rfl, prints_walked_iff_loop rfl]
  simp only [loop_run_chained hasSteps whole]

end

end Value

end LispRuntime
