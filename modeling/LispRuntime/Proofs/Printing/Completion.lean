import LispRuntime.Call
import LispRuntime.Proofs.Printing.Inside
import LispRuntime.Proofs.Sequence.Views

/-! Printing comes to an end exactly if there is an end to what is shown inside the value. Where no
lazy seq is printed, no function is called for a text and nothing changes but addresses and array
maps, so the fuel that a text takes can be told from what is shown. -/

namespace LispRuntime

/-! ## Computations that end under a condition -/

/-- In this world, whatever addresses and array maps there are, the computation ends exactly under
the condition. -/
def Run.EndsIff {α : Type} (base : World) (machine : Machine) (computation : Run α)
    (condition : Prop) : Prop :=
  ∀ world, base.Keeps world →
    (condition → ∃ answer after, computation machine world = some (answer, after) ∧
      base.Keeps after) ∧
    (¬ condition → computation machine world = none)

namespace Run.EndsIff

variable {α β : Type} {base : World} {machine : Machine} {condition more : Prop}

theorem stuck : Run.EndsIff base machine (Run.stuck : Run α) False :=
  fun _ _ => ⟨False.elim, fun _ => rfl⟩

theorem pure (answer : α) (holds : condition) :
    Run.EndsIff base machine (Pure.pure answer) condition :=
  fun world keeps => ⟨fun _ => ⟨answer, world, rfl, keeps⟩, fun fails => (fails holds).elim⟩

theorem congr {computation : Run α} (ends : Run.EndsIff base machine computation condition)
    (same : condition ↔ more) : Run.EndsIff base machine computation more :=
  propext same ▸ ends

theorem bind {computation : Run α} {next : α → Run β}
    (ends : Run.EndsIff base machine computation condition)
    (goesOn : ∀ answer, Run.EndsIff base machine (next answer) more) :
    Run.EndsIff base machine (computation >>= next) (condition ∧ more) := by
  intro world keeps
  constructor
  · rintro ⟨holds, holdsToo⟩
    rcases (ends world keeps).1 holds with ⟨answer, between, ran, kept⟩
    rcases (goesOn answer between kept).1 holdsToo with ⟨last, after, ranOn, keptOn⟩
    exact ⟨last, after, (Run.run_bind ran).trans ranOn, keptOn⟩
  · intro fails
    by_cases holds : condition
    · rcases (ends world keeps).1 holds with ⟨answer, between, ran, kept⟩
      exact (Run.run_bind ran).trans
        ((goesOn answer between kept).2 fun holdsToo => fails ⟨holds, holdsToo⟩)
    · exact Run.run_bind_none ((ends world keeps).2 holds)

theorem map {computation : Run α} (ends : Run.EndsIff base machine computation condition)
    (change : α → β) : Run.EndsIff base machine (do return change (← computation)) condition :=
  (ends.bind fun answer => pure (change answer) trivial).congr (and_iff_left trivial)

/-- A step that ends in any case comes first. -/
theorem after {computation : Run α} {next : α → Run β} (post : α → Prop)
    (ends : ∀ world, base.Keeps world → ∃ answer after,
      computation machine world = some (answer, after) ∧ base.Keeps after ∧ post answer)
    (goesOn : ∀ answer, post answer → Run.EndsIff base machine (next answer) condition) :
    Run.EndsIff base machine (computation >>= next) condition := by
  intro world keeps
  rcases ends world keeps with ⟨answer, between, ran, kept, holds⟩
  have there := goesOn answer holds between kept
  rw [Run.run_bind ran]
  exact there

/-- A look at a cell that is there. -/
theorem looking {look : World → Option α} {cell : α} (here : look base = some cell)
    (kept : ∀ world, base.Keeps world → look world = look base) {next : α → Run β}
    (goesOn : Run.EndsIff base machine (next cell) condition) :
    Run.EndsIff base machine ((do Run.found (look (← get))) >>= next) condition := by
  refine after (· = cell) (fun world keeps => ?_) fun _ same => same ▸ goesOn
  refine ⟨cell, world, ?_, keeps, rfl⟩
  change Run.found (look world) machine world = _
  rw [kept world keeps, here]
  rfl

theorem seen (look : World → Option α) (there : (look base).isSome = true)
    (kept : ∀ world, base.Keeps world → look world = look base) (answer : α → β)
    (holds : condition) :
    Run.EndsIff base machine (do return answer (← (do Run.found (look (← get))))) condition := by
  rcases Option.isSome_iff_exists.mp there with ⟨cell, here⟩
  exact looking here kept (pure _ holds)

end Run.EndsIff

/-! ## Loops -/

namespace Printing

variable {base : World} {machine : Machine} {limit : Option Nat}

theorem isFull_add {index : Nat} (full : isFull limit index = true) (offset : Nat) :
    isFull limit (index + offset) = true := by
  cases limit with
  | none => cases full
  | some count => exact decide_eq_true (Nat.le_add_right_of_le (of_decide_eq_true full))

/-- As many elements are written as the limit allows, and each has to end. -/
theorem items_endsIff {α : Type} (display : α → Run String) {condition : α → Prop}
    (separator : String) (index : Nat) (elements : List α)
    (each : ∀ offset item, elements[offset]? = some item → isFull limit (index + offset) = false →
      Run.EndsIff base machine (display item) (condition item)) :
    Run.EndsIff base machine (items display separator limit index elements)
      (∀ offset item, elements[offset]? = some item → isFull limit (index + offset) = false →
        condition item) := by
  induction elements generalizing index with
  | nil => exact .pure _ nofun
  | cons first rest induction =>
      unfold items
      split
      case isTrue full =>
        refine .pure _ fun offset item _ notFull => ?_
        cases (isFull_add full offset).symm.trans notFull
      case isFalse notFull =>
        have displays := each 0 first rfl (Bool.eq_false_iff.mpr notFull)
        have others := induction (index + 1) fun offset item here written =>
          each (offset + 1) item here (by rwa [Nat.add_right_comm] at written)
        refine (displays.bind fun text => others.map _).congr ?_
        constructor
        · rintro ⟨holds, holdsBehind⟩ (_ | offset) item here written
          · cases here
            exact holds
          · exact holdsBehind offset item here (by rwa [Nat.add_right_comm])
        · intro holds
          exact ⟨holds 0 first rfl (Bool.eq_false_iff.mpr notFull), fun offset item here written =>
            holds (offset + 1) item here (by rwa [Nat.add_right_comm] at written)⟩

/-- No lazy seq is accounted for, and nothing else is said of the world but what it keeps. -/
def bareAccount (base : World) (machine : Machine) (hasSteps : 0 < machine.limit) :
    Account machine where
  toLikeness := .sameEntry
  Kept chart world := chart = .empty ∧ base.Keeps world
  starts := hasSteps
  shallow kept marked := by
    cases kept.1
    cases marked
  charted kept marked := by
    cases kept.1
    cases marked
  realizes {chart world after} kept realizes := by
    cases kept.1
    cases realizes with
    | allocates => exact ⟨rfl, kept.2.trans rfl⟩
    | starts marked | fails marked | succeeds marked => cases marked
  answers kept marked := by
    cases kept.1
    cases marked

/-- Where no lazy seq is met, a walk goes on in any case. -/
theorem next_ends (hasSteps : 0 < machine.limit) {cursor : Cursor} {course : Course}
    (charted : cursor.ChartedIn .empty)
    (same : Likeness.sameEntry.Same (cursor.courseIn .empty) course) (world : World)
    (keeps : base.Keeps world) :
    ∃ step after, cursor.next machine world = some (step, after) ∧ base.Keeps after ∧
      Cursor.Steps .sameEntry .empty course step := by
  let stage : Stage (bareAccount base machine hasSteps) := ⟨.empty, world, rfl, keeps⟩
  have idle : stage.Idle := by
    rintro cell body ⟨⟨_, marked⟩, _⟩
    cases marked
  have steps : stage.Ends cursor.next fun step after =>
      Cursor.Steps .sameEntry after.chart course step := Cursor.next_ends charted idle same
  rcases steps with ⟨step, ⟨_, after, rfl, kept⟩, ran, _, steps⟩
  exact ⟨step, after, ran, kept, steps⟩

/-- What holds of all items of a course holds of the first one and of those behind it. -/
theorem forall_items_succ_iff {course : Course} {item : Value} {length : Nat}
    {condition : Value → Prop} (here : course 0 = some (.ok item)) :
    (∀ offset < length + 1, ∀ other, course offset = some (.ok other) → condition other) ↔
      condition item ∧ ∀ offset < length, ∀ other, course (offset + 1) = some (.ok other) →
        condition other := by
  constructor
  · intro holds
    exact ⟨holds 0 (Nat.succ_pos length) item here,
      fun offset less => holds (offset + 1) (Nat.succ_lt_succ less)⟩
  · rintro ⟨holds, holdsBehind⟩ offset less other there
    rcases offset with _ | offset
    · cases here.symm.trans there
      exact holds
    · exact holdsBehind offset (Nat.lt_of_succ_lt_succ less) other there

/-- A walk of so many steps, of which each has to end, takes more fuel than that. -/
theorem steps_endsIff (hasSteps : 0 < machine.limit) {display : Value → Run String}
    {condition : Value → Prop} {fuel index length : Nat} {cursor : Cursor} {course : Course}
    {last : Cursor.Yield} (charted : cursor.ChartedIn .empty)
    (same : Likeness.sameEntry.Same (cursor.courseIn .empty) course)
    (covers : Covers course (room limit index) length last)
    (each : ∀ offset < length, ∀ item found, course offset = some (.ok item) →
      SameEntry found item → Run.EndsIff base machine (display found) (condition item)) :
    Run.EndsIff base machine (steps display limit fuel index cursor)
      (length < fuel ∧ ∀ offset < length, ∀ item, course offset = some (.ok item) →
        condition item) := by
  induction fuel generalizing index length cursor course last with
  | zero => exact Run.EndsIff.stuck.congr ⟨False.elim, fun within => (nomatch within.1)⟩
  | succ fuel induction =>
      have atEnd {α : Type} (answer : α) (ended : length = 0) :
          Run.EndsIff base machine (Pure.pure answer : Run α)
            (length < fuel + 1 ∧ ∀ offset < length, ∀ item, course offset = some (.ok item) →
              condition item) := by
        subst ended
        exact .pure answer ⟨Nat.succ_pos fuel, nofun⟩
      refine Run.EndsIff.after (Cursor.Steps .sameEntry .empty course)
        (next_ends hasSteps charted same) fun step steps => ?_
      cases steps with
      | ended here => exact atEnd _ (covers.comes.here (here ▸ fun _ => nofun)).1
      | error here =>
          have ended := (covers.comes.here (here ▸ fun _ => nofun)).1
          dsimp only
          split
          · exact atEnd _ ended
          · exact atEnd _ ended
      | @element found item rest here alike chartedRest sameRest =>
          dsimp only
          split
          case isTrue full =>
            exact atEnd _ (Nat.eq_zero_of_le_zero (covers.within 0 (isFull_iff.mp full)))
          case isFalse notFull =>
            rw [isFull_iff] at notFull
            rcases length with _ | length
            · exact (notFull (covers.stops item (covers.comes.2.symm.trans here))).elim
            have coversRest := ((covers_succ_iff here).mp covers).2
            rw [← room_succ] at coversRest
            have displays := each 0 (Nat.succ_pos length) item found here alike
            have others := induction chartedRest sameRest coversRest fun offset less =>
              each (offset + 1) (Nat.succ_lt_succ less)
            refine (displays.bind fun text => others.map _).congr ?_
            rw [forall_items_succ_iff here, Nat.succ_lt_succ_iff]
            exact and_left_comm

end Printing

/-! ## What is shown, by the kind of value -/

theorem Printing.Covers.unique {course : Course} {limit : Option Nat} {length other : Nat}
    {last otherLast : Cursor.Yield} (covers : Covers course limit length last)
    (coversToo : Covers course limit other otherLast) : length = other := by
  have least {length other : Nat} {last otherLast : Cursor.Yield}
      (covers : Covers course limit length last) (coversToo : Covers course limit other otherLast) :
      other ≤ length := by
    by_contra less
    rcases coversToo.comes.1 length (Nat.lt_of_not_le less) with ⟨item, here⟩
    exact less (coversToo.within length (covers.stops item (covers.comes.2.symm.trans here)))
  exact Nat.le_antisymm (least coversToo covers) (least covers coversToo)

/-- The elements that are written are those that are not over the limit. -/
theorem Printing.Covers.lt_iff {course : Course} {limit : Option Nat} {length : Nat}
    {last : Cursor.Yield} (covers : Covers course limit length last) {items : List Value}
    {error : Option Error} (same : course = .ofAtHand items error) {index : Nat} {item : Value}
    (here : course index = some (.ok item)) :
    index < length ↔ Printing.isFull limit index = false := by
  constructor
  · intro less
    cases limit with
    | none => rfl
    | some count => exact decide_eq_false (Nat.not_le.mpr (Nat.lt_of_lt_of_le less
        (covers.within count rfl)))
  · intro notFull
    by_contra atLeast
    have atLeast := Nat.le_of_not_lt atLeast
    subst same
    rw [Course.ofAtHand_eq_ok_iff] at here
    have inside := Nat.lt_of_le_of_lt atLeast (List.getElem?_eq_some_iff.mp here).1
    have there : Course.ofAtHand items error length = some (.ok items[length]) :=
      Course.ofAtHand_eq_ok_iff.mpr (List.getElem?_eq_getElem inside)
    cases covers.stops _ (covers.comes.2.symm.trans there)
    exact Bool.false_ne_true (notFull.symm.trans (decide_eq_true atLeast))

namespace Holdings

variable {limit : Option Nat} {holdings : Holdings} {outer inner : Value} {fuel : Nat}

theorem within_succ_iff (noCons : ∀ address first rest, outer ≠ .cons address first rest) :
    Within limit holdings (fuel + 1) outer ↔
      ∀ inner, Shows limit holdings outer inner → Within limit holdings fuel inner :=
  and_iff_right fun address first rest isCons => (noCons address first rest isCons).elim

theorem within_holder_iff {holder : Holder} :
    Within limit holdings (fuel + 1) holder.value ↔
      ∀ inner, holdings holder = some inner → Within limit holdings fuel inner := by
  rw [within_succ_iff fun _ _ _ isCons => by cases holder <;> cases isCons]
  exact forall_congr' fun inner => imp_congr_left shows_holder_iff

theorem within_leaf (leaf : outer.isLeaf = true) : Within limit holdings (fuel + 1) outer :=
  (within_succ_iff fun _ _ _ isCons => by cases isCons; cases leaf).mpr fun _ shows =>
    (shows.not_leaf leaf).elim

theorem within_reduced_iff {address : Nat} {value : Value} :
    Within limit holdings (fuel + 1) (.reduced address value) ↔
      Within limit holdings fuel value := by
  rw [within_succ_iff fun _ _ _ isCons => by cases isCons]
  constructor
  · exact fun within => within value .wrapped
  · intro within inner shows
    cases shows with
    | element walked => cases walked
    | key isMap | value isMap => cases isMap
    | wrapped => exact within

theorem shows_walked_iff {opening closing : String} {cursor : Cursor}
    (walked : outer.walked? = some (opening, cursor, closing)) :
    Shows limit holdings outer inner ↔ ∃ index,
      outer.courseIn .empty index = some (.ok inner) ∧ Printing.isFull limit index = false := by
  constructor
  · intro shows
    cases shows with
    | element _ here written => exact ⟨_, here, written⟩
    | key isMap | value isMap => cases (Value.mapEntries?_of_walked walked).symm.trans isMap
    | atom | volatile | delay | wrapped => cases walked
  · rintro ⟨index, here, written⟩
    exact .element walked here written

theorem mem_of_shows_vector {address : Nat} {items : List Value} {metadata : Option Value}
    (shows : Shows limit holdings (.vector address items metadata) inner) : inner ∈ items := by
  rcases (shows_walked_iff rfl).mp shows with ⟨index, here, _⟩
  exact Course.mem_of_items here

theorem within_items_iff {opening closing : String} {items : List Value}
    (walked : outer.walked? = some (opening, .items items, closing)) :
    Within limit holdings (fuel + 1) outer ↔
      ∀ index item, items[index]? = some item → Printing.isFull limit index = false →
        Within limit holdings fuel item := by
  have course : outer.courseIn .empty = .ofAtHand items none :=
    (Value.courseIn_of_walked walked .empty).symm.trans (Course.of_eq_ofAtHand items)
  rw [within_succ_iff fun _ _ _ isCons => by cases isCons; cases walked]
  simp only [shows_walked_iff walked, course, Course.ofAtHand_eq_ok_iff]
  exact ⟨fun within index item here written => within item ⟨index, here, written⟩,
    fun within item ⟨index, here, written⟩ => within index item here written⟩

theorem within_map_iff {entries : List (Value × Value)}
    (isMap : outer.mapEntries? = some entries) :
    Within limit holdings (fuel + 1) outer ↔
      ∀ index entry, entries[index]? = some entry → Printing.isFull limit index = false →
        Within limit holdings fuel entry.1 ∧ Within limit holdings fuel entry.2 := by
  rw [within_succ_iff fun _ _ _ isCons => by cases isCons; cases isMap]
  constructor
  · exact fun within index entry here written =>
      ⟨within _ (.key isMap here written), within _ (.value isMap here written)⟩
  · intro within inner shows
    cases shows with
    | element walked => cases (Value.mapEntries?_of_walked walked).symm.trans isMap
    | key isMapToo here written =>
        cases isMap.symm.trans isMapToo
        exact (within _ _ here written).1
    | value isMapToo here written =>
        cases isMap.symm.trans isMapToo
        exact (within _ _ here written).2
    | atom | volatile | delay | wrapped => cases isMap

theorem within_cons_iff {address : Nat} {first rest : Value} {length : Nat}
    {last : Cursor.Yield}
    (covers : Printing.Covers ((Value.cons address first rest).courseIn .empty) limit length last) :
    Within limit holdings (fuel + 1) (.cons address first rest) ↔
      length < fuel ∧ ∀ offset < length, ∀ item,
        (Value.cons address first rest).courseIn .empty offset = some (.ok item) →
          Within limit holdings fuel item := by
  rcases (Value.cons address first rest).exists_atHand with ⟨items, error, same⟩
  refine and_congr ⟨fun walks => ?_, fun less => ?_⟩ ⟨fun within => ?_, fun within => ?_⟩
  · rcases walks _ _ _ rfl with ⟨other, otherLast, coversToo, less⟩
    exact covers.unique coversToo ▸ less
  · exact fun _ _ _ _ => ⟨length, last, covers, less⟩
  · exact fun offset less item here =>
      within item (.element rfl here ((covers.lt_iff same here).mp less))
  · intro inner shows
    rcases (shows_walked_iff rfl).mp shows with ⟨index, here, written⟩
    exact within index ((covers.lt_iff same here).mpr written) inner here

end Holdings

/-! ## Texts -/

/-- A reference refers to a cell that is there. -/
def Value.StandsIn (world : World) : Value → Prop
  | transient cell => (world.transients.get? cell.index).isSome = true
  | var cell => (world.vars.get? cell.index).isSome = true
  | space cell => (world.spaces.get? cell.index).isSome = true
  | atom cell => (world.atoms.get? cell.index).isSome = true
  | volatile cell => (world.volatiles.get? cell.index).isSome = true
  | multimethod cell => (world.multimethods.get? cell.index).isSome = true
  | hierarchy cell => (world.hierarchies.get? cell.index).isSome = true
  | delay cell => (world.deferred.get? cell.index).isSome = true
  | _ => True

/-- Whatever is printed for the value is at hand: it is no lazy seq, nor a chain that goes on with
one, and the cells are there that references refer to. -/
def World.Presents (world : World) (value : Value) : Prop :=
  ∀ inner, Holdings.Reaches world.printLength world.holdings value inner →
    inner.ChartedIn .empty ∧ inner.StandsIn world

theorem World.Presents.below {world : World} {outer inner : Value}
    (presents : world.Presents outer)
    (shows : Holdings.Shows world.printLength world.holdings outer inner) : world.Presents inner :=
  fun deeper reached => presents deeper (.head shows reached)

theorem World.Keeps.printLength_eq {base world : World} (keeps : base.Keeps world) :
    world.printLength = base.printLength := by
  rw [keeps]
  rfl

namespace Value

open Holdings (Within within_leaf)

variable {base : World} {machine : Machine}

theorem limited_endsIff {α : Type} {next : Option Nat → Run α} {condition : Prop}
    (ends : Run.EndsIff base machine (next base.printLength) condition) :
    Run.EndsIff base machine (do next (← Run.printLength)) condition := by
  intro world keeps
  rw [run_limited, keeps.printLength_eq]
  exact ends world keeps

/-- Where an entry has been put makes no difference to its text. -/
theorem displayWithin_eq_of_sameEntry {left right : Value} (alike : SameEntry left right)
    (fuel : Nat) : left.displayWithin fuel = right.displayWithin fuel := by
  cases alike with
  | refl => rfl
  | entry => cases fuel <;> rfl

section

variable {value : Value} {fuel : Nat}
  (inside : ∀ {inner : Value}, Holdings.Shows base.printLength base.holdings value inner →
    Run.EndsIff base machine (inner.displayWithin fuel)
      (Within base.printLength base.holdings fuel inner))
include inside

theorem displayItems_endsIff {opening closing : String} {items : List Value}
    (walked : value.walked? = some (opening, .items items, closing)) :
    Run.EndsIff base machine (displayItems (displayWithin fuel) opening closing items)
      (Within base.printLength base.holdings (fuel + 1) value) := by
  have course : value.courseIn .empty = .ofAtHand items none :=
    (courseIn_of_walked walked .empty).symm.trans (Course.of_eq_ofAtHand items)
  have each := Printing.items_endsIff (displayWithin fuel) " " 0 items
    fun index item here written => by
      rw [Nat.zero_add] at written
      exact inside (.element walked (course ▸ Course.ofAtHand_eq_ok_iff.mpr here) written)
  simp only [Nat.zero_add] at each
  exact (limited_endsIff (each.map _)).congr (Holdings.within_items_iff walked).symm

theorem displayEntries_endsIff {entries : List (Value × Value)}
    (isMap : value.mapEntries? = some entries) :
    Run.EndsIff base machine (displayEntries (displayWithin fuel) entries)
      (Within base.printLength base.holdings (fuel + 1) value) := by
  have each := Printing.items_endsIff (Printing.entry (displayWithin fuel)) ", " 0 entries
    fun index entry here written => by
      rw [Nat.zero_add] at written
      exact (inside (.key isMap here written)).bind fun _ =>
        (inside (.value isMap here written)).map _
  simp only [Nat.zero_add] at each
  exact (limited_endsIff (each.map _)).congr (Holdings.within_map_iff isMap).symm

theorem displaySteps_endsIff (hasSteps : 0 < machine.limit) {address : Nat} {first rest : Value}
    (isCons : value = cons address first rest) (charted : value.ChartedIn .empty) :
    Run.EndsIff base machine (displaySteps (displayWithin fuel) fuel value)
      (Within base.printLength base.holdings (fuel + 1) value) := by
  subst isCons
  rcases exists_covers base.printLength (cons address first rest) with ⟨length, last, covers⟩
  rcases (cons address first rest).exists_atHand with ⟨items, error, same⟩
  have each : ∀ offset < length, ∀ item found,
      (cons address first rest).courseIn .empty offset = some (.ok item) → SameEntry found item →
        Run.EndsIff base machine (found.displayWithin fuel)
          (Within base.printLength base.holdings fuel item) := by
    intro offset less item found here alike
    rw [displayWithin_eq_of_sameEntry alike]
    exact inside (.element rfl here ((covers.lt_iff same here).mp less))
  have steps : Run.EndsIff base machine
      (Printing.steps (displayWithin fuel) base.printLength fuel 0
        (.pending (cons address first rest))) _ :=
    Printing.steps_endsIff hasSteps charted (.refl _)
      ((Printing.room_zero base.printLength).symm ▸ covers) each
  exact (limited_endsIff (steps.map _)).congr (Holdings.within_cons_iff covers).symm

theorem displayHeld_endsIff (holder : Holder) {held : Value}
    (holds : base.holdings holder = some held)
    (shape : value = holder.value) (word : String) :
    Run.EndsIff base machine (displayHeld (displayWithin fuel) word held)
      (Within base.printLength base.holdings (fuel + 1) value) := by
  subst shape
  refine ((inside (Holdings.shows_holder_iff.mpr holds)).map _).congr ?_
  rw [Holdings.within_holder_iff, holds]
  exact ⟨fun within inner same => Option.some.inj same ▸ within, fun within => within held rfl⟩

end

/-- With this much fuel a text is come by exactly if what is shown is less deep. -/
theorem displayWithin_endsIff (hasSteps : 0 < machine.limit) {value : Value}
    (presents : base.Presents value) (fuel : Nat) :
    Run.EndsIff base machine (value.displayWithin fuel)
      (Within base.printLength base.holdings fuel value) := by
  induction fuel generalizing value with
  | zero => exact .stuck
  | succ fuel induction =>
      have inside {inner : Value}
          (shows : Holdings.Shows base.printLength base.holdings value inner) :
          Run.EndsIff base machine (inner.displayWithin fuel)
            (Within base.printLength base.holdings fuel inner) :=
        induction (presents.below shows)
      rcases presents value .refl with ⟨charted, stands⟩
      cases value with
      | list | vector | hashSet | sortedSet => exact displayItems_endsIff inside rfl
      | arrayMap | hashMap | sortedMap => exact displayEntries_endsIff inside rfl
      | cons => exact displaySteps_endsIff inside hasSteps rfl charted
      | lazySeq => rcases charted with ⟨_, marked⟩; cases marked
      | reduced => exact ((inside .wrapped).map _).congr Holdings.within_reduced_iff.symm
      | atom cell =>
          rcases Option.isSome_iff_exists.mp stands with ⟨atom, here⟩
          refine .looking here (fun world keeps => by rw [keeps]) ?_
          exact displayHeld_endsIff inside (.atom cell) (congrArg (Option.map _) here) rfl _
      | volatile cell =>
          rcases Option.isSome_iff_exists.mp stands with ⟨held, here⟩
          refine .looking here (fun world keeps => by rw [keeps]) ?_
          exact displayHeld_endsIff inside (.volatile cell) here rfl _
      | delay cell =>
          rcases Option.isSome_iff_exists.mp stands with ⟨state, here⟩
          refine .looking here (fun world keeps => by rw [keeps]) ?_
          cases state with
          | realized held =>
              exact displayHeld_endsIff inside (.delay cell)
                (congrArg (Option.bind · Deferred.shown?) here) rfl _
          | pending | running =>
              have empty : base.holdings (.delay cell) = none :=
                congrArg (Option.bind · Deferred.shown?) here
              exact .pure _ (Holdings.within_holder_iff.mpr fun _ holds =>
                nomatch empty.symm.trans holds)
      | nil | integer | real | character | string | symbol | keyword | function =>
          exact .pure _ (within_leaf rfl)
      | boolean value => cases value <;> exact .pure _ (within_leaf rfl)
      | transient cell =>
          exact .seen (·.transients.get? cell.index) stands (fun world keeps => by rw [keeps]) _
            (within_leaf rfl)
      | var cell =>
          exact .seen (·.vars.get? cell.index) stands (fun world keeps => by rw [keeps]) _
            (within_leaf rfl)
      | space cell =>
          exact .seen (·.spaces.get? cell.index) stands (fun world keeps => by rw [keeps]) _
            (within_leaf rfl)
      | multimethod cell =>
          exact .seen (·.multimethods.get? cell.index) stands (fun world keeps => by rw [keeps]) _
            (within_leaf rfl)
      | hierarchy cell =>
          exact .seen (·.hierarchies.get? cell.index) stands (fun world keeps => by rw [keeps]) _
            (within_leaf rfl)

end Value

end LispRuntime
