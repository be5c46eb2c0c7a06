import LispRuntime.Proofs.Printing.Fuel

/-! A record of what has been printed of a collection: the elements that are written, each with
the step of the iteration that comes to it and with its own text, and what the iteration meets
where the writing ends. The elements are iterated over in any way, element by element. -/

namespace LispRuntime

namespace Printing

/-- Behind the elements that are written there are no more, or more than the limit allows, or one
that cannot be had. -/
inductive Ending where
  | complete
  | cut
  | broken
deriving DecidableEq, Repr

/-- Texts with a separator between them. Dots are written for elements over the limit, and in the
place of one that cannot be had. -/
def Ending.join (separator : String) (texts : List String) : Ending → String
  | complete => separator.intercalate texts
  | cut => separator.intercalate texts ++ " ..."
  | broken => separator.intercalate (texts ++ ["..."])

/-- So many elements are written, and then this is met. -/
inductive Ending.Meets {α : Type} (limit : Option Nat) (count : Nat) :
    Option (Except Error α) → Ending → Prop where
  | complete : Meets limit count none .complete
  | cut {step : Except Error α} (full : limit = some count) : Meets limit count (some step) .cut
  | broken {error : Error} (room : limit ≠ some count) :
      Meets limit count (some (.error error)) .broken

/-- An element that is written, and where the iteration stands before and after it. -/
structure Shown (σ α : Type) where
  place : σ
  before : World
  item : α
  rest : σ
  between : World
  text : String
  after : World

structure Record (σ α : Type) where
  shown : List (Shown σ α)
  last : σ
  between : World
  ending : Ending

namespace Record

variable {σ α : Type}

def texts (record : Record σ α) : List String := record.shown.map Shown.text

def text (separator : String) (record : Record σ α) : String :=
  record.ending.join separator record.texts

/-- Where steps of the iteration are taken. -/
def steps (record : Record σ α) : List (σ × World) :=
  record.shown.map (fun shown => (shown.place, shown.before)) ++ [(record.last, record.between)]

end Record

section

variable {σ α : Type} (machine : Machine) (next : σ → Run (Option (Except Error α) × σ))
  (shows : α → World → String → World → Prop)

/-- One element after the other is met and written. -/
inductive Writes : σ → World → List (Shown σ α) → σ → World → Prop
  | nothing {place : σ} {world : World} : Writes place world [] place world
  | element {shown : Shown σ α} {others : List (Shown σ α)} {last : σ} {after : World}
      (met : next shown.place machine shown.before =
        some ((some (.ok shown.item), shown.rest), shown.between))
      (written : shows shown.item shown.between shown.text shown.after)
      (goesOn : Writes shown.rest shown.after others last after) :
      Writes shown.place shown.before (shown :: others) last after

/-- The record is one of printing under the limit, from this place and world on. After the elements
one more step is taken, and no other. -/
structure Record.Tells (limit : Option Nat) (place : σ) (world after : World)
    (record : Record σ α) : Prop where
  writes : Writes machine next shows place world record.shown record.last record.between
  within : ∀ count, limit = some count → record.shown.length ≤ count
  stops : ∃ met rest, next record.last machine record.between = some ((met, rest), after) ∧
    record.ending.Meets limit record.shown.length met

end

/-! ## Texts -/

/-- The text from an index on. -/
def Ending.spread (separator : String) : Nat → List String → Ending → String
  | _, [], complete => ""
  | _, [], cut => " ..."
  | index, [], broken => gap separator index ++ "..."
  | index, text :: rest, ending =>
      gap separator index ++ text ++ spread separator (index + 1) rest ending

theorem Ending.join_cons (separator text : String) (texts : List String) (ending : Ending)
    (index : Nat) :
    ending.join separator (text :: texts) =
      text ++ ending.spread separator (index + 1) texts := by
  induction texts generalizing text index with
  | nil => cases ending <;> simp [join, spread, gap, String.append_assoc]
  | cons second rest induction =>
      have goesOn := induction second (index + 1)
      cases ending <;>
        simp_all [join, spread, gap, String.append_assoc]

theorem Ending.spread_zero (separator : String) (texts : List String) (ending : Ending) :
    ending.spread separator 0 texts = ending.join separator texts := by
  cases texts with
  | nil => cases ending <;> simp [join, spread, gap]
  | cons text rest =>
      rw [join_cons separator text rest ending 0]
      simp [spread, gap]

/-! ## Records, one element after the other -/

/-- How many more elements may be written when so many have been. -/
def room (limit : Option Nat) (index : Nat) : Option Nat := limit.map (· - index)

theorem room_zero (limit : Option Nat) : room limit 0 = limit := by
  cases limit <;> rfl

theorem room_succ (limit : Option Nat) (index : Nat) :
    room limit (index + 1) = (room limit index).map (· - 1) := by
  cases limit <;> rfl

theorem isFull_iff {limit : Option Nat} {index : Nat} :
    isFull limit index = true ↔ room limit index = some 0 := by
  cases limit <;> simp [isFull, room, Nat.sub_eq_zero_iff_le]

theorem eq_some_succ_iff {limit : Option Nat} (notFull : limit ≠ some 0) {count : Nat} :
    limit = some (count + 1) ↔ limit.map (· - 1) = some count := by
  rcases limit with _ | _ | limit
  · simp
  · exact (notFull rfl).elim
  · simp

theorem Ending.meets_succ_iff {α : Type} {limit : Option Nat} (notFull : limit ≠ some 0)
    {count : Nat} {met : Option (Except Error α)} {ending : Ending} :
    ending.Meets limit (count + 1) met ↔ ending.Meets (limit.map (· - 1)) count met := by
  constructor
  · intro meets
    cases meets with
    | complete => exact .complete
    | cut full => exact .cut ((eq_some_succ_iff notFull).mp full)
    | broken hasRoom => exact .broken (hasRoom ∘ (eq_some_succ_iff notFull).mpr)
  · intro meets
    cases meets with
    | complete => exact .complete
    | cut full => exact .cut ((eq_some_succ_iff notFull).mpr full)
    | broken hasRoom => exact .broken (hasRoom ∘ (eq_some_succ_iff notFull).mp)

section

variable {σ α : Type} {machine : Machine} {next : σ → Run (Option (Except Error α) × σ)}
  {shows : α → World → String → World → Prop} {limit : Option Nat} {place last : σ}
  {world between after : World} {ending : Ending}

theorem Record.tells_nil_iff :
    Record.Tells machine next shows limit place world after ⟨[], last, between, ending⟩ ↔
      last = place ∧ between = world ∧ ∃ met rest,
        next place machine world = some ((met, rest), after) ∧ ending.Meets limit 0 met := by
  constructor
  · rintro ⟨writes, _, stops⟩
    cases writes
    exact ⟨rfl, rfl, stops⟩
  · rintro ⟨rfl, rfl, stops⟩
    exact ⟨.nothing, fun _ _ => Nat.zero_le _, stops⟩

theorem Record.tells_cons_iff {shown : Shown σ α} {others : List (Shown σ α)} :
    Record.Tells machine next shows limit place world after
        ⟨shown :: others, last, between, ending⟩ ↔
      limit ≠ some 0 ∧ shown.place = place ∧ shown.before = world ∧
      next place machine world = some ((some (.ok shown.item), shown.rest), shown.between) ∧
      shows shown.item shown.between shown.text shown.after ∧
      Record.Tells machine next shows (limit.map (· - 1)) shown.rest shown.after after
        ⟨others, last, between, ending⟩ := by
  constructor
  · rintro ⟨writes, within, stops⟩
    have notFull : limit ≠ some 0 := fun full => Nat.not_succ_le_zero _ (within 0 full)
    cases writes with
    | element met written goesOn =>
        refine ⟨notFull, rfl, rfl, met, written, goesOn, ?_, ?_⟩
        · intro count few
          exact Nat.le_of_succ_le_succ (within _ ((eq_some_succ_iff notFull).mpr few))
        · rcases stops with ⟨last, rest, ran, meets⟩
          exact ⟨last, rest, ran, (Ending.meets_succ_iff notFull).mp meets⟩
  · rintro ⟨notFull, rfl, rfl, met, written, goesOn, within, last, rest, ran, meets⟩
    refine ⟨.element met written goesOn, ?_, last, rest, ran,
      (Ending.meets_succ_iff notFull).mpr meets⟩
    intro count few
    rcases count with _ | count
    · exact (notFull few).elim
    · exact Nat.succ_le_succ (within count ((eq_some_succ_iff notFull).mp few))

end

/-! ## Records of the loop -/

/-- The text that is displayed with enough fuel. -/
def Shows {α : Type} (display : Nat → α → Run String) (machine : Machine) (item : α)
    (world : World) (text : String) (after : World) : Prop :=
  ∃ fuel, display fuel item machine world = some (text, after)

section

variable {σ α : Type} {machine : Machine} {next : σ → Run (Option (Except Error α) × σ)}
  {limit : Option Nat} {place : σ} {world after : World}

theorem tells_of_loop {display : α → Run String} {shows : α → World → String → World → Prop}
    (displays : ∀ item world text after, display item machine world = some (text, after) →
      shows item world text after)
    {separator text : String} {fuel index : Nat}
    (ran : loop next display separator limit fuel index place machine world =
      some (text, after)) :
    ∃ record : Record σ α,
      record.Tells machine next shows (room limit index) place world after ∧
      text = record.ending.spread separator index record.texts := by
  induction fuel generalizing index place world text with
  | zero => cases ran
  | succ fuel induction =>
      rcases Run.exists_of_bind ran with ⟨⟨met, rest⟩, between, stepped, ran⟩
      rcases met with _ | step
      · cases ran
        exact ⟨⟨[], place, world, .complete⟩,
          Record.tells_nil_iff.mpr ⟨rfl, rfl, _, _, stepped, .complete⟩, rfl⟩
      dsimp only at ran
      split at ran
      case isTrue full =>
        cases ran
        exact ⟨⟨[], place, world, .cut⟩,
          Record.tells_nil_iff.mpr ⟨rfl, rfl, _, _, stepped, .cut (isFull_iff.mp full)⟩, rfl⟩
      case isFalse notFull =>
        rw [isFull_iff] at notFull
        cases step with
        | error error =>
            cases ran
            exact ⟨⟨[], place, world, .broken⟩,
              Record.tells_nil_iff.mpr ⟨rfl, rfl, _, _, stepped, .broken notFull⟩, rfl⟩
        | ok item =>
            rcases Run.exists_of_bind ran with ⟨first, middle, shown, ran⟩
            rcases Run.exists_of_bind ran with ⟨others, last, goesOn, ran⟩
            cases ran
            rcases induction goesOn with ⟨record, tells, rfl⟩
            rw [room_succ] at tells
            exact ⟨{ record with shown := ⟨place, world, item, rest, between, first, middle⟩ ::
                record.shown },
              Record.tells_cons_iff.mpr
                ⟨notFull, rfl, rfl, stepped, displays _ _ _ _ shown, tells⟩, rfl⟩

/-- One fuel is enough for all elements. -/
theorem loop_of_tells {display : Nat → α → Run String}
    (agrees : ∀ {fuel more : Nat}, fuel ≤ more → ∀ item,
      Run.Agrees machine (display fuel item) (display more item))
    (separator : String) {index : Nat} {record : Record σ α}
    (tells : record.Tells machine next (Shows display machine) (room limit index) place world
      after) :
    ∃ fuel, loop next (display fuel) separator limit fuel index place machine world =
      some (record.ending.spread separator index record.texts, after) := by
  rcases record with ⟨shown, last, between, ending⟩
  induction shown generalizing index place world with
  | nil =>
      rcases Record.tells_nil_iff.mp tells with ⟨rfl, rfl, met, rest, stepped, meets⟩
      refine ⟨1, (Run.run_bind stepped).trans ?_⟩
      cases meets with
      | complete => rfl
      | cut full =>
          dsimp only
          rw [if_pos (isFull_iff.mpr full)]
          rfl
      | broken hasRoom =>
          dsimp only
          rw [if_neg (hasRoom ∘ isFull_iff.mp)]
          rfl
  | cons shown others induction =>
      rcases Record.tells_cons_iff.mp tells with
        ⟨notFull, rfl, rfl, stepped, ⟨first, displayed⟩, tells⟩
      rw [← room_succ] at tells
      rcases induction tells with ⟨fuel, goesOn⟩
      have leFirst : first ≤ max first fuel + 1 := Nat.le_succ_of_le (Nat.le_max_left ..)
      have leFuel : fuel ≤ max first fuel := Nat.le_max_right ..
      have written := agrees leFirst _ _ _ _ displayed
      have others := loop_agrees (agrees (Nat.le_succ_of_le leFuel)) next separator limit leFuel
        _ _ _ _ _ goesOn
      refine ⟨max first fuel + 1, (Run.run_bind stepped).trans ?_⟩
      dsimp only
      rw [if_neg (notFull ∘ isFull_iff.mp), Run.run_bind written, Run.run_bind others]
      rfl

theorem exists_loop_iff {display : Nat → α → Run String}
    (agrees : ∀ {fuel more : Nat}, fuel ≤ more → ∀ item,
      Run.Agrees machine (display fuel item) (display more item))
    (separator : String) {text : String} :
    (∃ fuel, loop next (display fuel) separator limit fuel 0 place machine world =
      some (text, after)) ↔
    ∃ record : Record σ α, record.Tells machine next (Shows display machine) limit place world
      after ∧ text = record.text separator := by
  constructor
  · rintro ⟨fuel, ran⟩
    have displays item world text after
        (displayed : display fuel item machine world = some (text, after)) :
        Shows display machine item world text after := ⟨fuel, displayed⟩
    rcases tells_of_loop displays ran with ⟨record, tells, rfl⟩
    rw [room_zero] at tells
    exact ⟨record, tells, Ending.spread_zero ..⟩
  · rintro ⟨record, tells, rfl⟩
    rw [← room_zero limit] at tells
    rcases loop_of_tells agrees separator tells with ⟨fuel, ran⟩
    rw [Ending.spread_zero] at ran
    exact ⟨fuel, ran⟩

theorem exists_items_iff {place : List α → σ} (meets : Meets next place)
    {display : Nat → α → Run String}
    (agrees : ∀ {fuel more : Nat}, fuel ≤ more → ∀ item,
      Run.Agrees machine (display fuel item) (display more item))
    (separator : String) {elements : List α} {text : String} :
    (∃ fuel, items (display fuel) separator limit 0 elements machine world =
      some (text, after)) ↔
    ∃ record : Record σ α, record.Tells machine next (Shows display machine) limit
      (place elements) world after ∧ text = record.text separator := by
  rw [← exists_loop_iff agrees]
  have enough (fuel : Nat) : elements.length < max fuel (elements.length + 1) :=
    Nat.le_max_right ..
  have less (fuel : Nat) : fuel ≤ max fuel (elements.length + 1) := Nat.le_max_left ..
  constructor
  · rintro ⟨fuel, ran⟩
    refine ⟨max fuel (elements.length + 1), ?_⟩
    rw [← items_eq_loop meets _ separator limit 0 (enough fuel)]
    exact items_agrees (agrees (less fuel)) separator limit 0 elements _ _ _ ran
  · rintro ⟨fuel, ran⟩
    refine ⟨max fuel (elements.length + 1), ?_⟩
    rw [items_eq_loop meets _ separator limit 0 (enough fuel)]
    exact loop_agrees (agrees (less fuel)) next separator limit (less fuel) 0 _ _ _ _ ran

end

end Printing

end LispRuntime
