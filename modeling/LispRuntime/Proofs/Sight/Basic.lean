import LispRuntime.Proofs.Reading.Moment
import LispRuntime.Proofs.World.Forcing

/-! Values with sequences in them that may fail. A walk over such a sequence meets some elements
first, and these are what the value stands for. A cons cell fails where its rest is nothing that
has a seq, and a lazy seq fails whenever its body does.

A sight is a moment together with a forecast of the lazy seqs: what a walk over each of them is
going to meet, whether it has been realized or not. -/

namespace LispRuntime

/-- Some elements, and then the end or a failure. -/
structure Prospect where
  whole : Bool
  items : List Datum

structure Forecast where
  /-- What walks over lazy seqs meet, by their cells. -/
  cells : Nat → Option Prospect
  /-- Is a sequence that fails told from every other sequence by what it shows? -/
  isTelling : Prop
  /-- What a sequence shows that fails, by its address. It matters for nothing else. -/
  failing : Address → Option (List Datum)

namespace Forecast

/-- The sequence that shows this, and fails if it is not whole, is not taken for another one. -/
def Tells (forecast : Forecast) (value : Value) : Bool → List Datum → Prop
  | true, items => forecast.isTelling → ∀ address, forecast.failing address ≠ some items
  | false, items =>
      forecast.isTelling → ∀ address,
        forecast.failing address = some items ↔ value.address? = some address

/-- More lazy seqs are known later. -/
structure Extends (before after : Forecast) : Prop where
  cells : ∀ cell prospect, before.cells cell = some prospect →
    after.cells cell = some prospect
  isTelling : after.isTelling = before.isTelling
  failing : after.failing = before.failing

theorem Extends.refl (forecast : Forecast) : forecast.Extends forecast := ⟨fun _ _ => id, rfl, rfl⟩

theorem Extends.trans {first second third : Forecast} (later : first.Extends second)
    (laterAgain : second.Extends third) : first.Extends third where
  cells _ _ known := laterAgain.cells _ _ (later.cells _ _ known)
  isTelling := laterAgain.isTelling.trans later.isTelling
  failing := laterAgain.failing.trans later.failing

theorem Extends.tells {before after : Forecast} (later : before.Extends after) {value : Value}
    {whole : Bool} {items : List Datum} (tells : before.Tells value whole items) :
    after.Tells value whole items := by
  rcases before with ⟨_, _, _⟩
  rcases after with ⟨_, _, _⟩
  cases later.isTelling
  cases later.failing
  cases whole <;> exact tells

end Forecast

mutual
/-- The value stands for what can be seen of it. -/
inductive Sees (forecast : Forecast) (moment : Moment) : Value → Datum → Prop
  | leaf {value : Value} {leaf : Leaf} (known : value.leaf? = some leaf)
      (placed : moment.memory.Places value (.leaf leaf)) :
      Sees forecast moment value (.leaf leaf)
  | sequence {value : Value} {whole : Bool} {items : List Datum}
      (kind : value.isSequential = true) (shows : Shows forecast moment value whole items)
      (placed : moment.memory.Places value (.sequence items))
      (tells : forecast.Tells value whole items) :
      Sees forecast moment value (.sequence items)
  | map {value : Value} {entries : List (Value × Value)} {keys values : List Datum}
      (contents : value.mapEntries? = some entries)
      (seenKeys : SeesAll forecast moment (entries.map Prod.fst) keys)
      (seenValues : SeesAll forecast moment (entries.map Prod.snd) values)
      (lawful : value.IsLawful moment.world keys)
      (placed : moment.memory.Places value
        (.map (Datum.arrange (List.zipWith Datum.entry keys values)))) :
      Sees forecast moment value
        (.map (Datum.arrange (List.zipWith Datum.entry keys values)))
  | set {value : Value} {elements : List Value} {items : List Datum}
      (contents : value.setItems? = some elements)
      (seen : SeesAll forecast moment elements items)
      (lawful : value.IsLawful moment.world items)
      (placed : moment.memory.Places value (.set (Datum.arrange items))) :
      Sees forecast moment value (.set (Datum.arrange items))

inductive SeesAll (forecast : Forecast) (moment : Moment) : List Value → List Datum → Prop
  | nil : SeesAll forecast moment [] []
  | cons {value : Value} {datum : Datum} {values : List Value} {data : List Datum}
      (first : Sees forecast moment value datum) (rest : SeesAll forecast moment values data) :
      SeesAll forecast moment (value :: values) (datum :: data)

/-- A walk over the value meets these elements, in this order, and then its end or, if it is not
whole, a failure. -/
inductive Shows (forecast : Forecast) (moment : Moment) : Value → Bool → List Datum → Prop
  | nil : Shows forecast moment .nil true []
  | string {address : Nat} {text : String} :
      Shows forecast moment (.string address text) true
        (text.toList.map fun char => .leaf (.character char))
  | list {address : Nat} {elements : List Value} {metadata : Option Value}
      {items : List Datum} (seen : SeesAll forecast moment elements items) :
      Shows forecast moment (.list address elements metadata) true items
  | vector {address : Nat} {elements : List Value} {metadata : Option Value}
      {items : List Datum} (seen : SeesAll forecast moment elements items) :
      Shows forecast moment (.vector address elements metadata) true items
  | cons {address : Nat} {first rest : Value} {datum : Datum} {whole : Bool}
      {items : List Datum} (seen : Sees forecast moment first datum)
      (shows : Shows forecast moment rest whole items) :
      Shows forecast moment (.cons address first rest) whole (datum :: items)
  /-- An entry is met as a vector, which is a sequence like any other. -/
  | map {value : Value} {entries : List (Value × Value)} {keys values : List Datum}
      (contents : value.mapEntries? = some entries)
      (seenKeys : SeesAll forecast moment (entries.map Prod.fst) keys)
      (seenValues : SeesAll forecast moment (entries.map Prod.snd) values)
      (tells : ∀ pair ∈ keys.zip values, ∀ value,
        forecast.Tells value true [pair.1, pair.2]) :
      Shows forecast moment value true (List.zipWith Datum.entry keys values)
  | set {value : Value} {elements : List Value} {items : List Datum}
      (contents : value.setItems? = some elements)
      (seen : SeesAll forecast moment elements items) :
      Shows forecast moment value true items
  | refused {value : Value} (refused : value.isSeqable = false) :
      Shows forecast moment value false []
  | lazySeq {cell : Ref .deferred} {prospect : Prospect}
      (known : forecast.cells cell.index = some prospect) :
      Shows forecast moment (.lazySeq cell) prospect.whole prospect.items
end

section

variable {before after : Forecast} {moment later : Moment}

/-! ## What is seen is seen later -/

mutual
theorem Sees.later (grows : before.Extends after) (le : moment ≤ later) {value : Value}
    {datum : Datum} : Sees before moment value datum → Sees after later value datum
  | .leaf known placed => .leaf known (Moment.places_later le placed)
  | .sequence kind shows placed tells =>
      .sequence kind (shows.later grows le) (Moment.places_later le placed) (grows.tells tells)
  | .map contents seenKeys seenValues lawful placed =>
      .map contents (seenKeys.later grows le) (seenValues.later grows le)
        (Moment.lawful_later le placed lawful) (Moment.places_later le placed)
  | .set contents seen lawful placed =>
      .set contents (seen.later grows le) (Moment.lawful_later le placed lawful)
        (Moment.places_later le placed)

theorem SeesAll.later (grows : before.Extends after) (le : moment ≤ later) {values : List Value}
    {data : List Datum} : SeesAll before moment values data → SeesAll after later values data
  | .nil => .nil
  | .cons first rest => .cons (first.later grows le) (rest.later grows le)

theorem Shows.later (grows : before.Extends after) (le : moment ≤ later) {value : Value}
    {whole : Bool} {items : List Datum} :
    Shows before moment value whole items → Shows after later value whole items
  | .nil => .nil
  | .string => .string
  | .list seen => .list (seen.later grows le)
  | .vector seen => .vector (seen.later grows le)
  | .cons seen shows => .cons (seen.later grows le) (shows.later grows le)
  | .map contents seenKeys seenValues tells =>
      .map contents (seenKeys.later grows le) (seenValues.later grows le)
        fun pair member value => grows.tells (tells pair member value)
  | .set contents seen => .set contents (seen.later grows le)
  | .refused refused => .refused refused
  | .lazySeq known => .lazySeq (grows.cells _ _ known)
end

end

namespace SeesAll

variable {forecast : Forecast} {moment : Moment} {values : List Value} {data : List Datum}

theorem forall₂ (seen : SeesAll forecast moment values data) :
    List.Forall₂ (Sees forecast moment) values data := by
  induction values generalizing data with
  | nil =>
      cases seen
      exact .nil
  | cons value rest induction =>
      cases seen with
      | cons first seenRest => exact .cons first (induction seenRest)

theorem of_forall₂ (seen : List.Forall₂ (Sees forecast moment) values data) :
    SeesAll forecast moment values data := by
  induction seen with
  | nil => exact .nil
  | cons first _ induction => exact .cons first induction

end SeesAll

/-- Elements that are at hand are all seen, and no walk over them fails. -/
theorem Shows.indexed {forecast : Forecast} {moment : Moment} {value : Value} {whole : Bool}
    {items : List Datum} {elements : List Value} (shows : Shows forecast moment value whole items)
    (indexed : value.indexed? = some elements) :
    whole = true ∧ List.Forall₂ (Sees forecast moment) elements items := by
  cases shows with
  | list seen | vector seen =>
      cases indexed
      exact ⟨rfl, seen.forall₂⟩
  | nil | string | cons | lazySeq => cases indexed
  | map contents | set contents =>
      cases value <;> first | (cases contents; done) | cases indexed
  | refused refused => cases value <;> first | (cases refused; done) | cases indexed

/-! ## Sights -/

/-- A lazy seq will do what is foretold, or has done so. -/
inductive Prospect.Fits (forecast : Forecast) (moment : Moment) (prospect : Prospect) :
    Deferred → Prop
  | pending {body : Value} : Fits forecast moment prospect (.pending body)
  | realized {seq : Value} (isSeq : seq.isSeq = true)
      (shows : Shows forecast moment seq prospect.whole prospect.items) :
      Fits forecast moment prospect (.realized seq)

structure Sight extends Moment where
  forecast : Forecast
  fits : ∀ cell prospect, forecast.cells cell = some prospect →
    ∃ state, world.deferred.get? cell = some state ∧ prospect.Fits forecast toMoment state

namespace Sight

abbrev Sees (sight : Sight) (value : Value) (datum : Datum) : Prop :=
  LispRuntime.Sees sight.forecast sight.toMoment value datum

abbrev SeesAll (sight : Sight) (values : List Value) (data : List Datum) : Prop :=
  LispRuntime.SeesAll sight.forecast sight.toMoment values data

abbrev Shows (sight : Sight) (value : Value) (whole : Bool) (items : List Datum) : Prop :=
  LispRuntime.Shows sight.forecast sight.toMoment value whole items

/-- Nothing is lost on the way. -/
structure Leads (before after : Sight) : Prop where
  moment : before.toMoment ≤ after.toMoment
  forecast : before.forecast.Extends after.forecast

instance : Preorder Sight where
  le := Leads
  le_refl sight := ⟨le_refl sight.toMoment, .refl _⟩
  le_trans _ _ _ le leAgain :=
    ⟨le_trans le.moment leAgain.moment, le.forecast.trans leAgain.forecast⟩

variable {before after : Sight}

theorem sees_later (le : before ≤ after) {value : Value} {datum : Datum}
    (seen : before.Sees value datum) : after.Sees value datum :=
  seen.later le.forecast le.moment

theorem seesAll_later (le : before ≤ after) {values : List Value} {data : List Datum}
    (seen : before.SeesAll values data) : after.SeesAll values data :=
  seen.later le.forecast le.moment

theorem shown_later (le : before ≤ after) {value : Value} {whole : Bool} {items : List Datum}
    (shows : before.Shows value whole items) : after.Shows value whole items :=
  shows.later le.forecast le.moment

/-- A sight that is reached without touching any lazy seq. -/
def reaching (sight : Sight) (later : Moment) (le : sight.toMoment ≤ later)
    (untouched : later.world.deferred = sight.world.deferred) : Sight where
  toMoment := later
  forecast := sight.forecast
  fits cell prospect known := by
    rcases sight.fits cell prospect known with ⟨state, here, fits⟩
    refine ⟨state, (congrArg (·.get? cell) untouched).trans here, ?_⟩
    cases fits with
    | pending => exact .pending
    | realized isSeq shows => exact .realized isSeq (shows.later (.refl _) le)

theorem le_reaching (sight : Sight) {later : Moment} (le : sight.toMoment ≤ later)
    (untouched : later.world.deferred = sight.world.deferred) :
    sight ≤ sight.reaching later le untouched where
  moment := le
  forecast := .refl _

/-- An address is given out, and something is put there. -/
def place (sight : Sight) (datum : Datum) : Sight :=
  sight.reaching (sight.toMoment.place datum) (sight.toMoment.le_place datum) rfl

theorem le_place (sight : Sight) (datum : Datum) : sight ≤ sight.place datum :=
  sight.le_reaching (sight.toMoment.le_place datum) rfl

theorem place_memory (sight : Sight) (datum : Datum) :
    (sight.place datum).memory (.heap sight.world.addresses) = some datum :=
  sight.toMoment.place_memory datum

end Sight

end LispRuntime
