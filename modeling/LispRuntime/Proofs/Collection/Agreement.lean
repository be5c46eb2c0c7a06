import Mathlib.Algebra.Order.BigOperators.Group.List
import LispRuntime.Proofs.Collection.Sets
import LispRuntime.Proofs.Collection.Updates

/-! Maps of the three kinds that start with the same pairs, and sets of the two kinds
that start with the same items, go through the same steps. After every step they are
equal to each other, and show what one finite map or set has that goes through the
steps as well.

This is so exactly as long as no array map remembers a hash that is not its own. As a
key, a map that does is not found in a hash map, and a second key comes to stand beside
it that is equal to it. -/

namespace LispRuntime

open ArrayMap (Setting Denoted Achieves)
open MapWrite (additions)

/-- Step after step, with all states on the way. -/
def trace {α σ : Type} (perform : α → σ → Attempt α) (state : α) : List σ → Attempt (List α)
  | [] => return [state]
  | step :: rest => do return state :: (← trace perform (← perform state step) rest)

/-- What is known of a state and is not lost when something is written elsewhere is
known of all states on the way, even after the last step. -/
theorem trace_achieves {α σ γ : Type} {setting : Setting} {now : Moment}
    {perform : α → σ → Attempt α} {advance : γ → σ → γ} (Good : Moment → α → γ → Prop)
    (goodLater : ∀ {moment later state known}, Good moment state known →
      (∀ handle pairs, Denoted setting moment handle pairs →
        Denoted setting later handle pairs) → Good later state known)
    {state : α} {known : γ} {steps : List σ} (le : setting.start ≤ now)
    (good : Good now state known)
    (performs : ∀ moment, setting.start ≤ moment → ∀ step ∈ steps, ∀ state known,
      Good moment state known →
      Achieves setting moment none (perform state step) fun next after =>
        Good after next (advance known step)) :
    Achieves setting now none (trace perform state steps) fun states after =>
      List.Forall₂ (Good after) states (steps.scanl advance known) := by
  induction steps generalizing now state known with
  | nil => exact Achieves.pure le (by simpa using good)
  | cons step rest induction =>
      -- Each part of the run keeps what was denoted before it, this state included.
      have first := performs now le step (List.mem_cons_self ..) state known good
      apply first.keeping.bind
      rintro next between leBetween ⟨goodNext, kept⟩
      have others := induction leBetween goodNext fun moment leMoment other member =>
        performs moment leMoment other (List.mem_cons_of_mem _ member)
      apply others.keeping.bind
      rintro states after leAfter ⟨goodStates, keptAgain⟩
      apply Achieves.pure leAfter
      rw [List.scanl_cons]
      refine .cons (goodLater good ?_) goodStates
      exact fun handle pairs denoted => keptAgain _ _ (kept _ _ denoted)

/-! ## Maps -/

/-- Whatever one asks of the map, it shows what the finite map has. -/
structure MapShows (machine : Machine) (now : Moment) (map : Value) (reference : DatumMap) :
    Prop where
  count : Succeeds machine now map.count fun count _ => count = reference.size
  entries : ∃ entries table, map.mapEntries? = some entries ∧
    List.Forall₂ (fun entry pair => now.Reads entry.1 pair.1 ∧ entry.2 = pair.2) entries table ∧
    table.Perm reference.toList
  lookup : ∀ key datum, now.Reads key datum → datum.cost < machine.limit →
    Gives machine now (map.mapLookup key) fun found _ => found = reference[datum]?
  containsKey : ∀ key datum, now.Reads key datum → datum.cost < machine.limit →
    Gives machine now (map.containsKey key) fun found _ => found = decide (datum ∈ reference)
  getOr : ∀ key datum default, now.Reads key datum → datum.cost < machine.limit →
    Gives machine now (map.getOr key default) fun found _ =>
      found = reference[datum]?.getD default

/-- A map of each kind. -/
structure MapTrio where
  hashed : Value
  small : Value
  sorted : Value

namespace MapTrio

def all (trio : MapTrio) : List Value := [trio.hashed, trio.small, trio.sorted]

def ofPairs (pairs : List (Value × Value)) : Attempt MapTrio := do
  let hashed ← Value.hashMapOf pairs
  let small ← Value.ofPairs pairs
  let sorted ← Value.sortedMapOf pairs
  return { hashed, small, sorted }

def perform (trio : MapTrio) (step : MapStep) : Attempt MapTrio := do
  let hashed ← step.perform trio.hashed
  let small ← step.perform trio.small
  let sorted ← step.perform trio.sorted
  return { hashed, small, sorted }

def run (pairs : List (Value × Value)) (steps : List MapStep) : Attempt (List MapTrio) := do
  trace perform (← ofPairs pairs) steps

/-- Three maps that are equal and show what is left of the writes. -/
structure Agrees (machine : Machine) (now : Moment) (datumOf : Value → Datum) (trio : MapTrio)
    (writes : List MapWrite) : Prop where
  shows : ∀ map ∈ trio.all, MapShows machine now map (DatumMap.ofWrites datumOf writes)
  equal : ∀ left ∈ trio.all, ∀ right ∈ trio.all,
    Gives machine now (left.equal right) fun answer _ => answer = true
  small : ¬Overfills datumOf writes → trio.small.tagName = "ArrayMap"
  promoted : Overfills datumOf writes → trio.small.tagName = "HashMap"
  hashed : trio.hashed.tagName = "HashMap"
  sorted : trio.sorted.tagName = "SortedMap"

end MapTrio

/-- Three maps from the same pairs agree, at first and after every step, whatever keys
that can be read there are. -/
def MapsAgree (moment : Moment) : Prop :=
  ∀ (datumOf : Value → Datum) (pairs : List (Value × Value)) (steps : List MapStep),
    (∀ write ∈ additions pairs ++ steps.flatMap MapStep.writes,
      moment.Reads write.key (datumOf write.key)) →
    ∃ enough, ∀ machine : Machine, enough ≤ machine.limit →
      Succeeds machine moment (MapTrio.run pairs steps) fun trios after =>
        ∀ later, after ≤ later →
          List.Forall₂ (MapTrio.Agrees machine later datumOf) trios
            (steps.scanl (fun writes step => writes ++ step.writes) (additions pairs))

namespace Reader

variable {reader : Reader} {now : Moment}

theorem Holds.shows {map : Value} {state : MapState} (holds : reader.Holds now map state)
    (le : reader.start ≤ now) (all : reader.machine.limit ≤ reader.bound + 2) :
    MapShows reader.machine now map state.map where
  count := by
    rcases holds.count_gives with ⟨_, after, ran, leAfter, rfl⟩
    exact ⟨_, after, ran, leAfter, _, rfl, rfl⟩
  entries := by
    rcases holds.contents with ⟨entries, contents, keys, isTable, _⟩
    refine ⟨entries, reader.table entries, contents, ?_, isTable⟩
    refine List.forall₂_map_right_iff.mpr (List.forall₂_same.mpr fun entry member => ⟨?_, rfl⟩)
    exact (reads (keys entry member) le).1
  lookup key datum read within :=
    holds.mapLookup_gives le ⟨read, Nat.le_of_lt_succ (within.trans_le all)⟩
  containsKey key datum read within :=
    holds.containsKey_gives le ⟨read, Nat.le_of_lt_succ (within.trans_le all)⟩
  getOr key datum default read within :=
    holds.getOr_gives le ⟨read, Nat.le_of_lt_succ (within.trans_le all)⟩ default

/-- Each of the maps is what the writes make of an empty map of its kind. -/
structure HoldsTrio (reader : Reader) (now : Moment) (trio : MapTrio)
    (writes : List MapWrite) : Prop where
  hashed : reader.Holds now trio.hashed (.writeAll reader.datumOf ⟨.hash, ∅⟩ writes)
  small : reader.Holds now trio.small (.writeAll reader.datumOf ⟨.array, ∅⟩ writes)
  sorted : reader.Holds now trio.sorted (.writeAll reader.datumOf ⟨.sorted, ∅⟩ writes)

namespace HoldsTrio

variable {trio : MapTrio} {writes : List MapWrite}

theorem kept (holds : reader.HoldsTrio now trio writes) {after : Moment}
    (keeps : ∀ handle pairs, Denoted reader.setting now handle pairs →
      Denoted reader.setting after handle pairs) : reader.HoldsTrio after trio writes :=
  ⟨holds.hashed.kept keeps, holds.small.kept keeps, holds.sorted.kept keeps⟩

theorem holds_of_mem (holds : reader.HoldsTrio now trio writes) {map : Value}
    (member : map ∈ trio.all) :
    ∃ state, reader.Holds now map state ∧
      state.map = DatumMap.ofWrites reader.datumOf writes := by
  rcases holds with ⟨hashed, small, sorted⟩
  simp only [MapTrio.all, List.mem_cons, List.not_mem_nil, or_false] at member
  rcases member with rfl | rfl | rfl
  · exact ⟨_, hashed, MapState.writeAll_map _ _⟩
  · exact ⟨_, small, MapState.writeAll_map _ _⟩
  · exact ⟨_, sorted, MapState.writeAll_map _ _⟩

theorem agrees (holds : reader.HoldsTrio now trio writes) (le : reader.start ≤ now)
    (all : reader.machine.limit ≤ reader.bound + 2) :
    trio.Agrees reader.machine now reader.datumOf writes where
  shows map member := by
    rcases holds.holds_of_mem member with ⟨state, holdsMap, same⟩
    rw [← same]
    exact holdsMap.shows le all
  equal left member right memberRight := by
    rcases holds.holds_of_mem member with ⟨state, holdsLeft, same⟩
    rcases holds.holds_of_mem memberRight with ⟨stateRight, holdsRight, sameRight⟩
    exact holdsLeft.equal_gives le holdsRight (same.trans sameRight.symm)
  small fits := by
    rcases MapState.writeAll_array_kind reader.datumOf writes with ⟨array, _⟩ | ⟨_, overfills⟩
    · rw [holds.small.tagName_eq, array]
      rfl
    · exact absurd overfills fits
  promoted overfills := by
    rcases MapState.writeAll_array_kind reader.datumOf writes with ⟨_, fits⟩ | ⟨hash, _⟩
    · exact absurd overfills fits
    · rw [holds.small.tagName_eq, hash]
      rfl
  hashed := holds.hashed.tagName_eq.trans
    (congrArg MapKind.tagName (MapState.writeAll_kind (by decide) writes))
  sorted := holds.sorted.tagName_eq.trans
    (congrArg MapKind.tagName (MapState.writeAll_kind (by decide) writes))

end HoldsTrio

theorem trio_ofPairs_achieves (le : reader.start ≤ now) {pairs : List (Value × Value)}
    (keys : ∀ pair ∈ pairs, reader.setting.IsKey pair.1) :
    Achieves reader.setting now none (MapTrio.ofPairs pairs) fun trio after =>
      reader.HoldsTrio after trio (additions pairs) := by
  apply Achieves.reading (hashMapOf_gives le keys)
  intro hashed between leBetween holdsHashed
  apply (ofPairs_achieves (le.trans leBetween) keys).keeping.bind
  rintro small moment leMoment ⟨holdsSmall, kept⟩
  apply Achieves.reading (sortedMapOf_gives leMoment keys)
  intro sorted after leAfter holdsSorted
  exact Achieves.pure (leMoment.trans leAfter)
    ⟨(holdsHashed.kept kept).later leAfter, holdsSmall.later leAfter, holdsSorted⟩

theorem HoldsTrio.perform_achieves {trio : MapTrio} {writes : List MapWrite}
    (holds : reader.HoldsTrio now trio writes) (le : reader.start ≤ now) (step : MapStep)
    (keys : ∀ write ∈ step.writes, reader.setting.IsKey write.key) :
    Achieves reader.setting now none (trio.perform step) fun changed after =>
      reader.HoldsTrio after changed (writes ++ step.writes) := by
  apply (Reader.perform_achieves holds.hashed le step keys).keeping.bind
  rintro hashed first leFirst ⟨holdsHashed, keptFirst⟩
  apply (Reader.perform_achieves (holds.small.kept keptFirst) leFirst step keys).keeping.bind
  rintro small second leSecond ⟨holdsSmall, keptSecond⟩
  have holdsSorted := (holds.sorted.kept keptFirst).kept keptSecond
  apply (Reader.perform_achieves holdsSorted leSecond step keys).keeping.bind
  rintro sorted after leAfter ⟨holdsSorted, keptLast⟩
  apply Achieves.pure leAfter
  constructor <;> rw [MapState.writeAll_append]
  · exact (holdsHashed.kept keptSecond).kept keptLast
  · exact holdsSmall.kept keptLast
  · exact holdsSorted

theorem trio_run_achieves (le : reader.start ≤ now) {pairs : List (Value × Value)}
    {steps : List MapStep}
    (keys : ∀ write ∈ additions pairs ++ steps.flatMap MapStep.writes,
      reader.setting.IsKey write.key) :
    Achieves reader.setting now none (MapTrio.run pairs steps) fun trios after =>
      List.Forall₂ (reader.HoldsTrio after) trios
        (steps.scanl (fun writes step => writes ++ step.writes) (additions pairs)) := by
  have pairKeys : ∀ pair ∈ pairs, reader.setting.IsKey pair.1 := fun pair member =>
    keys (.add pair.1 pair.2)
      (List.mem_append_left _ (List.mem_map.mpr ⟨pair, member, rfl⟩))
  apply (trio_ofPairs_achieves le pairKeys).bind
  intro trio between leBetween holds
  apply trace_achieves reader.HoldsTrio (fun holds => holds.kept) leBetween holds
  intro moment leMoment step member trio writes holds
  exact holds.perform_achieves leMoment step fun write inside =>
    keys write (List.mem_append_right _ (List.mem_flatMap.mpr ⟨step, member, inside⟩))

end Reader

/-! ## Sets -/

/-- Whatever one asks of the set, it shows what the finite set has. A set has for an
element the very value that was asked for. -/
structure SetShows (machine : Machine) (now : Moment) (set : Value) (reference : DatumSet) :
    Prop where
  count : Succeeds machine now set.count fun count _ => count = reference.size
  items : ∃ items data, set.setItems? = some items ∧ List.Forall₂ now.Reads items data ∧
    data.Perm reference.toList
  member : ∀ item datum, now.Reads item datum → datum.cost < machine.limit →
    Gives machine now (set.setMember item) fun found _ => found = decide (datum ∈ reference)
  containsKey : ∀ item datum, now.Reads item datum → datum.cost < machine.limit →
    Gives machine now (set.containsKey item) fun found _ => found = decide (datum ∈ reference)
  getOr : ∀ item datum default, now.Reads item datum → datum.cost < machine.limit →
    Gives machine now (set.getOr item default) fun found _ =>
      found = if datum ∈ reference then item else default

/-- A set of each kind. -/
structure SetDuo where
  hashed : Value
  sorted : Value

namespace SetDuo

def all (duo : SetDuo) : List Value := [duo.hashed, duo.sorted]

def ofItems (items : List Value) : Attempt SetDuo := do
  let hashed ← Value.hashSetOf items
  let sorted ← Value.sortedSetOf items
  return { hashed, sorted }

def perform (duo : SetDuo) (step : SetStep) : Attempt SetDuo := do
  let hashed ← step.perform duo.hashed
  let sorted ← step.perform duo.sorted
  return { hashed, sorted }

def run (items : List Value) (steps : List SetStep) : Attempt (List SetDuo) := do
  trace perform (← ofItems items) steps

/-- Two sets that are equal and show what the finite set has. -/
structure Agrees (machine : Machine) (now : Moment) (duo : SetDuo) (reference : DatumSet) :
    Prop where
  shows : ∀ set ∈ duo.all, SetShows machine now set reference
  equal : ∀ left ∈ duo.all, ∀ right ∈ duo.all,
    Gives machine now (left.equal right) fun answer _ => answer = true

end SetDuo

/-- Two sets of the same items agree, at first and after every step, whatever items that
can be read there are. -/
def SetsAgree (moment : Moment) : Prop :=
  ∀ (datumOf : Value → Datum) (items : List Value) (steps : List SetStep),
    (∀ item ∈ items ++ steps.map SetStep.item, moment.Reads item (datumOf item)) →
    ∃ enough, ∀ machine : Machine, enough ≤ machine.limit →
      Succeeds machine moment (SetDuo.run items steps) fun duos after =>
        ∀ later, after ≤ later →
          List.Forall₂ (SetDuo.Agrees machine later) duos
            (steps.scanl (SetStep.advance datumOf) (DatumSet.ofItems datumOf items))

namespace Reader

variable {reader : Reader} {now : Moment}

theorem HoldsSet.shows {value : Value} {set : DatumSet} (holds : reader.HoldsSet value set)
    (le : reader.start ≤ now) (all : reader.machine.limit ≤ reader.bound + 2) :
    SetShows reader.machine now value set where
  count := by
    rcases holds.count_gives with ⟨_, after, ran, leAfter, rfl⟩
    exact ⟨_, after, ran, leAfter, _, rfl, rfl⟩
  items := by
    rcases holds.contents now.world with ⟨items, contents, keys, isListed, _⟩
    refine ⟨items, items.map reader.datumOf, contents, ?_, isListed⟩
    refine List.forall₂_map_right_iff.mpr (List.forall₂_same.mpr fun item member => ?_)
    exact (reads (keys item member) le).1
  member item datum read within :=
    holds.setMember_gives le ⟨read, Nat.le_of_lt_succ (within.trans_le all)⟩
  containsKey item datum read within :=
    holds.containsKey_gives le ⟨read, Nat.le_of_lt_succ (within.trans_le all)⟩
  getOr item datum default read within :=
    holds.getOr_gives le ⟨read, Nat.le_of_lt_succ (within.trans_le all)⟩ default

structure HoldsDuo (reader : Reader) (duo : SetDuo) (set : DatumSet) : Prop where
  hashed : reader.HoldsSet duo.hashed set
  sorted : reader.HoldsSet duo.sorted set

namespace HoldsDuo

variable {duo : SetDuo} {set : DatumSet}

theorem holds_of_mem (holds : reader.HoldsDuo duo set) {value : Value}
    (member : value ∈ duo.all) : reader.HoldsSet value set := by
  rcases holds with ⟨hashed, sorted⟩
  simp only [SetDuo.all, List.mem_cons, List.not_mem_nil, or_false] at member
  rcases member with rfl | rfl
  · exact hashed
  · exact sorted

theorem agrees (holds : reader.HoldsDuo duo set) (le : reader.start ≤ now)
    (all : reader.machine.limit ≤ reader.bound + 2) : duo.Agrees reader.machine now set where
  shows _ member := (holds.holds_of_mem member).shows le all
  equal _ member _ memberRight :=
    (holds.holds_of_mem member).equal_gives le (holds.holds_of_mem memberRight)

end HoldsDuo

theorem duo_run_achieves (le : reader.start ≤ now) {items : List Value} {steps : List SetStep}
    (keys : ∀ item ∈ items ++ steps.map SetStep.item, reader.setting.IsKey item) :
    Achieves reader.setting now none (SetDuo.run items steps) fun duos _ =>
      List.Forall₂ reader.HoldsDuo duos
        (steps.scanl (SetStep.advance reader.datumOf)
          (DatumSet.ofItems reader.datumOf items)) := by
  have itemKeys : ∀ item ∈ items, reader.setting.IsKey item := fun item member =>
    keys item (List.mem_append_left _ member)
  have opens : Achieves reader.setting now none (SetDuo.ofItems items) fun duo _ =>
      reader.HoldsDuo duo (DatumSet.ofItems reader.datumOf items) := by
    apply Achieves.reading (hashSetOf_gives le itemKeys)
    intro hashed between leBetween holdsHashed
    apply Achieves.reading (sortedSetOf_gives (le.trans leBetween) itemKeys)
    intro sorted after leAfter holdsSorted
    exact Achieves.pure ((le.trans leBetween).trans leAfter) ⟨holdsHashed, holdsSorted⟩
  apply opens.bind
  intro duo between leBetween holds
  apply trace_achieves (fun _ => reader.HoldsDuo) (fun holds _ => holds) leBetween holds
  intro moment leMoment step member duo set holds
  have isKey := keys step.item (List.mem_append_right _ (List.mem_map_of_mem member))
  apply (perform_set_achieves holds.hashed leMoment step isKey).bind
  intro hashed middle leMiddle holdsHashed
  apply (perform_set_achieves holds.sorted leMiddle step isKey).bind
  intro sorted after leAfter holdsSorted
  exact Achieves.pure leAfter ⟨holdsHashed, holdsSorted⟩

end Reader

/-! ## Moments without wrong hashes -/

/-- Some machine has room for all values that there are, and so has every larger one. -/
theorem Reader.exists_forall_machine {moment : Moment} (remembers : moment.RemembersRight)
    {datumOf : Value → Datum} {values : List Value}
    (reads : ∀ value ∈ values, moment.Reads value (datumOf value)) :
    ∃ enough, ∀ machine : Machine, enough ≤ machine.limit → ∃ reader : Reader,
      reader.machine = machine ∧ reader.start = moment ∧ reader.datumOf = datumOf ∧
      reader.machine.limit ≤ reader.bound + 2 ∧
      ∀ value ∈ values, reader.setting.IsKey value := by
  refine ⟨(values.map fun value => (datumOf value).cost).sum + 2, fun machine enough => ?_⟩
  have room : machine.limit - 2 + 2 = machine.limit :=
    Nat.sub_add_cancel ((Nat.le_add_left 2 _).trans enough)
  refine ⟨⟨machine, moment, datumOf, machine.limit - 2, remembers _, room.le⟩, rfl, rfl, rfl,
    room.ge, fun value member => ⟨reads value member, ?_⟩⟩
  have within : (datumOf value).cost ≤ (values.map fun value => (datumOf value).cost).sum :=
    List.le_sum_of_mem (List.mem_map_of_mem member)
  change (datumOf value).cost ≤ machine.limit - 2 + 1
  omega

theorem mapsAgree_of_remembersRight {moment : Moment} (remembers : moment.RemembersRight) :
    MapsAgree moment := by
  intro datumOf pairs steps keys
  rcases Reader.exists_forall_machine remembers (List.forall_mem_map.mpr keys) with
    ⟨enough, readers⟩
  refine ⟨enough, fun machine within => ?_⟩
  rcases readers machine within with ⟨reader, rfl, rfl, rfl, all, isKeys⟩
  rcases Reader.trio_run_achieves (le_refl _) (List.forall_mem_map.mp isKeys) with
    ⟨_, after, ran, le, _, trios, rfl, holds⟩
  refine ⟨_, after, ran, le, trios, rfl, fun later leLater => ?_⟩
  refine holds.imp fun trio writes holds => ?_
  exact (holds.kept fun _ _ denoted => denoted.later leLater).agrees (le.trans leLater) all

theorem setsAgree_of_remembersRight {moment : Moment} (remembers : moment.RemembersRight) :
    SetsAgree moment := by
  intro datumOf items steps keys
  rcases Reader.exists_forall_machine remembers keys with ⟨enough, readers⟩
  refine ⟨enough, fun machine within => ?_⟩
  rcases readers machine within with ⟨reader, rfl, rfl, rfl, all, isKeys⟩
  rcases Reader.duo_run_achieves (le_refl _) isKeys with
    ⟨_, after, ran, le, _, duos, rfl, holds⟩
  refine ⟨_, after, ran, le, duos, rfl, fun later leLater => ?_⟩
  exact holds.imp fun duo set holds => holds.agrees (le.trans leLater) all

end LispRuntime
