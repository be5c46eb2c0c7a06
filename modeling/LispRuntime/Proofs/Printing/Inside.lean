import LispRuntime.Proofs.Printing.Limit
import Mathlib.Data.Fintype.Card
import Mathlib.Data.Set.Finite.List
import Mathlib.Logic.Relation

/-! What is printed inside a value. A collection shows its elements, as far as the print length
allows, and atoms, volatiles and delays that have been realized show what they hold. A cell may come
to hold something that shows the cell again: only then is there no end to what is printed inside a
value. -/

namespace LispRuntime

/-- A cell whose text shows what it holds. -/
inductive Holder where
  | atom (cell : Ref .atom)
  | volatile (cell : Ref .volatile)
  | delay (cell : Ref .deferred)
deriving DecidableEq, Repr

def Holder.value : Holder → Value
  | atom cell => .atom cell
  | volatile cell => .volatile cell
  | delay cell => .delay cell

/-- What is shown of cells. -/
abbrev Holdings := Holder → Option Value

def Deferred.shown? : Deferred → Option Value
  | realized value => some value
  | _ => none

def World.holdings (world : World) : Holdings
  | .atom cell => (world.atoms.get? cell.index).map AtomCell.value
  | .volatile cell => world.volatiles.get? cell.index
  | .delay cell => (world.deferred.get? cell.index).bind Deferred.shown?

/-! ## Elements at hand -/

/-- Nothing is known of any lazy seq. -/
def Chart.empty : Chart := fun _ => none

/-- These elements, and then an error or the end. -/
def Course.ofAtHand (items : List Value) (error : Option Error) : Course := fun index =>
  if index < items.length then items[index]?.map .ok
  else if index = items.length then error.map .error
  else none

namespace Course

variable {items : List Value} {error : Option Error}

theorem of_eq_ofAtHand (items : List Value) : Course.of items = ofAtHand items none := by
  funext index
  rw [of, ofAtHand]
  split
  case isTrue => rfl
  case isFalse outside =>
    rw [List.getElem?_eq_none (Nat.le_of_not_lt outside), Option.map_none, Option.map_none]
    split <;> rfl

theorem failing_eq_ofAtHand (error : Error) : Course.failing error = ofAtHand [] (some error) := by
  funext index
  cases index <;> rfl

theorem cons_ofAtHand (first : Value) :
    Course.cons first (ofAtHand items error) = ofAtHand (first :: items) error := by
  funext index
  cases index with
  | zero => rfl
  | succ index => simp [cons, ofAtHand]

theorem ofAtHand_eq_ok_iff {index : Nat} {item : Value} :
    ofAtHand items error index = some (.ok item) ↔ items[index]? = some item := by
  rw [ofAtHand]
  split
  case isTrue inside => simp [List.getElem?_eq_getElem inside]
  case isFalse outside =>
    rw [List.getElem?_eq_none (Nat.le_of_not_lt outside)]
    split <;> cases error <;> simp

theorem mem_of_items {index : Nat} {item : Value} (here : of items index = some (.ok item)) :
    item ∈ items := by
  rw [of_eq_ofAtHand, ofAtHand_eq_ok_iff] at here
  exact List.mem_of_getElem? here

theorem comes_ofAtHand : (ofAtHand items error).Comes items.length (error.map .error) := by
  constructor
  · intro index inside
    exact ⟨items[index], ofAtHand_eq_ok_iff.mpr (List.getElem?_eq_getElem inside)⟩
  · simp [ofAtHand]

end Course

namespace Value

theorem exists_atHand (value : Value) :
    ∃ items error, value.courseIn .empty = .ofAtHand items error := by
  fun_induction ChartedIn Chart.empty value with
  | case1 address first rest induction =>
      rcases induction with ⟨items, error, same⟩
      refine ⟨first :: items, error, ?_⟩
      rw [courseIn, same, Course.cons_ofAtHand]
  | case2 cell => exact ⟨_, _, Course.of_eq_ofAtHand []⟩
  | case3 value notCons notLazy =>
      cases value with
      | cons => exact (notCons _ _ _ rfl).elim
      | lazySeq => exact (notLazy _ rfl).elim
      | nil | list | vector | string | arrayMap | hashMap | sortedMap | hashSet | sortedSet =>
          exact ⟨_, _, Course.of_eq_ofAtHand _⟩
      | _ => exact ⟨_, _, Course.failing_eq_ofAtHand _⟩

/-- What shows nothing of other values: immediates, names, and cells that show what they are
called. -/
def isLeaf : Value → Bool
  | nil | boolean _ | integer _ | real _ | character _ | string .. | symbol .. | keyword _
  | transient _ | var _ | space _ | multimethod _ | hierarchy _ | function .. => true
  | _ => false

theorem mapEntries?_of_walked {value : Value} {opening closing : String} {cursor : Cursor}
    (walked : value.walked? = some (opening, cursor, closing)) : value.mapEntries? = none := by
  cases value <;> first | rfl | cases walked

theorem sizeOf_pos (value : Value) : 0 < sizeOf value := by
  apply Nat.pos_of_ne_zero
  cases value <;> simp

theorem sizeOf_entry_lt {value : Value} {entries : List (Value × Value)}
    (isMap : value.mapEntries? = some entries) {key entryValue : Value}
    (member : (key, entryValue) ∈ entries) :
    sizeOf key + sizeOf entryValue + 4 ≤ sizeOf value := by
  cases value with
  | arrayMap _ _ metadata | sortedMap _ _ metadata =>
      cases isMap
      have positive : 0 < sizeOf metadata := by
        cases metadata with
        | none => simp
        | some value =>
            rw [Option.some.sizeOf_spec]
            omega
      have smaller := List.sizeOf_lt_of_mem member
      simp at smaller ⊢
      omega
  | hashMap =>
      cases isMap
      rcases List.mem_map.mp member with ⟨⟨hash, entry⟩, there, rfl⟩
      have smaller := List.sizeOf_lt_of_mem there
      simp at smaller ⊢
      omega
  | _ => cases isMap

theorem courseIn_map {value : Value} {entries : List (Value × Value)}
    (isMap : value.mapEntries? = some entries) (chart : Chart) :
    value.courseIn chart = .of (entries.map fun entry => .vector 0 [entry.1, entry.2] none) := by
  cases value with
  | arrayMap | hashMap | sortedMap =>
      cases isMap
      rfl
  | _ => cases isMap

theorem sizeOf_element_le_of_map {value inner : Value} {entries : List (Value × Value)}
    (isMap : value.mapEntries? = some entries) {index : Nat}
    (here : value.courseIn .empty index = some (.ok inner)) : sizeOf inner ≤ sizeOf value + 1 := by
  rw [courseIn_map isMap] at here
  rcases List.mem_map.mp (Course.mem_of_items here) with ⟨⟨key, entryValue⟩, member, rfl⟩
  have smaller := sizeOf_entry_lt isMap member
  simp
  omega

/-- What a walk meets is less than the value, but for the characters of a string and the entries of
a map. -/
theorem sizeOf_element {value inner : Value} {index : Nat}
    (here : value.courseIn .empty index = some (.ok inner)) :
    (∃ char, inner = .character char) ∨
      sizeOf inner ≤ sizeOf value + 1 ∧
        (value.mapEntries? = none → sizeOf inner < sizeOf value) := by
  fun_induction ChartedIn Chart.empty value generalizing index with
  | case1 address first rest induction =>
      have positive := sizeOf_pos first
      cases index with
      | zero =>
          cases here
          right
          simp
          omega
      | succ index =>
          refine (induction here).imp_right fun less => ?_
          simp
          omega
  | case2 cell => cases here
  | case3 value notCons notLazy =>
      cases value with
      | cons => exact (notCons _ _ _ rfl).elim
      | lazySeq => exact (notLazy _ rfl).elim
      | nil => cases here
      | list | vector | sortedSet =>
          have smaller := List.sizeOf_lt_of_mem (Course.mem_of_items here)
          right
          simp
          omega
      | hashSet =>
          rcases List.mem_map.mp (Course.mem_of_items here) with ⟨⟨hash, item⟩, member, rfl⟩
          have smaller := List.sizeOf_lt_of_mem member
          right
          simp at smaller ⊢
          omega
      | string =>
          rcases List.mem_map.mp (Course.mem_of_items here) with ⟨char, _, rfl⟩
          exact .inl ⟨char, rfl⟩
      | arrayMap | hashMap | sortedMap =>
          refine .inr ⟨sizeOf_element_le_of_map rfl here, fun noMap => ?_⟩
          cases noMap
      | _ => cases index <;> cases here

end Value

/-! ## What is shown -/

namespace Holdings

/-- What is written inside the text of a value, right below it. -/
inductive Shows (limit : Option Nat) (holdings : Holdings) : Value → Value → Prop
  /-- Lists, vectors, sets and cons chains show their elements. -/
  | element {outer inner : Value} {opening closing : String} {cursor : Cursor} {index : Nat}
      (walked : outer.walked? = some (opening, cursor, closing))
      (here : outer.courseIn .empty index = some (.ok inner))
      (written : Printing.isFull limit index = false) : Shows limit holdings outer inner
  | key {outer key value : Value} {entries : List (Value × Value)} {index : Nat}
      (isMap : outer.mapEntries? = some entries) (here : entries[index]? = some (key, value))
      (written : Printing.isFull limit index = false) : Shows limit holdings outer key
  | value {outer key value : Value} {entries : List (Value × Value)} {index : Nat}
      (isMap : outer.mapEntries? = some entries) (here : entries[index]? = some (key, value))
      (written : Printing.isFull limit index = false) : Shows limit holdings outer value
  | atom {cell : Ref .atom} {inner : Value} (holds : holdings (.atom cell) = some inner) :
      Shows limit holdings (.atom cell) inner
  | volatile {cell : Ref .volatile} {inner : Value}
      (holds : holdings (.volatile cell) = some inner) : Shows limit holdings (.volatile cell) inner
  | delay {cell : Ref .deferred} {inner : Value} (holds : holdings (.delay cell) = some inner) :
      Shows limit holdings (.delay cell) inner
  | wrapped {address : Nat} {inner : Value} : Shows limit holdings (.reduced address inner) inner

/-- What is written inside a value at any depth, and the value itself. -/
abbrev Reaches (limit : Option Nat) (holdings : Holdings) : Value → Value → Prop :=
  Relation.ReflTransGen (Shows limit holdings)

/-- A cell that is shown for the value is shown again inside itself. -/
def Knotted (limit : Option Nat) (holdings : Holdings) (value : Value) : Prop :=
  ∃ holder : Holder, Reaches limit holdings value holder.value ∧
    Relation.TransGen (Shows limit holdings) holder.value holder.value

variable {limit : Option Nat} {holdings : Holdings} {outer inner : Value}

theorem Shows.unlimited (shows : Shows limit holdings outer inner) :
    Shows none holdings outer inner := by
  cases shows with
  | element walked here => exact .element walked here rfl
  | key isMap here => exact .key isMap here rfl
  | value isMap here => exact .value isMap here rfl
  | atom holds => exact .atom holds
  | volatile holds => exact .volatile holds
  | delay holds => exact .delay holds
  | wrapped => exact .wrapped

theorem Knotted.unlimited (knotted : Knotted limit holdings outer) :
    Knotted none holdings outer := by
  rcases knotted with ⟨holder, reached, around⟩
  exact ⟨holder, Relation.ReflTransGen.mono (fun _ _ => Shows.unlimited) _ _ reached,
    Relation.TransGen.mono (fun _ _ => Shows.unlimited) _ _ around⟩

/-- What a value shows that is no cell does not depend on what cells hold. -/
theorem shows_congr {other : Holdings}
    (same : ∀ holder : Holder, holder.value = outer → holdings holder = other holder) :
    Shows limit holdings outer inner ↔ Shows limit other outer inner := by
  have onward {first second : Holdings}
      (same : ∀ holder : Holder, holder.value = outer → first holder = second holder)
      (shows : Shows limit first outer inner) : Shows limit second outer inner := by
    cases shows with
    | element walked here written => exact .element walked here written
    | key isMap here written => exact .key isMap here written
    | value isMap here written => exact .value isMap here written
    | atom holds => exact .atom ((same (.atom _) rfl).symm.trans holds)
    | volatile holds => exact .volatile ((same (.volatile _) rfl).symm.trans holds)
    | delay holds => exact .delay ((same (.delay _) rfl).symm.trans holds)
    | wrapped => exact .wrapped
  exact ⟨onward same, onward fun holder isOuter => (same holder isOuter).symm⟩

/-- A cell shows what it holds and nothing else. -/
theorem shows_holder_iff {holder : Holder} :
    Shows limit holdings holder.value inner ↔ holdings holder = some inner := by
  constructor
  · intro shows
    cases holder with
    | atom =>
        cases shows with
        | atom holds => exact holds
        | element walked => cases walked
        | key isMap | value isMap => cases isMap
    | volatile =>
        cases shows with
        | volatile holds => exact holds
        | element walked => cases walked
        | key isMap | value isMap => cases isMap
    | delay =>
        cases shows with
        | delay holds => exact holds
        | element walked => cases walked
        | key isMap | value isMap => cases isMap
  · intro holds
    cases holder
    · exact .atom holds
    · exact .volatile holds
    · exact .delay holds

theorem shows_atom_iff {cell : Ref .atom} :
    Shows limit holdings (.atom cell) inner ↔ holdings (.atom cell) = some inner :=
  (shows_holder_iff : Shows limit holdings (Holder.atom cell).value inner ↔ _)

theorem shows_volatile_iff {cell : Ref .volatile} :
    Shows limit holdings (.volatile cell) inner ↔ holdings (.volatile cell) = some inner :=
  (shows_holder_iff : Shows limit holdings (Holder.volatile cell).value inner ↔ _)

theorem knotted_of_self {holder : Holder} (itself : holdings holder = some holder.value) :
    Knotted limit holdings holder.value :=
  ⟨holder, .refl, .single (shows_holder_iff.mpr itself)⟩

/-- What is no cell is more than what it shows, but for the characters of a string. -/
theorem Shows.smaller (shows : Shows limit holdings outer inner)
    (noHolder : ∀ holder : Holder, holder.value ≠ outer) :
    (∃ char, inner = .character char) ∨ sizeOf inner < sizeOf outer := by
  cases shows with
  | element walked here =>
      exact (Value.sizeOf_element here).imp_right fun less =>
        less.2 (Value.mapEntries?_of_walked walked)
  | key isMap here | value isMap here =>
      have smaller := Value.sizeOf_entry_lt isMap (List.mem_of_getElem? here)
      right
      omega
  | atom => exact (noHolder (.atom _) rfl).elim
  | volatile => exact (noHolder (.volatile _) rfl).elim
  | delay => exact (noHolder (.delay _) rfl).elim
  | wrapped =>
      right
      rw [Value.reduced.sizeOf_spec]
      omega

/-- Among values that show none but one another, nothing else is reached. -/
theorem mem_of_reaches {values : List Value}
    (closed : ∀ outer ∈ values, ∀ inner, Shows limit holdings outer inner → inner ∈ values)
    (reached : Reaches limit holdings outer inner) (member : outer ∈ values) : inner ∈ values := by
  induction reached with
  | refl => exact member
  | tail _ shows there => exact closed _ there _ shows

theorem Shows.not_leaf (leaf : outer.isLeaf = true) : ¬ Shows limit holdings outer inner := by
  intro shows
  cases shows with
  | element walked => cases outer <;> cases leaf <;> cases walked
  | key isMap | value isMap => cases outer <;> cases leaf <;> cases isMap
  | atom | volatile | delay | wrapped => cases leaf

theorem eq_of_reaches_leaf (leaf : outer.isLeaf = true)
    (reached : Reaches limit holdings outer inner) : inner = outer := by
  rcases reached.cases_head with rfl | ⟨between, shows, _⟩
  · rfl
  · exact (shows.not_leaf leaf).elim

/-! ## Where it ends -/

/-- There is an end to what is shown inside the value. -/
def Ends (limit : Option Nat) (holdings : Holdings) : Value → Prop :=
  Acc fun inner outer => Shows limit holdings outer inner

theorem Ends.below (ends : Ends limit holdings outer) (shows : Shows limit holdings outer inner) :
    Ends limit holdings inner :=
  Acc.inv ends shows

theorem Ends.reached (ends : Ends limit holdings outer)
    (reached : Reaches limit holdings outer inner) : Ends limit holdings inner := by
  induction reached with
  | refl => exact ends
  | tail _ shows below => exact below.below shows

theorem Ends.not_around (ends : Ends limit holdings outer) :
    ¬ Relation.TransGen (Shows limit holdings) outer outer := by
  induction ends with
  | intro outer _ induction =>
      intro around
      rcases Relation.TransGen.head'_iff.mp around with ⟨inner, shows, back⟩
      exact induction inner shows (Relation.TransGen.tail' back shows)

/-- Below the cells there is an end in any case. -/
theorem ends_of_holders (holders : ∀ holder : Holder,
    Reaches limit holdings outer holder.value → Ends limit holdings holder.value) :
    Ends limit holdings outer := by
  induction size : sizeOf outer using Nat.strongRecOn generalizing outer with
  | ind _ induction =>
      by_cases isHolder : ∃ holder : Holder, holder.value = outer
      · rcases isHolder with ⟨holder, rfl⟩
        exact holders holder .refl
      · refine Acc.intro outer fun inner shows => ?_
        rcases shows.smaller fun holder same => isHolder ⟨holder, same⟩ with ⟨char, rfl⟩ | less
        · exact Acc.intro _ fun _ shows => (shows.not_leaf rfl).elim
        · exact induction _ (size ▸ less) (fun holder reached =>
            holders holder (.head shows reached)) rfl

theorem ends_of_empty {holder : Holder} (empty : holdings holder = none) :
    Ends limit holdings holder.value :=
  Acc.intro _ fun _ shows => nomatch empty.symm.trans (shows_holder_iff.mp shows)

/-- There are only so many cells that hold anything. -/
def IsFinite (holdings : Holdings) : Prop :=
  {holder : Holder | (holdings holder).isSome = true}.Finite

/-- A cell that holds something and is shown for the value. -/
abbrev Shown (limit : Option Nat) (holdings : Holdings) (value : Value) : Type :=
  {holder : Holder // (holdings holder).isSome = true ∧ Reaches limit holdings value holder.value}

namespace Shown

variable {value : Value}

/-- The first cell is shown inside the second one. -/
def Inside (inner outer : Shown limit holdings value) : Prop :=
  Relation.TransGen (Shows limit holdings) outer.1.value inner.1.value

/-- Where nothing comes around, one can only go so deep. -/
theorem wellFounded_inside (finite : holdings.IsFinite) (free : ¬ Knotted limit holdings value) :
    WellFounded (Inside : Shown limit holdings value → Shown limit holdings value → Prop) := by
  have isFinite : Finite (Shown limit holdings value) :=
    (Set.Finite.subset finite fun _ shown => shown.1).to_subtype
  have transitive : IsTrans (Shown limit holdings value) Inside :=
    ⟨fun _ _ _ inside insideToo => insideToo.trans inside⟩
  have irreflexive : Std.Irrefl (Inside : Shown limit holdings value → _ → Prop) :=
    ⟨fun shown around => free ⟨shown.1, shown.2.2, around⟩⟩
  exact Finite.wellFounded_of_trans_of_irrefl _

theorem ends (shown : Shown limit holdings value)
    (wellFounded :
      WellFounded (Inside : Shown limit holdings value → Shown limit holdings value → Prop)) :
    Ends limit holdings shown.1.value := by
  induction shown using wellFounded.induction with
  | _ shown induction =>
      refine Acc.intro _ fun inner shows => ends_of_holders fun holder reached => ?_
      cases holds : holdings holder with
      | none => exact ends_of_empty holds
      | some held =>
          exact induction ⟨holder, by rw [holds]; rfl, shown.2.2.trans (.head shows reached)⟩
            (Relation.TransGen.head' shows reached)

end Shown

theorem ends_iff (finite : holdings.IsFinite) :
    Ends limit holdings outer ↔ ¬ Knotted limit holdings outer := by
  constructor
  · rintro ends ⟨holder, reached, around⟩
    exact (ends.reached reached).not_around around
  · intro free
    refine ends_of_holders fun holder reached => ?_
    cases holds : holdings holder with
    | none => exact ends_of_empty holds
    | some held =>
        exact Shown.ends ⟨holder, by rw [holds]; rfl, reached⟩
          (Shown.wellFounded_inside finite free)

end Holdings

/-! ## How deep it goes -/

namespace Value

/-- A chain of cons cells is walked over in fewer steps than this, as far as it is printed. -/
def WalksWithin (limit : Option Nat) (fuel : Nat) (value : Value) : Prop :=
  ∀ address first rest, value = cons address first rest →
    ∃ length last, Printing.Covers (value.courseIn .empty) limit length last ∧ length < fuel

theorem exists_covers (limit : Option Nat) (value : Value) :
    ∃ length last, Printing.Covers (value.courseIn .empty) limit length last := by
  rcases value.exists_atHand with ⟨items, error, same⟩
  refine Printing.exists_covers _ fun _ => ⟨_, _, same ▸ Course.comes_ofAtHand, fun item => ?_⟩
  cases error <;> nofun

theorem exists_walksWithin (limit : Option Nat) (value : Value) :
    ∃ fuel, value.WalksWithin limit fuel := by
  rcases value.exists_covers limit with ⟨length, last, covers⟩
  exact ⟨length + 1, fun _ _ _ _ => ⟨length, last, covers, Nat.lt_succ_self length⟩⟩

theorem WalksWithin.mono {limit : Option Nat} {fuel more : Nat} {value : Value}
    (within : value.WalksWithin limit fuel) (le : fuel ≤ more) : value.WalksWithin limit more := by
  intro address first rest isCons
  rcases within address first rest isCons with ⟨length, last, covers, less⟩
  exact ⟨length, last, covers, Nat.lt_of_lt_of_le less le⟩

end Value

namespace Holdings

variable {limit : Option Nat} {holdings : Holdings} {outer inner : Value}

/-- What is shown inside the value is less deep than this, and so long are the walks for it. -/
def Within (limit : Option Nat) (holdings : Holdings) : Nat → Value → Prop
  | 0, _ => False
  | fuel + 1, outer =>
      outer.WalksWithin limit fuel ∧
        ∀ inner, Shows limit holdings outer inner → Within limit holdings fuel inner

theorem Within.mono {fuel more : Nat} (within : Within limit holdings fuel outer)
    (le : fuel ≤ more) : Within limit holdings more outer := by
  induction fuel generalizing more outer with
  | zero => exact within.elim
  | succ fuel induction =>
      rcases more with _ | more
      · cases le
      · have less := Nat.le_of_succ_le_succ le
        exact ⟨within.1.mono less, fun inner shows => induction (within.2 inner shows) less⟩

/-- A value shows only so many others. -/
theorem exists_parts (limit : Option Nat) (holdings : Holdings) (outer : Value) :
    ∃ parts : List Value, ∀ inner, Shows limit holdings outer inner → inner ∈ parts := by
  by_cases isHolder : ∃ holder : Holder, holder.value = outer
  · rcases isHolder with ⟨holder, rfl⟩
    exact ⟨(holdings holder).toList, fun inner shows =>
      Option.mem_toList.mpr (shows_holder_iff.mp shows)⟩
  rcases outer.exists_atHand with ⟨items, error, same⟩
  refine ⟨outer.unreduced :: items ++
    (outer.mapEntries?.getD []).flatMap fun entry => [entry.1, entry.2], fun inner shows => ?_⟩
  cases shows with
  | element _ here =>
      rw [same, Course.ofAtHand_eq_ok_iff] at here
      exact List.mem_append_left _ (List.mem_cons_of_mem _ (List.mem_of_getElem? here))
  | key isMap here =>
      rw [isMap]
      exact List.mem_append_right _ (List.mem_flatMap.mpr
        ⟨_, List.mem_of_getElem? here, List.mem_cons_self ..⟩)
  | value isMap here =>
      rw [isMap]
      exact List.mem_append_right _ (List.mem_flatMap.mpr
        ⟨_, List.mem_of_getElem? here, List.mem_cons_of_mem _ (List.mem_singleton_self _)⟩)
  | atom => exact (isHolder ⟨.atom _, rfl⟩).elim
  | volatile => exact (isHolder ⟨.volatile _, rfl⟩).elim
  | delay => exact (isHolder ⟨.delay _, rfl⟩).elim
  | wrapped => exact List.mem_append_left _ (List.mem_cons_self ..)

theorem Ends.exists_within (ends : Ends limit holdings outer) :
    ∃ fuel, Within limit holdings fuel outer := by
  induction ends with
  | intro outer _ induction =>
      rcases exists_parts limit holdings outer with ⟨parts, complete⟩
      rcases outer.exists_walksWithin limit with ⟨walk, walks⟩
      have deep : ∃ fuel, ∀ inner ∈ parts, Shows limit holdings outer inner →
          Within limit holdings fuel inner := by
        clear complete
        induction parts with
        | nil => exact ⟨0, nofun⟩
        | cons part parts inductionParts =>
            rcases inductionParts with ⟨fuel, within⟩
            by_cases shows : Shows limit holdings outer part
            · rcases induction part shows with ⟨more, withinMore⟩
              refine ⟨max fuel more, List.forall_mem_cons.mpr
                ⟨fun _ => ?_, fun inner member shows => ?_⟩⟩
              · exact withinMore.mono (Nat.le_max_right ..)
              · exact (within inner member shows).mono (Nat.le_max_left ..)
            · exact ⟨fuel, List.forall_mem_cons.mpr ⟨fun shown => (shows shown).elim, within⟩⟩
      rcases deep with ⟨fuel, within⟩
      refine ⟨max walk fuel + 1, walks.mono (Nat.le_max_left ..), fun inner shows => ?_⟩
      exact (within inner (complete inner shows) shows).mono (Nat.le_max_right ..)

theorem Within.ends {fuel : Nat} (within : Within limit holdings fuel outer) :
    Ends limit holdings outer := by
  induction fuel generalizing outer with
  | zero => exact within.elim
  | succ fuel induction => exact Acc.intro _ fun inner shows => induction (within.2 inner shows)

/-- Where nothing comes around, what is shown is only so deep. -/
theorem exists_within_iff (finite : holdings.IsFinite) :
    (∃ fuel, Within limit holdings fuel outer) ↔ ¬ Knotted limit holdings outer := by
  rw [← ends_iff finite]
  exact ⟨fun ⟨_, within⟩ => within.ends, Ends.exists_within⟩

end Holdings

/-- The cells that a world has. -/
def World.holders (world : World) : List Holder :=
  (List.range world.atoms.next).map (.atom ⟨·⟩) ++
    (List.range world.volatiles.next).map (.volatile ⟨·⟩) ++
    (List.range world.deferred.next).map (.delay ⟨·⟩)

theorem World.holdings_isFinite (world : World) : world.holdings.IsFinite := by
  refine (List.finite_toSet world.holders).subset fun holder holds => ?_
  rcases Option.isSome_iff_exists.mp holds with ⟨held, holds⟩
  change holder ∈ world.holders
  simp only [holders, List.mem_append, List.mem_map, List.mem_range]
  cases holder with
  | atom cell =>
      rcases Option.map_eq_some_iff.mp holds with ⟨atom, here, _⟩
      exact .inl (.inl ⟨cell.index, Store.lt_next_of_get? here, rfl⟩)
  | volatile cell => exact .inl (.inr ⟨cell.index, Store.lt_next_of_get? holds, rfl⟩)
  | delay cell =>
      rcases Option.bind_eq_some_iff.mp holds with ⟨state, here, _⟩
      exact .inr ⟨cell.index, Store.lt_next_of_get? here, rfl⟩

end LispRuntime
