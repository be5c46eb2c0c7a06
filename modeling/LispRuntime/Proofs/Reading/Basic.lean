import LispRuntime.Proofs.Datum.Basic
import LispRuntime.Value.Equality
import Mathlib.Data.List.Forall2

/-! Reading a value is finding the datum that it stands for. Chains of cons
cells and lazy seqs have to come to an end, lazy seqs have to be realized, and
tables have to be what they claim to be: without two equal keys, in order if
they are sorted, and with the hashes of their keys if they are hashed.

Identity is a matter of addresses, so whoever reads has a memory that says
which datum stands at an address. -/

namespace LispRuntime

/-- Where the contents of a value are kept. -/
inductive Address where
  | heap (index : Nat)
  | map (handle : Nat)
  | deferred (index : Nat)
deriving DecidableEq, Repr

/-- Which datum stands at an address, if that is known. -/
abbrev Memory := Address → Option Datum

namespace Value

def address? : Value → Option Address
  | string address _
  | list address ..
  | cons address ..
  | vector address ..
  | hashMap address ..
  | sortedMap address ..
  | hashSet address ..
  | sortedSet address .. => some (.heap address)
  | arrayMap handle .. => some (.map handle)
  | lazySeq cell => some (.deferred cell.index)
  | _ => none

/-- What a value without elements is. -/
def leaf? : Value → Option Leaf
  | nil => some .nil
  | boolean value => some (.boolean value)
  | integer value => some (.integer value)
  | real value => some (.real value)
  | character value => some (.character value)
  | string _ text => some (.string text)
  | symbol name _ => some (.symbol name)
  | keyword name => some (.keyword name)
  | transient cell => some (.reference .transient cell.index)
  | var cell => some (.reference .var cell.index)
  | space cell => some (.reference .space cell.index)
  | atom cell => some (.reference .atom cell.index)
  | volatile cell => some (.reference .volatile cell.index)
  | multimethod cell => some (.reference .multimethod cell.index)
  | hierarchy cell => some (.reference .hierarchy cell.index)
  | delay cell => some (.reference .delay cell.index)
  | reduced address _ => some (.reference .reduced address)
  | function cell _ => some (.reference .function cell.index)
  | _ => none

/-- What a walk can go on from at once. -/
def isSeq : Value → Bool
  | nil | list .. | cons .. => true
  | _ => false

/-- Is a table with these keys one that lookups can rely on? An array map shows
what its handle denotes. -/
def IsLawful (world : World) (keys : List Datum) : Value → Prop
  | arrayMap handle entries _ => world.maps.entries handle = entries ∧ keys.Nodup
  | hashMap _ entries _ => entries.map Prod.fst = keys.map Datum.hash ∧ keys.Nodup
  | hashSet _ items _ => items.map Prod.fst = keys.map Datum.hash ∧ keys.Nodup
  | sortedMap .. | sortedSet .. => keys.Pairwise (· < ·)
  | _ => True

theorem IsLawful.nodup {world : World} {keys : List Datum} {value : Value}
    (lawful : value.IsLawful world keys) (table : value.isMap || value.isSet) :
    keys.Nodup := by
  cases value <;> simp [isMap, isSet] at table <;> simp only [IsLawful] at lawful
  case arrayMap | hashMap | hashSet => exact lawful.2
  case sortedMap | sortedSet => exact lawful.imp ne_of_lt

/-! Kinds have ranks of their own. -/

theorem typeRank_of_leaf {value : Value} {leaf : Leaf} (known : value.leaf? = some leaf) :
    value.typeRank = leaf.rank := by
  cases value <;> cases known <;> rfl

theorem typeRank_of_isSequential {value : Value} (kind : value.isSequential = true) :
    value.typeRank = 7 := by
  cases value <;> cases kind <;> rfl

theorem typeRank_of_mapEntries {value : Value} {entries : List (Value × Value)}
    (contents : value.mapEntries? = some entries) : value.typeRank = 8 := by
  cases value <;> cases contents <;> rfl

theorem typeRank_of_setItems {value : Value} {items : List Value}
    (contents : value.setItems? = some items) : value.typeRank = 9 := by
  cases value <;> cases contents <;> rfl

theorem typeRank_eq_of_identical {left right : Value}
    (same : left.identical right = true) : left.typeRank = right.typeRank := by
  unfold identical at same
  split at same <;> first | rfl | cases same

theorem identical_self (value : Value) : value.identical value = true := by
  cases value <;> simp [identical]

theorem identical_symm {left right : Value} (same : left.identical right = true) :
    right.identical left = true := by
  unfold identical at same
  split at same <;>
    first | rfl | exact beq_iff_eq.mpr (eq_of_beq same).symm | cases same

theorem table_of_mapEntries (value : Value) {entries : List (Value × Value)}
    (contents : value.mapEntries? = some entries) : value.isMap || value.isSet := by
  cases value <;> cases contents <;> rfl

theorem table_of_setItems (value : Value) {items : List Value}
    (contents : value.setItems? = some items) : value.isMap || value.isSet := by
  cases value <;> cases contents <;> rfl

end Value

/-- The memory knows where the value stands, if it stands anywhere. -/
def Memory.Places (memory : Memory) (value : Value) (datum : Datum) : Prop :=
  ∀ address, value.address? = some address → memory address = some datum

mutual
/-- The value stands for the datum. -/
inductive Reads (memory : Memory) (world : World) : Value → Datum → Prop
  | leaf {value : Value} {leaf : Leaf} (known : value.leaf? = some leaf)
      (placed : memory.Places value (.leaf leaf)) :
      Reads memory world value (.leaf leaf)
  | sequence {value : Value} {items : List Datum} (kind : value.isSequential = true)
      (walk : Walks memory world value items)
      (placed : memory.Places value (.sequence items)) :
      Reads memory world value (.sequence items)
  | map {value : Value} {entries : List (Value × Value)} {keys values : List Datum}
      (contents : value.mapEntries? = some entries)
      (readKeys : ReadsAll memory world (entries.map Prod.fst) keys)
      (readValues : ReadsAll memory world (entries.map Prod.snd) values)
      (lawful : value.IsLawful world keys)
      (placed : memory.Places value
        (.map (Datum.arrange (List.zipWith Datum.entry keys values)))) :
      Reads memory world value (.map (Datum.arrange (List.zipWith Datum.entry keys values)))
  | set {value : Value} {elements : List Value} {items : List Datum}
      (contents : value.setItems? = some elements)
      (readItems : ReadsAll memory world elements items)
      (lawful : value.IsLawful world items)
      (placed : memory.Places value (.set (Datum.arrange items))) :
      Reads memory world value (.set (Datum.arrange items))

inductive ReadsAll (memory : Memory) (world : World) : List Value → List Datum → Prop
  | nil : ReadsAll memory world [] []
  | cons {value : Value} {datum : Datum} {values : List Value} {data : List Datum}
      (first : Reads memory world value datum) (rest : ReadsAll memory world values data) :
      ReadsAll memory world (value :: values) (datum :: data)

/-- A walk over the value meets these elements, in this order, and then its end. -/
inductive Walks (memory : Memory) (world : World) : Value → List Datum → Prop
  | nil : Walks memory world .nil []
  | string {address : Nat} {text : String} :
      Walks memory world (.string address text)
        (text.toList.map fun char => .leaf (.character char))
  | list {address : Nat} {elements : List Value} {metadata : Option Value}
      {items : List Datum} (read : ReadsAll memory world elements items) :
      Walks memory world (.list address elements metadata) items
  | vector {address : Nat} {elements : List Value} {metadata : Option Value}
      {items : List Datum} (read : ReadsAll memory world elements items) :
      Walks memory world (.vector address elements metadata) items
  | cons {address : Nat} {first rest : Value} {datum : Datum} {items : List Datum}
      (read : Reads memory world first datum) (walk : Walks memory world rest items) :
      Walks memory world (.cons address first rest) (datum :: items)
  | map {value : Value} {entries : List (Value × Value)} {keys values : List Datum}
      (contents : value.mapEntries? = some entries)
      (readKeys : ReadsAll memory world (entries.map Prod.fst) keys)
      (readValues : ReadsAll memory world (entries.map Prod.snd) values) :
      Walks memory world value (List.zipWith Datum.entry keys values)
  | set {value : Value} {elements : List Value} {items : List Datum}
      (contents : value.setItems? = some elements)
      (read : ReadsAll memory world elements items) :
      Walks memory world value items
  | lazySeq {cell : Ref .deferred} {seq : Value} {items : List Datum}
      (realized : world.deferred.get? cell.index = some (.realized seq))
      (isSeq : seq.isSeq = true) (walk : Walks memory world seq items) :
      Walks memory world (.lazySeq cell) items
end

/-! ## What reading tells -/

section

variable {memory : Memory} {world : World}

namespace ReadsAll

theorem length_eq {values : List Value} {data : List Datum}
    (read : ReadsAll memory world values data) : values.length = data.length := by
  induction values generalizing data with
  | nil =>
      cases read
      rfl
  | cons value rest induction =>
      cases read with
      | cons _ readRest => exact congrArg Nat.succ (induction readRest)

theorem forall₂ {values : List Value} {data : List Datum}
    (read : ReadsAll memory world values data) :
    List.Forall₂ (Reads memory world) values data := by
  induction values generalizing data with
  | nil =>
      cases read
      exact .nil
  | cons value rest induction =>
      cases read with
      | cons first readRest => exact .cons first (induction readRest)

theorem of_forall₂ {values : List Value} {data : List Datum}
    (read : List.Forall₂ (Reads memory world) values data) :
    ReadsAll memory world values data := by
  induction read with
  | nil => exact .nil
  | cons first _ induction => exact .cons first induction

/-- Entries are read by their keys and their values. -/
theorem entries {entries : List (Value × Value)} {keys values : List Datum}
    (readKeys : ReadsAll memory world (entries.map Prod.fst) keys)
    (readValues : ReadsAll memory world (entries.map Prod.snd) values) :
    List.Forall₂ (fun entry data => Reads memory world entry.1 data.1 ∧
      Reads memory world entry.2 data.2) entries (keys.zip values) := by
  induction entries generalizing keys values with
  | nil =>
      cases readKeys
      exact .nil
  | cons entry rest induction =>
      cases readKeys with
      | cons key readKeys =>
          cases readValues with
          | cons value readValues =>
              exact .cons ⟨key, value⟩ (induction readKeys readValues)

theorem length_keys_eq {entries : List (Value × Value)} {keys values : List Datum}
    (readKeys : ReadsAll memory world (entries.map Prod.fst) keys)
    (readValues : ReadsAll memory world (entries.map Prod.snd) values) :
    keys.length = values.length := by
  rw [← readKeys.length_eq, ← readValues.length_eq, List.length_map, List.length_map]

end ReadsAll

/-- A walk over elements that are at hand reads them all. -/
theorem Walks.indexed {value : Value} {elements : List Value} {items : List Datum}
    (walk : Walks memory world value items) (indexed : value.indexed? = some elements) :
    ReadsAll memory world elements items := by
  cases walk with
  | list read | vector read =>
      cases indexed
      exact read
  | nil | string | cons | lazySeq => cases indexed
  | map contents | set contents =>
      cases value <;> first | (cases contents; done) | cases indexed

namespace Reads

variable {value : Value} {datum : Datum}

theorem placed (read : Reads memory world value datum) : memory.Places value datum := by
  cases read <;> assumption

theorem eq_leaf (read : Reads memory world value datum) {leaf : Leaf}
    (known : value.leaf? = some leaf) : datum = .leaf leaf := by
  cases read with
  | leaf found => rw [Option.some.inj (found.symm.trans known)]
  | sequence kind => cases value <;> simp [Value.isSequential, Value.leaf?] at kind known
  | map contents => cases value <;> simp [Value.mapEntries?, Value.leaf?] at contents known
  | set contents => cases value <;> simp [Value.setItems?, Value.leaf?] at contents known

end Reads

/-- Identical values are one leaf, or stand at one address. -/
theorem Value.leaf_or_address_of_identical {left right : Value}
    (identical : left.identical right = true) :
    (∃ leaf, left.leaf? = some leaf ∧ right.leaf? = some leaf) ∨
      ∃ address, left.address? = some address ∧ right.address? = some address := by
  unfold Value.identical at identical
  split at identical <;>
    simp_all [Value.leaf?, Value.address?]

theorem Reads.eq_of_identical {left right : Value} {leftDatum rightDatum : Datum}
    (readLeft : Reads memory world left leftDatum)
    (readRight : Reads memory world right rightDatum)
    (identical : left.identical right = true) : leftDatum = rightDatum := by
  rcases Value.leaf_or_address_of_identical identical with
    ⟨leaf, leftLeaf, rightLeaf⟩ | ⟨address, leftPlace, rightPlace⟩
  · rw [readLeft.eq_leaf leftLeaf, readRight.eq_leaf rightLeaf]
  · exact Option.some.inj
      ((readLeft.placed address leftPlace).symm.trans (readRight.placed address rightPlace))

end

end LispRuntime
