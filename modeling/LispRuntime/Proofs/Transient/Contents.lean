import LispRuntime.Collection.Update
import LispRuntime.Proofs.Collection.Reader

/-! What a map, a set or a vector has, whoever holds it and wherever it stands: the
elements in the order in which they are kept. The same contents may stand in a
collection that is being built and in one that never changes, and a change comes to the
same contents in both. -/

namespace LispRuntime

open ArrayMap (Pairs)

/-- A change of a collection, in place or by making another one. -/
inductive Change where
  | assoc (key value : Value)
  | dissoc (key : Value)
  | conj (item : Value)
  | disj (item : Value)
  | pop

inductive Contents where
  | arrayMap (pairs : Pairs)
  | hashMap (entries : List Value.HashedEntry)
  | sortedMap (entries : List (Value × Value))
  | vector (items : List Value)
  | hashSet (items : List Value.HashedItem)
  | sortedSet (items : List Value)

/-- The contents of a collection that can be changed in place. -/
def Value.contents? : Value → Option Contents
  | arrayMap _ pairs _ => some (.arrayMap pairs)
  | hashMap _ entries _ => some (.hashMap entries)
  | sortedMap _ entries _ => some (.sortedMap entries)
  | vector _ items _ => some (.vector items)
  | hashSet _ items _ => some (.hashSet items)
  | sortedSet _ items _ => some (.sortedSet items)
  | _ => none

/-- What a map takes in at once: an entry as a vector of two, or all entries of another
map. -/
def Value.addedEntries? (item : Value) : Option (List (Value × Value)) :=
  match item with
  | vector _ [key, value] _ => some [(key, value)]
  | _ => item.mapEntries?

theorem Value.addedEntries?_eq_mapEntries? {item : Value}
    (other : ∀ address key value metadata, item ≠ vector address [key, value] metadata) :
    item.addedEntries? = item.mapEntries? := by
  unfold addedEntries?
  split
  · exact absurd rfl (other _ _ _ _)
  · rfl

/-- Maps change into maps, sets into sets and vectors into vectors. -/
inductive Shape where
  | map
  | set
  | vector
deriving DecidableEq, Repr

namespace Contents

def shape : Contents → Shape
  | arrayMap _ | hashMap _ | sortedMap _ => .map
  | hashSet _ | sortedSet _ => .set
  | vector _ => .vector

/-! ## Changing contents

Keys are known by what they stand for. A change that cannot be made comes to nothing. -/

section

variable (datumOf : Value → Datum)

def isSameKey (sought stored : Value) : Bool := datumOf stored == datumOf sought

def putHashed (entries : List Value.HashedEntry) (key value : Value) :
    List Value.HashedEntry :=
  Table.put (fun entry => datumOf entry.2.1) ((datumOf key).hash, key, value) entries

/-- A hash map of the pairs, in the order in which they are there. -/
def promoted (pairs : Pairs) : List Value.HashedEntry :=
  pairs.foldl (fun entries pair => putHashed datumOf entries pair.1 pair.2) []

/-- What does not fit into an array map makes a hash map of it. -/
def assocPairs (pairs : Pairs) (key value : Value) : Contents :=
  match pairs.put (isSameKey datumOf) key value with
  | .ok changed => arrayMap changed
  | .error _ => hashMap (putHashed datumOf (promoted datumOf pairs) key value)

theorem assocPairs_of_ok {datumOf : Value → Datum} {pairs changed : Pairs} {key value : Value}
    (put : pairs.put (isSameKey datumOf) key value = .ok changed) :
    assocPairs datumOf pairs key value = arrayMap changed := by
  rw [assocPairs, put]

theorem assocPairs_of_error {datumOf : Value → Datum} {pairs : Pairs} {key value : Value}
    {error : Error} (refused : pairs.put (isSameKey datumOf) key value = .error error) :
    assocPairs datumOf pairs key value =
      hashMap (putHashed datumOf (promoted datumOf pairs) key value) := by
  rw [assocPairs, refused]

/-- The place that an index stands for; one past the end is for a new element. -/
def placeOf? (key : Value) (length : Nat) : Option Nat :=
  match key with
  | .integer index =>
      if 0 ≤ index ∧ index.toInt.toNat ≤ length then some index.toInt.toNat else none
  | _ => none

def assoc (contents : Contents) (key value : Value) : Option Contents :=
  match contents with
  | arrayMap pairs => some (assocPairs datumOf pairs key value)
  | hashMap entries => some (hashMap (putHashed datumOf entries key value))
  | sortedMap entries =>
      some (sortedMap (Table.putInOrder (fun entry => datumOf entry.1) (key, value) entries))
  | vector items =>
      (placeOf? key items.length).map fun place => vector (Value.setOrPush items place value)
  | hashSet _ | sortedSet _ => none

def dissoc (contents : Contents) (key : Value) : Option Contents :=
  match contents with
  | arrayMap pairs => some (arrayMap (pairs.remove (isSameKey datumOf) key))
  | hashMap entries =>
      some (hashMap (Table.drop (fun entry => datumOf entry.2.1) (datumOf key) entries))
  | sortedMap entries =>
      some (sortedMap (Table.drop (fun entry => datumOf entry.1) (datumOf key) entries))
  | _ => none

/-- Each entry is added, in this order. -/
def assocAll (contents : Contents) (entries : List (Value × Value)) : Option Contents :=
  entries.foldlM (fun contents entry => contents.assoc datumOf entry.1 entry.2) contents

def conj (contents : Contents) (item : Value) : Option Contents :=
  match contents with
  | vector items => some (vector (items ++ [item]))
  | hashSet items =>
      some (hashSet (Table.put (fun item => datumOf item.2) ((datumOf item).hash, item) items))
  | sortedSet items => some (sortedSet (Table.putInOrder datumOf item items))
  | map => do map.assocAll datumOf (← item.addedEntries?)

def disj (contents : Contents) (item : Value) : Option Contents :=
  match contents with
  | hashSet items =>
      some (hashSet (Table.drop (fun item => datumOf item.2) (datumOf item) items))
  | sortedSet items => some (sortedSet (Table.drop datumOf (datumOf item) items))
  | _ => none

def pop (contents : Contents) : Option Contents :=
  match contents with
  | vector items => if items.isEmpty then none else some (vector items.dropLast)
  | _ => none

def change (contents : Contents) : Change → Option Contents
  | .assoc key value => contents.assoc datumOf key value
  | .dissoc key => contents.dissoc datumOf key
  | .conj item => contents.conj datumOf item
  | .disj item => contents.disj datumOf item
  | .pop => contents.pop

variable {datumOf} {contents changed : Contents}

/-! ### Shapes stay -/

theorem shape_assocPairs (pairs : Pairs) (key value : Value) :
    (assocPairs datumOf pairs key value).shape = .map := by
  unfold assocPairs
  split <;> rfl

theorem shape_assoc {key value : Value}
    (made : contents.assoc datumOf key value = some changed) :
    changed.shape = contents.shape := by
  cases contents with
  | arrayMap pairs =>
      cases made
      exact shape_assocPairs pairs key value
  | hashMap | sortedMap =>
      cases made
      rfl
  | vector items =>
      rcases Option.map_eq_some_iff.mp made with ⟨place, _, rfl⟩
      rfl
  | hashSet | sortedSet => cases made

theorem assocAll_cons (contents : Contents) (entry : Value × Value)
    (rest : List (Value × Value)) :
    contents.assocAll datumOf (entry :: rest) =
      (contents.assoc datumOf entry.1 entry.2).bind fun changed =>
        changed.assocAll datumOf rest :=
  List.foldlM_cons

theorem shape_assocAll {entries : List (Value × Value)}
    (made : contents.assocAll datumOf entries = some changed) :
    changed.shape = contents.shape := by
  induction entries generalizing contents with
  | nil =>
      cases made
      rfl
  | cons entry rest induction =>
      rw [assocAll_cons] at made
      rcases Option.bind_eq_some_iff.mp made with ⟨middle, first, others⟩
      exact (induction others).trans (shape_assoc first)

theorem shape_change {change : Change} (made : contents.change datumOf change = some changed) :
    changed.shape = contents.shape := by
  cases change with
  | assoc key value => exact shape_assoc made
  | conj item =>
      cases contents with
      | arrayMap | hashMap | sortedMap =>
          rcases Option.bind_eq_some_iff.mp made with ⟨entries, _, all⟩
          exact shape_assocAll all
      | vector | hashSet | sortedSet =>
          cases made
          rfl
  | dissoc key =>
      cases contents <;> cases made <;> rfl
  | disj item =>
      cases contents <;> cases made <;> rfl
  | pop =>
      cases contents with
      | vector items =>
          rw [change, pop] at made
          split at made <;> cases made
          rfl
      | arrayMap | hashMap | sortedMap | hashSet | sortedSet => cases made

/-- What is added to a map is never refused. -/
theorem exists_assoc (isMap : contents.shape = .map) (key value : Value) :
    ∃ changed, contents.assoc datumOf key value = some changed := by
  cases contents with
  | arrayMap | hashMap | sortedMap => exact ⟨_, rfl⟩
  | vector | hashSet | sortedSet => cases isMap

theorem exists_assocAll (isMap : contents.shape = .map) (entries : List (Value × Value)) :
    ∃ changed, contents.assocAll datumOf entries = some changed := by
  induction entries generalizing contents with
  | nil => exact ⟨contents, rfl⟩
  | cons entry rest induction =>
      rcases exists_assoc isMap entry.1 entry.2 with ⟨middle, made⟩
      rw [assocAll_cons, made]
      exact induction ((shape_assoc made).trans isMap)

end

end Contents

/-! ## What is looked for -/

/-- The keys and elements that the change looks for in a collection of this shape. -/
def Change.sought (change : Change) (shape : Shape) : List Value :=
  match shape, change with
  | .map, assoc key _ | .map, dissoc key => [key]
  | .map, conj item => (item.addedEntries?.getD []).map Prod.fst
  | .set, conj item | .set, disj item => [item]
  | _, _ => []

end LispRuntime
