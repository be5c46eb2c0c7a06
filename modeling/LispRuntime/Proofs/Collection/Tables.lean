import LispRuntime.Collection.Tables
import LispRuntime.Proofs.Value.Equality

/-! Adding to tables and removing from them. Whether a table is hashed or sorted,
what is added takes the place of an element whose key stands for the same datum,
and what is removed is that element. A finite map from data tells what a table
has, whatever the order of its elements. -/

namespace LispRuntime

namespace Table

variable {ε : Type}

/-- Takes the place of an element with this key, or comes last. -/
def put (keyOf : ε → Datum) (new : ε) : List ε → List ε
  | [] => [new]
  | element :: rest =>
      if keyOf element = keyOf new then new :: rest else element :: put keyOf new rest

/-- Takes the place of an element with this key, or comes before the first greater one. -/
def putInOrder (keyOf : ε → Datum) (new : ε) : List ε → List ε
  | [] => [new]
  | element :: rest =>
      match (keyOf element).compare (keyOf new) with
      | .eq => new :: rest
      | .gt => new :: element :: rest
      | .lt => element :: putInOrder keyOf new rest

def drop (keyOf : ε → Datum) (key : Datum) (elements : List ε) : List ε :=
  elements.eraseP fun element => decide (keyOf element = key)

variable {keyOf : ε → Datum} {new : ε} {elements : List ε} {key : Datum}

theorem map_put {β : Type} (keyOf : β → Datum) (change : ε → β) (new : ε) (elements : List ε) :
    (put (fun element => keyOf (change element)) new elements).map change =
      put keyOf (change new) (elements.map change) := by
  induction elements with
  | nil => rfl
  | cons element rest induction =>
      rw [put, List.map_cons, put]
      split
      · rfl
      · rw [List.map_cons, induction]

theorem map_drop {β : Type} (keyOf : β → Datum) (change : ε → β) (key : Datum)
    (elements : List ε) :
    (drop (fun element => keyOf (change element)) key elements).map change =
      drop keyOf key (elements.map change) := by
  rw [drop, drop, List.eraseP_map]
  rfl

theorem mem_put {element : ε} (member : element ∈ put keyOf new elements) :
    element = new ∨ element ∈ elements := by
  induction elements with
  | nil => exact .inl (List.mem_singleton.mp member)
  | cons first rest induction =>
      rw [put] at member
      split at member
      · rcases List.mem_cons.mp member with same | member
        · exact .inl same
        · exact .inr (List.mem_cons_of_mem _ member)
      · rcases List.mem_cons.mp member with same | member
        · exact .inr (same ▸ List.mem_cons_self ..)
        · exact (induction member).imp_right (List.mem_cons_of_mem _)

theorem mem_of_mem_drop {element : ε} (member : element ∈ drop keyOf key elements) :
    element ∈ elements :=
  List.mem_of_mem_eraseP member

/-- Keys stay where they are, and a new one comes last. -/
theorem keys_put (keyOf : ε → Datum) (new : ε) (elements : List ε) :
    (put keyOf new elements).map keyOf =
      if keyOf new ∈ elements.map keyOf then elements.map keyOf
      else elements.map keyOf ++ [keyOf new] := by
  induction elements with
  | nil => rfl
  | cons element rest induction =>
      rw [put, List.map_cons]
      by_cases same : keyOf element = keyOf new
      · simp [same]
      · rw [if_neg same, List.map_cons, induction]
        by_cases member : keyOf new ∈ rest.map keyOf
        · rw [if_pos member, if_pos (List.mem_cons_of_mem _ member)]
        · rw [if_neg member, if_neg (by simp [Ne.symm same, member]), List.cons_append]

theorem nodup_put (distinct : (elements.map keyOf).Nodup) :
    ((put keyOf new elements).map keyOf).Nodup := by
  rw [keys_put]
  split
  case isTrue => exact distinct
  case isFalse absent =>
    refine List.nodup_append.mpr ⟨distinct, List.nodup_singleton _, ?_⟩
    intro other member added single
    rw [List.mem_singleton.mp single]
    rintro rfl
    exact absent member

theorem put_of_not_mem (absent : keyOf new ∉ elements.map keyOf) :
    put keyOf new elements = elements ++ [new] := by
  induction elements with
  | nil => rfl
  | cons element rest induction =>
      rcases not_or.mp (absent ∘ List.mem_cons.mpr) with ⟨different, absentRest⟩
      rw [put, if_neg (Ne.symm different), induction absentRest, List.cons_append]

theorem drop_of_not_mem (absent : key ∉ elements.map keyOf) :
    drop keyOf key elements = elements := by
  apply List.eraseP_of_forall_not
  intro element member same
  exact absent (List.mem_map.mpr ⟨element, member, of_decide_eq_true same⟩)

/-! ## In order -/

theorem putInOrder_perm (sorted : (elements.map keyOf).Pairwise (· < ·)) :
    (putInOrder keyOf new elements).Perm (put keyOf new elements) := by
  induction elements with
  | nil => exact .refl _
  | cons element rest induction =>
      rcases List.pairwise_cons.mp sorted with ⟨first, sortedRest⟩
      rw [putInOrder, put]
      cases order : (keyOf element).compare (keyOf new) with
      | eq =>
          rw [if_pos (Datum.eq_of_compare _ _ order)]
      | lt =>
          rw [if_neg (Datum.lt_iff_compare.mpr order).ne]
          exact (induction sortedRest).cons _
      | gt =>
          have less : keyOf new < keyOf element := by
            rw [Datum.lt_iff_compare, Datum.compare_swap, order]
            rfl
          have absent : keyOf new ∉ (element :: rest).map keyOf := by
            intro member
            rcases List.mem_cons.mp member with same | member
            · exact less.ne same
            · exact (less.trans (first _ member)).ne rfl
          change (new :: element :: rest).Perm (put keyOf new (element :: rest))
          rw [put_of_not_mem absent]
          exact (List.perm_append_singleton new _).symm

theorem putInOrder_sorted (sorted : (elements.map keyOf).Pairwise (· < ·)) :
    ((putInOrder keyOf new elements).map keyOf).Pairwise (· < ·) := by
  induction elements with
  | nil => exact List.pairwise_singleton _ _
  | cons element rest induction =>
      rcases List.pairwise_cons.mp sorted with ⟨first, sortedRest⟩
      rw [putInOrder]
      cases order : (keyOf element).compare (keyOf new) with
      | eq =>
          rw [List.map_cons, ← Datum.eq_of_compare _ _ order]
          exact sorted
      | lt =>
          refine List.pairwise_cons.mpr ⟨?_, induction sortedRest⟩
          intro other member
          have inPut := ((putInOrder_perm sortedRest).map keyOf).mem_iff.mp member
          rw [keys_put] at inPut
          split at inPut
          case isTrue => exact first _ inPut
          case isFalse =>
            rcases List.mem_append.mp inPut with inRest | single
            · exact first _ inRest
            · rw [List.mem_singleton.mp single]
              exact Datum.lt_iff_compare.mpr order
      | gt =>
          have less : keyOf new < keyOf element := by
            rw [Datum.lt_iff_compare, Datum.compare_swap, order]
            rfl
          refine List.pairwise_cons.mpr ⟨?_, sorted⟩
          intro other member
          rcases List.mem_cons.mp member with rfl | member
          · exact less
          · exact less.trans (first _ member)

theorem drop_sorted (sorted : (elements.map keyOf).Pairwise (· < ·)) (key : Datum) :
    ((drop keyOf key elements).map keyOf).Pairwise (· < ·) :=
  List.Pairwise.sublist (List.Sublist.map keyOf List.eraseP_sublist) sorted

/-! ## What can be looked up -/

private theorem lookup_cons (pair : Datum × ε) (rest : Keyed ε) (key : Datum) :
    List.lookup key (pair :: rest) = if key = pair.1 then some pair.2 else rest.lookup key := by
  rw [List.lookup_cons]
  by_cases same : key = pair.1
  · simp [same]
  · rw [beq_eq_false_iff_ne.mpr same, if_neg same]

theorem lookup_put (key : Datum) (element : ε) (table : Keyed ε) (other : Datum) :
    (put Prod.fst (key, element) table).lookup other =
      if other = key then some element else table.lookup other := by
  induction table with
  | nil => exact lookup_cons (key, element) [] other
  | cons pair rest induction =>
      rw [put, lookup_cons]
      by_cases same : pair.1 = key
      · rw [if_pos same, lookup_cons, same]
        by_cases found : other = key <;> simp [found]
      · rw [if_neg same, lookup_cons, induction]
        by_cases found : other = pair.1
        · rw [if_pos found, if_neg (found ▸ same), if_pos found]
        · rw [if_neg found, if_neg found]

theorem lookup_drop {table : Keyed ε} (distinct : table.keys.Nodup) (key other : Datum) :
    (drop Prod.fst key table).lookup other =
      if other = key then none else table.lookup other := by
  induction table with
  | nil => simp [drop]
  | cons pair rest induction =>
      rcases List.nodup_cons.mp distinct with ⟨notAgain, distinctRest⟩
      rw [lookup_cons]
      by_cases same : pair.1 = key
      · have gone : drop Prod.fst key (pair :: rest) = rest := by simp [drop, same]
        rw [gone, same]
        split
        case isTrue found =>
          rw [found, ← same]
          refine List.lookup_eq_none_iff.mpr fun entry member => bne_iff_ne.mpr ?_
          intro again
          exact notAgain (again ▸ List.mem_map_of_mem member)
        case isFalse => rfl
      · have stays : drop Prod.fst key (pair :: rest) = pair :: drop Prod.fst key rest := by
          simp [drop, same]
        rw [stays, lookup_cons, induction distinctRest]
        by_cases found : other = pair.1
        · rw [if_pos found, if_neg (found ▸ same), if_pos found]
        · rw [if_neg found, if_neg found]

end Table

/-! ## Finite maps and sets of data -/

/-- A value for each of finitely many data. -/
abbrev DatumMap := Std.ExtTreeMap Datum Value Datum.compare

abbrev DatumSet := Std.ExtTreeSet Datum Datum.compare

namespace DatumMap

/-- The table has exactly the entries of the map, in any order. -/
def IsTable (map : DatumMap) (table : Keyed Value) : Prop := table.Perm map.toList

variable {map : DatumMap} {table : Keyed Value}

theorem keys_toList_nodup (map : DatumMap) : (Keyed.keys map.toList).Nodup := by
  refine List.pairwise_map.mpr (Std.ExtTreeMap.distinct_keys_toList.imp ?_)
  intro left right different same
  exact different (Std.LawfulEqCmp.compare_eq_iff_eq.mpr same)

/-- A table is known by what can be looked up in it. -/
theorem isTable_iff :
    map.IsTable table ↔ table.keys.Nodup ∧ ∀ key, table.lookup key = map[key]? := by
  constructor
  · intro isTable
    have distinct : table.keys.Nodup :=
      (List.Perm.map Prod.fst isTable).nodup_iff.mpr map.keys_toList_nodup
    refine ⟨distinct, fun key => Option.ext fun value => ?_⟩
    rw [Keyed.lookup_eq_some_iff distinct, isTable.mem_iff]
    exact Std.ExtTreeMap.mem_toList_iff_getElem?_eq_some
  · rintro ⟨distinct, lookups⟩
    refine (List.perm_ext_iff_of_nodup (List.Nodup.of_map _ distinct)
      (List.Nodup.of_map _ map.keys_toList_nodup)).mpr ?_
    rintro ⟨key, value⟩
    rw [← Keyed.lookup_eq_some_iff distinct, lookups]
    exact Std.ExtTreeMap.mem_toList_iff_getElem?_eq_some.symm

namespace IsTable

theorem nodup (isTable : map.IsTable table) : table.keys.Nodup := (isTable_iff.mp isTable).1

theorem lookup_eq (isTable : map.IsTable table) (key : Datum) : table.lookup key = map[key]? :=
  (isTable_iff.mp isTable).2 key

theorem length_eq (isTable : map.IsTable table) : table.length = map.size :=
  (List.Perm.length_eq isTable).trans Std.ExtTreeMap.length_toList

theorem mem_keys_iff (isTable : map.IsTable table) (key : Datum) :
    key ∈ table.keys ↔ key ∈ map := by
  rw [Std.ExtTreeMap.mem_iff_isSome_getElem?, ← isTable.lookup_eq, List.lookup_isSome_iff,
    Keyed.keys, List.mem_map]
  simp only [beq_iff_eq, @eq_comm Datum]

theorem empty : IsTable ∅ [] := by
  refine isTable_iff.mpr ⟨List.nodup_nil, fun key => ?_⟩
  rw [Std.ExtTreeMap.getElem?_empty]
  rfl

theorem put (isTable : map.IsTable table) (key : Datum) (value : Value) :
    IsTable (map.insert key value) (Table.put Prod.fst (key, value) table) := by
  refine isTable_iff.mpr ⟨Table.nodup_put isTable.nodup, fun other => ?_⟩
  rw [Table.lookup_put, Std.ExtTreeMap.getElem?_insert, isTable.lookup_eq]
  simp only [Std.LawfulEqCmp.compare_eq_iff_eq, @eq_comm Datum]

theorem drop (isTable : map.IsTable table) (key : Datum) :
    IsTable (map.erase key) (Table.drop Prod.fst key table) := by
  have distinct : (Keyed.keys (Table.drop Prod.fst key table)).Nodup :=
    List.Nodup.sublist (List.Sublist.map _ List.eraseP_sublist) isTable.nodup
  refine isTable_iff.mpr ⟨distinct, fun other => ?_⟩
  rw [Table.lookup_drop isTable.nodup, Std.ExtTreeMap.getElem?_erase, isTable.lookup_eq]
  simp only [Std.LawfulEqCmp.compare_eq_iff_eq, @eq_comm Datum]

end IsTable

end DatumMap

namespace DatumSet

/-- The elements are those of the set, each once, in any order. -/
def IsListed (set : DatumSet) (items : List Datum) : Prop := items.Perm set.toList

variable {set : DatumSet} {items : List Datum}

theorem isListed_iff : set.IsListed items ↔ items.Nodup ∧ ∀ item, item ∈ items ↔ item ∈ set := by
  have distinct : set.toList.Nodup := by
    apply Std.ExtTreeSet.distinct_toList.imp
    intro left right different same
    exact different (Std.LawfulEqCmp.compare_eq_iff_eq.mpr same)
  constructor
  · intro isListed
    refine ⟨isListed.nodup_iff.mpr distinct, fun item => ?_⟩
    rw [isListed.mem_iff, Std.ExtTreeSet.mem_toList]
  · rintro ⟨itemsDistinct, members⟩
    refine (List.perm_ext_iff_of_nodup itemsDistinct distinct).mpr fun item => ?_
    rw [members, Std.ExtTreeSet.mem_toList]

namespace IsListed

theorem nodup (isListed : set.IsListed items) : items.Nodup := (isListed_iff.mp isListed).1

theorem mem_iff (isListed : set.IsListed items) (item : Datum) : item ∈ items ↔ item ∈ set :=
  (isListed_iff.mp isListed).2 item

theorem length_eq (isListed : set.IsListed items) : items.length = set.size :=
  (List.Perm.length_eq isListed).trans Std.ExtTreeSet.length_toList

theorem empty : IsListed ∅ [] :=
  isListed_iff.mpr ⟨List.nodup_nil, fun _ => by simp⟩

theorem put (isListed : set.IsListed items) (item : Datum) :
    IsListed (set.insert item) (Table.put id item items) := by
  have keys := Table.keys_put id item items
  rw [List.map_id, List.map_id, id] at keys
  have members : ∀ other, other ∈ Table.put id item items ↔ other = item ∨ other ∈ items := by
    intro other
    rw [keys]
    split
    case isTrue member =>
      refine ⟨.inr, ?_⟩
      rintro (rfl | inside)
      · exact member
      · exact inside
    case isFalse => rw [List.mem_append, List.mem_singleton, or_comm]
  have distinct : (items.map id).Nodup := by
    rw [List.map_id]
    exact isListed.nodup
  refine isListed_iff.mpr ⟨?_, fun other => ?_⟩
  · rw [← List.map_id (Table.put id item items)]
    exact Table.nodup_put distinct
  · rw [members, isListed.mem_iff, Std.ExtTreeSet.mem_insert, Std.LawfulEqCmp.compare_eq_iff_eq,
      eq_comm]

theorem drop (isListed : set.IsListed items) (item : Datum) :
    IsListed (set.erase item) (Table.drop id item items) := by
  have erased : Table.drop id item items = items.erase item := by
    rw [Table.drop, List.erase_eq_eraseP]
    congr
    funext other
    rw [Bool.eq_iff_iff, decide_eq_true_iff, beq_iff_eq, id, eq_comm]
  refine isListed_iff.mpr ⟨erased ▸ isListed.nodup.erase item, fun other => ?_⟩
  rw [erased, isListed.nodup.mem_erase_iff, isListed.mem_iff, Std.ExtTreeSet.mem_erase, ne_eq,
    ne_eq, Std.LawfulEqCmp.compare_eq_iff_eq, @eq_comm Datum]

end IsListed

end DatumSet

/-! ## Running them -/

section

variable {machine : Machine} {moment : Moment} {bound : Nat}

namespace HashTable

variable {ε : Type} {keyOf : ε → UInt32 × Value} {dataOf : ε → Datum}
  {equal : Value → Value → Run Bool}

/-- The key of the element can be read, and the element has its hash. -/
def Hashed (moment : Moment) (bound : Nat) (keyOf : ε → UInt32 × Value) (dataOf : ε → Datum)
    (element : ε) : Prop :=
  moment.ReadsWithin bound (keyOf element).2 (dataOf element) ∧
    (keyOf element).1 = (dataOf element).hash

theorem Hashed.later {after : Moment} (le : moment ≤ after) {element : ε}
    (hashed : Hashed moment bound keyOf dataOf element) : Hashed after bound keyOf dataOf element :=
  ⟨Moment.readsWithin_later le hashed.1, hashed.2⟩

theorem insert_gives (equates : Equates machine moment bound equal) {new : ε}
    (hashedNew : Hashed moment bound keyOf dataOf new) {elements : List ε}
    (hashed : ∀ element ∈ elements, Hashed moment bound keyOf dataOf element) :
    Gives machine moment (HashTable.insert keyOf equal new elements) fun found _ =>
      found = Table.put dataOf new elements := by
  induction elements generalizing moment with
  | nil => exact Gives.pure rfl
  | cons element rest induction =>
      have goesOn : ∀ between, moment ≤ between → dataOf element ≠ dataOf new →
          Gives machine between
            (do return element :: (← HashTable.insert keyOf equal new rest))
            fun found _ => found = Table.put dataOf new (element :: rest) := by
        intro between le different
        refine (induction (equates.from_later le) (hashedNew.later le) fun other member =>
          (hashed other (List.mem_cons_of_mem _ member)).later le).bind ?_
        rintro _ _ _ rfl
        rw [Table.put, if_neg different]
        exact Gives.pure rfl
      have readElement := hashed element (List.mem_cons_self ..)
      simp only [HashTable.insert]
      split
      case isTrue =>
        apply (equates moment (le_refl _) readElement.1 hashedNew.1).bind
        rintro _ between le rfl
        by_cases same : dataOf element = dataOf new
        · simp only [same, decide_true, if_true]
          rw [Table.put, if_pos same]
          exact Gives.pure rfl
        · simp only [same, decide_false]
          exact goesOn between le same
      case isFalse otherHash =>
        refine goesOn moment (le_refl _) fun same => ?_
        rw [readElement.2, hashedNew.2, same] at otherHash
        exact otherHash (beq_self_eq_true _)

theorem erase_gives (equates : Equates machine moment bound equal) {sought : Value}
    {key : Datum} (readSought : moment.ReadsWithin bound sought key) {elements : List ε}
    (hashed : ∀ element ∈ elements, Hashed moment bound keyOf dataOf element) :
    Gives machine moment (HashTable.erase keyOf equal key.hash sought elements) fun found _ =>
      found = Table.drop dataOf key elements := by
  induction elements generalizing moment with
  | nil => exact Gives.pure rfl
  | cons element rest induction =>
      have goesOn : ∀ between, moment ≤ between → dataOf element ≠ key →
          Gives machine between
            (do return element :: (← HashTable.erase keyOf equal key.hash sought rest))
            fun found _ => found = Table.drop dataOf key (element :: rest) := by
        intro between le different
        refine (induction (equates.from_later le) (Moment.readsWithin_later le readSought)
          fun other member => (hashed other (List.mem_cons_of_mem _ member)).later le).bind ?_
        rintro _ _ _ rfl
        exact Gives.pure (by simp [Table.drop, different])
      have readElement := hashed element (List.mem_cons_self ..)
      simp only [HashTable.erase]
      split
      case isTrue =>
        apply (equates moment (le_refl _) readSought readElement.1).bind
        rintro _ between le rfl
        by_cases same : key = dataOf element
        · simp only [same, decide_true, if_true]
          exact Gives.pure (by simp [Table.drop])
        · simp only [same, decide_false]
          exact goesOn between le (Ne.symm same)
      case isFalse otherHash =>
        refine goesOn moment (le_refl _) fun same => ?_
        rw [readElement.2, same] at otherHash
        exact otherHash (beq_self_eq_true _)

end HashTable

namespace SortedTable

variable {ε : Type} {keyOf : ε → Value} {dataOf : ε → Datum}
  {compare : Value → Value → Run Ordering}

theorem insert_gives (orders : Orders machine moment (Moment.ReadsWithin bound) compare)
    {new : ε} (readNew : moment.ReadsWithin bound (keyOf new) (dataOf new)) {elements : List ε}
    (read : ∀ element ∈ elements, moment.ReadsWithin bound (keyOf element) (dataOf element)) :
    Gives machine moment (SortedTable.insert keyOf compare new elements) fun found _ =>
      found = Table.putInOrder dataOf new elements := by
  induction elements generalizing moment with
  | nil => exact Gives.pure rfl
  | cons element rest induction =>
      refine (orders.gives moment (le_refl _) (read element (List.mem_cons_self ..))
        readNew).bind ?_
      rintro _ between le rfl
      rw [Table.putInOrder]
      cases (dataOf element).compare (dataOf new) with
      | eq | gt => exact Gives.pure rfl
      | lt =>
          refine (induction (orders.from_later le) (Moment.readsWithin_later le readNew)
            fun other member => Moment.readsWithin_later le
              (read other (List.mem_cons_of_mem _ member))).bind ?_
          rintro _ _ _ rfl
          exact Gives.pure rfl

theorem erase_gives (orders : Orders machine moment (Moment.ReadsWithin bound) compare)
    {sought : Value} {key : Datum} (readSought : moment.ReadsWithin bound sought key)
    {elements : List ε}
    (read : ∀ element ∈ elements, moment.ReadsWithin bound (keyOf element) (dataOf element))
    (sorted : (elements.map dataOf).Pairwise (· < ·)) :
    Gives machine moment (SortedTable.erase keyOf compare sought elements) fun found _ =>
      found = Table.drop dataOf key elements := by
  induction elements generalizing moment with
  | nil => exact Gives.pure rfl
  | cons element rest induction =>
      rcases List.pairwise_cons.mp sorted with ⟨first, sortedRest⟩
      refine (orders.gives moment (le_refl _) (read element (List.mem_cons_self ..))
        readSought).bind ?_
      rintro _ between le rfl
      cases order : (dataOf element).compare key with
      | eq => exact Gives.pure (by simp [Table.drop, Datum.eq_of_compare _ _ order])
      | gt =>
          -- Whatever comes later is greater still.
          have less : key < dataOf element := by
            rw [Datum.lt_iff_compare, Datum.compare_swap, order]
            rfl
          refine Gives.pure (Table.drop_of_not_mem fun member => ?_).symm
          rcases List.mem_cons.mp member with same | member
          · exact less.ne same
          · exact (less.trans (first _ member)).ne rfl
      | lt =>
          have different : dataOf element ≠ key := (Datum.lt_iff_compare.mpr order).ne
          refine (induction (orders.from_later le) (Moment.readsWithin_later le readSought)
            (fun other member => Moment.readsWithin_later le
              (read other (List.mem_cons_of_mem _ member))) sortedRest).bind ?_
          rintro _ _ _ rfl
          exact Gives.pure (by simp [Table.drop, different])

end SortedTable

end

end LispRuntime
