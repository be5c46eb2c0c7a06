import LispRuntime.Proofs.Value.Comparison
import LispRuntime.Proofs.Value.Hashing
import LispRuntime.Value.Lookup
import Mathlib.Data.List.Perm.Subperm

/-! Scanning, hashing and descending in order find the same thing: the element
whose key stands for the datum that is sought. A table is told by its elements,
each with the datum of its key. -/

namespace LispRuntime

/-- Elements with the data of their keys. -/
abbrev Keyed (ε : Type) := List (Datum × ε)

namespace Keyed

variable {ε : Type}

def keys (table : Keyed ε) : List Datum := table.map Prod.fst

def elements (table : Keyed ε) : List ε := table.map Prod.snd

/-- Elements and the data of their keys side by side. -/
def ofKeys (keys : List Datum) (elements : List ε) : Keyed ε := keys.zip elements

theorem keys_ofKeys {keys : List Datum} {elements : List ε}
    (lengths : keys.length = elements.length) : (ofKeys keys elements).keys = keys :=
  List.map_fst_zip lengths.le

theorem elements_ofKeys {keys : List Datum} {elements : List ε}
    (lengths : keys.length = elements.length) :
    (ofKeys keys elements).elements = elements :=
  List.map_snd_zip lengths.ge

/-- The element of a key is the one at its place. -/
theorem lookup_eq (table : Keyed ε) (datum : Datum) :
    table.lookup datum = (table.keys.idxOf? datum).bind fun place => table.elements[place]? := by
  induction table with
  | nil => rfl
  | cons pair rest induction =>
      rcases pair with ⟨key, element⟩
      change _ = (List.idxOf? datum (key :: Keyed.keys rest)).bind
        fun place => (element :: Keyed.elements rest)[place]?
      by_cases same : key = datum
      · simp [List.idxOf?_cons, same]
      · rw [List.lookup_cons, beq_eq_false_iff_ne.mpr (Ne.symm same), List.idxOf?_cons,
          beq_eq_false_iff_ne.mpr same]
        change List.lookup datum rest = _
        rw [induction]
        cases List.idxOf? datum (Keyed.keys rest) <;> rfl

theorem isSome_lookup {keys : List Datum} {elements : List ε}
    (lengths : keys.length = elements.length) (datum : Datum) :
    ((ofKeys keys elements).lookup datum).isSome = decide (datum ∈ keys) := by
  have member : datum ∈ (ofKeys keys elements).keys ↔
      ∃ pair ∈ ofKeys keys elements, pair.1 = datum := List.mem_map
  rw [keys_ofKeys lengths] at member
  rw [Bool.eq_iff_iff, List.lookup_isSome_iff, decide_eq_true_iff, member]
  simp only [beq_iff_eq, @eq_comm Datum]

theorem lookup_map {β : Type} (change : ε → β) (keys : List Datum) (elements : List ε)
    (datum : Datum) :
    (ofKeys keys (elements.map change)).lookup datum =
      ((ofKeys keys elements).lookup datum).map change := by
  induction keys generalizing elements with
  | nil => rfl
  | cons key keys induction =>
      cases elements with
      | nil => rfl
      | cons element elements =>
          change List.lookup datum ((key, change element) :: ofKeys keys (elements.map change)) =
            (List.lookup datum ((key, element) :: ofKeys keys elements)).map change
          rw [List.lookup_cons, List.lookup_cons, induction]
          cases datum == key <;> rfl

theorem hash_of_mem_ofKeys {ε : Type} {hashOf : ε → UInt32} {elements : List ε}
    {keys : List Datum} (hashes : elements.map hashOf = keys.map Datum.hash) :
    ∀ pair ∈ ofKeys keys elements, hashOf pair.2 = pair.1.hash := by
  have each : List.Forall₂ (fun key element => hashOf element = key.hash) keys elements := by
    have same := List.forall₂_eq_eq_eq.symm ▸ hashes
    exact (List.forall₂_map_left_iff.mp (List.forall₂_map_right_iff.mp same)).flip
  rintro ⟨key, element⟩ member
  exact (List.forall₂_iff_zip.mp each).2 member

end Keyed

namespace Outlook

open Value (compareWithin hashWithin isSoughtKey lookupWith memberWith)

variable {machine : Machine} {σ : Type} [Preorder σ] {outlook : Outlook machine σ} {point : σ}
  {bound : Nat}

/-- The test tells whether values stand for one datum. -/
def Equates (outlook : Outlook machine σ) (point : σ) (bound : Nat)
    (equal : Value → Value → Run Bool) : Prop :=
  ∀ between, point ≤ between → ∀ {left right leftDatum rightDatum},
    outlook.ReadsWithin bound between left leftDatum →
    outlook.ReadsWithin bound between right rightDatum →
    outlook.Ends between (equal left right) fun answer _ =>
      outlook.Judges answer (leftDatum = rightDatum)

theorem Equates.from_later {equal : Value → Value → Run Bool}
    (equates : outlook.Equates point bound equal) {between : σ} (le : point ≤ between) :
    outlook.Equates between bound equal :=
  fun last leLast => equates last (le.trans leLast)

/-- The keys can be read, at no great cost. -/
def CanRead {ε : Type} (outlook : Outlook machine σ) (bound : Nat) (point : σ)
    (keyOf : ε → Value) (table : Keyed ε) : Prop :=
  ∀ pair ∈ table, outlook.ReadsWithin bound point (keyOf pair.2) pair.1

/-- Nothing is found but what is there; and what is there is found, if the outlook discerns. -/
def Finds {ε : Type} (outlook : Outlook machine σ) (found present : Option ε) : Prop :=
  (∀ element, found = some element → present = some element) ∧
    (outlook.discerns → found = present)

namespace Finds

variable {ε : Type} {found present : Option ε}

theorem of_eq (same : found = present) : outlook.Finds found present :=
  ⟨fun _ here => same.symm.trans here, fun _ => same⟩

theorem map {φ : Type} (finds : outlook.Finds found present) (change : ε → φ) :
    outlook.Finds (found.map change) (present.map change) := by
  refine ⟨fun element here => ?_, fun discerns => congrArg _ (finds.2 discerns)⟩
  rcases Option.map_eq_some_iff.mp here with ⟨inner, stored, rfl⟩
  rw [finds.1 inner stored, Option.map_some]

/-- Nothing is found, and it does not matter where the outlook does not discern. -/
theorem miss (finds : outlook.Finds found none) (blurred : ¬ outlook.discerns)
    (present : Option ε) : outlook.Finds found present := by
  cases found with
  | none => exact ⟨fun _ => nofun, fun discerns => absurd discerns blurred⟩
  | some element => cases finds.1 element rfl

theorem judges_isSome (finds : outlook.Finds found present) :
    outlook.Judges found.isSome (present.isSome = true) := by
  refine ⟨fun some => ?_, fun discerns some => ?_⟩
  · rcases Option.isSome_iff_exists.mp some with ⟨element, here⟩
    exact Option.isSome_iff_exists.mpr ⟨element, finds.1 element here⟩
  · rwa [finds.2 discerns]

end Finds

section

variable {sought : Value} {datum : Datum} {equal : Value → Value → Run Bool}

/-! ## Scanning -/

/-- Nothing but a keyword stands for a keyword. -/
theorem eq_keyword_of_reads {value : Value} {name : Keyword}
    (read : outlook.Reads point value (.leaf (.keyword name))) : value = .keyword name := by
  cases outlook.standing read with
  | leaf known =>
      cases value <;> cases known
      rfl

theorem isSoughtKey_ends (equates : outlook.Equates point bound equal) {stored : Value}
    {storedDatum : Datum} (readSought : outlook.ReadsWithin bound point sought datum)
    (readStored : outlook.ReadsWithin bound point stored storedDatum) :
    outlook.Ends point (isSoughtKey equal sought stored) fun answer _ =>
      outlook.Judges answer (storedDatum = datum) := by
  unfold isSoughtKey
  split
  case h_1 name =>
    rw [(outlook.standing readSought.1).eq_leaf rfl]
    split
    case h_1 other =>
      rw [(outlook.standing readStored.1).eq_leaf rfl]
      refine Run.Ends.pure ((judges_decide (name = other)).congr ?_)
      simp only [Datum.leaf.injEq, Leaf.keyword.injEq]
      exact eq_comm
    case h_2 other =>
      refine Run.Ends.pure ⟨nofun, ?_⟩
      rintro _ rfl
      exact absurd (eq_keyword_of_reads readStored.1) (other name)
  case h_2 => exact equates point (le_refl _) readStored readSought

theorem placeIn_ends (equates : outlook.Equates point bound equal)
    (readSought : outlook.ReadsWithin bound point sought datum)
    {table : Keyed (Value × Value)} (canRead : outlook.CanRead bound point Prod.fst table)
    (distinct : table.keys.Nodup) :
    outlook.Ends point
      (ArrayMap.PoolAccess.placeIn (isSoughtKey equal sought) table.elements)
      fun place _ => outlook.Finds place (table.keys.idxOf? datum) := by
  induction table generalizing point with
  | nil => exact Run.Ends.pure (.of_eq rfl)
  | cons pair rest induction =>
      rcases pair with ⟨key, stored, value⟩
      rcases List.nodup_cons.mp distinct with ⟨notAgain, distinctRest⟩
      have readKey := canRead _ (List.mem_cons_self ..)
      change outlook.Ends point _ fun place _ =>
        outlook.Finds place (List.idxOf? datum (key :: Keyed.keys rest))
      apply (isSoughtKey_ends equates readSought readKey).bind
      intro answer between le judges
      cases answer
      case true =>
        have same : key = datum := judges.1 rfl
        exact Run.Ends.pure (.of_eq (by simp [List.idxOf?_cons, same]))
      case false =>
        refine (induction (equates.from_later le) (readsWithin_later le readSought)
          (fun pair member => readsWithin_later le
            (canRead pair (List.mem_cons_of_mem _ member))) distinctRest).bind ?_
        intro place _ _ finds
        apply Run.Ends.pure
        by_cases same : key = datum
        · subst same
          have absent : (Keyed.keys rest).idxOf? key = none :=
            List.idxOf?_eq_none_iff.mpr notAgain
          rw [absent] at finds
          exact (finds.map (· + 1)).miss (fun discerns => nomatch judges.2 discerns rfl) _
        · rw [List.idxOf?_cons, beq_eq_false_iff_ne.mpr same]
          exact finds.map (· + 1)

/-! ## Hashing -/

theorem findHashed_ends {ε : Type} {keyOf : ε → UInt32 × Value}
    (equates : outlook.Equates point bound equal)
    (readSought : outlook.ReadsWithin bound point sought datum) {table : Keyed ε}
    (canRead : outlook.CanRead bound point (fun element => (keyOf element).2) table)
    (distinct : table.keys.Nodup) (hashes : ∀ pair ∈ table, (keyOf pair.2).1 = pair.1.hash) :
    outlook.Ends point (HashTable.find? keyOf equal datum.hash sought table.elements)
      fun found _ => outlook.Finds found (table.lookup datum) := by
  induction table generalizing point with
  | nil => exact Run.Ends.pure (.of_eq rfl)
  | cons pair rest induction =>
      rcases pair with ⟨key, element⟩
      rcases List.nodup_cons.mp distinct with ⟨notAgain, distinctRest⟩
      have readKey := canRead _ (List.mem_cons_self ..)
      have hash : (keyOf element).1 = key.hash := hashes _ (List.mem_cons_self ..)
      have goesOn : ∀ between, point ≤ between → (outlook.discerns → datum ≠ key) →
          outlook.Ends between
            (HashTable.find? keyOf equal datum.hash sought (Keyed.elements rest))
            fun found _ => outlook.Finds found (List.lookup datum ((key, element) :: rest)) := by
        intro between le unlike
        refine (induction (equates.from_later le) (readsWithin_later le readSought)
          (fun pair member => readsWithin_later le
            (canRead pair (List.mem_cons_of_mem _ member))) distinctRest
          (fun pair member => hashes pair (List.mem_cons_of_mem _ member))).weaken ?_
        intro found _ _ finds
        by_cases same : datum = key
        · subst same
          have absent : List.lookup datum rest = none := by
            refine List.lookup_eq_none_iff.mpr fun pair member => bne_iff_ne.mpr ?_
            intro again
            exact notAgain (List.mem_map.mpr ⟨pair, member, again.symm⟩)
          rw [absent] at finds
          exact finds.miss (fun discerns => unlike discerns rfl) _
        · rw [List.lookup_cons, beq_eq_false_iff_ne.mpr same]
          exact finds
      change outlook.Ends point
        (HashTable.find? keyOf equal datum.hash sought (element :: Keyed.elements rest)) _
      simp only [HashTable.find?, hash]
      split
      case isTrue =>
        apply (equates point (le_refl _) readSought readKey).bind
        intro answer between le judges
        cases answer
        case true =>
          have same : datum = key := judges.1 rfl
          exact Run.Ends.pure (.of_eq (by simp [same]))
        case false => exact goesOn between le fun discerns same => nomatch judges.2 discerns same
      case isFalse otherHash =>
        apply goesOn point (le_refl _)
        rintro _ rfl
        exact otherHash (beq_self_eq_true _)

/-! ## Descending in order -/

theorem findSorted_ends {ε : Type} {keyOf : ε → Value}
    {compare : Value → Value → Run Ordering}
    (orders : outlook.Orders point (outlook.ReadsWithin bound) compare)
    (readSought : outlook.ReadsWithin bound point sought datum) {table : Keyed ε}
    (canRead : outlook.CanRead bound point keyOf table) (sorted : table.keys.Pairwise (· < ·)) :
    outlook.Ends point (SortedTable.find? keyOf compare sought table.elements)
      fun found _ => found = table.lookup datum := by
  induction table generalizing point with
  | nil => exact Run.Ends.pure rfl
  | cons pair rest induction =>
      rcases pair with ⟨key, element⟩
      rcases List.pairwise_cons.mp sorted with ⟨first, sortedRest⟩
      refine (orders.ends point (le_refl _) (canRead _ (List.mem_cons_self ..))
        readSought).bind ?_
      rintro _ between le rfl
      cases order : key.compare datum with
      | eq =>
          cases Datum.eq_of_compare _ _ order
          exact Run.Ends.pure (by simp)
      | gt =>
          -- Whatever comes later is greater still.
          have less : datum < key := by
            rw [Datum.lt_iff_compare, Datum.compare_swap, order]
            rfl
          refine Run.Ends.pure (List.lookup_eq_none_iff.mpr ?_).symm
          intro other member
          rw [bne_iff_ne]
          rcases List.mem_cons.mp member with rfl | member
          · exact less.ne
          · exact (less.trans (first _ (List.mem_map_of_mem member))).ne
      | lt =>
          have different : datum ≠ key := (Datum.lt_iff_compare.mpr order).ne'
          rw [List.lookup_cons, beq_eq_false_iff_ne.mpr different]
          exact induction (orders.from_later le) (readsWithin_later le readSought)
            (fun pair member => readsWithin_later le
              (canRead pair (List.mem_cons_of_mem _ member))) sortedRest

/-! ## Maps and sets -/

theorem canRead_ofKeys {ε : Type} {keyOf : ε → Value} {elements : List ε} {keys : List Datum}
    (read : List.Forall₂ (outlook.Reads point) (elements.map keyOf) keys)
    (costs : ∀ key ∈ keys, key.cost ≤ bound) :
    outlook.CanRead bound point keyOf (Keyed.ofKeys keys elements) := by
  have each := List.forall₂_iff_zip.mp (List.forall₂_map_left_iff.mp read).flip
  rintro ⟨key, element⟩ member
  exact ⟨each.2 member, costs key (List.of_mem_zip member).1⟩

theorem findHashed_of_keys {ε : Type} {keyOf : ε → UInt32 × Value}
    (equates : outlook.Equates point bound equal)
    (readSought : outlook.ReadsWithin bound point sought datum) {elements : List ε}
    {keys : List Datum}
    (read : List.Forall₂ (outlook.Reads point) (elements.map fun element => (keyOf element).2) keys)
    (costs : ∀ key ∈ keys, key.cost ≤ bound)
    (hashes : (elements.map fun element => (keyOf element).1) = keys.map Datum.hash)
    (distinct : keys.Nodup) :
    outlook.Ends point (HashTable.find? keyOf equal datum.hash sought elements)
      fun found _ => outlook.Finds found ((Keyed.ofKeys keys elements).lookup datum) := by
  have lengths : keys.length = elements.length := by
    rw [← read.length_eq, List.length_map]
  have finds := findHashed_ends equates readSought (canRead_ofKeys read costs)
    (by rwa [Keyed.keys_ofKeys lengths]) (Keyed.hash_of_mem_ofKeys hashes)
  rwa [Keyed.elements_ofKeys lengths] at finds

theorem findSorted_of_keys {ε : Type} {keyOf : ε → Value}
    {compare : Value → Value → Run Ordering}
    (orders : outlook.Orders point (outlook.ReadsWithin bound) compare)
    (readSought : outlook.ReadsWithin bound point sought datum) {elements : List ε}
    {keys : List Datum}
    (read : List.Forall₂ (outlook.Reads point) (elements.map keyOf) keys)
    (costs : ∀ key ∈ keys, key.cost ≤ bound) (sorted : keys.Pairwise (· < ·)) :
    outlook.Ends point (SortedTable.find? keyOf compare sought elements)
      fun found _ => found = (Keyed.ofKeys keys elements).lookup datum := by
  have lengths : keys.length = elements.length := by
    rw [← read.length_eq, List.length_map]
  have finds := findSorted_ends orders readSought (canRead_ofKeys read costs)
    (by rwa [Keyed.keys_ofKeys lengths])
  rwa [Keyed.elements_ofKeys lengths] at finds

variable (outlook) in
/-- Whatever kind of map it is, what is found is the value of the key that
stands for what the sought key stands for. -/
theorem lookupWith_ends (remembers : outlook.RemembersWithin bound point)
    {fuel : Nat} (within : bound ≤ fuel) (equates : outlook.Equates point bound equal)
    (readSought : outlook.ReadsWithin bound point sought datum) {map : Value}
    {entries : List (Value × Value)} {keys : List Datum}
    (contents : map.mapEntries? = some entries)
    (readKeys : List.Forall₂ (outlook.Reads point) (entries.map Prod.fst) keys)
    (costs : ∀ key ∈ keys, key.cost ≤ bound) (lawful : map.IsLawful (outlook.world point) keys) :
    outlook.Ends point (lookupWith equal fuel map sought) fun found _ =>
      outlook.Finds found ((Keyed.ofKeys keys (entries.map Prod.snd)).lookup datum) := by
  rw [Keyed.lookup_map]
  cases map <;> cases contents
  case arrayMap.refl =>
    have lengths : keys.length = entries.length := by
      rw [← readKeys.length_eq, List.length_map]
    have places := placeIn_ends equates readSought (canRead_ofKeys readKeys costs)
      (by rw [Keyed.keys_ofKeys lengths]; exact lawful.2)
    rw [Keyed.elements_ofKeys lengths, Keyed.keys_ofKeys lengths] at places
    apply places.bind
    intro place _ _ finds
    rw [Keyed.lookup_eq, Keyed.elements_ofKeys lengths, Keyed.keys_ofKeys lengths]
    cases place with
    | none =>
        apply Run.Ends.pure
        refine ⟨fun _ => nofun, fun discerns => ?_⟩
        rw [← finds.2 discerns]
        rfl
    | some place =>
        rw [finds.1 place rfl]
        exact Run.Ends.pure (.of_eq rfl)
  case hashMap.refl =>
    rw [List.map_map] at readKeys
    refine (outlook.hashWithin_ends (remembers.weaken readSought.2) (readSought.2.trans within)
      readSought.1).bind ?_
    rintro _ between le rfl
    refine (findHashed_of_keys (equates.from_later le) (readsWithin_later le readSought)
      (readsAll_later le readKeys) costs lawful.1 lawful.2).bind ?_
    intro found _ _ finds
    apply Run.Ends.pure
    rw [Keyed.lookup_map, Option.map_map]
    exact finds.map _
  case sortedMap.refl =>
    refine (findSorted_of_keys (outlook.compareWithin_orders within) readSought readKeys
      costs lawful).bind ?_
    rintro _ _ _ rfl
    exact Run.Ends.pure (.of_eq rfl)

variable (outlook) in
/-- An element is in a set when some element stands for the same datum. -/
theorem memberWith_ends (remembers : outlook.RemembersWithin bound point)
    {fuel : Nat} (within : bound ≤ fuel) (equates : outlook.Equates point bound equal)
    (readSought : outlook.ReadsWithin bound point sought datum) {set : Value}
    {elements : List Value} {items : List Datum} (contents : set.setItems? = some elements)
    (read : List.Forall₂ (outlook.Reads point) elements items)
    (costs : ∀ item ∈ items, item.cost ≤ bound)
    (lawful : set.IsLawful (outlook.world point) items) :
    outlook.Ends point (memberWith equal fuel set sought) fun answer _ =>
      outlook.Judges answer (datum ∈ items) := by
  cases set <;> cases contents
  case hashSet.refl =>
    have lengths := read.length_eq
    rw [List.length_map] at lengths
    refine (outlook.hashWithin_ends (remembers.weaken readSought.2) (readSought.2.trans within)
      readSought.1).bind ?_
    rintro _ between le rfl
    refine (findHashed_of_keys (equates.from_later le) (readsWithin_later le readSought)
      (readsAll_later le read) costs lawful.1 lawful.2).bind ?_
    intro found _ _ finds
    apply Run.Ends.pure
    exact finds.judges_isSome.congr (by rw [Keyed.isSome_lookup lengths.symm, decide_eq_true_iff])
  case sortedSet.refl =>
    refine (findSorted_of_keys (outlook.compareWithin_orders within) readSought
      (by rwa [List.map_id]) costs lawful).bind ?_
    rintro _ _ _ rfl
    rw [Keyed.isSome_lookup read.length_eq.symm]
    exact Run.Ends.pure (judges_decide _)

end

end Outlook

/-! ## At moments -/

section

variable {machine : Machine} {moment : Moment} {bound : Nat}

/-- The test tells whether values stand for one datum. -/
def Equates (machine : Machine) (moment : Moment) (bound : Nat)
    (equal : Value → Value → Run Bool) : Prop :=
  ∀ between, moment ≤ between → ∀ {left right leftDatum rightDatum},
    between.ReadsWithin bound left leftDatum → between.ReadsWithin bound right rightDatum →
    Gives machine between (equal left right) fun answer _ =>
      answer = decide (leftDatum = rightDatum)

theorem Equates.from_later {equal : Value → Value → Run Bool}
    (equates : Equates machine moment bound equal) {between : Moment} (le : moment ≤ between) :
    Equates machine between bound equal :=
  fun last leLast => equates last (le.trans leLast)

theorem Equates.outlook {equal : Value → Value → Run Bool}
    (equates : Equates machine moment bound equal) (enough : 0 < machine.limit) :
    (Moment.outlook enough).Equates moment bound equal := by
  intro between le left right leftDatum rightDatum readLeft readRight
  apply (equates between le readLeft readRight).weaken
  rintro _ _ _ rfl
  exact Outlook.judges_decide _

theorem Moment.readsWithin_later {before after : Moment} (le : before ≤ after) {value : Value}
    {datum : Datum} (read : before.ReadsWithin bound value datum) :
    after.ReadsWithin bound value datum :=
  ⟨reads_later le read.1, read.2⟩


namespace Value

variable {sought : Value} {datum : Datum} {equal : Value → Value → Run Bool}

theorem lookupWith_gives (remembers : moment.RemembersWithin bound) (enough : 0 < machine.limit)
    {fuel : Nat} (within : bound ≤ fuel) (equates : Equates machine moment bound equal)
    (readSought : moment.ReadsWithin bound sought datum) {map : Value}
    {entries : List (Value × Value)} {keys : List Datum}
    (contents : map.mapEntries? = some entries)
    (readKeys : moment.ReadsAll (entries.map Prod.fst) keys)
    (costs : ∀ key ∈ keys, key.cost ≤ bound) (lawful : map.IsLawful moment.world keys) :
    Gives machine moment (lookupWith equal fuel map sought) fun found _ =>
      found = (Keyed.ofKeys keys (entries.map Prod.snd)).lookup datum :=
  ((Moment.outlook enough).lookupWith_ends remembers within (equates.outlook enough) readSought
    contents readKeys.forall₂ costs lawful).weaken fun _ _ _ finds => finds.2 trivial

theorem memberWith_gives (remembers : moment.RemembersWithin bound) (enough : 0 < machine.limit)
    {fuel : Nat} (within : bound ≤ fuel) (equates : Equates machine moment bound equal)
    (readSought : moment.ReadsWithin bound sought datum) {set : Value}
    {elements : List Value} {items : List Datum} (contents : set.setItems? = some elements)
    (read : moment.ReadsAll elements items) (costs : ∀ item ∈ items, item.cost ≤ bound)
    (lawful : set.IsLawful moment.world items) :
    Gives machine moment (memberWith equal fuel set sought) fun answer _ =>
      answer = decide (datum ∈ items) :=
  ((Moment.outlook enough).memberWith_ends remembers within (equates.outlook enough) readSought
    contents read.forall₂ costs lawful).weaken fun _ _ _ judges => judges.eq_decide trivial

end Value

end

end LispRuntime
