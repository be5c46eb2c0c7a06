import LispRuntime.Proofs.Reading.Outlook
import LispRuntime.Value.Hashing

/-! The hash of a value is the hash of the datum that it stands for. Array maps
remember their hashes, so a remembered hash has to be right before, and the one
that is remembered now is right again. -/

namespace LispRuntime

/-- A leaf is hashed at once. -/
theorem Value.hashWithin_leaf {value : Value} {leaf : Leaf} (known : value.leaf? = some leaf)
    (fuel : Nat) : hashWithin (fuel + 1) value = pure leaf.hash := by
  cases value <;> cases known <;> try rfl
  case boolean value => cases value <;> rfl

namespace Outlook

open Value (hashEntries hashWithin hashWithin_leaf)

variable {machine : Machine} {σ : Type} [Preorder σ] {outlook : Outlook machine σ} {point : σ}
  {hashOf : Value → Run UInt32}

/-- A known array map answers with its hash, remembered or not. -/
theorem pool_hash_ends {hashEntries : List (Value × Value) → Run UInt32} {handle : Nat}
    {datum : Datum} (known : (outlook.moment point).memory (.map handle) = some datum)
    (remembers : (outlook.world point).maps.remembered handle = 0 ∨
      (outlook.world point).maps.remembered handle = datum.hash)
    (computes : outlook.Ends point (hashEntries ((outlook.world point).maps.entries handle))
      fun hash _ => hash = datum.hash) :
    outlook.Ends point (Run.pool.hash hashEntries handle) fun hash _ => hash = datum.hash := by
  unfold ArrayMap.PoolAccess.hash
  apply Run.Ends.looking rfl
  dsimp only
  split
  case isTrue isKnown =>
    apply Run.Ends.pure
    have nonzero : (outlook.world point).maps.remembered handle ≠ 0 := bne_iff_ne.mp isKnown
    exact remembers.resolve_left nonzero
  case isFalse =>
    apply computes.bind
    rintro _ between le rfl
    apply Run.Ends.looking rfl
    rcases outlook.memoizes ((outlook.moment_le le).memory _ _ known) with ⟨after, leAfter, world⟩
    have writes : outlook.Ends between
        (Run.pool.write ((outlook.world between).maps.memoize handle datum.hash))
        fun _ _ => True := ⟨(), after, congrArg (fun world => some ((), world)) world.symm,
          leAfter, trivial⟩
    exact writes.bind fun _ _ _ _ => Run.Ends.pure rfl

variable (outlook) in
theorem hashEntries_ends {entries : List (Value × Value)} {keys values : List Datum}
    (readKeys : List.Forall₂ (outlook.Reads point) (entries.map Prod.fst) keys)
    (readValues : List.Forall₂ (outlook.Reads point) (entries.map Prod.snd) values)
    (hashes : ∀ between, point ≤ between → ∀ value datum, datum ∈ keys ∨ datum ∈ values →
      outlook.Reads between value datum →
      outlook.Ends between (hashOf value) fun hash _ => hash = datum.hash) :
    outlook.Ends point (hashEntries hashOf entries) fun hash _ =>
      hash = Hash.unordered ((List.zipWith Datum.entry keys values).map Datum.hash) := by
  have each : outlook.Ends point
      (entries.mapM fun entry => do
        let key ← hashOf entry.1
        let value ← hashOf entry.2
        return Hash.entry key value)
      fun hashes _ => List.Forall₂ (fun hash data => hash = (Datum.entry data.1 data.2).hash)
        hashes (keys.zip values) := by
    refine Run.Ends.mapM outlook.ReadsEntry
      (fun _ hash data => hash = (Datum.entry data.1 data.2).hash)
      readsEntry_later (fun _ _ _ same => same) (readsEntries readKeys readValues) ?_
    rintro between le entry ⟨key, value⟩ member ⟨readKey, readValue⟩
    have inKeys := (List.of_mem_zip member).1
    have inValues := (List.of_mem_zip member).2
    apply (hashes between le _ key (.inl inKeys) readKey).bind
    rintro _ later leLater rfl
    refine (hashes later (le.trans leLater) _ value (.inr inValues)
      (outlook.reads_later leLater readValue)).bind ?_
    rintro _ last _ rfl
    exact Run.Ends.pure (Datum.hash_entry key value).symm
  apply each.bind
  intro hashes _ _ same
  refine Run.Ends.pure (congrArg Hash.unordered ?_)
  rw [← List.map_uncurry_zip_eq_zipWith, List.map_map]
  exact List.forall₂_eq_eq_eq ▸ List.forall₂_map_right_iff.mpr same

theorem hashAll_ends {elements : List Value} {items : List Datum}
    (read : List.Forall₂ (outlook.Reads point) elements items)
    (hashes : ∀ between, point ≤ between → ∀ value, ∀ datum ∈ items,
      outlook.Reads between value datum →
      outlook.Ends between (hashOf value) fun hash _ => hash = datum.hash) :
    outlook.Ends point (elements.mapM hashOf) fun answers _ =>
      answers = items.map Datum.hash := by
  refine (Run.Ends.mapM outlook.Reads (fun _ hash datum => hash = datum.hash)
    (fun le _ _ => outlook.reads_later le) (fun _ _ _ same => same) read hashes).weaken ?_
  intro answers _ _ same
  exact List.forall₂_eq_eq_eq ▸ List.forall₂_map_right_iff.mpr same

/-- Walking over a sequence hashes it as the elements are hashed that are met. -/
theorem hashWalk_ends {fuel : Nat} {value : Value} {whole : Bool} {items : List Datum}
    (within : items.length < fuel) (walk : outlook.Walks point value whole items)
    (hashes : ∀ between, point ≤ between → ∀ value, ∀ datum ∈ items,
      outlook.Reads between value datum →
      outlook.Ends between (hashOf value) fun hash _ => hash = datum.hash) :
    outlook.Ends point
      (do
        let tally ←
          Cursor.foldElements
            (fun tally item => return Hash.Tally.pushOrdered tally (← hashOf item))
            fuel Hash.Tally.startOrdered (.pending value)
        return tally.close)
      fun hash _ => hash = Hash.ordered (items.map Datum.hash) := by
  have visits : ∀ between, point ≤ between → ∀ tally value, ∀ datum ∈ items,
      outlook.Reads between value datum →
      outlook.Ends between (return Hash.Tally.pushOrdered tally (← hashOf value))
        fun answer _ => answer = tally.pushOrdered datum.hash := by
    intro between le tally value datum member read
    apply (hashes between le value datum member read).bind
    rintro _ _ _ rfl
    exact Run.Ends.pure rfl
  have yields : outlook.Yields point (.pending value) whole items := walk
  apply (foldElements_ends within visits yields _).bind
  rintro _ _ _ rfl
  apply Run.Ends.pure
  rw [Hash.ordered, List.foldl_map]

theorem hashSequence_ends {fuel : Nat} {value : Value} {whole : Bool} {items : List Datum}
    (kind : value.isSequential = true) (walk : outlook.Walks point value whole items)
    (within : items.length < fuel)
    (hashes : ∀ between, point ≤ between → ∀ value, ∀ datum ∈ items,
      outlook.Reads between value datum →
      outlook.Ends between (hashWithin fuel value) fun hash _ => hash = datum.hash) :
    outlook.Ends point (hashWithin (fuel + 1) value) fun hash _ =>
      hash = Hash.ordered (items.map Datum.hash) := by
  cases value <;> cases kind
  case list.refl | vector.refl =>
    apply (hashAll_ends (outlook.indexed walk rfl).2 hashes).bind
    rintro _ _ _ rfl
    exact Run.Ends.pure rfl
  case cons.refl | lazySeq.refl => exact hashWalk_ends within walk hashes

variable (outlook) in
/-- A hash depends on what the value itself remembers, if it is an array map, and
on what maps inside remember. -/
theorem hashWithin_own_ends {value : Value} {datum : Datum}
    (own : ∀ handle, value.address? = some (.map handle) →
      (outlook.world point).maps.remembered handle = 0 ∨
        (outlook.world point).maps.remembered handle = datum.hash)
    (remembers : outlook.RemembersWithin (datum.cost - 1) point) {fuel : Nat}
    (within : datum.cost ≤ fuel) (read : outlook.Reads point value datum) :
    outlook.Ends point (hashWithin fuel value) fun hash _ => hash = datum.hash := by
  induction fuel generalizing point value datum with
  | zero => exact absurd within (Nat.not_le_of_lt datum.cost_pos)
  | succ fuel induction =>
      have inner : ∀ between, point ≤ between → ∀ value item, item.cost < datum.cost →
          outlook.Reads between value item →
          outlook.Ends between (hashWithin fuel value) fun hash _ => hash = item.hash := by
        intro between le value item less read
        have later := remembers.later le
        refine induction ?_ (later.weaken (by omega)) (by omega) read
        intro handle place
        exact later handle item ((outlook.standing read).placed _ place) (by omega)
      have innerAll : ∀ {items : List Datum}, Datum.costAll items ≤ datum.cost →
          ∀ between, point ≤ between → ∀ value, ∀ item ∈ items, outlook.Reads between value item →
          outlook.Ends between (hashWithin fuel value) fun hash _ => hash = item.hash :=
        fun costs between le value item member =>
          inner between le value item ((Datum.cost_lt_costAll member).trans_le costs)
      cases outlook.standing read with
      | leaf known =>
          rw [hashWithin_leaf known]
          exact Run.Ends.pure rfl
      | @sequence whole items kind walk =>
          have cost : (Datum.sequence items).cost = Datum.costAll items + 2 := rfl
          have length := Datum.length_le_costAll items
          rw [Datum.hash, Datum.hashAll_eq_map]
          exact hashSequence_ends kind walk (by omega) (innerAll (by omega))
      | @map entries keys values contents readKeys readValues lawful placed =>
          have computes : outlook.Ends point (hashEntries (hashWithin fuel) entries)
              fun hash _ =>
                hash = (Datum.map
                  (Datum.arrange (List.zipWith Datum.entry keys values))).hash := by
            rw [Datum.hash_map_arrange]
            apply outlook.hashEntries_ends readKeys readValues
            intro between le value item member
            apply inner between le value item
            have less := Datum.cost_lt_costAll_entries (length_keys_eq readKeys readValues) member
            rw [Datum.cost_map_arrange]
            omega
          cases value <;> cases contents
          case arrayMap.refl =>
            rw [hashWithin]
            exact pool_hash_ends (placed _ rfl) (own _ rfl) computes
          case hashMap.refl | sortedMap.refl => exact computes
      | @set elements items contents readItems lawful =>
          rw [Datum.cost_set_arrange] at innerAll
          rw [Datum.hash_set_arrange]
          cases value <;> cases contents
          all_goals
            apply (hashAll_ends readItems (innerAll (Nat.le_add_right _ _))).bind
            rintro _ _ _ rfl
            exact Run.Ends.pure rfl

variable (outlook) in
/-- A value has the hash of its datum. -/
theorem hashWithin_ends {datum : Datum} (remembers : outlook.RemembersWithin datum.cost point)
    {fuel : Nat} (within : datum.cost ≤ fuel) {value : Value}
    (read : outlook.Reads point value datum) :
    outlook.Ends point (hashWithin fuel value) fun hash _ => hash = datum.hash := by
  refine outlook.hashWithin_own_ends ?_ (remembers.weaken (Nat.sub_le _ _)) within read
  intro handle place
  exact remembers handle datum ((outlook.standing read).placed _ place) (Nat.le_refl _)

end Outlook

/-! ## At moments -/

namespace Value

variable {machine : Machine} {moment : Moment}

theorem hashEntries_gives (enough : 0 < machine.limit) {hashOf : Value → Run UInt32}
    {entries : List (Value × Value)} {keys values : List Datum}
    (readKeys : moment.ReadsAll (entries.map Prod.fst) keys)
    (readValues : moment.ReadsAll (entries.map Prod.snd) values)
    (hashes : ∀ between, moment ≤ between → ∀ value datum, datum ∈ keys ∨ datum ∈ values →
      between.Reads value datum →
      Gives machine between (hashOf value) fun hash _ => hash = datum.hash) :
    Gives machine moment (hashEntries hashOf entries) fun hash _ =>
      hash = Hash.unordered ((List.zipWith Datum.entry keys values).map Datum.hash) :=
  (Moment.outlook enough).hashEntries_ends readKeys.forall₂ readValues.forall₂ hashes

theorem hashWithin_own_gives {value : Value} {datum : Datum}
    (own : ∀ handle, value.address? = some (.map handle) →
      moment.world.maps.remembered handle = 0 ∨
        moment.world.maps.remembered handle = datum.hash)
    (remembers : moment.RemembersWithin (datum.cost - 1)) (enough : 0 < machine.limit)
    {fuel : Nat} (within : datum.cost ≤ fuel) (read : moment.Reads value datum) :
    Gives machine moment (hashWithin fuel value) fun hash _ => hash = datum.hash :=
  (Moment.outlook enough).hashWithin_own_ends own remembers within read

theorem hashWithin_gives {datum : Datum} (remembers : moment.RemembersWithin datum.cost)
    (enough : 0 < machine.limit) {fuel : Nat} (within : datum.cost ≤ fuel) {value : Value}
    (read : moment.Reads value datum) :
    Gives machine moment (hashWithin fuel value) fun hash _ => hash = datum.hash :=
  (Moment.outlook enough).hashWithin_ends remembers within read

end Value

end LispRuntime
