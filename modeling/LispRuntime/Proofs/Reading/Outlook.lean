import LispRuntime.Proofs.Reading.Walk

/-! What hashing, comparing and looking up rely on. An outlook says for the points of a run which
data values stand for, and what walks over them meet: some elements, and then the end or a failure.
The hash and the order take a failure for the end. For equality a sequence that fails is equal to
nothing but itself, so that two values that stand for one datum may be different all the same. An
outlook discerns if a sequence that fails stands for a datum that no other value stands for. -/

namespace LispRuntime

/-- How a value stands for a datum, given how other values do and what walks meet. A walk that is
whole comes to its end, and one that is not fails there. -/
inductive Standing (discerns : Prop) (moment : Moment) (Reads : Value → Datum → Prop)
    (Walks : Value → Bool → List Datum → Prop) : Value → Datum → Prop where
  | leaf {value : Value} {leaf : Leaf} (known : value.leaf? = some leaf)
      (placed : moment.memory.Places value (.leaf leaf)) :
      Standing discerns moment Reads Walks value (.leaf leaf)
  | sequence {value : Value} {whole : Bool} {items : List Datum}
      (kind : value.isSequential = true) (walk : Walks value whole items)
      (placed : moment.memory.Places value (.sequence items))
      (alone : discerns → whole = false → ∀ other, Reads other (.sequence items) →
        value.identical other = true) :
      Standing discerns moment Reads Walks value (.sequence items)
  | map {value : Value} {entries : List (Value × Value)} {keys values : List Datum}
      (contents : value.mapEntries? = some entries)
      (readKeys : List.Forall₂ Reads (entries.map Prod.fst) keys)
      (readValues : List.Forall₂ Reads (entries.map Prod.snd) values)
      (lawful : value.IsLawful moment.world keys)
      (placed : moment.memory.Places value
        (.map (Datum.arrange (List.zipWith Datum.entry keys values)))) :
      Standing discerns moment Reads Walks value
        (.map (Datum.arrange (List.zipWith Datum.entry keys values)))
  | set {value : Value} {elements : List Value} {items : List Datum}
      (contents : value.setItems? = some elements)
      (readItems : List.Forall₂ Reads elements items)
      (lawful : value.IsLawful moment.world items)
      (placed : moment.memory.Places value (.set (Datum.arrange items))) :
      Standing discerns moment Reads Walks value (.set (Datum.arrange items))

namespace Standing

variable {discerns : Prop} {moment : Moment} {Reads : Value → Datum → Prop}
  {Walks : Value → Bool → List Datum → Prop} {value : Value} {datum : Datum}

theorem placed (standing : Standing discerns moment Reads Walks value datum) :
    moment.memory.Places value datum := by
  cases standing <;> assumption

theorem eq_leaf (standing : Standing discerns moment Reads Walks value datum) {leaf : Leaf}
    (known : value.leaf? = some leaf) : datum = .leaf leaf := by
  cases standing with
  | leaf found => rw [Option.some.inj (found.symm.trans known)]
  | sequence kind => cases value <;> simp [Value.isSequential, Value.leaf?] at kind known
  | map contents => cases value <;> simp [Value.mapEntries?, Value.leaf?] at contents known
  | set contents => cases value <;> simp [Value.setItems?, Value.leaf?] at contents known

theorem mapEntries {entries : List Datum}
    (standing : Standing discerns moment Reads Walks value (.map entries)) :
    ∃ contents, value.mapEntries? = some contents := by
  cases standing with
  | map contents => exact ⟨_, contents⟩

theorem setItems {items : List Datum}
    (standing : Standing discerns moment Reads Walks value (.set items)) :
    ∃ contents, value.setItems? = some contents := by
  cases standing with
  | set contents => exact ⟨_, contents⟩

theorem typeRank_eq (standing : Standing discerns moment Reads Walks value datum) :
    value.typeRank = datum.rank := by
  cases standing with
  | leaf known => exact Value.typeRank_of_leaf known
  | sequence kind => exact Value.typeRank_of_isSequential kind
  | map contents => exact Value.typeRank_of_mapEntries contents
  | set contents => exact Value.typeRank_of_setItems contents

end Standing

/-- What there is left to walk over. -/
def Cursor.Yields (Reads : Value → Datum → Prop) (Walks : Value → Bool → List Datum → Prop) :
    Cursor → Bool → List Datum → Prop
  | .done, whole, met => whole = true ∧ met = []
  | .items rest, whole, met => whole = true ∧ List.Forall₂ Reads rest met
  | .pending value, whole, met => Walks value whole met

/-- One step of a walk is at the end, fails, or meets the first of some elements and goes on with
the others. -/
inductive Cursor.StepsTo (Reads : Value → Datum → Prop)
    (Walks : Value → Bool → List Datum → Prop) : Yield × Cursor → Bool → List Datum → Prop where
  | done {rest : Cursor} : StepsTo Reads Walks (none, rest) true []
  | failed {error : Error} {rest : Cursor} :
      StepsTo Reads Walks (some (.error error), rest) false []
  | element {value : Value} {datum : Datum} {rest : Cursor} {whole : Bool} {items : List Datum}
      (read : Reads value datum) (yields : rest.Yields Reads Walks whole items) :
      StepsTo Reads Walks (some (.ok value), rest) whole (datum :: items)

/-- A step of a walk for which a failure is the end. -/
inductive Cursor.Meets (Reads : Value → Datum → Prop)
    (Walks : Value → Bool → List Datum → Prop) :
    Option Value × Cursor → Bool → List Datum → Prop where
  | done {rest : Cursor} {whole : Bool} : Meets Reads Walks (none, rest) whole []
  | element {value : Value} {datum : Datum} {rest : Cursor} {whole : Bool} {items : List Datum}
      (read : Reads value datum) (yields : rest.Yields Reads Walks whole items) :
      Meets Reads Walks (some value, rest) whole (datum :: items)

theorem Cursor.steps_nextItem {Reads : Value → Datum → Prop}
    {Walks : Value → Bool → List Datum → Prop} {elements : List Value} {items : List Datum}
    (read : List.Forall₂ Reads elements items) :
    Cursor.StepsTo Reads Walks (nextItem elements) true items := by
  cases read with
  | nil => exact .done
  | cons first others => exact .element first ⟨rfl, others⟩

/-- What values stand for on a machine. What is known remains known at later points, and while
values are hashed and walked over points lead to later ones. -/
structure Outlook (machine : Machine) (σ : Type) [Preorder σ] where
  discerns : Prop
  moment : σ → Moment
  moment_le : ∀ {before after}, before ≤ after → moment before ≤ moment after
  Reads : σ → Value → Datum → Prop
  Walks : σ → Value → Bool → List Datum → Prop
  reads_later : ∀ {before after}, before ≤ after → ∀ {value datum},
    Reads before value datum → Reads after value datum
  walks_later : ∀ {before after}, before ≤ after → ∀ {value whole items},
    Walks before value whole items → Walks after value whole items
  standing : ∀ {point value datum}, Reads point value datum →
    Standing discerns (moment point) (Reads point) (Walks point) value datum
  indexed : ∀ {point value whole items elements}, Walks point value whole items →
    value.indexed? = some elements → whole = true ∧ List.Forall₂ (Reads point) elements items
  next : ∀ {point value whole items}, Walks point value whole items →
    Run.Ends (fun point => (moment point).world) machine point (Cursor.next (.pending value))
      fun step after => Cursor.StepsTo (Reads after) (Walks after) step whole items
  memoizes : ∀ {point handle datum}, (moment point).memory (.map handle) = some datum →
    ∃ after, point ≤ after ∧ (moment after).world =
      { (moment point).world with
        maps := (moment point).world.maps.memoize handle datum.hash }

namespace Outlook

variable {machine : Machine} {σ : Type} [Preorder σ] (outlook : Outlook machine σ)
  {point before after : σ}

def world (point : σ) : World := (outlook.moment point).world

/-- The computation ends, further on, with an answer for which the predicate holds. -/
abbrev Ends {α : Type} (point : σ) (computation : Run α) (post : α → σ → Prop) : Prop :=
  Run.Ends outlook.world machine point computation post

def RemembersWithin (bound : Nat) (point : σ) : Prop :=
  (outlook.moment point).RemembersWithin bound

abbrev Yields (point : σ) (cursor : Cursor) (whole : Bool) (items : List Datum) : Prop :=
  cursor.Yields (outlook.Reads point) (outlook.Walks point) whole items

/-- An entry of a map, read as a key and a value. -/
def ReadsEntry (point : σ) (entry : Value × Value) (data : Datum × Datum) : Prop :=
  outlook.Reads point entry.1 data.1 ∧ outlook.Reads point entry.2 data.2

/-- Reading a datum that costs no more than some bound. -/
def ReadsWithin (bound : Nat) (point : σ) (value : Value) (datum : Datum) : Prop :=
  outlook.Reads point value datum ∧ datum.cost ≤ bound

/-- The answer is never yes where it should be no; nor the other way around, if the outlook
discerns. -/
def Judges (answer : Bool) (holds : Prop) : Prop :=
  (answer = true → holds) ∧ (outlook.discerns → holds → answer = true)

variable {outlook}

theorem judges_decide (holds : Prop) [Decidable holds] : outlook.Judges (decide holds) holds :=
  ⟨of_decide_eq_true, fun _ => decide_eq_true⟩

theorem Judges.eq_decide {answer : Bool} {holds : Prop} [Decidable holds]
    (judges : outlook.Judges answer holds) (discerns : outlook.discerns) :
    answer = decide holds :=
  Bool.eq_iff_iff.mpr (by rw [decide_eq_true_iff]; exact ⟨judges.1, judges.2 discerns⟩)

theorem Judges.congr {answer : Bool} {holds other : Prop} (judges : outlook.Judges answer holds)
    (same : holds ↔ other) : outlook.Judges answer other :=
  ⟨fun yes => same.mp (judges.1 yes), fun discerns holds => judges.2 discerns (same.mpr holds)⟩

theorem judges_false {holds : Prop} (fails : ¬ holds) : outlook.Judges false holds :=
  ⟨nofun, fun _ holds => absurd holds fails⟩

/-- The answer is no for what would imply that it is yes. -/
theorem Judges.of_imp {holds other : Prop} (judges : outlook.Judges false holds)
    (implies : other → holds) : outlook.Judges false other :=
  ⟨nofun, fun discerns other => judges.2 discerns (implies other)⟩

theorem RemembersWithin.weaken {small large : Nat}
    (remembers : outlook.RemembersWithin large point) (le : small ≤ large) :
    outlook.RemembersWithin small point :=
  Moment.RemembersWithin.weaken remembers le

theorem RemembersWithin.later {bound : Nat} (remembers : outlook.RemembersWithin bound before)
    (le : before ≤ after) : outlook.RemembersWithin bound after :=
  (outlook.moment_le le).remembers bound remembers

theorem lawful_later (le : before ≤ after) {value : Value} {datum : Datum} {keys : List Datum}
    (read : outlook.Reads before value datum)
    (lawful : value.IsLawful (outlook.world before) keys) :
    value.IsLawful (outlook.world after) keys :=
  Moment.lawful_later (outlook.moment_le le) (outlook.standing read).placed lawful

theorem readsAll_later (le : before ≤ after) {values : List Value} {data : List Datum}
    (read : List.Forall₂ (outlook.Reads before) values data) :
    List.Forall₂ (outlook.Reads after) values data :=
  read.imp fun _ _ => outlook.reads_later le

theorem readsEntry_later (le : before ≤ after) (entry : Value × Value) (data : Datum × Datum)
    (read : outlook.ReadsEntry before entry data) : outlook.ReadsEntry after entry data :=
  read.imp (outlook.reads_later le) (outlook.reads_later le)

theorem readsWithin_later (le : before ≤ after) {bound : Nat} {value : Value} {datum : Datum}
    (read : outlook.ReadsWithin bound before value datum) :
    outlook.ReadsWithin bound after value datum :=
  ⟨outlook.reads_later le read.1, read.2⟩

theorem ReadsWithin.weaken {small large : Nat} (le : small ≤ large) {value : Value}
    {datum : Datum} (read : outlook.ReadsWithin small point value datum) :
    outlook.ReadsWithin large point value datum :=
  ⟨read.1, read.2.trans le⟩

theorem readsAllWithin {bound : Nat} {values : List Value} {data : List Datum}
    (read : List.Forall₂ (outlook.Reads point) values data)
    (within : Datum.costAll data ≤ bound) :
    List.Forall₂ (outlook.ReadsWithin bound point) values data := by
  have each := List.forall₂_iff_zip.mp read
  refine List.forall₂_iff_zip.mpr ⟨each.1, fun {value datum} member => ⟨each.2 member, ?_⟩⟩
  exact ((Datum.cost_lt_costAll (List.of_mem_zip member).2).trans_le within).le

theorem yields_later (le : before ≤ after) {cursor : Cursor} {whole : Bool}
    {items : List Datum} (yields : outlook.Yields before cursor whole items) :
    outlook.Yields after cursor whole items := by
  cases cursor with
  | done => exact yields
  | items rest => exact ⟨yields.1, readsAll_later le yields.2⟩
  | pending value => exact outlook.walks_later le yields

theorem eq_of_identical {left right : Value} {leftDatum rightDatum : Datum}
    (readLeft : outlook.Reads point left leftDatum)
    (readRight : outlook.Reads point right rightDatum)
    (identical : left.identical right = true) : leftDatum = rightDatum := by
  have leftStanding := outlook.standing readLeft
  have rightStanding := outlook.standing readRight
  rcases Value.leaf_or_address_of_identical identical with
    ⟨leaf, leftLeaf, rightLeaf⟩ | ⟨address, leftPlace, rightPlace⟩
  · rw [leftStanding.eq_leaf leftLeaf, rightStanding.eq_leaf rightLeaf]
  · exact Option.some.inj
      ((leftStanding.placed address leftPlace).symm.trans (rightStanding.placed address rightPlace))

/-- Entries are read by their keys and their values. -/
theorem readsEntries {entries : List (Value × Value)} {keys values : List Datum}
    (readKeys : List.Forall₂ (outlook.Reads point) (entries.map Prod.fst) keys)
    (readValues : List.Forall₂ (outlook.Reads point) (entries.map Prod.snd) values) :
    List.Forall₂ (outlook.ReadsEntry point) entries (keys.zip values) := by
  induction entries generalizing keys values with
  | nil =>
      cases readKeys
      exact .nil
  | cons entry rest induction =>
      cases readKeys with
      | cons key readKeys =>
          cases readValues with
          | cons value readValues => exact .cons ⟨key, value⟩ (induction readKeys readValues)

theorem length_keys_eq {entries : List (Value × Value)} {keys values : List Datum}
    (readKeys : List.Forall₂ (outlook.Reads point) (entries.map Prod.fst) keys)
    (readValues : List.Forall₂ (outlook.Reads point) (entries.map Prod.snd) values) :
    keys.length = values.length := by
  rw [← readKeys.length_eq, ← readValues.length_eq, List.length_map, List.length_map]

/-! ## Cursors -/

theorem next_ends {cursor : Cursor} {whole : Bool} {items : List Datum}
    (yields : outlook.Yields point cursor whole items) :
    outlook.Ends point cursor.next fun step after =>
      Cursor.StepsTo (outlook.Reads after) (outlook.Walks after) step whole items := by
  cases cursor with
  | done =>
      rcases yields with ⟨rfl, rfl⟩
      exact Run.Ends.pure .done
  | items rest =>
      rcases yields with ⟨rfl, read⟩
      exact Run.Ends.pure (Cursor.steps_nextItem read)
  | pending value => exact outlook.next yields

theorem nextElement_ends {cursor : Cursor} {whole : Bool} {items : List Datum}
    (yields : outlook.Yields point cursor whole items) :
    outlook.Ends point cursor.nextElement fun step after =>
      Cursor.Meets (outlook.Reads after) (outlook.Walks after) step whole items := by
  apply (next_ends yields).bind
  intro step between _ steps
  cases steps with
  | done | failed => exact Run.Ends.pure .done
  | element read others => exact Run.Ends.pure (.element read others)

/-- A fold over a walk is a fold over what it meets. -/
theorem foldElements_ends {τ : Type} {visit : τ → Value → Run τ} {advance : τ → Datum → τ}
    {fuel : Nat} {whole : Bool} {items : List Datum} (within : items.length < fuel)
    (visits : ∀ between, point ≤ between → ∀ state value, ∀ datum ∈ items,
      outlook.Reads between value datum →
      outlook.Ends between (visit state value) fun answer _ => answer = advance state datum)
    {cursor : Cursor} (yields : outlook.Yields point cursor whole items) (state : τ) :
    outlook.Ends point (Cursor.foldElements visit fuel state cursor) fun answer _ =>
      answer = items.foldl advance state := by
  induction items generalizing point fuel cursor state with
  | nil =>
      rcases fuel with _ | fuel
      · cases within
      apply (nextElement_ends yields).bind
      rintro _ between _ ⟨⟩
      exact Run.Ends.pure rfl
  | cons datum items induction =>
      rcases fuel with _ | fuel
      · cases within
      apply (nextElement_ends yields).bind
      rintro _ between le (_ | ⟨read, yieldsRest⟩)
      apply (visits between le state _ datum (List.mem_cons_self ..) read).bind
      rintro _ later leLater rfl
      refine induction (Nat.lt_of_succ_lt_succ within) ?_ (yields_later leLater yieldsRest) _
      intro last leLast state value other member
      exact visits last (le.trans (leLater.trans leLast)) state value other
        (List.mem_cons_of_mem _ member)

end Outlook

/-! ## Moments -/

/-- At a moment, no walk fails. -/
def Moment.outlook {machine : Machine} (enough : 0 < machine.limit) : Outlook machine Moment where
  discerns := True
  moment := id
  moment_le le := le
  Reads := Moment.Reads
  Walks moment value whole items := whole = true ∧ moment.Walks value items
  reads_later le _ _ := reads_later le
  walks_later le _ _ _ walk := ⟨walk.1, walks_later le walk.2⟩
  standing read := by
    cases read with
    | leaf known placed => exact .leaf known placed
    | sequence kind walk placed => exact .sequence kind ⟨rfl, walk⟩ placed fun _ => nofun
    | map contents readKeys readValues lawful placed =>
        exact .map contents readKeys.forall₂ readValues.forall₂ lawful placed
    | set contents readItems lawful placed =>
        exact .set contents readItems.forall₂ lawful placed
  indexed walk found := ⟨walk.1, (walk.2.indexed found).forall₂⟩
  next := by
    rintro moment value whole items ⟨rfl, walk⟩
    have yields : moment.Yields (.pending value) items := walk
    apply (Cursor.next_gives enough yields).weaken
    rintro _ after _ ⟨element, rest, rfl, meets⟩
    cases meets with
    | done => exact .done
    | element read yields =>
        refine .element read ?_
        cases rest with
        | done => exact ⟨rfl, yields⟩
        | items rest => exact ⟨rfl, yields.forall₂⟩
        | pending value => exact ⟨rfl, yields⟩
  memoizes := Moment.memoize_spec

end LispRuntime
