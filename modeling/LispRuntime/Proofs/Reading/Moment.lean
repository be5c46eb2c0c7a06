import LispRuntime.Proofs.ArrayMap.Sharing
import LispRuntime.Proofs.Reading.Basic

/-! A moment of a run is a world together with a memory that fits it: addresses
in the memory have been given out, and maps in the memory are still held by
somebody.

What comes later knows all that was known before. Addresses may have been given
out, lazy seqs may have been realized and known maps may have remembered their
hashes, but a value that could be read still stands for the same datum. -/

namespace LispRuntime

namespace ArrayMap.Pool

variable {α : Type}

/-- A live handle denotes these pairs. -/
def Denotes (pool : Pool α) (id : Nat) (pairs : List (α × α)) : Prop :=
  ∃ handle spare, pool.Stored id handle pairs spare

theorem Denotes.entries_eq {pool : Pool α} {id : Nat} {pairs : List (α × α)}
    (denotes : pool.Denotes id pairs) : pool.entries id = pairs := by
  rcases denotes with ⟨_, _, stored⟩
  exact stored.entries_eq

theorem ChangedOnlyAt.denotes {before after : Pool α} {id other : Nat}
    (change : ChangedOnlyAt before after id) (different : other ≠ id)
    {pairs : List (α × α)} (denotes : before.Denotes other pairs) :
    after.Denotes other pairs := by
  rcases denotes with ⟨handle, spare, stored⟩
  exact ⟨handle, spare, change.stored _ _ _ _ different stored⟩

/-- The hash that a handle remembers; zero when it remembers none. -/
def remembered (pool : Pool α) (id : Nat) : UInt32 :=
  ((pool.handle? id).map Handle.hash).getD 0

theorem Stored.remembered_eq {pool : Pool α} {id : Nat} {handle : Handle}
    {pairs : List (α × α)} {spare : Block α} (stored : pool.Stored id handle pairs spare) :
    pool.remembered id = handle.hash := by
  rw [remembered, stored.found]
  rfl

theorem ChangedOnlyAt.remembered_eq {before after : Pool α} {id other : Nat}
    (change : ChangedOnlyAt before after id) (different : other ≠ id) :
    after.remembered other = before.remembered other := by
  rw [remembered, remembered, change.handle other different]

end ArrayMap.Pool

structure Moment where
  memory : Memory
  world : World
  heap_taken : ∀ index datum, memory (.heap index) = some datum → index < world.addresses
  maps_sound : world.maps.Sound
  map_held : ∀ handle datum, memory (.map handle) = some datum →
    ∃ pairs, world.maps.Denotes handle pairs

namespace Moment

/-- Nothing has been made and nothing is known. -/
def initial : Moment where
  memory _ := none
  world := .initial
  heap_taken _ _ known := nomatch known
  maps_sound := ArrayMap.Pool.sound_empty
  map_held _ _ known := nomatch known

/-- A known map remembers no hash, or the hash of what it denotes, if that costs
no more than some bound. -/
def RemembersWithin (bound : Nat) (moment : Moment) : Prop :=
  ∀ handle datum, moment.memory (.map handle) = some datum → datum.cost ≤ bound →
    moment.world.maps.remembered handle = 0 ∨
      moment.world.maps.remembered handle = datum.hash

/-- No known map remembers a wrong hash. -/
def RemembersRight (moment : Moment) : Prop := ∀ bound, RemembersWithin bound moment

theorem remembersRight_initial : initial.RemembersRight :=
  fun _ _ _ known => nomatch known

theorem RemembersWithin.weaken {moment : Moment} {small large : Nat}
    (remembers : moment.RemembersWithin large) (le : small ≤ large) :
    moment.RemembersWithin small :=
  fun handle datum known within => remembers handle datum known (within.trans le)

/-- Nothing is lost on the way to the later moment. -/
structure Leads (before after : Moment) : Prop where
  memory : ∀ address datum, before.memory address = some datum →
    after.memory address = some datum
  unknown : ∀ handle, before.memory (.map handle) = none → after.memory (.map handle) = none
  addresses : before.world.addresses ≤ after.world.addresses
  realized : ∀ index value, before.world.deferred.get? index = some (.realized value) →
    after.world.deferred.get? index = some (.realized value)
  /-- A map that is not known does not even remember another hash. -/
  stored : ∀ handle record pairs spare, before.world.maps.Stored handle record pairs spare →
    ∃ hash, after.world.maps.Stored handle { record with hash := hash } pairs spare ∧
      (before.memory (.map handle) = none → hash = record.hash)
  remembers : ∀ bound, before.RemembersWithin bound → after.RemembersWithin bound

instance : LE Moment := ⟨Leads⟩

theorem le_refl (moment : Moment) : moment ≤ moment where
  memory _ _ known := known
  unknown _ unknown := unknown
  addresses := Nat.le_refl _
  realized _ _ realized := realized
  stored _ record _ _ stored := ⟨record.hash, stored, fun _ => rfl⟩
  remembers _ right := right

theorem le_trans {first second third : Moment} (le : first ≤ second)
    (leAgain : second ≤ third) : first ≤ third where
  memory _ _ known := leAgain.memory _ _ (le.memory _ _ known)
  unknown _ unknown := leAgain.unknown _ (le.unknown _ unknown)
  addresses := Nat.le_trans le.addresses leAgain.addresses
  realized _ _ realized := leAgain.realized _ _ (le.realized _ _ realized)
  stored handle record pairs spare stored := by
    rcases le.stored _ _ _ _ stored with ⟨hash, storedSecond, same⟩
    rcases leAgain.stored _ _ _ _ storedSecond with ⟨hashAgain, storedThird, sameAgain⟩
    exact ⟨hashAgain, storedThird,
      fun unknown => (sameAgain (le.unknown _ unknown)).trans (same unknown)⟩
  remembers bound right := leAgain.remembers bound (le.remembers bound right)

theorem Leads.denotes {before after : Moment} (le : before ≤ after) {handle : Nat}
    {pairs : List (Value × Value)} (denotes : before.world.maps.Denotes handle pairs) :
    after.world.maps.Denotes handle pairs := by
  rcases denotes with ⟨record, spare, stored⟩
  rcases le.stored _ _ _ _ stored with ⟨_, after, _⟩
  exact ⟨_, spare, after⟩

instance : Preorder Moment where
  le_refl := le_refl
  le_trans _ _ _ := le_trans

/-- Reading in a moment. -/
abbrev Reads (moment : Moment) (value : Value) (datum : Datum) : Prop :=
  LispRuntime.Reads moment.memory moment.world value datum

abbrev ReadsAll (moment : Moment) (values : List Value) (data : List Datum) : Prop :=
  LispRuntime.ReadsAll moment.memory moment.world values data

/-- An entry of a map, read as a key and a value. -/
def ReadsEntry (moment : Moment) (entry : Value × Value) (data : Datum × Datum) : Prop :=
  moment.Reads entry.1 data.1 ∧ moment.Reads entry.2 data.2

abbrev Walks (moment : Moment) (value : Value) (items : List Datum) : Prop :=
  LispRuntime.Walks moment.memory moment.world value items

/-! ## What can be read stays as it is -/

section

variable {before after : Moment}

theorem places_later (le : before ≤ after) {value : Value} {datum : Datum}
    (placed : before.memory.Places value datum) : after.memory.Places value datum :=
  fun address place => le.memory _ _ (placed address place)

theorem entries_later (le : before ≤ after) {handle : Nat} {datum : Datum}
    (known : before.memory (.map handle) = some datum) :
    after.world.maps.entries handle = before.world.maps.entries handle := by
  rcases before.map_held handle datum known with ⟨pairs, denotes⟩
  rw [denotes.entries_eq, (Leads.denotes le denotes).entries_eq]

theorem lawful_later (le : before ≤ after) {value : Value} {datum : Datum} {keys : List Datum}
    (placed : before.memory.Places value datum)
    (lawful : value.IsLawful before.world keys) : value.IsLawful after.world keys := by
  cases value
  case arrayMap handle entries metadata =>
    exact ⟨(entries_later le (placed _ rfl)).trans lawful.1, lawful.2⟩
  all_goals exact lawful

mutual
theorem reads_later (le : before ≤ after) {value : Value} {datum : Datum} :
    before.Reads value datum → after.Reads value datum
  | .leaf known placed => .leaf known (places_later le placed)
  | .sequence kind walk placed =>
      .sequence kind (walks_later le walk) (places_later le placed)
  | .map contents readKeys readValues lawful placed =>
      .map contents (readsAll_later le readKeys) (readsAll_later le readValues)
        (lawful_later le placed lawful) (places_later le placed)
  | .set contents readItems lawful placed =>
      .set contents (readsAll_later le readItems) (lawful_later le placed lawful)
        (places_later le placed)

theorem readsAll_later (le : before ≤ after) {values : List Value} {data : List Datum} :
    before.ReadsAll values data → after.ReadsAll values data
  | .nil => .nil
  | .cons first rest => .cons (reads_later le first) (readsAll_later le rest)

theorem walks_later (le : before ≤ after) {value : Value} {items : List Datum} :
    before.Walks value items → after.Walks value items
  | .nil => .nil
  | .string => .string
  | .list read => .list (readsAll_later le read)
  | .vector read => .vector (readsAll_later le read)
  | .cons read walk => .cons (reads_later le read) (walks_later le walk)
  | .map contents readKeys readValues =>
      .map contents (readsAll_later le readKeys) (readsAll_later le readValues)
  | .set contents read => .set contents (readsAll_later le read)
  | .lazySeq realized isSeq walk =>
      .lazySeq (le.realized _ _ realized) isSeq (walks_later le walk)
end

end

theorem readsEntry_later {before after : Moment} (le : before ≤ after)
    (entry : Value × Value) (data : Datum × Datum) (read : before.ReadsEntry entry data) :
    after.ReadsEntry entry data :=
  read.imp (reads_later le) (reads_later le)

/-! ## Steps to later moments -/

/-- An address is given out, and something is put there. -/
def place (moment : Moment) (datum : Datum) : Moment where
  memory address :=
    if address = .heap moment.world.addresses then some datum else moment.memory address
  world := { moment.world with addresses := moment.world.addresses + 1 }
  heap_taken index other known := by
    split at known
    case isTrue here =>
      cases here
      exact Nat.lt_succ_self _
    case isFalse => exact Nat.lt_succ_of_lt (moment.heap_taken index other known)
  maps_sound := moment.maps_sound
  map_held handle other known := moment.map_held handle other (by simpa using known)

theorem le_place (moment : Moment) (datum : Datum) : moment ≤ moment.place datum where
  memory address other known := by
    have old : address ≠ .heap moment.world.addresses := by
      intro here
      subst here
      exact Nat.lt_irrefl _ (moment.heap_taken _ other known)
    exact (if_neg old).trans known
  unknown handle unknown := by simpa [place] using unknown
  addresses := Nat.le_succ _
  realized _ _ realized := realized
  stored _ record _ _ stored := ⟨record.hash, stored, fun _ => rfl⟩
  remembers bound right handle other known :=
    right handle other (by simpa [place] using known)

theorem place_memory (moment : Moment) (datum : Datum) :
    (moment.place datum).memory (.heap moment.world.addresses) = some datum :=
  if_pos rfl

/-- An address is given out for something that is not known. -/
def skip (moment : Moment) : Moment where
  memory := moment.memory
  world := { moment.world with addresses := moment.world.addresses + 1 }
  heap_taken index datum known := Nat.lt_succ_of_lt (moment.heap_taken index datum known)
  maps_sound := moment.maps_sound
  map_held := moment.map_held

theorem le_skip (moment : Moment) : moment ≤ moment.skip where
  memory _ _ known := known
  unknown _ unknown := unknown
  addresses := Nat.le_succ _
  realized _ _ realized := realized
  stored _ record _ _ stored := ⟨record.hash, stored, fun _ => rfl⟩
  remembers _ right := right

/-- One array map changes. If it is known, somebody still holds it. -/
def withMaps (moment : Moment) {maps : ArrayMap.Pool Value} {id : Nat}
    (change : moment.world.maps.ChangedOnlyAt maps id) (sound : maps.Sound)
    (held : ∀ datum, moment.memory (.map id) = some datum →
      ∃ pairs, maps.Denotes id pairs) : Moment where
  memory := moment.memory
  world := { moment.world with maps := maps }
  heap_taken := moment.heap_taken
  maps_sound := sound
  map_held handle datum known := by
    by_cases same : handle = id
    · subst same
      exact held datum known
    · rcases moment.map_held handle datum known with ⟨pairs, denotes⟩
      exact ⟨pairs, change.denotes same denotes⟩

/-- An array map that is known remembers its hash. -/
theorem memoize_spec {moment : Moment} {handle : Nat} {datum : Datum}
    (known : moment.memory (.map handle) = some datum) :
    ∃ after, moment ≤ after ∧
      after.world =
        { moment.world with maps := moment.world.maps.memoize handle datum.hash } := by
  rcases moment.map_held handle datum known with ⟨pairs, record, spare, stored⟩
  rcases ArrayMap.Pool.memoize_spec stored datum.hash with ⟨memoized, change⟩
  refine ⟨moment.withMaps change (change.sound_of_stored moment.maps_sound memoized)
    (fun _ _ => ⟨pairs, _, spare, memoized⟩), ?_, rfl⟩
  refine ⟨fun _ _ known => known, fun _ unknown => unknown, Nat.le_refl _,
    fun _ _ realized => realized, ?_, ?_⟩
  · intro other record pairs spare storedOther
    by_cases same : other = handle
    · subst same
      refine ⟨datum.hash, (ArrayMap.Pool.memoize_spec storedOther datum.hash).1, ?_⟩
      intro unknown
      cases known.symm.trans unknown
    · exact ⟨record.hash, change.stored _ _ _ _ same storedOther, fun _ => rfl⟩
  · intro bound right other otherDatum knownOther within
    by_cases same : other = handle
    · subst same
      cases known.symm.trans knownOther
      exact .inr memoized.remembered_eq
    · have unchanged := change.remembered_eq same
      exact unchanged ▸ right other otherDatum knownOther within

end Moment

end LispRuntime
