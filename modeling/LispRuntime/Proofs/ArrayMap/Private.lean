import LispRuntime.Proofs.ArrayMap.Reference
import LispRuntime.Proofs.Value.Laws

/-! One handle of an array map among others that may share its block. Equality of
keys and hashing may allocate and may write to the pool themselves: they let
published maps remember their hashes. A handle that is not published yet is left
alone by that, and whatever is written through it leaves all others alone. -/

namespace LispRuntime.ArrayMap

/-! ## What is given -/

/-- The machine of a run, the moment before it, and its keys. From that moment on,
equality of two keys always comes to the same answer. -/
structure Setting where
  machine : Machine
  start : Moment
  IsKey : Value → Prop
  same : Value → Value → Bool
  settled : ∀ sought stored, IsKey sought → IsKey stored →
    Always machine start (stored.equal sought) (same sought stored)

variable {setting : Setting}

namespace Setting

/-- Hashing the value comes to an end, whatever the hash. -/
def HashEnds (setting : Setting) (value : Value) : Prop :=
  ∀ later, setting.start ≤ later → Gives setting.machine later value.hash fun _ _ => True

/-- The hash follows from those of the keys and values, if these are stable. -/
def IsHash (setting : Setting) (hash : UInt32) (pairs : Pairs) : Prop :=
  ∀ hashOf : Value → UInt32,
    (∀ pair ∈ pairs, Always setting.machine setting.start pair.1.hash (hashOf pair.1) ∧
      Always setting.machine setting.start pair.2.hash (hashOf pair.2)) →
    hash = pairs.hash hashOf

/-- Keys that can be read are the same when they stand for one datum. -/
def ofData (machine : Machine) (start : Moment) (datumOf : Value → Datum) {bound : Nat}
    (remembers : start.RemembersWithin bound) (enough : bound + 1 ≤ machine.limit) :
    Setting where
  machine := machine
  start := start
  IsKey value := start.Reads value (datumOf value) ∧ (datumOf value).cost ≤ bound + 1
  same sought stored := datumOf stored == datumOf sought
  settled _ _ soughtKey storedKey :=
    Value.equal_always remembers enough storedKey.1 storedKey.2 soughtKey.1 soughtKey.2

/-- Hashing what can be read comes to an end. -/
theorem hashEnds_of_reads {value : Value} {datum : Datum}
    (remembers : setting.start.RemembersWithin datum.cost)
    (read : setting.start.Reads value datum) (within : datum.cost ≤ setting.machine.limit) :
    setting.HashEnds value :=
  fun later le => (Value.hash_always remembers read within later le).weaken
    fun _ _ _ _ => trivial

end Setting

section Searching

/-- Nothing but the same keyword is equal to a keyword. -/
theorem equalWithin_keyword (stored : Value) (name : Keyword) (fuel : Nat) :
    Value.equalWithin (fuel + 1) stored (.keyword name) =
      pure (match stored with
        | .keyword other => name == other
        | _ => false) := by
  cases stored
  case keyword other =>
    by_cases equal : other = name
    · subst equal
      rw [Value.equalWithin_of_identical (by simp [Value.identical])]
      simp
    · rw [Value.equalWithin_leaf rfl rfl (by simp [Value.identical, equal])]
      have different : (name == other) = false := beq_eq_false_iff_ne.mpr (Ne.symm equal)
      simp [equal, different]
  all_goals rfl

/-- Looking for a keyword by what it is comes to the same as equality. -/
theorem isSought_always {sought stored : Value} (soughtKey : setting.IsKey sought)
    (storedKey : setting.IsKey stored) :
    Always setting.machine setting.start (HandleTable.isSought sought stored)
      (setting.same sought stored) := by
  have always := setting.settled sought stored soughtKey storedKey
  unfold HandleTable.isSought Value.isSoughtKey
  split
  case h_2 => exact always
  case h_1 name =>
    intro later le
    rcases always later le with ⟨_, after, ran, _, rfl⟩
    generalize setting.machine = machine at ran ⊢
    rcases machine with ⟨call, held, _ | limit⟩
    · cases ran
    change Value.equalWithin (limit + 1) stored (.keyword name) _ _ = _ at ran
    rw [equalWithin_keyword] at ran
    have answer := congrArg Prod.fst (Option.some.inj ran)
    cases stored <;> exact Gives.pure answer

theorem placeIn_gives {now : Moment} (le : setting.start ≤ now) {key : Value}
    (isKey : setting.IsKey key) {pairs : Pairs} (keys : ∀ pair ∈ pairs, setting.IsKey pair.1) :
    Gives setting.machine now (PoolAccess.placeIn (HandleTable.isSought key) pairs)
      fun place _ => place = pairs.findIdx? fun pair => setting.same key pair.1 := by
  induction pairs generalizing now with
  | nil => exact Gives.pure rfl
  | cons pair rest induction =>
      apply (isSought_always isKey (keys pair (List.mem_cons_self ..)) now le).bind
      rintro _ between leBetween rfl
      rw [List.findIdx?_cons]
      split
      case isTrue => exact Gives.pure rfl
      case isFalse =>
        refine (induction (le.trans leBetween)
          fun pair member => keys pair (List.mem_cons_of_mem _ member)).bind ?_
        rintro _ _ _ rfl
        exact Gives.pure rfl

end Searching

/-! ## What the handles of a run denote -/

/-- A handle denotes these pairs. It was nowhere when the run started, nobody has
published it, and if it remembers a hash, that is the hash of its pairs. -/
structure Denoted (setting : Setting) (now : Moment) (handle : Nat) (pairs : Pairs) : Prop where
  stored : ∃ record spare, now.world.maps.Stored handle record pairs spare ∧
    (record.hash = 0 ∨ setting.IsHash record.hash pairs)
  fresh : ∀ record pairs spare, ¬setting.start.world.maps.Stored handle record pairs spare
  unknown : now.memory (.map handle) = none
  keys : ∀ pair ∈ pairs, setting.IsKey pair.1

section

variable {now : Moment} {handle : Nat} {pairs : Pairs}

namespace Denoted

theorem entries_eq (denoted : Denoted setting now handle pairs) :
    now.world.maps.entries handle = pairs := by
  rcases denoted.stored with ⟨_, _, stored, _⟩
  exact stored.entries_eq

theorem length_le (denoted : Denoted setting now handle pairs) : pairs.length ≤ maxPairs := by
  rcases denoted.stored with ⟨_, _, stored, _⟩
  exact Nat.le_trans (Nat.le_add_right _ _) stored.fits

/-- Reading does not touch what a handle of the run denotes. -/
theorem later (denoted : Denoted setting now handle pairs) {after : Moment}
    (le : now ≤ after) : Denoted setting after handle pairs := by
  rcases denoted.stored with ⟨record, spare, stored, remembers⟩
  rcases le.stored _ _ _ _ stored with ⟨hash, storedAfter, unchanged⟩
  cases unchanged denoted.unknown
  exact ⟨⟨record, spare, storedAfter, remembers⟩, denoted.fresh,
    le.unknown _ denoted.unknown, denoted.keys⟩

end Denoted

/-- The computation ends, the handles of the run denote what they did, one of them
excepted, and something holds of the answer. -/
def Spares {α : Type} (setting : Setting) (now : Moment) (written : Option Nat)
    (computation : Run α) (post : α → Moment → Prop) : Prop :=
  ∃ answer after, computation setting.machine now.world = some (answer, after.world) ∧
    setting.start ≤ after ∧
    (∀ other pairs, written ≠ some other → Denoted setting now other pairs →
      Denoted setting after other pairs) ∧
    post answer after

namespace Spares

variable {α β : Type} {written : Option Nat} {middle : α → Moment → Prop}
  {post : β → Moment → Prop}

theorem pure {answer : β} (le : setting.start ≤ now) (holds : post answer now) :
    Spares setting now written (Pure.pure answer) post :=
  ⟨answer, now, rfl, le, fun _ _ _ denoted => denoted, holds⟩

theorem bind {computation : Run α} {next : α → Run β}
    (spares : Spares setting now written computation middle)
    (goesOn : ∀ answer between, setting.start ≤ between → middle answer between →
      Spares setting between written (next answer) post) :
    Spares setting now written (computation >>= next) post := by
  rcases spares with ⟨answer, between, ran, le, others, holds⟩
  rcases goesOn answer between le holds with ⟨last, after, ranNext, leAfter, othersNext, done⟩
  refine ⟨last, after, ?_, leAfter, fun other pairs different denoted =>
    othersNext other pairs different (others other pairs different denoted), done⟩
  change (computation setting.machine now.world).bind
    (fun result => next result.1 setting.machine result.2) = some (last, after.world)
  rw [ran]
  exact ranNext

/-- Something is read first. -/
theorem reading {computation : Run α} {next : α → Run β}
    (gives : Gives setting.machine now computation middle)
    (goesOn : ∀ answer between, now ≤ between → middle answer between →
      Spares setting between written (next answer) post) :
    Spares setting now written (computation >>= next) post := by
  rcases gives with ⟨answer, between, ran, le, holds⟩
  rcases goesOn answer between le holds with ⟨last, after, ranNext, leAfter, others, done⟩
  refine ⟨last, after, ?_, leAfter, fun other pairs different denoted =>
    others other pairs different (denoted.later le), done⟩
  change (computation setting.machine now.world).bind
    (fun result => next result.1 setting.machine result.2) = some (last, after.world)
  rw [ran]
  exact ranNext

theorem of_gives {computation : Run β} (le : setting.start ≤ now)
    (gives : Gives setting.machine now computation post) :
    Spares setting now written computation post := by
  rcases gives with ⟨answer, after, ran, leAfter, holds⟩
  exact ⟨answer, after, ran, le.trans leAfter, fun _ _ _ denoted => denoted.later leAfter, holds⟩

/-- A look at the world comes first. -/
theorem looking {computation : Run α} {seen : α} {next : α → Run β}
    (looked : computation setting.machine now.world = some (seen, now.world))
    (spares : Spares setting now written (next seen) post) :
    Spares setting now written (computation >>= next) post := by
  have gives : Gives setting.machine now computation fun found after =>
      seen = found ∧ now = after := ⟨seen, now, looked, le_refl _, rfl, rfl⟩
  apply Spares.reading gives
  rintro _ _ _ ⟨rfl, rfl⟩
  exact spares

theorem map {computation : Run α} {answer : α} {later : Moment → Prop}
    (spares : Spares setting now written computation fun found after =>
      found = answer ∧ later after) (change : α → β) :
    Spares setting now written (do return change (← computation)) fun found after =>
      found = change answer ∧ later after := by
  apply spares.bind
  rintro _ between le ⟨rfl, holds⟩
  exact Spares.pure le ⟨rfl, holds⟩

theorem answering {computation : Run α} {later : Moment → Prop}
    (spares : Spares setting now written computation fun _ after => later after)
    (answer : β) :
    Spares setting now written (computation >>= fun _ => Pure.pure answer) fun found after =>
      found = answer ∧ later after :=
  spares.bind fun _ _ le holds => Spares.pure le ⟨rfl, holds⟩

/-- What nobody wrote is still there. -/
theorem keeping {computation : Run β} (spares : Spares setting now none computation post) :
    Spares setting now none computation fun answer after => post answer after ∧
      ∀ handle pairs, Denoted setting now handle pairs → Denoted setting after handle pairs := by
  rcases spares with ⟨answer, after, ran, le, others, holds⟩
  exact ⟨answer, after, ran, le, others, holds, fun other pairs => others other pairs nofun⟩

end Spares

/-- The attempt ends without an error, and spares the handles of the run. -/
def Achieves {α : Type} (setting : Setting) (now : Moment) (written : Option Nat)
    (attempt : Attempt α) (post : α → Moment → Prop) : Prop :=
  Spares setting now written attempt.run fun outcome after =>
    ∃ answer, outcome = .ok answer ∧ post answer after

namespace Achieves

variable {α β : Type} {written : Option Nat} {middle : α → Moment → Prop}
  {post : β → Moment → Prop}

theorem pure {answer : β} (le : setting.start ≤ now) (holds : post answer now) :
    Achieves setting now written (Pure.pure answer) post :=
  Spares.pure le ⟨answer, rfl, holds⟩

theorem bind {attempt : Attempt α} {next : α → Attempt β}
    (achieves : Achieves setting now written attempt middle)
    (goesOn : ∀ answer between, setting.start ≤ between → middle answer between →
      Achieves setting between written (next answer) post) :
    Achieves setting now written (attempt >>= next) post := by
  apply Spares.bind achieves
  rintro _ between le ⟨answer, rfl, holds⟩
  exact goesOn answer between le holds

theorem lift {computation : Run β} (spares : Spares setting now written computation post) :
    Achieves setting now written (ExceptT.lift computation) post :=
  spares.bind fun answer _ le holds => Spares.pure le ⟨answer, rfl, holds⟩

theorem weaken {attempt : Attempt β} {weak : β → Moment → Prop}
    (achieves : Achieves setting now written attempt post)
    (implies : ∀ answer after, post answer after → weak answer after) :
    Achieves setting now written attempt weak := by
  rcases achieves with ⟨_, after, ran, le, others, answer, rfl, holds⟩
  exact ⟨_, after, ran, le, others, answer, rfl, implies answer after holds⟩

/-- Something is read first. -/
theorem reading {computation : Run α} {next : α → Attempt β}
    (gives : Gives setting.machine now computation middle)
    (goesOn : ∀ answer between, now ≤ between → middle answer between →
      Achieves setting between written (next answer) post) :
    Achieves setting now written (ExceptT.lift computation >>= next) post := by
  have reads : Gives setting.machine now (ExceptT.lift computation : Attempt α).run
      fun outcome after => ∃ answer, outcome = .ok answer ∧ middle answer after :=
    gives.bind fun answer _ _ holds => Gives.pure ⟨answer, rfl, holds⟩
  apply Spares.reading reads
  rintro _ between le ⟨answer, rfl, holds⟩
  exact goesOn answer between le holds

/-- What nobody wrote is still there. -/
theorem keeping {attempt : Attempt β} (achieves : Achieves setting now none attempt post) :
    Achieves setting now none attempt fun answer after => post answer after ∧
      ∀ handle pairs, Denoted setting now handle pairs → Denoted setting after handle pairs := by
  rcases Spares.keeping achieves with ⟨_, after, ran, le, others, ⟨answer, rfl, holds⟩, kept⟩
  exact ⟨_, after, ran, le, others, answer, rfl, holds, kept⟩

/-- A handle is opened and then written; it denoted nothing before. -/
theorem opening_new {opens : Run Nat} {next : Nat → Attempt β}
    (opened : Spares setting now none opens fun handle after =>
      (∀ others, ¬Denoted setting now handle others) ∧ Denoted setting after handle pairs)
    (goesOn : ∀ handle between, setting.start ≤ between →
      (∀ others, ¬Denoted setting now handle others) → Denoted setting between handle pairs →
      Achieves setting between (some handle) (next handle) post) :
    Achieves setting now none (ExceptT.lift opens >>= next) post := by
  rcases opened with ⟨handle, between, ran, le, others, new, denoted⟩
  rcases goesOn handle between le new denoted with
    ⟨outcome, after, ranNext, leAfter, othersNext, done⟩
  refine ⟨outcome, after, ?_, leAfter, ?_, done⟩
  · rw [ExceptT.run_bind_lift]
    change (opens setting.machine now.world).bind
      (fun result => (next result.1).run setting.machine result.2) = some (outcome, after.world)
    rw [ran]
    exact ranNext
  · intro other otherPairs _ denotedOther
    refine othersNext other otherPairs ?_ (others other otherPairs nofun denotedOther)
    rintro ⟨⟩
    exact new _ denotedOther

/-- Nobody else has it. -/
theorem opening {opens : Run Nat} {next : Nat → Attempt β}
    (opened : Spares setting now none opens fun handle after =>
      (∀ others, ¬Denoted setting now handle others) ∧ Denoted setting after handle pairs)
    (goesOn : ∀ handle between, setting.start ≤ between →
      Denoted setting between handle pairs →
      Achieves setting between (some handle) (next handle) post) :
    Achieves setting now none (ExceptT.lift opens >>= next) post :=
  opening_new opened fun handle between le _ denoted => goesOn handle between le denoted

/-- Going through a list with a state that something is known about. -/
theorem foldlM {γ : Type} {step : β → α → Attempt β} {advance : γ → α → γ}
    (Good : Moment → β → γ → Prop) {elements : List α} {state : β} {known : γ}
    (le : setting.start ≤ now) (good : Good now state known)
    (steps : ∀ moment, setting.start ≤ moment → ∀ element ∈ elements, ∀ state known,
      Good moment state known →
      Achieves setting moment written (step state element) fun next after =>
        Good after next (advance known element)) :
    Achieves setting now written (elements.foldlM step state) fun last after =>
      Good after last (elements.foldl advance known) := by
  induction elements generalizing now state known with
  | nil => exact Achieves.pure le good
  | cons element rest induction =>
      rw [List.foldlM_cons]
      apply (steps now le element (List.mem_cons_self ..) state known good).bind
      intro next between leBetween goodNext
      exact induction leBetween goodNext fun moment leMoment other member =>
        steps moment leMoment other (List.mem_cons_of_mem _ member)

end Achieves

/-- The maps change at a handle that is private to the run. -/
theorem write_follows (le : setting.start ≤ now) {maps : Pool Value}
    (change : now.world.maps.ChangedOnlyAt maps handle) (sound : maps.Sound)
    (fresh : ∀ record pairs spare, ¬setting.start.world.maps.Stored handle record pairs spare)
    (unknown : now.memory (.map handle) = none) :
    ∃ after : Moment, after.world = { now.world with maps := maps } ∧
      after.memory = now.memory ∧ setting.start ≤ after ∧
      ∀ setting other pairs, other ≠ handle → Denoted setting now other pairs →
        Denoted setting after other pairs := by
  refine ⟨now.withMaps change sound fun datum known => ?_, rfl, rfl, ?_, ?_⟩
  · cases unknown.symm.trans known
  · refine ⟨le.memory, le.unknown, le.addresses, le.realized, ?_, ?_⟩
    · intro other record pairs spare storedAtStart
      have different : other ≠ handle := by
        rintro rfl
        exact fresh _ _ _ storedAtStart
      rcases le.stored _ _ _ _ storedAtStart with ⟨hash, stored, unchanged⟩
      exact ⟨hash, change.stored _ _ _ _ different stored, unchanged⟩
    · intro bound right other datum known within
      have different : other ≠ handle := by
        rintro rfl
        cases unknown.symm.trans known
      have remembered := change.remembered_eq different
      exact remembered ▸ le.remembers bound right other datum known within
  · intro setting other pairs different denoted
    rcases denoted.stored with ⟨record, spare, stored, remembers⟩
    exact ⟨⟨record, spare, change.stored _ _ _ _ different stored, remembers⟩, denoted.fresh,
      denoted.unknown, denoted.keys⟩

/-- What is written through a handle of the run is what the handle denotes then. -/
theorem Denoted.written (denoted : Denoted setting now handle pairs)
    (le : setting.start ≤ now) {maps : Pool Value} {record : Handle} {changed : Pairs}
    {spare : Block Value} (stored : maps.Stored handle record changed spare)
    (remembers : record.hash = 0 ∨ setting.IsHash record.hash changed)
    (change : now.world.maps.ChangedOnlyAt maps handle)
    (keys : ∀ pair ∈ changed, setting.IsKey pair.1) :
    Spares setting now (some handle) (Run.pool.write maps) fun _ after =>
      Denoted setting after handle changed := by
  rcases write_follows le change (change.sound_of_stored now.maps_sound stored) denoted.fresh
    denoted.unknown with ⟨after, world, memory, leAfter, others⟩
  refine ⟨(), after, by rw [world]; rfl, leAfter, fun other pairs different =>
    others setting other pairs fun same => different (congrArg some same.symm), ?_⟩
  refine ⟨⟨record, spare, ?_, remembers⟩, denoted.fresh, ?_, keys⟩
  · rw [world]
    exact stored
  · rw [memory]
    exact denoted.unknown

/-! ## Operations -/

/-- The computation answers as an edit of the pairs does, and the handle then
denotes what came of it; what is refused leaves it as it was. -/
def Edits (setting : Setting) (now : Moment) (handle : Nat) (pairs : Pairs)
    (attempt : Run (Except Error Unit)) (result : Except Error Pairs) : Prop :=
  match result with
  | .ok changed =>
      Spares setting now (some handle) attempt fun found after =>
        found = .ok () ∧ Denoted setting after handle changed
  | .error error =>
      Spares setting now (some handle) attempt fun found after =>
        found = .error error ∧ Denoted setting after handle pairs

theorem Edits.reading {α : Type} {computation : Run α} {answer : α}
    {next : α → Run (Except Error Unit)} {result : Except Error Pairs}
    (gives : Gives setting.machine now computation fun found _ => found = answer)
    (edits : ∀ between, now ≤ between →
      Edits setting between handle pairs (next answer) result) :
    Edits setting now handle pairs (computation >>= next) result := by
  cases result with
  | ok | error =>
      apply Spares.reading gives
      rintro _ between le rfl
      exact edits between le

variable {key value : Value}

theorem append_edits (denoted : Denoted setting now handle pairs) (le : setting.start ≤ now)
    (isKey : setting.IsKey key) :
    Edits setting now handle pairs (Run.pool.append handle key value)
      (pairs.add key value) := by
  rcases denoted.stored with ⟨record, spare, stored, _⟩
  have spec := Pool.append_spec stored key value
  unfold Pairs.add
  split at spec
  case isTrue room =>
    rcases spec with ⟨maps, appended, ⟨written, rest, storedAfter, forgotten⟩, change⟩
    rw [if_pos room]
    apply Spares.looking rfl
    rw [appended]
    refine (denoted.written le storedAfter (.inl forgotten) change ?_).answering _
    intro pair member
    rcases List.mem_append.mp member with member | member
    · exact denoted.keys pair member
    · rwa [List.mem_singleton.mp member]
  case isFalse full =>
    rw [if_neg full]
    apply Spares.looking rfl
    rw [spec]
    exact Spares.pure le ⟨rfl, denoted⟩

theorem placeOf_gives (denoted : Denoted setting now handle pairs) (le : setting.start ≤ now)
    (isKey : setting.IsKey key) :
    Gives setting.machine now (HandleTable.placeOf handle key) fun place _ =>
      place = pairs.findIdx? fun pair => setting.same key pair.1 := by
  apply Gives.looking rfl
  rw [denoted.entries_eq]
  exact placeIn_gives le isKey denoted.keys

theorem assign_edits (denoted : Denoted setting now handle pairs) (le : setting.start ≤ now)
    (isKey : setting.IsKey key) :
    Edits setting now handle pairs
      (Run.pool.assign (HandleTable.isSought key) handle key value)
      (pairs.put setting.same key value) := by
  have search := placeOf_gives denoted le isKey
  have has := pairs.has_eq_isSome setting.same key
  cases place : pairs.findIdx? (fun pair => setting.same key pair.1) with
  | none =>
      rw [place] at search has
      rw [Pairs.put, if_neg (by simp [has])]
      refine Edits.reading search fun between leBetween => ?_
      exact append_edits (denoted.later leBetween) (le.trans leBetween) isKey
  | some place =>
      rw [place] at search has
      rw [Pairs.put, if_pos (by simp [has])]
      apply Spares.reading search
      rintro _ between leBetween rfl
      apply Spares.looking rfl
      have denotedBetween := denoted.later leBetween
      rcases denotedBetween.stored with ⟨record, spare, stored, _⟩
      rcases Pool.assignAt_spec stored (Pairs.place_lt place) value with
        ⟨⟨written, storedAfter, forgotten⟩, change⟩
      rw [← Pairs.replace_of_place value place] at storedAfter
      refine (denotedBetween.written (le.trans leBetween) storedAfter (.inl forgotten) change
        ?_).answering _
      intro pair member
      rcases Pairs.mem_keys_of_mem_replace member with ⟨old, oldMember, sameKey⟩
      exact sameKey ▸ denoted.keys old oldMember

theorem erase_edits (denoted : Denoted setting now handle pairs) (le : setting.start ≤ now)
    (isKey : setting.IsKey key) :
    Spares setting now (some handle) (HandleTable.erase handle key) fun _ after =>
      Denoted setting after handle (pairs.remove setting.same key) := by
  have search := placeOf_gives denoted le isKey
  rw [Pairs.remove, List.eraseP_eq_eraseIdx]
  apply Spares.reading search
  rintro _ between leBetween rfl
  have denotedBetween := denoted.later leBetween
  cases place : pairs.findIdx? (fun pair => setting.same key pair.1) with
  | none => exact Spares.pure (le.trans leBetween) denotedBetween
  | some place =>
      have inside := Pairs.place_lt place
      apply Spares.looking rfl
      rcases denotedBetween.stored with ⟨record, spare, stored, _⟩
      rcases Pool.removeAt_spec stored inside with ⟨⟨written, storedAfter, forgotten⟩, change⟩
      apply denotedBetween.written (le.trans leBetween) storedAfter (.inl forgotten) change
      exact fun pair member => denoted.keys pair (List.mem_of_mem_eraseIdx member)

theorem reserve_edits (denoted : Denoted setting now handle pairs) (le : setting.start ≤ now)
    (count : Nat) :
    Edits setting now handle pairs (Run.pool.reserve handle count)
      (pairs.room count) := by
  rcases denoted.stored with ⟨record, spare, stored, remembers⟩
  have spec := Pool.reserve_spec stored count
  unfold Pairs.room
  split at spec
  case isTrue room =>
    rcases spec with ⟨maps, reserved, ⟨moved, rest, storedAfter, unchanged, _⟩, change⟩
    rw [if_pos room]
    apply Spares.looking rfl
    rw [reserved]
    exact (denoted.written le storedAfter (unchanged ▸ remembers) change denoted.keys).answering _
  case isFalse tooMany =>
    rw [if_neg tooMany]
    apply Spares.looking rfl
    rw [spec]
    exact Spares.pure le ⟨rfl, denoted⟩

/-! ### Hashing -/

theorem hashWithin_gives {value : Value} {hash : UInt32} (le : setting.start ≤ now)
    (always : Always setting.machine setting.start value.hash hash) :
    Gives setting.machine now (Value.hashWithin setting.machine.limit value)
      fun found _ => found = hash := by
  rcases always now le with ⟨answer, after, ran, ends⟩
  exact ⟨answer, after, ran, ends⟩

/-- Hashes of stable entries come out the same whenever they are worked out. -/
theorem hashEntries_gives (le : setting.start ≤ now) {hashOf : Value → UInt32}
    (stable : ∀ pair ∈ pairs,
      Always setting.machine setting.start pair.1.hash (hashOf pair.1) ∧
      Always setting.machine setting.start pair.2.hash (hashOf pair.2)) :
    Gives setting.machine now
      (Value.hashEntries (Value.hashWithin setting.machine.limit) pairs)
      fun hash _ => hash = pairs.hash hashOf := by
  have each : Gives setting.machine now
      (pairs.mapM fun pair => do
        let key ← Value.hashWithin setting.machine.limit pair.1
        let value ← Value.hashWithin setting.machine.limit pair.2
        return Hash.entry key value)
      fun hashes _ => List.Forall₂
        (fun hash pair => hash = Hash.entry (hashOf pair.1) (hashOf pair.2)) hashes pairs := by
    refine Gives.mapM (fun _ (element pair : Value × Value) => element = pair)
      (fun _ (hash : UInt32) (pair : Value × Value) =>
        hash = Hash.entry (hashOf pair.1) (hashOf pair.2))
      (fun _ _ _ equal => equal) (fun _ _ _ equal => equal)
      (List.forall₂_same.mpr fun _ _ => rfl) ?_
    rintro between leBetween _ pair member rfl
    apply (hashWithin_gives (le.trans leBetween) (stable _ member).1).bind
    rintro _ later leLater rfl
    apply (hashWithin_gives (le.trans (leBetween.trans leLater)) (stable _ member).2).bind
    rintro _ _ _ rfl
    exact Gives.pure rfl
  apply each.bind
  intro hashes _ _ equal
  refine Gives.pure (congrArg Hash.unordered ?_)
  exact List.forall₂_eq_eq_eq ▸ List.forall₂_map_right_iff.mpr equal

theorem hashEntries_ends (le : setting.start ≤ now)
    (ends : ∀ pair ∈ pairs, setting.HashEnds pair.1 ∧ setting.HashEnds pair.2) :
    Gives setting.machine now
      (Value.hashEntries (Value.hashWithin setting.machine.limit) pairs)
      fun hash _ => setting.IsHash hash pairs := by
  have one : ∀ {value : Value} {moment : Moment}, setting.start ≤ moment →
      setting.HashEnds value →
      Gives setting.machine moment (Value.hashWithin setting.machine.limit value)
        fun _ _ => True := by
    intro value moment le ends
    rcases ends moment le with ⟨answer, after, ran, done⟩
    exact ⟨answer, after, ran, done⟩
  have each : Gives setting.machine now
      (Value.hashEntries (Value.hashWithin setting.machine.limit) pairs) fun _ _ => True := by
    refine (Gives.mapM (fun _ (element pair : Value × Value) => element = pair)
      (fun _ (_ : UInt32) (_ : Value × Value) => True)
      (fun _ _ _ equal => equal) (fun _ _ _ _ => trivial)
      (List.forall₂_same.mpr fun _ _ => rfl) ?_).bind fun _ _ _ _ => Gives.pure trivial
    rintro between leBetween _ pair member rfl
    refine (one (le.trans leBetween) (ends _ member).1).bind fun _ later leLater _ => ?_
    refine (one (le.trans (leBetween.trans leLater)) (ends _ member).2).bind fun _ _ _ _ => ?_
    exact Gives.pure trivial
  rcases each with ⟨hash, after, ran, leAfter, _⟩
  refine ⟨hash, after, ran, leAfter, fun hashOf stable => ?_⟩
  rcases hashEntries_gives le stable with ⟨_, _, ranAgain, _, rfl⟩
  exact congrArg Prod.fst (Option.some.inj (ran.symm.trans ranAgain))

/-- A remembered hash is right, and so is one that is worked out. -/
theorem hash_spares (denoted : Denoted setting now handle pairs) (le : setting.start ≤ now)
    (ends : ∀ pair ∈ pairs, setting.HashEnds pair.1 ∧ setting.HashEnds pair.2) :
    ∃ hash, setting.IsHash hash pairs ∧
      Spares setting now (some handle) (HandleTable.hash handle) fun found after =>
        found = hash ∧ Denoted setting after handle pairs := by
  rcases denoted.stored with ⟨record, spare, stored, remembers⟩
  have known : ((now.world.maps.handle? handle).map Handle.hash).getD 0 = record.hash :=
    stored.remembered_eq
  by_cases nonzero : (record.hash != 0) = true
  · refine ⟨record.hash, remembers.resolve_left (bne_iff_ne.mp nonzero), ?_⟩
    refine Spares.looking rfl (Spares.looking rfl ?_)
    dsimp only
    rw [known, if_pos nonzero]
    exact Spares.pure le ⟨rfl, denoted⟩
  · rcases hashEntries_ends le ends with ⟨hash, between, ran, leBetween, isHash⟩
    refine ⟨hash, isHash, Spares.looking rfl (Spares.looking rfl ?_)⟩
    dsimp only
    rw [known, if_neg nonzero, denoted.entries_eq]
    have gives : Gives setting.machine now _ fun found _ => found = hash :=
      ⟨hash, between, ran, leBetween, rfl⟩
    apply Spares.reading gives
    rintro found between leBetween rfl
    apply Spares.looking rfl
    have denotedBetween := denoted.later leBetween
    rcases denotedBetween.stored with ⟨record, spare, stored, _⟩
    rcases Pool.memoize_spec stored found with ⟨memoized, change⟩
    exact (denotedBetween.written (le.trans leBetween) memoized (.inr isHash) change
      denoted.keys).answering found

/-! ### Old and new handles -/

theorem retire_spares (denoted : Denoted setting now handle pairs) (le : setting.start ≤ now) :
    Spares setting now (some handle) (HandleTable.retire handle) fun _ _ => True := by
  rcases Pool.retire_spec now.world.maps handle with ⟨retired, change⟩
  have sound : (now.world.maps.retire handle).Sound :=
    change.sound now.maps_sound fun record found live => by
      cases live.symm.trans (retired record found)
  rcases write_follows le change sound denoted.fresh denoted.unknown with
    ⟨after, world, _, leAfter, others⟩
  exact ⟨(), after, by rw [world]; rfl, leAfter, fun other pairs different =>
    others setting other pairs fun same => different (congrArg some same.symm), trivial⟩

/-- A handle that is opened denoted nothing before. -/
theorem openHandle_spares (le : setting.start ≤ now) {make : Pool Value → Nat × Pool Value}
    {record : Handle} {spare : Block Value}
    (isNext : (make now.world.maps).1 = now.world.maps.handles.next)
    (stored : (make now.world.maps).2.Stored (make now.world.maps).1 record pairs spare)
    (change : now.world.maps.ChangedOnlyAt (make now.world.maps).2 (make now.world.maps).1)
    (remembers : record.hash = 0 ∨ setting.IsHash record.hash pairs)
    (keys : ∀ pair ∈ pairs, setting.IsKey pair.1) :
    Spares setting now none (Value.openHandle make) fun handle after =>
      (∀ others, ¬Denoted setting now handle others) ∧ Denoted setting after handle pairs := by
  rw [isNext] at stored change
  have notThere : ∀ record pairs spare,
      ¬now.world.maps.Stored now.world.maps.handles.next record pairs spare :=
    fun _ _ _ stored => Nat.lt_irrefl _ (Store.lt_next_of_get? stored.found)
  have notDenoted : ∀ others, ¬Denoted setting now now.world.maps.handles.next others := by
    intro others denoted
    rcases denoted.stored with ⟨_, _, stored, _⟩
    exact notThere _ _ _ stored
  have fresh : ∀ record pairs spare,
      ¬setting.start.world.maps.Stored now.world.maps.handles.next record pairs spare := by
    intro record pairs spare storedAtStart
    rcases le.stored _ _ _ _ storedAtStart with ⟨_, stored, _⟩
    exact notThere _ _ _ stored
  have unknown : now.memory (.map now.world.maps.handles.next) = none := by
    cases known : now.memory (.map now.world.maps.handles.next) with
    | none => rfl
    | some datum =>
        rcases now.map_held _ datum known with ⟨_, _, _, stored⟩
        exact absurd stored (notThere _ _ _)
  rcases write_follows le change (change.sound_of_stored now.maps_sound stored) fresh unknown with
    ⟨after, world, memory, leAfter, others⟩
  refine ⟨now.world.maps.handles.next, after, ?_, leAfter, ?_, notDenoted,
    ⟨record, spare, ?_, remembers⟩, fresh, ?_, keys⟩
  · rw [world, ← isNext]
    rfl
  · intro other otherPairs _ denoted
    refine others setting other otherPairs ?_ denoted
    rintro rfl
    exact notDenoted _ denoted
  · rw [world]
    exact stored
  · rw [memory]
    exact unknown

theorem create_spares (le : setting.start ≤ now) :
    Spares setting now none (Value.openHandle Pool.create) fun handle after =>
      (∀ others, ¬Denoted setting now handle others) ∧ Denoted setting after handle [] := by
  rcases Pool.create_spec now.world.maps with ⟨⟨record, stored, forgotten⟩, change⟩
  exact openHandle_spares le rfl stored change (.inl forgotten) (by simp)

/-- The copy denotes what the handle does, whoever knows the handle. -/
theorem shareStored_spares {record : Handle} {spare : Block Value}
    (stored : now.world.maps.Stored handle record pairs spare)
    (remembers : record.hash = 0 ∨ setting.IsHash record.hash pairs)
    (keys : ∀ pair ∈ pairs, setting.IsKey pair.1) (le : setting.start ≤ now) :
    Spares setting now none (Value.openHandle (Pool.share · handle)) fun copy after =>
      (∀ others, ¬Denoted setting now copy others) ∧ Denoted setting after copy pairs := by
  rcases Pool.share_spec stored with ⟨storedCopy, change⟩
  refine openHandle_spares le ?_ storedCopy change remembers keys
  simp only [Pool.share, stored.found, Pool.addHandle]

theorem share_spares (denoted : Denoted setting now handle pairs) (le : setting.start ≤ now) :
    Spares setting now none (Value.openHandle (Pool.share · handle)) fun copy after =>
      (∀ others, ¬Denoted setting now copy others) ∧ Denoted setting after copy pairs := by
  rcases denoted.stored with ⟨record, spare, stored, remembers⟩
  exact shareStored_spares stored remembers denoted.keys le

/-- So does one with a block of its own. -/
theorem copyStored_spares {record : Handle} {spare : Block Value}
    (stored : now.world.maps.Stored handle record pairs spare)
    (remembers : record.hash = 0 ∨ setting.IsHash record.hash pairs)
    (keys : ∀ pair ∈ pairs, setting.IsKey pair.1) (le : setting.start ≤ now) :
    Spares setting now none (Value.openHandle (Pool.copyExact · handle)) fun copy after =>
      (∀ others, ¬Denoted setting now copy others) ∧ Denoted setting after copy pairs := by
  rcases Pool.copyExact_spec stored with ⟨⟨copy, storedCopy, sameHash⟩, change⟩
  refine openHandle_spares le ?_ storedCopy change (sameHash ▸ remembers) keys
  simp only [Pool.copyExact, stored.found, Pool.addHandle, Pool.addBlock]

theorem copyExact_spares (denoted : Denoted setting now handle pairs) (le : setting.start ≤ now) :
    Spares setting now none (Value.openHandle (Pool.copyExact · handle)) fun copy after =>
      (∀ others, ¬Denoted setting now copy others) ∧ Denoted setting after copy pairs := by
  rcases denoted.stored with ⟨record, spare, stored, remembers⟩
  exact copyStored_spares stored remembers denoted.keys le

end

end LispRuntime.ArrayMap
