import LispRuntime.Proofs.ArrayMap.Private

/-! Array maps that share blocks behave like lists of their own. A run starts
without handles, so that none of its handles is known to anybody else, and it
creates, copies, writes and releases them in any order. -/

namespace LispRuntime.ArrayMap

/-! ## Running operations -/

/-- The handles of the maps of a run. -/
abbrev Handles := Slots Nat

namespace Handles

def outcomeOf : Except Error Unit → Outcome UInt32
  | .ok _ => .done
  | .error error => .refused error

/-- Does something with a map, if it is there. -/
def visit (handles : Handles) (map : Nat) (operate : Nat → Run (Outcome UInt32)) :
    Run (Outcome UInt32 × Handles) :=
  match handles.held? map with
  | none => return (.done, handles)
  | some handle => return (← operate handle, handles)

/-- Makes a map from one that may be there. -/
def copy (handles : Handles) (map : Nat) (make : Pool Value → Nat → Nat × Pool Value) :
    Run (Outcome UInt32 × Handles) :=
  match handles.held? map with
  | none => return (.done, handles ++ [none])
  | some handle => return (.done, handles ++ [some (← Value.openHandle (make · handle))])

def perform (handles : Handles) : Operation → Run (Outcome UInt32 × Handles)
  | .create => return (.done, handles ++ [some (← Value.openHandle Pool.create)])
  | .share map => handles.copy map Pool.share
  | .copyExact map => handles.copy map Pool.copyExact
  | .append map key value =>
      handles.visit map fun handle =>
        return outcomeOf (← (HandleTable.append handle key value).run)
  | .assign map key value =>
      handles.visit map fun handle =>
        return outcomeOf (← (HandleTable.assign handle key value).run)
  | .erase map key =>
      handles.visit map fun handle => do
        HandleTable.erase handle key
        return .done
  | .reserve map pairs =>
      handles.visit map fun handle =>
        return outcomeOf (← (HandleTable.reserve handle pairs).run)
  | .hash map => handles.visit map fun handle => return .hash (← HandleTable.hash handle)
  | .release map => do
      match handles.held? map with
      | none => return (.done, handles.set map none)
      | some handle =>
          HandleTable.retire handle
          return (.done, handles.set map none)

def performAll (handles : Handles) : List Operation → Run (List (Outcome UInt32) × Handles)
  | [] => return ([], handles)
  | operation :: rest => do
      let (outcome, handles) ← handles.perform operation
      let (outcomes, handles) ← performAll handles rest
      return (outcome :: outcomes, handles)

end Handles

/-! ## What is asked of a run -/

namespace Setting

/-- Keys are keys, a pair is added unseen when its key is new, and what is hashed has
entries of which hashing comes to an end. -/
structure Allows (setting : Setting) (maps : Maps) (operation : Operation) : Prop where
  permits : maps.Permits setting.same operation
  key : ∀ key, operation.key? = some key → setting.IsKey key
  hash : ∀ map pairs, operation.hashed? = some map → maps.held? map = some pairs →
    ∀ pair ∈ pairs, setting.HashEnds pair.1 ∧ setting.HashEnds pair.2

/-- Every operation is allowed on the lists that the ones before it have led to. -/
def AllowsAll (setting : Setting) : Maps → List Operation → Prop
  | _, [] => True
  | maps, operation :: rest =>
      setting.Allows maps operation ∧
        setting.AllowsAll (maps.perform setting.same operation).2 rest

inductive Agrees (setting : Setting) : Outcome UInt32 → Outcome Pairs → Prop where
  | done : setting.Agrees .done .done
  | refused (error : Error) : setting.Agrees (.refused error) (.refused error)
  | hash {hash : UInt32} {pairs : Pairs} (isHash : setting.IsHash hash pairs) :
      setting.Agrees (.hash hash) (.hash pairs)

variable {setting : Setting}

theorem Agrees.refused_iff {outcome : Outcome UInt32} {expected : Outcome Pairs}
    (agrees : setting.Agrees outcome expected) (error : Error) :
    outcome = .refused error ↔ expected = .refused error := by
  cases agrees <;> simp

theorem AllowsAll.sound {maps : Maps} {operations : List Operation}
    (allowed : setting.AllowsAll maps operations) (sound : maps.Sound setting.same) :
    (maps.performAll setting.same operations).2.Sound setting.same := by
  induction operations generalizing maps with
  | nil => exact sound
  | cons operation rest induction => exact induction allowed.2 (sound.perform allowed.1.permits)

end Setting

variable {setting : Setting}

/-! ## Runs -/

/-- The handles denote the lists, each its own. -/
structure Holds (setting : Setting) (now : Moment) (handles : Handles) (maps : Maps) : Prop where
  le : setting.start ≤ now
  length : handles.length = maps.length
  denotes : ∀ map handle, handles.held? map = some handle →
    ∃ pairs, maps.held? map = some pairs ∧ Denoted setting now handle pairs
  absent : ∀ map, handles.held? map = none → maps.held? map = none
  distinct : ∀ map other handle, handles.held? map = some handle →
    handles.held? other = some handle → map = other

namespace Holds

variable {now after : Moment} {handles : Handles} {maps : Maps} {map handle : Nat}

theorem nil (setting : Setting) : Holds setting setting.start [] [] where
  le := le_refl _
  length := rfl
  denotes _ _ found := by cases found
  absent _ _ := rfl
  distinct _ _ _ found := by cases found

/-- One list changes with what its handle denotes. -/
theorem changed (holds : Holds setting now handles maps)
    (found : handles.held? map = some handle) (le : setting.start ≤ after)
    (others : ∀ other pairs, other ≠ handle → Denoted setting now other pairs →
      Denoted setting after other pairs) {pairs : Pairs}
    (denoted : Denoted setting after handle pairs) :
    Holds setting after handles (maps.set map (some pairs)) := by
  rcases holds.denotes map handle found with ⟨old, foundOld, _⟩
  have inside := Slots.lt_length_of_held? foundOld
  refine ⟨le, by simp [holds.length], ?_, ?_, holds.distinct⟩
  · intro other otherHandle foundOther
    rw [Slots.held?_set _ _ inside]
    split
    case isTrue equal =>
      subst equal
      cases found.symm.trans foundOther
      exact ⟨pairs, rfl, denoted⟩
    case isFalse different =>
      rcases holds.denotes other otherHandle foundOther with ⟨otherPairs, foundPairs, otherDenoted⟩
      refine ⟨otherPairs, foundPairs, others _ _ ?_ otherDenoted⟩
      rintro rfl
      exact different (holds.distinct _ _ _ foundOther found)
  · intro other missing
    rw [Slots.held?_set _ _ inside, if_neg, holds.absent other missing]
    rintro rfl
    cases found.symm.trans missing

/-- A new handle comes with a new list. -/
theorem appended (holds : Holds setting now handles maps) (le : setting.start ≤ after)
    (others : ∀ other pairs, Denoted setting now other pairs → Denoted setting after other pairs)
    (new : ∀ others, ¬Denoted setting now handle others) {pairs : Pairs}
    (denoted : Denoted setting after handle pairs) :
    Holds setting after (handles ++ [some handle]) (maps ++ [some pairs]) := by
  have notHeld : ∀ map, handles.held? map ≠ some handle := by
    intro map found
    rcases holds.denotes map handle found with ⟨_, _, denotedBefore⟩
    exact new _ denotedBefore
  refine ⟨le, by simp [holds.length], ?_, ?_, ?_⟩
  · intro map other found
    rw [Slots.held?_append] at found ⊢
    rw [holds.length] at found
    split at found
    case isTrue new =>
      cases found
      exact ⟨pairs, by rw [if_pos new], denoted⟩
    case isFalse old =>
      rcases holds.denotes map other found with ⟨oldPairs, foundPairs, oldDenoted⟩
      rw [if_neg old]
      exact ⟨oldPairs, foundPairs, others _ _ oldDenoted⟩
  · intro map missing
    rw [Slots.held?_append] at missing ⊢
    rw [holds.length] at missing
    split at missing
    case isTrue => cases missing
    case isFalse old => rw [if_neg old, holds.absent map missing]
  · intro map other otherHandle found foundOther
    rw [Slots.held?_append] at found foundOther
    split at found <;> split at foundOther
    case isTrue.isTrue same sameOther => rw [same, sameOther]
    case isTrue.isFalse =>
      cases found
      exact absurd foundOther (notHeld other)
    case isFalse.isTrue =>
      cases foundOther
      exact absurd found (notHeld map)
    case isFalse.isFalse => exact holds.distinct _ _ _ found foundOther

/-- What has gone stays away. -/
theorem appended_none (holds : Holds setting now handles maps) :
    Holds setting now (handles ++ [none]) (maps ++ [none]) := by
  refine ⟨holds.le, by simp [holds.length], ?_, ?_, ?_⟩
  · intro map handle found
    rw [Slots.held?_append] at found ⊢
    rw [holds.length] at found
    split at found
    case isTrue => cases found
    case isFalse old =>
      rw [if_neg old]
      exact holds.denotes map handle found
  · intro map missing
    rw [Slots.held?_append] at missing ⊢
    rw [holds.length] at missing
    split at missing
    case isTrue new => rw [if_pos new]
    case isFalse old => rw [if_neg old, holds.absent map missing]
  · intro map other handle found foundOther
    rw [Slots.held?_append] at found foundOther
    split at found
    case isTrue => cases found
    case isFalse =>
      split at foundOther
      case isTrue => cases foundOther
      case isFalse => exact holds.distinct _ _ _ found foundOther

/-- A handle goes with its list. -/
theorem released (holds : Holds setting now handles maps) (le : setting.start ≤ after)
    (others : ∀ other pairs, handles.held? map ≠ some other →
      Denoted setting now other pairs → Denoted setting after other pairs) :
    Holds setting after (handles.set map none) (maps.set map none) := by
  refine ⟨le, by simp [holds.length], ?_, ?_, ?_⟩
  · intro other handle found
    rw [Slots.held?_set_none] at found ⊢
    split at found
    case isTrue => cases found
    case isFalse different =>
      rcases holds.denotes other handle found with ⟨pairs, foundPairs, denoted⟩
      rw [if_neg different]
      exact ⟨pairs, foundPairs,
        others _ _ (fun foundHere => different (holds.distinct _ _ _ found foundHere)) denoted⟩
  · intro other missing
    rw [Slots.held?_set_none] at missing ⊢
    split at missing
    case isTrue here => rw [if_pos here]
    case isFalse different => rw [if_neg different, holds.absent other missing]
  · intro one other handle found foundOther
    rw [Slots.held?_set_none] at found foundOther
    split at found
    case isTrue => cases found
    case isFalse =>
      split at foundOther
      case isTrue => cases foundOther
      case isFalse => exact holds.distinct _ _ _ found foundOther

end Holds

/-! ### One operation -/

/-- The computation ends, answers as expected, and leaves handles that denote the
expected lists. If it refuses, no handle is new or gone. -/
def Follows (setting : Setting) (now : Moment) (handles : Handles)
    (computation : Run (Outcome UInt32 × Handles)) (expected : Outcome Pairs × Maps) : Prop :=
  ∃ outcome handlesAfter after,
    computation setting.machine now.world = some ((outcome, handlesAfter), after.world) ∧
    setting.Agrees outcome expected.1 ∧ Holds setting after handlesAfter expected.2 ∧
    ∀ error, outcome = .refused error → handlesAfter = handles

namespace Holds

variable {now after : Moment} {handles : Handles} {maps : Maps} {map handle : Nat}

/-- Something is done with one map. -/
theorem visit (holds : Holds setting now handles maps) {operate : Nat → Run (Outcome UInt32)}
    {expected : Outcome Pairs × Maps}
    (missing : maps.held? map = none → expected = (.done, maps))
    (here : ∀ handle pairs, maps.held? map = some pairs → Denoted setting now handle pairs →
      ∃ outcome pairsAfter, setting.Agrees outcome expected.1 ∧
        expected.2 = maps.set map (some pairsAfter) ∧
        Spares setting now (some handle) (operate handle) fun found after =>
          found = outcome ∧ Denoted setting after handle pairsAfter) :
    Follows setting now handles (handles.visit map operate) expected := by
  unfold Handles.visit
  cases found : handles.held? map with
  | none =>
      rw [missing (holds.absent map found)]
      exact ⟨.done, handles, now, rfl, .done, holds, fun _ _ => rfl⟩
  | some handle =>
      rcases holds.denotes map handle found with ⟨pairs, foundPairs, denoted⟩
      rcases here handle pairs foundPairs denoted with
        ⟨outcome, pairsAfter, agrees, changed, spares⟩
      rcases spares.map (fun outcome => (outcome, handles)) with
        ⟨_, after, ran, le, others, rfl, denotedAfter⟩
      refine ⟨outcome, handles, after, ran, agrees, ?_, fun _ _ => rfl⟩
      rw [changed]
      exact holds.changed found le (fun other pairs different =>
        others other pairs fun same => different (Option.some.inj same).symm) denotedAfter

/-- One map is edited, or the edit is refused. -/
theorem edit (holds : Holds setting now handles maps)
    {attempt : Nat → Run (Except Error Unit)} {change : Pairs → Except Error Pairs}
    (edits : ∀ handle pairs, Denoted setting now handle pairs →
      Edits setting now handle pairs (attempt handle) (change pairs)) :
    Follows setting now handles
      (handles.visit map fun handle => return Handles.outcomeOf (← attempt handle))
      (maps.edit map change) := by
  refine holds.visit ?_ ?_
  · intro missing
    simp [Maps.edit, missing]
  · intro handle pairs found denoted
    have edits := edits handle pairs denoted
    unfold Edits at edits
    split at edits
    case h_1 changed made =>
      have edited : maps.edit map change = (.done, maps.set map (some changed)) := by
        simp [Maps.edit, found, made]
      rw [edited]
      exact ⟨.done, changed, .done, rfl, edits.map Handles.outcomeOf⟩
    case h_2 error made =>
      have edited : maps.edit map change = (.refused error, maps) := by
        simp [Maps.edit, found, made]
      rw [edited]
      exact ⟨.refused error, pairs, .refused error, (Slots.set_of_held? found).symm,
        edits.map Handles.outcomeOf⟩

/-- A new handle is appended. -/
theorem opened (holds : Holds setting now handles maps)
    {make : Pool Value → Nat × Pool Value} {pairs : Pairs}
    (spares : Spares setting now none (Value.openHandle make) fun handle after =>
      (∀ others, ¬Denoted setting now handle others) ∧ Denoted setting after handle pairs) :
    Follows setting now handles
      (do return (.done, handles ++ [some (← Value.openHandle make)]))
      (.done, maps ++ [some pairs]) := by
  have answers : Spares setting now none
      (do return (.done, handles ++ [some (← Value.openHandle make)]))
      fun found after => ∃ handle, found = ((.done : Outcome UInt32), handles ++ [some handle]) ∧
        (∀ others, ¬Denoted setting now handle others) ∧ Denoted setting after handle pairs := by
    apply spares.bind
    rintro handle between le ⟨new, denoted⟩
    exact Spares.pure le ⟨handle, rfl, new, denoted⟩
  rcases answers with ⟨_, after, ran, le, others, handle, rfl, new, denoted⟩
  exact ⟨.done, handles ++ [some handle], after, ran, .done,
    holds.appended le (fun other pairs => others other pairs nofun) new denoted,
    fun _ => Outcome.of_done_eq_refused⟩

/-- A new handle denotes what another one does. -/
theorem copied (holds : Holds setting now handles maps)
    {make : Pool Value → Nat → Nat × Pool Value}
    (copies : ∀ handle pairs, Denoted setting now handle pairs →
      Spares setting now none (Value.openHandle (make · handle)) fun copy after =>
        (∀ others, ¬Denoted setting now copy others) ∧ Denoted setting after copy pairs) :
    Follows setting now handles (handles.copy map make) (.done, maps ++ [maps.held? map]) := by
  unfold Handles.copy
  cases found : handles.held? map with
  | none =>
      rw [holds.absent map found]
      exact ⟨_, _, now, rfl, .done, holds.appended_none, fun _ => Outcome.of_done_eq_refused⟩
  | some handle =>
      rcases holds.denotes map handle found with ⟨pairs, foundPairs, denoted⟩
      rw [foundPairs]
      exact holds.opened (copies handle pairs denoted)

/-- What one operation does to the handles is what it does to the lists. -/
theorem perform (holds : Holds setting now handles maps) {operation : Operation}
    (allows : setting.Allows maps operation) :
    Follows setting now handles (handles.perform operation)
      (maps.perform setting.same operation) := by
  have isKey := allows.key
  cases operation with
  | create => exact holds.opened (create_spares holds.le)
  | share => exact holds.copied fun _ _ denoted => share_spares denoted holds.le
  | copyExact => exact holds.copied fun _ _ denoted => copyExact_spares denoted holds.le
  | append _ key =>
      exact holds.edit fun _ _ denoted => append_edits denoted holds.le (isKey key rfl)
  | assign _ key =>
      exact holds.edit fun _ _ denoted => assign_edits denoted holds.le (isKey key rfl)
  | reserve _ count => exact holds.edit fun _ _ denoted => reserve_edits denoted holds.le count
  | erase map key =>
      apply holds.visit (fun missing => by simp [Maps.perform, Maps.edit, missing])
      intro handle pairs found denoted
      rw [Maps.perform, Maps.edit, found]
      exact ⟨.done, _, .done, rfl,
        (erase_edits denoted holds.le (isKey key rfl)).answering Outcome.done⟩
  | hash map =>
      apply holds.visit (fun missing => by simp [Maps.perform, missing])
      intro handle pairs found denoted
      rcases hash_spares denoted holds.le (allows.hash map pairs rfl found) with
        ⟨hash, isHash, spares⟩
      rw [Maps.perform, found]
      exact ⟨.hash hash, pairs, .hash isHash, (Slots.set_of_held? found).symm,
        spares.map Outcome.hash⟩
  | release map =>
      rw [Handles.perform]
      cases found : handles.held? map with
      | none =>
          refine ⟨_, _, now, rfl, .done, holds.released holds.le ?_,
            fun _ => Outcome.of_done_eq_refused⟩
          exact fun _ _ _ denoted => denoted
      | some handle =>
          rcases holds.denotes map handle found with ⟨_, _, denoted⟩
          rcases (retire_spares denoted holds.le).answering
            (Outcome.done, handles.set map none) with ⟨_, after, ran, le, others, rfl, _⟩
          refine ⟨.done, _, after, ran, .done, holds.released le ?_,
            fun _ => Outcome.of_done_eq_refused⟩
          intro other pairs different
          rw [found] at different
          exact others other pairs different

/-- So it is with many operations, one after the other. -/
theorem performAll (holds : Holds setting now handles maps) {operations : List Operation}
    (allowed : setting.AllowsAll maps operations) :
    ∃ outcomes handlesAfter after,
      handles.performAll operations setting.machine now.world =
        some ((outcomes, handlesAfter), after.world) ∧
      List.Forall₂ setting.Agrees outcomes (maps.performAll setting.same operations).1 ∧
      Holds setting after handlesAfter (maps.performAll setting.same operations).2 := by
  induction operations generalizing now handles maps with
  | nil => exact ⟨[], handles, now, rfl, .nil, holds⟩
  | cons operation rest induction =>
      rcases holds.perform allowed.1 with ⟨outcome, between, moment, ran, agrees, holdsBetween, _⟩
      rcases induction holdsBetween allowed.2 with
        ⟨outcomes, handlesAfter, after, ranRest, agreeRest, holdsAfter⟩
      refine ⟨outcome :: outcomes, handlesAfter, after, ?_, .cons agrees agreeRest, holdsAfter⟩
      change (handles.perform operation setting.machine now.world).bind _ = _
      rw [ran]
      change (between.performAll rest setting.machine moment.world).bind _ = _
      rw [ranRest]
      rfl

end Holds

/-! ### What handles show -/

/-- Keys and values take a slot each. -/
def Pool.slots {α : Type} (pool : Pool α) (id : Nat) : Nat := 2 * pool.capacity id

/-- Whoever holds the handle sees these pairs, with distinct keys, and always will. -/
structure Shows (setting : Setting) (now : Moment) (handle : Nat) (pairs : Pairs) : Prop where
  entries : Always setting.machine now (HandleTable.entries handle) pairs
  size : Always setting.machine now (HandleTable.size handle) pairs.length
  find : ∀ key, setting.IsKey key →
    Always setting.machine now (HandleTable.find? handle key) (pairs.find? setting.same key)
  has : ∀ key, setting.IsKey key →
    Always setting.machine now (HandleTable.has handle key) (pairs.has setting.same key)
  distinct : pairs.Distinct setting.same
  slots_even : 2 ∣ now.world.maps.slots handle
  slots_le : now.world.maps.slots handle ≤ 16
  pairs_le : 2 * pairs.length ≤ now.world.maps.slots handle

theorem Denoted.shows {now : Moment} {handle : Nat} {pairs : Pairs}
    (denoted : Denoted setting now handle pairs) (le : setting.start ≤ now)
    (distinct : pairs.Distinct setting.same) : Shows setting now handle pairs := by
  have entries : ∀ later, now ≤ later → later.world.maps.entries handle = pairs :=
    fun later leLater => (denoted.later leLater).entries_eq
  have places : ∀ key, setting.IsKey key → Always setting.machine now
      (HandleTable.placeOf handle key) (pairs.findIdx? fun pair => setting.same key pair.1) :=
    fun key isKey later leLater =>
      placeOf_gives (denoted.later leLater) (le.trans leLater) isKey
  rcases denoted.stored with ⟨record, spare, stored, _⟩
  have fits := stored.fits
  constructor
  · intro later leLater
    exact Gives.looking rfl (Gives.pure (entries later leLater))
  · intro later leLater
    exact Gives.looking rfl (Gives.pure (congrArg List.length (entries later leLater)))
  · intro key isKey later leLater
    apply (places key isKey later leLater).bind
    rintro _ between leBetween rfl
    rw [Pairs.find?, List.find?_eq_bind_findIdx?_getElem?]
    cases pairs.findIdx? fun pair => setting.same key pair.1 with
    | none => exact Gives.pure rfl
    | some place =>
        refine Gives.looking rfl (Gives.pure ?_)
        rw [entries between (leLater.trans leBetween)]
        rfl
  · intro key isKey later leLater
    apply (places key isKey later leLater).bind
    rintro _ _ _ rfl
    exact Gives.pure (pairs.has_eq_isSome setting.same key).symm
  · exact distinct
  · exact Nat.dvd_mul_right _ _
  · rw [Pool.slots, stored.capacity_eq]
    rw [maxPairs] at fits
    omega
  · rw [Pool.slots, stored.capacity_eq]
    omega

/-- What is refused has no effect on any map, and a map overflows when a ninth key is
added, and only then. -/
structure Guarded (setting : Setting) (now : Moment) (handles : Handles) (maps : Maps)
    (operation : Operation) (outcome : Outcome UInt32) (handlesAfter : Handles)
    (after : Moment) : Prop where
  refused : ∀ error, outcome = .refused error → handlesAfter = handles ∧
    ∀ map handle, handles.held? map = some handle →
      after.world.maps.entries handle = now.world.maps.entries handle
  overflow : ∀ count, outcome = .refused (.mapOverflow count) ↔
    count = maxPairs + 1 ∧ maps.Overflows setting.same operation

theorem Holds.guarded {now : Moment} {handles : Handles} {maps : Maps}
    (holds : Holds setting now handles maps) (sound : maps.Sound setting.same)
    {operation : Operation} (allows : setting.Allows maps operation) :
    ∃ outcome handlesAfter after,
      handles.perform operation setting.machine now.world =
        some ((outcome, handlesAfter), after.world) ∧
      Guarded setting now handles maps operation outcome handlesAfter after := by
  rcases holds.perform allows with
    ⟨outcome, handlesAfter, after, ran, agrees, holdsAfter, unlessRefused⟩
  refine ⟨outcome, handlesAfter, after, ran, ?_, ?_⟩
  · intro error refused
    have unchanged := Maps.perform_refused ((agrees.refused_iff error).mp refused)
    have same := unlessRefused error refused
    rw [unchanged, same] at holdsAfter
    refine ⟨same, fun map handle found => ?_⟩
    rcases holds.denotes map handle found with ⟨pairs, foundPairs, denoted⟩
    rcases holdsAfter.denotes map handle found with ⟨pairsAfter, foundAfter, denotedAfter⟩
    cases foundPairs.symm.trans foundAfter
    rw [denoted.entries_eq, denotedAfter.entries_eq]
  · intro count
    rw [agrees.refused_iff]
    exact Maps.overflow_iff sound allows.permits count

/-- As many handles as lists, each showing its own, and guarded against whatever may
come next. -/
structure Faithful (setting : Setting) (now : Moment) (handles : Handles) (maps : Maps) :
    Prop where
  length : handles.length = maps.length
  held : ∀ map, (handles.held? map).isSome = (maps.held? map).isSome
  shows : ∀ map handle pairs, handles.held? map = some handle →
    maps.held? map = some pairs → Shows setting now handle pairs
  guarded : ∀ operation, setting.Allows maps operation →
    ∃ outcome handlesAfter after,
      handles.perform operation setting.machine now.world =
        some ((outcome, handlesAfter), after.world) ∧
      Guarded setting now handles maps operation outcome handlesAfter after

theorem Holds.faithful {now : Moment} {handles : Handles} {maps : Maps}
    (holds : Holds setting now handles maps) (sound : maps.Sound setting.same) :
    Faithful setting now handles maps := by
  refine ⟨holds.length, ?_, ?_, fun _ allows => holds.guarded sound allows⟩
  · intro map
    cases found : handles.held? map with
    | none =>
        rw [holds.absent map found]
        rfl
    | some handle =>
        rcases holds.denotes map handle found with ⟨_, foundPairs, _⟩
        rw [foundPairs]
        rfl
  · intro map handle pairs found foundPairs
    rcases holds.denotes map handle found with ⟨others, foundOthers, denoted⟩
    cases foundPairs.symm.trans foundOthers
    exact denoted.shows holds.le (sound map pairs foundPairs).1

/-- Any run of operations answers as it does on lists of pairs, each private to its
map, and its handles show these lists. -/
theorem performAll_faithful (setting : Setting) (operations : List Operation)
    (allowed : setting.AllowsAll [] operations) :
    ∃ outcomes handles after,
      Handles.performAll [] operations setting.machine setting.start.world =
        some ((outcomes, handles), after.world) ∧
      List.Forall₂ setting.Agrees outcomes (Maps.performAll setting.same [] operations).1 ∧
      Faithful setting after handles (Maps.performAll setting.same [] operations).2 := by
  rcases (Holds.nil setting).performAll allowed with ⟨outcomes, handles, after, ran, agree, holds⟩
  exact ⟨outcomes, handles, after, ran, agree,
    holds.faithful (allowed.sound (Maps.sound_nil _))⟩

/-! Keys without elements, at the beginning of the world. -/

private def leavesSetting : Setting :=
  Setting.ofData ⟨fun _ _ _ _ => none, [], 2⟩ .initial
    (fun value => (value.leaf?.map Datum.leaf).getD default)
    (Moment.remembersRight_initial 0) (by decide)

private def sharingRun : List Operation :=
  [.create, .assign 0 (.integer 1) .nil, .share 0, .assign 1 (.character 'c') .nil,
    .append 0 (.boolean true) .nil, .hash 1, .erase 0 (.integer 1), .reserve 1 9, .release 0]

private theorem reads_leaf {value : Value} {leaf : Leaf} (known : value.leaf? = some leaf)
    (nowhere : value.address? = none) : Moment.initial.Reads value (.leaf leaf) :=
  .leaf known (by simp [Memory.Places, nowhere])

private theorem isKey_leaf {value : Value} {leaf : Leaf} (known : value.leaf? = some leaf)
    (nowhere : value.address? = none) : leavesSetting.IsKey value := by
  simp only [leavesSetting, Setting.ofData, known]
  exact ⟨reads_leaf known nowhere, Nat.le_refl _⟩

private theorem hashEnds_leaf {value : Value} {leaf : Leaf} (known : value.leaf? = some leaf)
    (nowhere : value.address? = none) : leavesSetting.HashEnds value :=
  Setting.hashEnds_of_reads (Moment.remembersRight_initial _) (reads_leaf known nowhere)
    (Nat.le_succ 1)

private theorem sharingRun_allowed : leavesSetting.AllowsAll [] sharingRun := by
  refine ⟨⟨trivial, nofun, nofun⟩, ⟨trivial, ?_, nofun⟩, ⟨trivial, nofun, nofun⟩,
    ⟨trivial, ?_, nofun⟩, ⟨?_, ?_, nofun⟩, ⟨trivial, nofun, ?_⟩, ⟨trivial, ?_, nofun⟩,
    ⟨trivial, nofun, nofun⟩, ⟨trivial, nofun, nofun⟩, trivial⟩
  · rintro _ ⟨⟩
    exact isKey_leaf rfl rfl
  · rintro _ ⟨⟩
    exact isKey_leaf rfl rfl
  · rintro _ ⟨⟩
    rfl
  · rintro _ ⟨⟩
    exact isKey_leaf rfl rfl
  · rintro _ _ ⟨⟩ ⟨⟩ pair member
    rcases List.mem_cons.mp member with rfl | member
    · exact ⟨hashEnds_leaf rfl rfl, hashEnds_leaf rfl rfl⟩
    · cases List.mem_singleton.mp member
      exact ⟨hashEnds_leaf rfl rfl, hashEnds_leaf rfl rfl⟩
  · rintro _ ⟨⟩
    exact isKey_leaf rfl rfl

theorem sharingRun_faithful :
    leavesSetting.AllowsAll [] sharingRun ∧
      ∃ outcomes handles after,
        Handles.performAll [] sharingRun leavesSetting.machine leavesSetting.start.world =
          some ((outcomes, handles), after.world) ∧
        List.Forall₂ leavesSetting.Agrees outcomes
          (Maps.performAll leavesSetting.same [] sharingRun).1 ∧
        Faithful leavesSetting after handles
          (Maps.performAll leavesSetting.same [] sharingRun).2 :=
  ⟨sharingRun_allowed, performAll_faithful leavesSetting sharingRun sharingRun_allowed⟩

end LispRuntime.ArrayMap
