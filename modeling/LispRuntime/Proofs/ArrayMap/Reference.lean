import LispRuntime.Collection.Tables
import LispRuntime.Proofs.ArrayMap.Sharing
import Mathlib.Data.List.Basic

/-! What operations on array maps come to when every map is a list of its own, in
the order of first insertion. A map is told by when it came to be, and a map
that has been released is nowhere. Which keys are the same is given. -/

namespace LispRuntime.ArrayMap

abbrev Pairs := List (Value × Value)

inductive Operation where
  | create
  /-- A copy that may read the same block. -/
  | share (map : Nat)
  | copyExact (map : Nat)
  /-- Adds a pair without looking for its key. -/
  | append (map : Nat) (key value : Value)
  | assign (map : Nat) (key value : Value)
  | erase (map : Nat) (key : Value)
  | reserve (map pairs : Nat)
  | hash (map : Nat)
  | release (map : Nat)

/-- What an operation answers. Hashes may be told as numbers, or by what was hashed. -/
inductive Outcome (η : Type) where
  | done
  | refused (error : Error)
  | hash (told : η)

/-- What is done was not refused. -/
theorem Outcome.of_done_eq_refused {η : Type} {error : Error} {claim : Prop}
    (refused : (.done : Outcome η) = .refused error) : claim := by
  cases refused

namespace Operation

/-- The key that is added or sought. -/
def key? : Operation → Option Value
  | append _ key _ | assign _ key _ | erase _ key => some key
  | _ => none

def hashed? : Operation → Option Nat
  | hash map => some map
  | _ => none

end Operation

/-! ## Lists of pairs -/

namespace Pairs

section

variable (same : Value → Value → Bool)

def find? (pairs : Pairs) (key : Value) : Option Value :=
  (List.find? (fun pair => same key pair.1) pairs).map Prod.snd

def has (pairs : Pairs) (key : Value) : Bool := pairs.any fun pair => same key pair.1

def add (pairs : Pairs) (key value : Value) : Except Error Pairs :=
  if pairs.length < maxPairs then .ok (pairs ++ [(key, value)])
  else .error (.mapOverflow (maxPairs + 1))

/-- The key that is there stays. -/
def replace (key value : Value) : Pairs → Pairs
  | [] => []
  | pair :: rest =>
      if same key pair.1 then (pair.1, value) :: rest else pair :: replace key value rest

def put (pairs : Pairs) (key value : Value) : Except Error Pairs :=
  if pairs.has same key then .ok (pairs.replace same key value) else pairs.add key value

def remove (pairs : Pairs) (key : Value) : Pairs := pairs.eraseP fun pair => same key pair.1

def room (pairs : Pairs) (count : Nat) : Except Error Pairs :=
  if count ≤ maxPairs then .ok pairs else .error (.mapReserve count)

/-- No key is the same as one that came before it. -/
def Distinct (pairs : Pairs) : Prop :=
  pairs.Pairwise fun earlier later => same later.1 earlier.1 = false

end

def hash (hashOf : Value → UInt32) (pairs : Pairs) : UInt32 :=
  Hash.unordered (pairs.map fun pair => Hash.entry (hashOf pair.1) (hashOf pair.2))

variable {same : Value → Value → Bool} {pairs changed : Pairs} {key value : Value}

theorem has_eq_false_iff :
    pairs.has same key = false ↔ ∀ pair ∈ pairs, same key pair.1 = false := by
  simp [has]

theorem add_eq_error_iff {error : Error} :
    pairs.add key value = .error error ↔
      maxPairs ≤ pairs.length ∧ error = .mapOverflow (maxPairs + 1) := by
  unfold add
  split
  case isTrue room =>
    have notFull : ¬maxPairs ≤ pairs.length := Nat.not_le_of_lt room
    simp [notFull]
  case isFalse full => simp [Nat.le_of_not_lt full, eq_comm]

theorem add_eq_ok (added : pairs.add key value = .ok changed) :
    changed = pairs ++ [(key, value)] ∧ pairs.length < maxPairs := by
  unfold add at added
  split at added
  case isTrue room =>
    cases added
    exact ⟨rfl, room⟩
  case isFalse => cases added

theorem keys_replace (key value : Value) (pairs : Pairs) :
    (pairs.replace same key value).map Prod.fst = pairs.map Prod.fst := by
  induction pairs with
  | nil => rfl
  | cons pair rest induction =>
      rw [replace]
      split
      · rfl
      · rw [List.map_cons, induction, List.map_cons]

theorem mem_keys_of_mem_replace {pair : Value × Value}
    (member : pair ∈ pairs.replace same key value) : ∃ old ∈ pairs, old.1 = pair.1 := by
  have inKeys := List.mem_map_of_mem (f := Prod.fst) member
  rw [keys_replace] at inKeys
  exact List.mem_map.mp inKeys

theorem place_lt {place : Nat}
    (found : pairs.findIdx? (fun pair => same key pair.1) = some place) :
    place < pairs.length :=
  (List.findIdx?_eq_some_iff_getElem.mp found).1

/-- The first key that is the same has its place. -/
theorem replace_of_place {place : Nat} (value : Value)
    (found : pairs.findIdx? (fun pair => same key pair.1) = some place) :
    pairs.replace same key value = Pool.withValue pairs place value := by
  induction pairs generalizing place with
  | nil => cases found
  | cons pair rest induction =>
      rw [List.findIdx?_cons] at found
      rw [replace]
      split at found
      case isTrue here =>
        cases found
        rw [if_pos here]
        rfl
      case isFalse notHere =>
        rcases Option.map_eq_some_iff.mp found with ⟨inRest, foundInRest, rfl⟩
        rw [if_neg notHere, induction foundInRest]
        rfl

theorem has_eq_isSome (same : Value → Value → Bool) (pairs : Pairs) (key : Value) :
    pairs.has same key = (pairs.findIdx? fun pair => same key pair.1).isSome := by
  rw [has, List.findIdx?_isSome]

theorem distinct_iff_keys : pairs.Distinct same ↔
    (pairs.map Prod.fst).Pairwise fun earlier later => same later earlier = false := by
  rw [Distinct, List.pairwise_map]

theorem length_replace (key value : Value) (pairs : Pairs) :
    (pairs.replace same key value).length = pairs.length := by
  rw [← List.length_map Prod.fst, keys_replace, List.length_map]

theorem Distinct.add (distinct : pairs.Distinct same) (absent : pairs.has same key = false)
    (added : pairs.add key value = .ok changed) : changed.Distinct same := by
  rw [(add_eq_ok added).1]
  refine List.pairwise_append.mpr ⟨distinct, List.pairwise_singleton _ _, ?_⟩
  intro pair member other single
  rw [List.mem_singleton.mp single]
  exact has_eq_false_iff.mp absent pair member

theorem Distinct.put (distinct : pairs.Distinct same)
    (put : pairs.put same key value = .ok changed) : changed.Distinct same := by
  unfold Pairs.put at put
  split at put
  case isTrue =>
    cases put
    rwa [distinct_iff_keys, keys_replace, ← distinct_iff_keys]
  case isFalse absent => exact distinct.add (by simpa using absent) put

theorem Distinct.remove (distinct : pairs.Distinct same) (key : Value) :
    (pairs.remove same key).Distinct same :=
  List.Pairwise.sublist List.eraseP_sublist distinct

end Pairs

/-! ## Slots -/

/-- What came to be, in this order, without what has gone. -/
abbrev Slots (α : Type) := List (Option α)

namespace Slots

variable {α : Type}

def held? (slots : Slots α) (index : Nat) : Option α := slots[index]?.join

theorem held?_append (slots : Slots α) (new : Option α) (index : Nat) :
    held? (slots ++ [new]) index = if index = slots.length then new else slots.held? index := by
  rw [held?, List.getElem?_append]
  rcases Nat.lt_trichotomy index slots.length with less | same | greater
  · rw [if_pos less, if_neg (Nat.ne_of_lt less)]
    rfl
  · simp [same]
  · rw [if_neg (Nat.not_lt_of_gt greater), if_neg (Nat.ne_of_gt greater), held?,
      List.getElem?_eq_none (Nat.le_of_lt greater), List.getElem?_eq_none (by simp; omega)]

theorem held?_set (slots : Slots α) (new : Option α) {index : Nat} (inside : index < slots.length)
    (other : Nat) :
    held? (slots.set index new) other = if other = index then new else slots.held? other := by
  rw [held?, List.getElem?_set]
  by_cases same : index = other
  · simp [same, same ▸ inside]
  · rw [if_neg same, if_neg (Ne.symm same)]
    rfl

theorem lt_length_of_held? {slots : Slots α} {index : Nat} {held : α}
    (found : slots.held? index = some held) : index < slots.length := by
  by_contra outside
  rw [held?, List.getElem?_eq_none (Nat.le_of_not_lt outside)] at found
  cases found

theorem set_of_held? {slots : Slots α} {index : Nat} {held : α}
    (found : slots.held? index = some held) : slots.set index (some held) = slots := by
  have inside := lt_length_of_held? found
  have here : slots[index] = some held := by
    rw [held?, List.getElem?_eq_getElem inside] at found
    exact found
  rw [← here, List.set_getElem_self]

/-- What goes is gone, wherever it was. -/
theorem held?_set_none (slots : Slots α) (index other : Nat) :
    held? (slots.set index none) other = if other = index then none else slots.held? other := by
  by_cases inside : index < slots.length
  · exact slots.held?_set none inside other
  · rw [List.set_eq_of_length_le (Nat.le_of_not_lt inside)]
    split
    case isTrue same =>
      rw [held?, List.getElem?_eq_none (same ▸ Nat.le_of_not_lt inside)]
      rfl
    case isFalse => rfl

end Slots

/-! ## Maps -/

/-- All maps, each a list of its own. -/
abbrev Maps := Slots Pairs

namespace Maps

def edit (maps : Maps) (map : Nat) (change : Pairs → Except Error Pairs) :
    Outcome Pairs × Maps :=
  match maps.held? map with
  | none => (.done, maps)
  | some pairs =>
      match change pairs with
      | .ok changed => (.done, maps.set map (some changed))
      | .error error => (.refused error, maps)

section

variable (same : Value → Value → Bool)

def perform (maps : Maps) : Operation → Outcome Pairs × Maps
  | .create => (.done, maps ++ [some []])
  | .share map | .copyExact map => (.done, maps ++ [maps.held? map])
  | .append map key value => maps.edit map fun pairs => pairs.add key value
  | .assign map key value => maps.edit map fun pairs => pairs.put same key value
  | .erase map key => maps.edit map fun pairs => .ok (pairs.remove same key)
  | .reserve map count => maps.edit map fun pairs => pairs.room count
  | .hash map =>
      match maps.held? map with
      | none => (.done, maps)
      | some pairs => (.hash pairs, maps)
  | .release map => (.done, maps.set map none)

def performAll (maps : Maps) : List Operation → List (Outcome Pairs) × Maps
  | [] => ([], maps)
  | operation :: rest =>
      let (outcome, maps) := perform same maps operation
      let (outcomes, maps) := performAll maps rest
      (outcome :: outcomes, maps)

/-- The operation adds a key to a map that holds as many as it can. -/
def Overflows (maps : Maps) : Operation → Prop
  | .append map key _ | .assign map key _ =>
      ∃ pairs, maps.held? map = some pairs ∧ pairs.length = maxPairs ∧
        pairs.has same key = false
  | _ => False

/-- A pair that is added unseen has a new key. -/
def Permits (maps : Maps) : Operation → Prop
  | .append map key _ => ∀ pairs, maps.held? map = some pairs → pairs.has same key = false
  | _ => True

end

/-! ### What operations preserve -/

/-- Every map has distinct keys and no more of them than fit. -/
def Sound (same : Value → Value → Bool) (maps : Maps) : Prop :=
  ∀ map pairs, maps.held? map = some pairs → pairs.Distinct same ∧ pairs.length ≤ maxPairs

theorem sound_nil (same : Value → Value → Bool) : Sound same [] := by
  intro map pairs found
  cases found

section

variable {same : Value → Value → Bool} {maps : Maps}

theorem Sound.append (sound : maps.Sound same) {new : Option Pairs}
    (good : ∀ pairs, new = some pairs → pairs.Distinct same ∧ pairs.length ≤ maxPairs) :
    Sound same (maps ++ [new]) := by
  intro map pairs found
  rw [Slots.held?_append] at found
  split at found
  · exact good pairs found
  · exact sound map pairs found

theorem Sound.edit (sound : maps.Sound same) {map : Nat}
    {change : Pairs → Except Error Pairs}
    (good : ∀ pairs changed, maps.held? map = some pairs → pairs.Distinct same →
      pairs.length ≤ maxPairs → change pairs = .ok changed →
      changed.Distinct same ∧ changed.length ≤ maxPairs) :
    (maps.edit map change).2.Sound same := by
  unfold Maps.edit
  split
  case h_1 => exact sound
  case h_2 pairs found =>
    split
    case h_2 => exact sound
    case h_1 changed made =>
      intro other otherPairs foundOther
      rw [Slots.held?_set _ _ (Slots.lt_length_of_held? found)] at foundOther
      split at foundOther
      · cases foundOther
        exact good pairs _ found (sound map pairs found).1 (sound map pairs found).2 made
      · exact sound other otherPairs foundOther

theorem length_le_of_add {pairs changed : Pairs} {key value : Value}
    (added : pairs.add key value = .ok changed) : changed.length ≤ maxPairs := by
  rcases Pairs.add_eq_ok added with ⟨rfl, room⟩
  rw [List.length_append]
  exact room

theorem Sound.perform (sound : maps.Sound same) {operation : Operation}
    (permits : maps.Permits same operation) :
    (maps.perform same operation).2.Sound same := by
  cases operation with
  | create =>
      exact sound.append fun pairs made => by
        cases made
        exact ⟨.nil, Nat.zero_le _⟩
  | share map => exact sound.append fun pairs found => sound map pairs found
  | copyExact map => exact sound.append fun pairs found => sound map pairs found
  | append map key value =>
      exact sound.edit fun pairs changed found distinct _ added =>
        ⟨distinct.add (permits pairs found) added, length_le_of_add added⟩
  | assign map key value =>
      refine sound.edit fun pairs changed found distinct fits put => ⟨distinct.put put, ?_⟩
      unfold Pairs.put at put
      split at put
      case isTrue =>
        cases put
        rwa [Pairs.length_replace]
      case isFalse => exact length_le_of_add put
  | erase map key =>
      refine sound.edit fun pairs changed found distinct fits removed => ?_
      cases removed
      exact ⟨distinct.remove key, Nat.le_trans List.eraseP_sublist.length_le fits⟩
  | reserve map count =>
      refine sound.edit fun pairs changed found distinct fits made => ?_
      unfold Pairs.room at made
      split at made <;> cases made
      exact ⟨distinct, fits⟩
  | hash map =>
      rw [Maps.perform]
      split <;> exact sound
  | release map =>
      intro other pairs found
      rw [Maps.perform, Slots.held?_set_none] at found
      split at found
      · cases found
      · exact sound other pairs found

theorem edit_refused_iff {map : Nat} {change : Pairs → Except Error Pairs} {error : Error} :
    (maps.edit map change).1 = .refused error ↔
      ∃ pairs, maps.held? map = some pairs ∧ change pairs = .error error := by
  unfold edit
  split
  case h_1 missing => simp [missing]
  case h_2 pairs found =>
    cases made : change pairs <;> simp [found, made]

theorem edit_refused {map : Nat} {change : Pairs → Except Error Pairs} {error : Error}
    (refused : (maps.edit map change).1 = .refused error) : (maps.edit map change).2 = maps := by
  rcases edit_refused_iff.mp refused with ⟨pairs, found, made⟩
  simp [edit, found, made]

/-- What is refused changes nothing. -/
theorem perform_refused {operation : Operation} {error : Error}
    (refused : (maps.perform same operation).1 = .refused error) :
    (maps.perform same operation).2 = maps := by
  cases operation with
  | create | share | copyExact | release => cases refused
  | hash =>
      rw [perform] at refused
      split at refused <;> cases refused
  | append | assign | erase | reserve => exact edit_refused refused

/-- Nothing but a key too many makes a map overflow. -/
theorem overflow_iff (sound : maps.Sound same) {operation : Operation}
    (permits : maps.Permits same operation) (count : Nat) :
    (maps.perform same operation).1 = .refused (.mapOverflow count) ↔
      count = maxPairs + 1 ∧ maps.Overflows same operation := by
  have added : ∀ {map pairs}, maps.held? map = some pairs → ∀ key value,
      pairs.add key value = .error (.mapOverflow count) ↔
        count = maxPairs + 1 ∧ pairs.length = maxPairs := by
    intro map pairs found key value
    have fits := (sound map pairs found).2
    rw [Pairs.add_eq_error_iff, Error.mapOverflow.injEq, and_comm]
    exact and_congr_right fun _ => ⟨Nat.le_antisymm fits, Nat.le_of_eq ∘ Eq.symm⟩
  cases operation with
  | create | share | copyExact | release => simp [perform, Overflows]
  | hash =>
      rw [perform]
      split <;> simp [Overflows]
  | erase => simp [perform, edit_refused_iff, Overflows]
  | reserve map reserved =>
      simp only [perform, edit_refused_iff, Pairs.room, Overflows, and_false, iff_false]
      rintro ⟨pairs, _, refused⟩
      split at refused <;> cases refused
  | append map key value =>
      simp only [perform, edit_refused_iff, Overflows]
      constructor
      · rintro ⟨pairs, found, refused⟩
        rcases (added found key value).mp refused with ⟨ninth, full⟩
        exact ⟨ninth, pairs, found, full, permits pairs found⟩
      · rintro ⟨ninth, pairs, found, full, _⟩
        exact ⟨pairs, found, (added found key value).mpr ⟨ninth, full⟩⟩
  | assign map key value =>
      simp only [perform, edit_refused_iff, Overflows]
      constructor
      · rintro ⟨pairs, found, refused⟩
        unfold Pairs.put at refused
        split at refused
        case isTrue => cases refused
        case isFalse absent =>
          rcases (added found key value).mp refused with ⟨ninth, full⟩
          exact ⟨ninth, pairs, found, full, by simpa using absent⟩
      · rintro ⟨ninth, pairs, found, full, absent⟩
        refine ⟨pairs, found, ?_⟩
        rw [Pairs.put, if_neg (by simp [absent])]
        exact (added found key value).mpr ⟨ninth, full⟩

end

end Maps

end LispRuntime.ArrayMap
