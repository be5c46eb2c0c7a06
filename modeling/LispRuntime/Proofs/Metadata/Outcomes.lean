import LispRuntime.Proofs.Collection.Agreement
import LispRuntime.Proofs.Metadata.Changes

/-! What changes come to. One change of two collections that are alike, made with keys and values
that are alike, ends in the same way: with collections that are alike, or with the same error. -/

namespace LispRuntime

open ArrayMap (Achieves)

/-! ## Refusals -/

/-- The error of a key that is no index of a new or an old element. -/
def Value.updateRefusal (key : Value) (length : Nat) : Error :=
  match key with
  | .integer index => .indexOutOfBounds index length
  | other => .wrongType "assoc" "integer" other.typeName

/-- The error of a change that contents of this type cannot make. -/
def Change.refusal (change : Change) (contents : Contents) (typeName : String) : Error :=
  match change with
  | assoc key _ =>
      match contents with
      | .vector items => key.updateRefusal items.length
      | _ => .wrongType "assoc" "map or vector" typeName
  | dissoc _ => .wrongType "dissoc" "map" typeName
  | conj item => .wrongType "conj" "map entry vector" item.typeName
  | disj _ => .wrongType "disj" "set" typeName
  | pop =>
      match contents with
      | .vector _ => .evaluation "Can't pop empty vector"
      | _ => .wrongType "pop" "list or vector" typeName

section

variable {datumOf : Value → Datum} {collection key item : Value} {contents : Contents}

theorem Value.conjEntry_of_none (map : Value) (none : item.addedEntries? = none) :
    map.conjEntry item = throw (.wrongType "conj" "map entry vector" item.typeName) := by
  unfold conjEntry
  split
  case h_1 => cases none
  case h_2 other =>
    rw [addedEntries?_eq_mapEntries? other] at none
    generalize item.mapEntries? = entries at none
    cases none
    rfl

theorem Value.updateIndex_eq_throw {length : Nat} (none : Contents.placeOf? key length = none) :
    updateIndex key length = throw (key.updateRefusal length) := by
  cases key
  case integer index =>
    have outside : ¬(0 ≤ index ∧ index.toInt.toNat ≤ length) := by
      intro within
      cases (if_pos within).symm.trans none
    exact if_neg outside
  all_goals rfl

theorem Value.assoc_eq_throw (has : collection.contents? = some contents) {value : Value}
    (refused : contents.assoc datumOf key value = none) :
    collection.assoc key value =
      throw ((Change.assoc key value).refusal contents collection.typeName) := by
  cases collection <;> cases has
  case vector items _ =>
    have outside : Contents.placeOf? key items.length = none := Option.map_eq_none_iff.mp refused
    rw [Value.assoc, Value.updateIndex_eq_throw outside]
    rfl
  case hashSet | sortedSet => rfl
  all_goals cases refused

/-- A map takes in whatever is an entry or a map. -/
theorem Contents.addedEntries_eq_none (isMap : contents.shape = .map)
    (refused : (item.addedEntries?.bind fun entries => contents.assocAll datumOf entries) = none) :
    item.addedEntries? = none := by
  cases added : item.addedEntries? with
  | none => rfl
  | some entries =>
      rcases Contents.exists_assocAll isMap entries with ⟨changed, made⟩
      rw [added, Option.bind_some, made] at refused
      cases refused

theorem Value.conj_eq_throw (has : collection.contents? = some contents)
    (refused : contents.conj datumOf item = none) :
    collection.conj item =
      throw ((Change.conj item).refusal contents collection.typeName) := by
  cases collection <;> cases has
  case arrayMap | hashMap | sortedMap =>
    exact conjEntry_of_none _ (Contents.addedEntries_eq_none rfl refused)
  all_goals cases refused

theorem Value.pop_eq_throw (has : collection.contents? = some contents)
    (refused : contents.pop = none) :
    collection.pop = throw (Change.pop.refusal contents collection.typeName) := by
  cases collection <;> cases has
  case vector items _ =>
    cases items with
    | nil => rfl
    | cons => cases refused
  all_goals rfl

/-- A change that the contents cannot make ends at once. -/
theorem Change.persistent_eq_throw (has : collection.contents? = some contents) {change : Change}
    (refused : contents.change datumOf change = none) :
    change.persistent collection = throw (change.refusal contents collection.typeName) := by
  cases change with
  | assoc key value => exact Value.assoc_eq_throw has refused
  | dissoc key => cases collection <;> cases has <;> first | (cases refused; done) | rfl
  | conj item => exact Value.conj_eq_throw has refused
  | disj item => cases collection <;> cases has <;> first | (cases refused; done) | rfl
  | pop => exact Value.pop_eq_throw has refused

theorem Value.updateRefusal_alike {cells : Store Deferred} {other : Value}
    (alike : Alike cells key other) (length : Nat) :
    key.updateRefusal length = other.updateRefusal length := by
  cases alike <;> rfl

theorem Change.refusal_alike {cells : Store Deferred} {change other : Change}
    {otherContents : Contents} (changes : ChangeAlike cells datumOf change other)
    (alike : ContentsAlike cells datumOf contents otherContents) (typeName : String) :
    change.refusal contents typeName = other.refusal otherContents typeName := by
  cases changes with
  | assoc keyAlike =>
      cases alike with
      | vector alike =>
          change Value.updateRefusal _ _ = Value.updateRefusal _ _
          rw [Value.updateRefusal_alike keyAlike.alike, alike.length_eq]
      | arrayMap | hashMap | sortedMap | hashSet | sortedSet => rfl
  | conj itemAlike => exact congrArg (Error.wrongType _ _) itemAlike.alike.typeName_eq
  | pop => cases alike <;> rfl
  | dissoc | disj => rfl

end

/-! ## Collections with contents -/

section

variable {moment : Moment} {collection other : Value} {change changeToo : Change}
  {machine : Machine}

theorem AgreeAt.refused {world : World} {left right : Attempt Value}
    {related : Value → Value → Prop} {error : Error} (fails : left = throw error)
    (failsToo : right = throw error) :
    AgreeAt machine world left.run right.run (SameOutcome related) := by
  subst fails failsToo
  exact ⟨_, _, world, world, rfl, rfl, .error error⟩

theorem AgreeAt.of_achieves {setting : ArrayMap.Setting} {now : Moment} {left right : Attempt Value}
    {post postToo : Value → Moment → Prop} {related : Value → Value → Prop}
    (achieves : Achieves setting now none left post)
    (achievesToo : Achieves setting now none right postToo)
    (implies : ∀ answer other after afterToo, post answer after → postToo other afterToo →
      related answer other) :
    AgreeAt setting.machine now.world left.run right.run (SameOutcome related) := by
  rcases achieves with ⟨_, after, ran, _, _, answer, rfl, holds⟩
  rcases achievesToo with ⟨_, afterToo, ranToo, _, _, other, rfl, holdsToo⟩
  exact ⟨_, _, _, _, ran, ranToo, .ok (implies _ _ _ _ holds holdsToo)⟩

/-- What can be read can be changed by a reader who has room for it. -/
theorem Reader.bears_of_wellFormed {reader : Reader} {contents : Contents}
    (remembers : reader.start.RemembersRight) (wellFormed : reader.start.WellFormed collection)
    (has : collection.contents? = some contents)
    (keys : ∀ key ∈ contents.keys, reader.setting.IsKey key)
    (room : ∀ datum, reader.start.Reads collection datum → datum.cost ≤ reader.machine.limit) :
    (Custody.shared reader).Bears collection.metadata? reader.start collection contents := by
  have offers := Moment.offers_of_wellFormed wellFormed has fun key member => (keys key member).1
  exact (offers_of_moment offers remembers keys room).bears

namespace Moment.Twins

/-- One reader has room for both collections and for what is looked for in them. -/
theorem change_agrees_of_contents (remembers : moment.RemembersRight)
    (twins : moment.Twins collection other) (changes : moment.ChangeTwins change changeToo)
    {contents : Contents} (has : collection.contents? = some contents) :
    ∃ enough, ∀ machine : Machine, enough ≤ machine.limit →
      AgreeAt machine moment.world (change.persistent collection).run
        (changeToo.persistent other).run (SameOutcome (Alike moment.world.deferred)) := by
  rcases twins.contents has with ⟨contentsToo, hasToo, alike⟩
  have changed := Contents.change_alike alike changes.alike
  have refusal := Change.refusal_alike changes.alike alike
  generalize made : contents.change moment.datumOf change = after?,
    madeToo : contentsToo.change moment.datumOf changeToo = afterToo? at changed
  cases changed with
  | none =>
      have fails := Change.persistent_eq_throw has made
      have failsToo := Change.persistent_eq_throw hasToo madeToo
      rw [refusal, twins.alike.typeName_eq] at fails
      exact ⟨0, fun _ _ => AgreeAt.refused fails failsToo⟩
  | some changed =>
      let kept := contents.keys ++ contentsToo.keys
      let sought := change.sought contents.shape ++ changeToo.sought contentsToo.shape
      have reads : ∀ key ∈ kept ++ sought, moment.Reads key (moment.datumOf key) := by
        intro key member
        apply reads_datumOf
        rcases List.mem_append.mp member with member | member
        · rcases List.mem_append.mp member with here | there
          · exact twins.left.keys has key here
          · exact twins.right.keys hasToo key there
        · rcases List.mem_append.mp member with here | there
          · exact (changes.wellFormed contents.shape).1 key here
          · exact (changes.wellFormed contentsToo.shape).2 key there
      rcases Reader.exists_forall_machine remembers reads with ⟨enough, readers⟩
      rcases moment.exists_cost_le collection with ⟨room, within⟩
      rcases moment.exists_cost_le other with ⟨roomToo, withinToo⟩
      refine ⟨enough + room + roomToo, fun machine limit => ?_⟩
      rcases readers machine (by omega) with ⟨reader, rfl, rfl, datums, _, isKeys⟩
      have ofKept := fun key member => isKeys key (List.mem_append_left _ member)
      have ofSought := fun key member => isKeys key (List.mem_append_right _ member)
      have bears := Reader.bears_of_wellFormed remembers twins.left has
        (fun key member => ofKept key (List.mem_append_left _ member))
        fun datum read => (within datum read).trans (by omega)
      have bearsToo := Reader.bears_of_wellFormed remembers twins.right hasToo
        (fun key member => ofKept key (List.mem_append_right _ member))
        fun datum read => (withinToo datum read).trans (by omega)
      have follows := Reader.Custody.change_bears bears (le_refl _) change fun key member =>
        ofSought key (List.mem_append_left _ member)
      have followsToo := Reader.Custody.change_bears bearsToo (le_refl _) changeToo
        fun key member => ofSought key (List.mem_append_right _ member)
      rw [datums, made] at follows
      rw [datums, madeToo] at followsToo
      exact AgreeAt.of_achieves follows followsToo fun _ _ _ _ holds holdsToo =>
        changed.alike holds.contents_eq holdsToo.contents_eq

/-- A map of one pair is made of nil. -/
theorem assoc_nil_agrees (remembers : moment.RemembersRight) {key keyToo value valueToo : Value}
    (twins : moment.Twins key keyToo) (alike : Alike moment.world.deferred value valueToo) :
    ∃ enough, ∀ machine : Machine, enough ≤ machine.limit →
      AgreeAt machine moment.world (Value.nil.assoc key value).run
        (Value.nil.assoc keyToo valueToo).run (SameOutcome (Alike moment.world.deferred)) := by
  have reads : ∀ value ∈ [key, keyToo], moment.Reads value (moment.datumOf value) :=
    List.forall_mem_cons.mpr ⟨reads_datumOf twins.left,
      List.forall_mem_singleton.mpr (reads_datumOf twins.right)⟩
  rcases Reader.exists_forall_machine remembers reads with ⟨enough, readers⟩
  refine ⟨enough, fun machine limit => ?_⟩
  rcases readers machine limit with ⟨reader, rfl, rfl, datums, _, isKeys⟩
  have made := (Reader.Custody.own reader).assoc_nil_bears (le_refl _)
    (isKeys key (List.mem_cons_self ..)) value
  have madeToo := (Reader.Custody.own reader).assoc_nil_bears (le_refl _)
    (isKeys keyToo (List.mem_cons_of_mem _ (List.mem_singleton_self _))) valueToo
  rw [datums] at made madeToo
  exact AgreeAt.of_achieves made madeToo fun _ _ _ _ holds holdsToo =>
    (Contents.assocPairs_alike twins.keyAlike alike .nil).alike holds.contents_eq
      holdsToo.contents_eq

end Moment.Twins

/-! ## Other values -/

section

variable {cells : Store Deferred} {world : World} {key keyToo value valueToo item itemToo : Value}

theorem Value.assoc_of_none (none : collection.contents? = none) (notNil : collection ≠ nil) :
    collection.assoc key value =
      throw (.wrongType "assoc" "map or vector" collection.typeName) := by
  cases collection <;> first | (cases none; done) | exact absurd rfl notNil | rfl

theorem Value.dissoc_of_none (none : collection.contents? = none) (notNil : collection ≠ nil) :
    collection.dissoc key = throw (.wrongType "dissoc" "map" collection.typeName) := by
  cases collection <;> first | (cases none; done) | exact absurd rfl notNil | rfl

theorem Value.disj_of_none (none : collection.contents? = none) (notNil : collection ≠ nil) :
    collection.disj item = throw (.wrongType "disj" "set" collection.typeName) := by
  cases collection <;> first | (cases none; done) | exact absurd rfl notNil | rfl

theorem Alike.contents_eq_none (alike : Alike cells collection other)
    (none : collection.contents? = none) : other.contents? = .none := by
  cases alike <;> first | exact none | cases none

theorem Alike.eq_nil_iff (alike : Alike cells collection other) :
    collection = .nil ↔ other = .nil := by
  cases alike with
  | same => rfl
  | string | symbol | list | vector | cons | lazySeq | arrayMap | hashMap | sortedMap | hashSet
    | sortedSet => exact ⟨nofun, nofun⟩

/-- Lists and seqs grow at the front, without a look at what is in them. -/
theorem conj_agrees_of_none (alike : Alike cells collection other)
    (itemAlike : Alike cells item itemToo) (none : collection.contents? = none) :
    AgreeAt machine world (collection.conj item).run (other.conj itemToo).run
      (SameOutcome (Alike cells)) := by
  have whole := alike
  cases alike with
  | same =>
      cases collection
      case nil => exact ⟨_, _, _, _, rfl, rfl, .ok (.list (.cons itemAlike .nil))⟩
      case list items _ =>
        exact ⟨_, _, _, _, rfl, rfl, .ok (.list (.cons itemAlike (.refl cells items)))⟩
      case cons | lazySeq => exact ⟨_, _, _, _, rfl, rfl, .ok (.cons itemAlike whole)⟩
      all_goals first | (cases none; done) | exact AgreeAt.refused rfl rfl
  | list alike => exact ⟨_, _, _, _, rfl, rfl, .ok (.list (.cons itemAlike alike))⟩
  | cons | lazySeq => exact ⟨_, _, _, _, rfl, rfl, .ok (.cons itemAlike whole)⟩
  | string | symbol => exact AgreeAt.refused rfl rfl
  | vector | arrayMap | hashMap | sortedMap | hashSet | sortedSet => cases none

theorem pop_agrees_of_none (alike : Alike cells collection other)
    (none : collection.contents? = none) :
    AgreeAt machine world collection.pop.run other.pop.run (SameOutcome (Alike cells)) := by
  cases alike with
  | same =>
      cases collection
      case nil => exact ⟨_, _, _, _, rfl, rfl, .ok (.same .nil)⟩
      case list items _ =>
        cases items with
        | nil => exact AgreeAt.refused rfl rfl
        | cons => exact ⟨_, _, _, _, rfl, rfl, .ok (.list (.refl cells _))⟩
      all_goals first | (cases none; done) | exact AgreeAt.refused rfl rfl
  | list alike =>
      cases alike with
      | nil => exact AgreeAt.refused rfl rfl
      | cons _ rest => exact ⟨_, _, _, _, rfl, rfl, .ok (.list rest)⟩
  | string | symbol | cons | lazySeq => exact AgreeAt.refused rfl rfl
  | vector | arrayMap | hashMap | sortedMap | hashSet | sortedSet => cases none

end

/-! ## All values -/

namespace Moment.Twins

theorem change_agrees_of_none (remembers : moment.RemembersRight)
    (twins : moment.Twins collection other) (changes : moment.ChangeTwins change changeToo)
    (none : collection.contents? = none) :
    ∃ enough, ∀ machine : Machine, enough ≤ machine.limit →
      AgreeAt machine moment.world (change.persistent collection).run
        (changeToo.persistent other).run (SameOutcome (Alike moment.world.deferred)) := by
  have noneToo := twins.alike.contents_eq_none none
  have typeName := twins.alike.typeName_eq
  by_cases isNil : collection = .nil
  · cases isNil
    cases twins.alike.eq_nil_iff.mp rfl
    cases changes with
    | assoc twins alike => exact assoc_nil_agrees remembers twins alike
    | dissoc | disj => exact ⟨0, fun _ _ => ⟨_, _, _, _, rfl, rfl, .ok (.same .nil)⟩⟩
    | conj itemTwins =>
        exact ⟨0, fun _ _ => conj_agrees_of_none twins.alike itemTwins.alike none⟩
    | pop => exact ⟨0, fun _ _ => pop_agrees_of_none twins.alike none⟩
  · have isNilToo := fun same => isNil (twins.alike.eq_nil_iff.mpr same)
    refine ⟨0, fun machine _ => ?_⟩
    cases changes with
    | assoc =>
        exact AgreeAt.refused (Value.assoc_of_none none isNil)
          (typeName ▸ Value.assoc_of_none noneToo isNilToo)
    | dissoc =>
        exact AgreeAt.refused (Value.dissoc_of_none none isNil)
          (typeName ▸ Value.dissoc_of_none noneToo isNilToo)
    | disj =>
        exact AgreeAt.refused (Value.disj_of_none none isNil)
          (typeName ▸ Value.disj_of_none noneToo isNilToo)
    | conj itemTwins => exact conj_agrees_of_none twins.alike itemTwins.alike none
    | pop => exact pop_agrees_of_none twins.alike none

theorem change_agrees (remembers : moment.RemembersRight)
    (twins : moment.Twins collection other) (changes : moment.ChangeTwins change changeToo) :
    ∃ enough, ∀ machine : Machine, enough ≤ machine.limit →
      AgreeAt machine moment.world (change.persistent collection).run
        (changeToo.persistent other).run (SameOutcome (Alike moment.world.deferred)) := by
  cases has : collection.contents? with
  | none => exact change_agrees_of_none remembers twins changes has
  | some contents => exact change_agrees_of_contents remembers twins changes has

end Moment.Twins

/-- An empty collection of the kind is made without a look at what is in this one. -/
theorem Alike.emptied_agrees {cells : Store Deferred} (alike : Alike cells collection other)
    (machine : Machine) (world : World) :
    AgreeAt machine world collection.emptied other.emptied (Alike cells) := by
  cases alike with
  | same =>
      have ends : ∃ answer after, collection.emptied machine world = some (answer, after) := by
        cases collection <;> exact ⟨_, _, rfl⟩
      rcases ends with ⟨answer, after, ran⟩
      exact ⟨answer, answer, after, after, ran, ran, .same answer⟩
  | string | symbol => exact ⟨_, _, _, _, rfl, rfl, .same .nil⟩
  | list | cons | lazySeq => exact ⟨_, _, _, _, rfl, rfl, .list .nil⟩
  | vector => exact ⟨_, _, _, _, rfl, rfl, .vector .nil⟩
  | arrayMap => exact ⟨_, _, _, _, rfl, rfl, .arrayMap (.refl cells _) (.refl cells _)⟩
  | hashMap => exact ⟨_, _, _, _, rfl, rfl, .hashMap rfl .nil .nil⟩
  | sortedMap => exact ⟨_, _, _, _, rfl, rfl, .sortedMap .nil .nil⟩
  | hashSet => exact ⟨_, _, _, _, rfl, rfl, .hashSet rfl .nil⟩
  | sortedSet => exact ⟨_, _, _, _, rfl, rfl, .sortedSet .nil⟩

end

end LispRuntime
