import LispRuntime.Collection.Update
import LispRuntime.Proofs.Value.Making

/-! Most of what is done with collections can reach the rest of the world only by
calling a function, and a function is called only for a lazy seq that is not realized.
Where nothing is called, addresses are given out and array maps change, and that is
all. What can be done without calls is the same on every machine. -/

namespace LispRuntime

/-- What the computation comes to without calls, it comes to on any machine, and all it
changes are addresses and array maps. -/
def Quiet {α : Type} (computation : Run α) : Prop :=
  ∀ machine world answer after, computation machine.silent world = some (answer, after) →
    computation machine world = some (answer, after) ∧ world.Keeps after

namespace Made

/-- Without calls, a cell that is forced has been realized before. -/
theorem quiet {α : Type} {computation : Run α} (made : Made computation) :
    Quiet computation := by
  induction made with
  | plain isPlain =>
      intro machine world answer after ran
      exact ⟨(isPlain.silent machine world).trans ran, isPlain.keeps ran⟩
  | bind made goesOn quiet quietNext =>
      intro machine world answer after ran
      rcases Run.exists_of_bind ran with ⟨middle, between, first, rest⟩
      rcases quiet machine world middle between first with ⟨ranFirst, keeps⟩
      rcases quietNext middle machine between answer after rest with ⟨ranRest, keepsRest⟩
      exact ⟨(Run.run_bind ranFirst).trans ranRest, keeps.trans keepsRest⟩
  | call function arguments =>
      intro machine world answer after ran
      cases ran
  | force cell completes _ =>
      intro machine world answer after ran
      rcases exists_of_force ran with ⟨value, here, rfl, rfl⟩ | ⟨body, between, _, called, _⟩
      · exact ⟨force_run_realized here, .refl _⟩
      · cases called

/-! ## Changing tables -/

theorem hashAssoc (entries : List Value.HashedEntry) (key value : Value) :
    Made (HashTable.assoc entries key value) :=
  (hash key).bind fun _ => insertHashed equal _ _ entries

theorem hashDissoc (entries : List Value.HashedEntry) (key : Value) :
    Made (HashTable.dissoc entries key) :=
  (hash key).bind fun _ => eraseHashed equal _ _ _ entries

theorem addItem (items : List Value.HashedItem) (item : Value) :
    Made (HashTable.addItem items item) :=
  (hash item).bind fun _ => insertHashed equal _ _ items

theorem removeItem (items : List Value.HashedItem) (item : Value) :
    Made (HashTable.removeItem items item) :=
  (hash item).bind fun _ => eraseHashed equal _ _ _ items

theorem placeOf (handle : Nat) (key : Value) : Made (HandleTable.placeOf handle key) :=
  readPool.bind fun _ => placeIn (isSoughtKey equal key) _

theorem install (changed : Except Error (ArrayMap.Pool Value)) :
    Made (Run.pool.install changed) := by
  cases changed with
  | ok maps => exact (writePool maps).bind fun _ => .pure _
  | error error => exact .pure _

theorem assign (handle : Nat) (key value : Value) :
    Made (HandleTable.assign handle key value).run := by
  apply (placeOf handle key).bind
  intro place
  cases place with
  | some place => exact readPool.bind fun _ => (writePool _).bind fun _ => .pure _
  | none => exact readPool.bind fun _ => install _

theorem erase (handle : Nat) (key : Value) : Made (HandleTable.erase handle key) := by
  apply (placeOf handle key).bind
  intro place
  cases place with
  | some place => exact readPool.bind fun _ => writePool _
  | none => exact .pure ()

theorem fits (handle : Nat) (key : Value) : Made (HandleTable.fits handle key) := by
  apply ((get.map _).map _).bind
  intro size
  split
  · exact .pure true
  · exact (placeOf handle key).map _

theorem promote (handle : Nat) (key value : Value) :
    Made (MapTable.promote handle key value) := by
  apply (get.map _).bind
  intro entries
  apply (foldlM (fun table entry => hashAssoc table entry.1 entry.2) entries []).bind
  intro promoted
  apply (writing fun maps => ((), maps.retire handle)).bind
  intro _
  exact (hashAssoc promoted key value).map _

theorem assocSmall (handle : Nat) (key value : Value) :
    Made (MapTable.assocSmall handle key value).run := by
  apply (fits handle key).first
  intro fitting
  split
  · apply (assign handle key value).first
    intro outcome
    split
    · exact .pure _
    · exact (promote handle key value).lift
  · exact (promote handle key value).lift

/-- A map is made of pairs one after the other. -/
theorem ofPairs (pairs : List (Value × Value)) : Made (Value.ofPairs pairs).run := by
  apply (writing ArrayMap.Pool.create).first
  intro handle
  have adding : ∀ (table : MapTable) (pair : Value × Value),
      Made (MapTable.assoc table pair.1 pair.2).run := by
    intro table pair
    cases table with
    | small handle => exact assocSmall handle _ _
    | hashed entries => exact (hashAssoc entries _ _).first fun _ => .pure _
  apply (foldAttempts adding pairs (.small handle)).andThen
  intro table
  have made : Made (table.toValue none) := by
    cases table with
    | small handle => exact get.map _
    | hashed entries => exact freshAddress.map _
  exact made.lift

/-! ## Changing collections in place -/

theorem assocVector (items : List Value) (key value : Value) :
    Made (Editable.assocVector items key value).run := by
  unfold Editable.assocVector
  split
  · split
    · exact .pure _
    split
    · exact .pure _
    · exact throw _
  · exact throw _

theorem assoc (editable : Editable) (key value : Value) :
    Made (editable.assoc key value).run := by
  cases editable with
  | arrayMap handle =>
      apply (fits handle key).first
      intro fitting
      split
      · exact (assign handle key value).andThen fun _ => .pure _
      · exact (assocSmall handle key value).andThen fun _ => .pure _
  | hashMap entries => exact (hashAssoc entries key value).first fun _ => .pure _
  | sortedMap entries => exact (insertSorted _ _ entries).first fun _ => .pure _
  | vector items => exact assocVector items key value
  | hashSet | sortedSet => exact throw _

theorem conjEntry (editable : Editable) (item : Value) :
    Made (editable.conjEntry item).run := by
  unfold Editable.conjEntry
  split
  · exact assoc editable _ _
  · split
    · apply foldAttempts
      exact fun editable entry => assoc editable entry.1 entry.2
    · exact throw _

theorem conj (editable : Editable) (item : Value) : Made (editable.conj item).run := by
  cases editable with
  | arrayMap | hashMap | sortedMap => exact conjEntry _ item
  | vector items => exact .pure _
  | hashSet items => exact (addItem items item).first fun _ => .pure _
  | sortedSet items => exact (insertSorted _ _ items).first fun _ => .pure _

theorem dissoc (editable : Editable) (key : Value) : Made (editable.dissoc key).run := by
  cases editable with
  | arrayMap handle => exact (erase handle key).first fun _ => .pure _
  | hashMap entries => exact (hashDissoc entries key).first fun _ => .pure _
  | sortedMap entries => exact (eraseSorted _ _ entries).first fun _ => .pure _
  | vector | hashSet | sortedSet => exact throw _

theorem disj (editable : Editable) (item : Value) : Made (editable.disj item).run := by
  cases editable with
  | hashSet items => exact (removeItem items item).first fun _ => .pure _
  | sortedSet items => exact (eraseSorted _ _ items).first fun _ => .pure _
  | arrayMap | hashMap | sortedMap | vector => exact throw _

theorem pop (editable : Editable) : Made editable.pop.run := by
  cases editable with
  | vector items =>
      dsimp only [Editable.pop]
      split
      · exact throw _
      · exact .pure _
  | arrayMap | hashMap | sortedMap | hashSet | sortedSet => exact throw _

theorem ofValue (value : Value) : Made (Editable.ofValue value).run := by
  unfold Editable.ofValue
  split
  case h_1 handle _ _ =>
    apply (writing fun maps => maps.copyExact handle).first
    intro copy
    exact (readPool.bind fun _ => install _).andThen fun _ => .pure _
  case h_7 => exact throw _
  all_goals exact .pure _

theorem toValue (editable : Editable) : Made editable.toValue := by
  cases editable with
  | arrayMap handle => exact get.map _
  | hashMap | sortedMap | vector | hashSet | sortedSet => exact freshAddress.map _

end Made

end LispRuntime
