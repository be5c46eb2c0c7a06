import LispRuntime.Proofs.Transient.Persistent

/-! A collection that is made from another one carries the metadata of that one, whatever else is
in the world, and also where an array map has become a hash map. -/

namespace LispRuntime

/-- Whenever the attempt succeeds, its answer is like this. -/
def Attempt.Makes {α : Type} (attempt : Attempt α) (like : α → Prop) : Prop :=
  ∀ machine world answer after, attempt.run machine world = some (.ok answer, after) → like answer

namespace Attempt.Makes

variable {α β : Type} {like : β → Prop}

theorem pure {answer : β} (holds : like answer) : Makes (Pure.pure answer) like := by
  intro machine world _ after ran
  cases ran
  exact holds

theorem throw (error : Error) : Makes (MonadExcept.throw error : Attempt β) like :=
  fun _ _ _ _ => nofun

theorem bind {attempt : Attempt α} {next : α → Attempt β} {middle : α → Prop}
    (makes : attempt.Makes middle) (goesOn : ∀ answer, middle answer → (next answer).Makes like) :
    (attempt >>= next).Makes like := by
  intro machine world answer after ran
  rcases Attempt.of_bind_eq_ok ran with ⟨found, between, first, rest⟩
  exact goesOn found (makes machine world found between first) machine between answer after rest

/-- Only the last part matters. -/
theorem last {attempt : Attempt α} {next : α → Attempt β}
    (goesOn : ∀ answer, (next answer).Makes like) : (attempt >>= next).Makes like :=
  bind (fun _ _ _ _ _ => trivial) fun answer (_ : True) => goesOn answer

theorem lift {run : Run β}
    (makes : ∀ machine world answer after, run machine world = some (answer, after) →
      like answer) : Makes (ExceptT.lift run) like := by
  intro machine world answer after ran
  rcases Option.bind_eq_some_iff.mp ran with ⟨⟨found, between⟩, first, rest⟩
  cases rest
  exact makes machine world _ _ first

theorem foldlM {step : β → α → Attempt β} {elements : List α} {start : β} (holds : like start)
    (steps : ∀ state element, like state → (step state element).Makes like) :
    Makes (elements.foldlM step start) like := by
  induction elements generalizing start with
  | nil => exact pure holds
  | cons element rest induction =>
      rw [List.foldlM_cons]
      exact (steps start element holds).bind fun _ => induction

end Attempt.Makes

namespace Value

variable {metadata : Option Value}

/-- The value carries this metadata. -/
def Carries (metadata : Option Value) (value : Value) : Prop := value.metadata? = metadata

theorem toValue_carries (table : MapTable) (metadata : Option Value) :
    Attempt.Makes (ExceptT.lift (table.toValue metadata)) (Carries metadata) := by
  cases table <;> exact .lift fun _ _ _ _ ran => by cases ran; rfl

theorem assoc_carries {collection : Value} (carries : collection.Carries metadata)
    (key value : Value) : (collection.assoc key value).Makes (Carries metadata) := by
  cases carries
  cases collection
  case nil => exact .last fun handle => .last fun table => toValue_carries table none
  case arrayMap => exact .last fun copy => .last fun table => toValue_carries table _
  case hashMap | sortedMap | vector =>
    exact .last fun _ => .lift fun _ _ _ _ ran => by cases ran; rfl
  all_goals exact .throw _

theorem dissoc_carries {collection : Value} (carries : collection.Carries metadata)
    (key : Value) : (collection.dissoc key).Makes (Carries metadata) := by
  cases carries
  cases collection
  case nil => exact .pure rfl
  case arrayMap =>
    refine .last fun found => ?_
    split
    · refine .last fun copy => .last fun _ => .lift ?_
      intro machine world answer after ran
      cases ran
      rfl
    · exact .pure rfl
  case hashMap | sortedMap => exact .last fun _ => .lift fun _ _ _ _ ran => by cases ran; rfl
  all_goals exact .throw _

theorem conjEntry_carries {map : Value} (carries : map.Carries metadata) (item : Value) :
    (map.conjEntry item).Makes (Carries metadata) := by
  unfold conjEntry
  split
  · exact assoc_carries carries _ _
  · split
    · exact .foldlM carries fun _ entry holds => assoc_carries holds _ _
    · exact .throw _

theorem conj_carries {collection : Value} (carries : collection.Carries metadata)
    (item : Value) : (collection.conj item).Makes (Carries metadata) := by
  have whole := carries
  cases carries
  cases collection
  case nil | list | vector | cons | lazySeq =>
    intro machine world answer after ran
    cases ran
    rfl
  case arrayMap | hashMap | sortedMap => exact conjEntry_carries whole item
  case hashSet | sortedSet => exact .last fun _ => .lift fun _ _ _ _ ran => by cases ran; rfl
  all_goals exact .throw _

theorem disj_carries {collection : Value} (carries : collection.Carries metadata)
    (item : Value) : (collection.disj item).Makes (Carries metadata) := by
  cases carries
  cases collection
  case nil => exact .pure rfl
  case hashSet | sortedSet => exact .last fun _ => .lift fun _ _ _ _ ran => by cases ran; rfl
  all_goals exact .throw _

theorem pop_carries {collection : Value} (carries : collection.Carries metadata) :
    collection.pop.Makes (Carries metadata) := by
  cases carries
  cases collection
  case nil => exact .pure rfl
  case list address items metadata =>
    rcases items with _ | ⟨item, rest⟩
    · exact .throw _
    · intro machine world answer after ran
      cases ran
      rfl
  case vector address items metadata =>
    rcases items with _ | ⟨item, rest⟩
    · exact .throw _
    · intro machine world answer after ran
      cases ran
      rfl
  all_goals exact .throw _

theorem change_carries (change : Change) (collection : Value) :
    (change.persistent collection).Makes (Carries collection.metadata?) := by
  cases change with
  | assoc key value => exact assoc_carries rfl key value
  | dissoc key => exact dissoc_carries rfl key
  | conj item => exact conj_carries rfl item
  | disj item => exact disj_carries rfl item
  | pop => exact pop_carries rfl

/-- A symbol has no empty one of its kind. -/
theorem emptied_carries {collection : Value} (notSymbol : ∀ name metadata,
    collection ≠ symbol name metadata) :
    Attempt.Makes (ExceptT.lift collection.emptied) (Carries collection.metadata?) := by
  cases collection
  case symbol => exact absurd rfl (notSymbol _ _)
  case arrayMap =>
    apply Attempt.Makes.lift
    intro machine world answer after ran
    cases ran
    rfl
  case list | cons | lazySeq | vector | hashMap | sortedMap | hashSet | sortedSet =>
    exact .lift fun _ _ _ _ ran => by cases ran; rfl
  all_goals exact .pure rfl

end Value

end LispRuntime
