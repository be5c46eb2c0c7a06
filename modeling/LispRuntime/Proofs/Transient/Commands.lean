import LispRuntime.Proofs.Transient.Opening

/-! Transients of one collection, as many as one likes, each told by when it was opened.
All who hold a transient mean the same cell, so it does not matter through whom a
command comes. Beside each transient there is a collection that never changes: it starts
as the first one without metadata, and where the transient is changed in place, another
collection is made. -/

namespace LispRuntime

open ArrayMap (Denoted Spares Achieves)

namespace Transient

inductive Command where
  /-- Opens another transient. -/
  | transient
  | change (index : Nat) (change : Change)
  /-- Takes the collection out and seals the transient. -/
  | persistent (index : Nat)

/-- The keys and elements that the command looks for in a collection of this shape. -/
def Command.sought (shape : Shape) : Command → List Value
  | .change _ made => made.sought shape
  | .transient | .persistent _ => []

inductive Outcome where
  | done
  | failed (error : Error)
  | made (value : Value)

def Outcome.ofAttempt : Except Error Unit → Outcome
  | .ok () => done
  | .error error => failed error

/-! ## In place -/

def apply (cell : Cell) (change : Change) : Attempt Unit :=
  match change with
  | .assoc key value => assoc cell key value
  | .dissoc key => dissoc cell key
  | .conj item => conj cell item
  | .disj item => disj cell item
  | .pop => pop cell

theorem apply_eq_change (cell : Cell) (change : Change) :
    apply cell change = Transient.change cell change.inPlace := by
  cases change <;> rfl

/-- A command that means no transient does nothing. -/
def perform (source : Value) (cells : List Cell) : Command → Run (Outcome × List Cell)
  | .transient => do
      match ← (ofValue source).run with
      | .ok cell => return (.done, cells ++ [cell])
      | .error error => return (.failed error, cells)
  | .change index change => do
      match cells[index]? with
      | some cell => return (.ofAttempt (← (apply cell change).run), cells)
      | none => return (.done, cells)
  | .persistent index => do
      match cells[index]? with
      | some cell =>
          match ← (Transient.persistent cell).run with
          | .ok value => return (.made value, cells)
          | .error error => return (.failed error, cells)
      | none => return (.done, cells)

def performAll (source : Value) (cells : List Cell) :
    List Command → Run (List Outcome × List Cell)
  | [] => return ([], cells)
  | command :: rest => do
      let (outcome, cells) ← perform source cells command
      let (outcomes, cells) ← performAll source cells rest
      return (outcome :: outcomes, cells)

end Transient

/-! ## By making other collections -/

namespace Persistent

open Transient (Command Outcome)

/-- A collection that has been taken out is not changed any more. -/
def perform (source : Value) (held : List (Option Value)) :
    Command → Run (Outcome × List (Option Value))
  | .transient => do
      match ← (source.withMetadata .nil).run with
      | .ok value => return (.done, held ++ [some value])
      | .error error => return (.failed error, held)
  | .change index change => do
      match held[index]? with
      | some (some value) =>
          match ← (change.persistent value).run with
          | .ok changed => return (.done, held.set index (some changed))
          | .error error => return (.failed error, held)
      | some none => return (.failed .transientSealed, held)
      | none => return (.done, held)
  | .persistent index =>
      match held[index]? with
      | some (some value) => return (.made value, held.set index none)
      | some none => return (.failed .transientSealed, held)
      | none => return (.done, held)

def performAll (source : Value) (held : List (Option Value)) :
    List Command → Run (List Outcome × List (Option Value))
  | [] => return ([], held)
  | command :: rest => do
      let (outcome, held) ← perform source held command
      let (outcomes, held) ← performAll source held rest
      return (outcome :: outcomes, held)

end Persistent

/-! ## What there is to tell -/

namespace Contents

open Transient (Command)

inductive Report where
  | done
  | failed
  | isSealed
  | made (contents : Contents)

variable (datumOf : Value → Datum) (source : Contents)

def perform (states : List (Option Contents)) :
    Command → Report × List (Option Contents)
  | .transient => (.done, states ++ [some source])
  | .change index change =>
      match states[index]? with
      | some (some contents) =>
          match contents.change datumOf change with
          | some changed => (.done, states.set index (some changed))
          | none => (.failed, states)
      | some none => (.isSealed, states)
      | none => (.done, states)
  | .persistent index =>
      match states[index]? with
      | some (some contents) => (.made contents, states.set index none)
      | some none => (.isSealed, states)
      | none => (.done, states)

def performAll (states : List (Option Contents)) :
    List Command → List Report × List (Option Contents)
  | [] => ([], states)
  | command :: rest =>
      let (report, states) := perform datumOf source states command
      let (reports, states) := performAll states rest
      (report :: reports, states)

/-- The outcome tells what the report does. What is made has no metadata. -/
inductive Report.Tells : Report → Transient.Outcome → Prop where
  | done : Tells .done .done
  | failed {error : Error} (other : error ≠ .transientSealed) : Tells .failed (.failed error)
  | isSealed : Tells .isSealed (.failed .transientSealed)
  | made {value : Value} {contents : Contents} (has : value.contents? = some contents)
      (bare : value.metadata? = none) : Tells (.made contents) (.made value)

/-- Changes leave the shape of the contents alone. -/
def HaveShape (shape : Shape) (states : List (Option Contents)) : Prop :=
  ∀ contents, some contents ∈ states → contents.shape = shape

theorem HaveShape.perform {datumOf : Value → Datum} {source : Contents}
    {states : List (Option Contents)} (shapes : HaveShape source.shape states)
    (command : Command) :
    HaveShape source.shape (Contents.perform datumOf source states command).2 := by
  cases command with
  | transient =>
      intro contents member
      rcases List.mem_append.mp member with member | member
      · exact shapes contents member
      · cases List.mem_singleton.mp member
        rfl
  | change index change =>
      rw [Contents.perform]
      split
      case h_1 contents found =>
        split
        case h_1 changed made =>
          intro other member
          rcases List.mem_or_eq_of_mem_set member with member | same
          · exact shapes other member
          · cases same
            exact (shape_change made).trans (shapes contents (List.mem_of_getElem? found))
        case h_2 => exact shapes
      case h_2 | h_3 => exact shapes
  | persistent index =>
      rw [Contents.perform]
      split
      case h_1 =>
        intro other member
        rcases List.mem_or_eq_of_mem_set member with member | same
        · exact shapes other member
        · cases same
      case h_2 | h_3 => exact shapes

end Contents

namespace Reader

open Transient (Command Outcome)
open Contents (Report HaveShape)

variable {reader : Reader} {now : Moment} {source : Value} {contents : Contents}

/-- What the command looks for in collections of this shape can be read. -/
def Allows (reader : Reader) (shape : Shape) (command : Command) : Prop :=
  ∀ key ∈ command.sought shape, reader.setting.IsKey key

/-! ## Collections that never change -/

/-- What is held shows what it should; what has been taken out is not held. -/
abbrev ShowsAll (reader : Reader) (now : Moment) (held : List (Option Value))
    (states : List (Option Contents)) : Prop :=
  List.Forall₂ (Option.Rel (reader.Shows now)) held states

theorem ShowsAll.kept {held : List (Option Value)} {states : List (Option Contents)}
    (shows : reader.ShowsAll now held states) {after : Moment}
    (keeps : ∀ handle pairs, Denoted reader.setting now handle pairs →
      Denoted reader.setting after handle pairs) : reader.ShowsAll after held states := by
  refine shows.imp fun value state related => ?_
  cases related with
  | some shows => exact .some (shows.kept fun handle pairs _ => keeps handle pairs)
  | none => exact .none

theorem getElem?_related {α β : Type} {R : α → β → Prop} {left : List α} {right : List β}
    (related : List.Forall₂ R left right) (index : Nat) :
    Option.Rel R left[index]? right[index]? := by
  induction related generalizing index with
  | nil => exact .none
  | cons first _ induction =>
      cases index with
      | zero => exact .some first
      | succ index => exact induction index

theorem set_related {α β : Type} {R : α → β → Prop} {left : List α} {right : List β}
    (related : List.Forall₂ R left right) (index : Nat) {new : α} {expected : β}
    (newRelated : R new expected) :
    List.Forall₂ R (left.set index new) (right.set index expected) := by
  induction related generalizing index with
  | nil => exact .nil
  | cons first rest induction =>
      cases index with
      | zero => exact .cons newRelated rest
      | succ index => exact .cons first (induction index)

theorem persistent_perform_tells {held : List (Option Value)}
    {states : List (Option Contents)} (offers : reader.Offers source contents)
    (shows : reader.ShowsAll now held states) (shapes : HaveShape contents.shape states)
    (le : reader.start ≤ now) {command : Command}
    (allowed : reader.Allows contents.shape command) :
    Spares reader.setting now none (Persistent.perform source held command) fun result after =>
      (Contents.perform reader.datumOf contents states command).1.Tells result.1 ∧
        reader.ShowsAll after result.2
          (Contents.perform reader.datumOf contents states command).2 := by
  cases command with
  | transient =>
      apply Spares.bind (Spares.keeping (withMetadata_shows offers le))
      rintro _ after leAfter ⟨⟨value, rfl, made⟩, kept⟩
      exact Spares.pure leAfter ⟨.done, List.rel_append (shows.kept kept) (.cons (.some made) .nil)⟩
  | change index change =>
      have found := getElem?_related shows index
      change ∀ key ∈ change.sought contents.shape, reader.setting.IsKey key at allowed
      rw [Persistent.perform, Contents.perform]
      generalize held[index]? = slot at found
      generalize stateAt : states[index]? = state at found
      cases found with
      | none => exact Spares.pure le ⟨.done, shows⟩
      | some found =>
        cases found with
        | none => exact Spares.pure le ⟨.isSealed, shows⟩
        | @some value known showsValue =>
            rw [← shapes known (List.mem_of_getElem? stateAt)] at allowed
            have follows := change_shows showsValue le change allowed
            dsimp only
            cases expected : known.change reader.datumOf change with
            | some changed =>
                rw [expected] at follows
                apply Spares.bind (Spares.keeping follows)
                rintro _ after leAfter ⟨⟨next, rfl, showsNext⟩, kept⟩
                exact Spares.pure leAfter
                  ⟨.done, set_related (shows.kept kept) index (.some showsNext)⟩
            | none =>
                rw [expected] at follows
                apply Spares.bind (Spares.keeping follows)
                rintro _ after leAfter ⟨⟨error, rfl, other⟩, kept⟩
                exact Spares.pure leAfter ⟨.failed other, shows.kept kept⟩
  | persistent index =>
      have found := getElem?_related shows index
      rw [Persistent.perform, Contents.perform]
      generalize held[index]? = slot at found
      generalize states[index]? = state at found
      cases found with
      | none => exact Spares.pure le ⟨.done, shows⟩
      | some found =>
        cases found with
        | none => exact Spares.pure le ⟨.isSealed, shows⟩
        | some showsValue =>
            exact Spares.pure le ⟨.made showsValue.contents_eq showsValue.metadata_eq,
              set_related shows index .none⟩

/-- Whatever is commanded, the collections go through what the contents go through. -/
theorem persistent_performAll_tells {held : List (Option Value)}
    {states : List (Option Contents)} (offers : reader.Offers source contents)
    (shows : reader.ShowsAll now held states) (shapes : HaveShape contents.shape states)
    (le : reader.start ≤ now) {commands : List Command}
    (allowed : ∀ command ∈ commands, reader.Allows contents.shape command) :
    Spares reader.setting now none (Persistent.performAll source held commands)
      fun result after =>
        List.Forall₂ Report.Tells
          (Contents.performAll reader.datumOf contents states commands).1 result.1 ∧
        reader.ShowsAll after result.2
          (Contents.performAll reader.datumOf contents states commands).2 := by
  induction commands generalizing now held states with
  | nil => exact Spares.pure le ⟨.nil, shows⟩
  | cons command rest induction =>
      have first := persistent_perform_tells offers shows shapes le
        (allowed command (List.mem_cons_self ..))
      apply first.bind
      rintro ⟨outcome, heldNext⟩ between leBetween ⟨tells, showsNext⟩
      have others := induction showsNext (shapes.perform command) leBetween
        fun other member => allowed other (List.mem_cons_of_mem _ member)
      apply others.bind
      rintro ⟨outcomes, heldLast⟩ after leAfter ⟨tellRest, showsLast⟩
      exact Spares.pure leAfter ⟨.cons tells tellRest, showsLast⟩

end Reader

end LispRuntime
