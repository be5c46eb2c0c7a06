import LispRuntime.Proofs.Printing.Collections
import LispRuntime.Proofs.Printing.Forms

/-! Printed data is unambiguous. Where no print length is set, plain data is written form by form,
and nothing else is read from the text than what was written. -/

namespace LispRuntime

namespace Value

mutual

/-- What there is of plain data but for where it is and for its metadata. -/
def form? : Value → Option Form
  | nil => some .nil
  | boolean value => some (.boolean value)
  | integer value => some (.integer value)
  | character value => some (.character value)
  | string _ text => some (.string text)
  | list _ items _ => (forms? items).map .list
  | vector _ items _ => (forms? items).map .vector
  | _ => none

def forms? : List Value → Option (List Form)
  | [] => some []
  | first :: rest =>
      match form? first, forms? rest with
      | some form, some forms => some (form :: forms)
      | _, _ => none

end

theorem forms?_cons {first : Value} {rest : List Value} {forms : List Form}
    (found : forms? (first :: rest) = some forms) :
    ∃ form others, form? first = some form ∧ forms? rest = some others ∧
      forms = form :: others := by
  rw [forms?] at found
  split at found
  case h_1 form others isForm areForms =>
    cases found
    exact ⟨form, others, isForm, areForms, rfl⟩
  case h_2 => cases found

end Value

namespace Form

theorem spread_text (forms : List Form) (index : Nat) :
    Printing.Ending.complete.spread " " (index + 1) (forms.map text) =
      String.ofList (behind forms) := by
  induction forms generalizing index with
  | nil => rfl
  | cons form forms induction =>
      rw [List.map_cons, Printing.Ending.spread, induction, behind_cons, text, Printing.gap,
        if_neg (Nat.succ_ne_zero index)]
      apply String.toList_inj.mp
      simp only [String.toList_append, String.toList_ofList]
      rfl

theorem join_text (forms : List Form) :
    Printing.Ending.complete.join " " (forms.map text) = String.ofList (between forms) := by
  cases forms with
  | nil => rfl
  | cons form forms =>
      rw [List.map_cons, Printing.Ending.join_cons _ _ _ _ 0, spread_text, between_cons, text,
        String.ofList_append]

theorem text_list (forms : List Form) :
    (list forms).text = "(" ++ Printing.Ending.complete.join " " (forms.map text) ++ ")" := by
  rw [join_text]
  apply String.toList_inj.mp
  simp only [text, String.toList_append, String.toList_ofList]
  rfl

theorem text_vector (forms : List Form) :
    (vector forms).text = "[" ++ Printing.Ending.complete.join " " (forms.map text) ++ "]" := by
  rw [join_text]
  apply String.toList_inj.mp
  simp only [text, String.toList_append, String.toList_ofList]
  rfl

end Form

namespace Value

variable {machine : Machine} {world : World}

mutual

/-- Plain data is written form by form, and nothing else happens. -/
theorem prints_form {value : Value} {form : Form} (unlimited : world.printLength = none)
    (found : value.form? = some form) : value.Prints machine world form.text world := by
  cases value with
  | nil =>
      cases found
      exact ⟨1, rfl⟩
  | boolean value =>
      cases found
      cases value <;> exact ⟨1, rfl⟩
  | integer value =>
      cases found
      exact ⟨1, congrArg (fun text => some (text, world)) String.ofList_toList.symm⟩
  | character char =>
      cases found
      refine ⟨1, congrArg (fun text => some (text, world)) (String.toList_inj.mp ?_)⟩
      simp only [String.toList_append, Form.text, String.toList_ofList]
      rfl
  | string _ text =>
      cases found
      refine ⟨1, congrArg (fun text => some (text, world)) (String.toList_inj.mp ?_)⟩
      simp only [Text.quote, String.toList_append, Form.text, String.toList_ofList]
      rfl
  | list _ items _ =>
      rcases Option.map_eq_some_iff.mp found with ⟨forms, areForms, rfl⟩
      rcases tells_forms unlimited areForms with ⟨record, tells, texts, ending⟩
      refine (prints_walked_iff rfl).mpr ⟨record, unlimited ▸ tells, ?_⟩
      rw [Form.text_list, Printing.Record.text, texts, ending]
  | vector _ items _ =>
      rcases Option.map_eq_some_iff.mp found with ⟨forms, areForms, rfl⟩
      rcases tells_forms unlimited areForms with ⟨record, tells, texts, ending⟩
      refine (prints_walked_iff rfl).mpr ⟨record, unlimited ▸ tells, ?_⟩
      rw [Form.text_vector, Printing.Record.text, texts, ending]
  | _ => cases found

theorem tells_forms {items : List Value} {forms : List Form} (unlimited : world.printLength = none)
    (found : forms? items = some forms) :
    ∃ record : Printing.Record Cursor Value,
      record.Tells machine Cursor.next (Value.Prints machine) none (.items items) world world ∧
      record.texts = forms.map Form.text ∧ record.ending = .complete := by
  cases items with
  | nil =>
      cases found
      exact ⟨⟨[], .items [], world, .complete⟩,
        Printing.Record.tells_nil_iff.mpr ⟨rfl, rfl, none, .done, rfl, .complete⟩, rfl, rfl⟩
  | cons first rest =>
      rcases forms?_cons found with ⟨form, others, isForm, areForms, rfl⟩
      rcases tells_forms unlimited areForms with ⟨record, tells, texts, ending⟩
      refine ⟨{ record with shown := ⟨.items (first :: rest), world, first, .items rest, world,
          form.text, world⟩ :: record.shown }, Printing.Record.tells_cons_iff.mpr
          ⟨nofun, rfl, rfl, rfl, prints_form unlimited isForm, tells⟩, ?_, ending⟩
      exact congrArg (form.text :: ·) texts

end

theorem display_form {value : Value} {form : Form} (unlimited : world.printLength = none)
    (found : value.form? = some form) {text : String} {after : World}
    (displayed : value.display machine world = some (text, after)) : text = form.text :=
  ((Prints.of_display displayed).unique (prints_form unlimited found)).1

end Value

/-- Without a print length plain data has a text in every world, and no other plain data has it:
what is displayed alike is alike in all but its addresses and its metadata, tag by tag. -/
theorem plain_data_unambiguous {left right : Value} {form other : Form}
    (isForm : left.form? = some form) (isOther : right.form? = some other) :
    (∀ (machine : Machine) (world : World), world.printLength = none →
      left.Prints machine world form.text world ∧ right.Prints machine world other.text world) ∧
    ∀ {machine otherMachine : Machine} {world otherWorld after otherAfter : World}
      {text : String}, world.printLength = none → otherWorld.printLength = none →
      left.display machine world = some (text, after) →
      right.display otherMachine otherWorld = some (text, otherAfter) → form = other := by
  refine ⟨fun machine world unlimited => ?_, ?_⟩
  · exact ⟨Value.prints_form unlimited isForm, Value.prints_form unlimited isOther⟩
  · intro machine otherMachine world otherWorld after otherAfter text unlimited otherUnlimited
      displayed otherDisplayed
    have same := Value.display_form unlimited isForm displayed
    have otherSame := Value.display_form otherUnlimited isOther otherDisplayed
    exact Form.text_inj (same.symm.trans otherSame)

/-- A machine on which no call is answered. -/
def Machine.callless (limit : Nat) : Machine where
  call _ _ _ _ := none
  held := []
  limit := limit

/-- A bracket that closes nothing, before a string in which a quote closes nothing. -/
def unclosed : Value := .vector 0 [.character ']', .string 1 "\" ]"] none

/-- The quote is a character of its own, and the string begins behind it. -/
def requoted : Value :=
  .vector 0 [.list 1 [.character ')'] none, .character '"', .string 2 " "] none

theorem unclosed_unambiguous :
    unclosed.Prints (.callless 9) World.initial "[\\] \"\\\" ]\"]" World.initial ∧
    requoted.Prints (.callless 9) World.initial "[(\\)) \\\" \" \"]" World.initial ∧
    ∀ {text : String} {after otherAfter : World},
      unclosed.display (.callless 9) World.initial = some (text, after) →
      requoted.display (.callless 9) World.initial ≠ some (text, otherAfter) := by
  have isForm : unclosed.form? = some (.vector [.character ']', .string "\" ]"]) := rfl
  have isOther : requoted.form? =
      some (.vector [.list [.character ')'], .character '"', .string " "]) := rfl
  have told := plain_data_unambiguous isForm isOther
  refine ⟨(told.1 _ _ rfl).1, (told.1 _ _ rfl).2, fun displayed otherDisplayed => ?_⟩
  cases told.2 rfl rfl displayed otherDisplayed

end LispRuntime
