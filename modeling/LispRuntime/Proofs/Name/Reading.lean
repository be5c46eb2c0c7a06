import LispRuntime.Name.Symbol
import Mathlib.Data.List.TakeWhile

/-! Names that are written and read back. A text is split at its first slash, if something stands
on both sides of it; either way the text of what has been read is the text again. A name that was
put together of any parts comes back only if its text is split where the parts meet. -/

namespace LispRuntime

namespace Symbol

/-- The first slash stands between these characters. -/
def SplitsAt (text : String) (before after : List Char) : Prop :=
  text.toList = before ++ '/' :: after ∧ '/' ∉ before

variable {text : String} {before after : List Char}

theorem exists_splitsAt (slash : '/' ∈ text.toList) :
    ∃ before after, SplitsAt text before after :=
  List.eq_append_cons_of_mem slash

theorem SplitsAt.eq_append (splits : SplitsAt text before after) :
    text = String.ofList before ++ "/" ++ String.ofList after := by
  apply String.toList_inj.mp
  simp only [splits.1, String.toList_append, String.toList_ofList, List.append_assoc]
  rfl

theorem splitsAt_append {first : String} (noSlash : '/' ∉ first.toList) (second : String) :
    SplitsAt (first ++ "/" ++ second) first.toList second.toList := by
  refine ⟨?_, noSlash⟩
  rw [String.toList_append, String.toList_append, List.append_assoc]
  rfl

/-! ## What is read -/

theorem parse_of_not_mem (noSlash : '/' ∉ text.toList) : parse text = unqualifiedName text := by
  have none : ∀ char ∈ text.toList, (char != '/') = true :=
    fun char member => bne_iff_ne.mpr fun same => noSlash (same ▸ member)
  have left : text.toList.dropWhile (· != '/') = [] := List.dropWhile_eq_nil_iff.mpr none
  unfold parse
  rw [left]
  cases text.toList.takeWhile (· != '/') <;> rfl

/-- The slash is part of the name if it stands at either end. -/
theorem SplitsAt.parse_eq (splits : SplitsAt text before after) :
    parse text =
      if before = [] ∨ after = [] then unqualifiedName text
      else qualifiedName (String.ofList before) (String.ofList after) := by
  have none : ∀ char ∈ before, (char != '/') = true :=
    fun char member => bne_iff_ne.mpr fun same => splits.2 (same ▸ member)
  have taken : text.toList.takeWhile (· != '/') = before := by
    rw [splits.1, List.takeWhile_append_of_pos none]
    simp
  have left : text.toList.dropWhile (· != '/') = '/' :: after := by
    rw [splits.1, List.dropWhile_append_of_pos none]
    simp
  unfold parse
  rw [taken, left]
  cases before with
  | nil => simp
  | cons => cases after <;> simp

/-- What has been read has the text that it was read from. -/
theorem text_parse (text : String) : (parse text).text = text := by
  by_cases slash : '/' ∈ text.toList
  · rcases exists_splitsAt slash with ⟨before, after, splits⟩
    rw [splits.parse_eq]
    split
    case isTrue => rfl
    case isFalse => exact splits.eq_append.symm
  · rw [parse_of_not_mem slash]
    rfl

/-! ## What is read back -/

/-- A qualifier comes back if it is not empty and has no slash, before a name that is not empty. A
name alone comes back if it has no slash, or has its first one as its first or as its last
character. -/
def IsLegible (symbol : Symbol) : Prop :=
  match symbol.qualifier with
  | some qualifier => qualifier ≠ "" ∧ '/' ∉ qualifier.toList ∧ symbol.name ≠ ""
  | none =>
      '/' ∉ symbol.name.toList ∨ (∃ rest, symbol.name = "/" ++ rest) ∨
        ∃ rest, '/' ∉ rest.toList ∧ symbol.name = rest ++ "/"

theorem unqualifiedName_ne (name qualifier other : String) :
    unqualifiedName name ≠ qualifiedName qualifier other :=
  fun same => nomatch congrArg Symbol.qualifier same

theorem parse_qualified_iff (qualifier name : String) :
    parse (qualifiedName qualifier name).text = qualifiedName qualifier name ↔
      qualifier ≠ "" ∧ '/' ∉ qualifier.toList ∧ name ≠ "" := by
  by_cases slash : '/' ∈ qualifier.toList
  · -- The text is split within the qualifier.
    rcases exists_splitsAt slash with ⟨before, after, splits⟩
    have within : SplitsAt (qualifiedName qualifier name).text before
        (after ++ '/' :: name.toList) := by
      refine ⟨?_, splits.2⟩
      rw [text, qualifiedName, String.toList_append, String.toList_append, splits.1,
        List.append_assoc, List.append_assoc]
      rfl
    refine iff_of_false ?_ fun legible => legible.2.1 slash
    rw [within.parse_eq]
    split
    case isTrue => exact unqualifiedName_ne _ _ _
    case isFalse =>
      intro same
      have whole : String.ofList before = qualifier :=
        Option.some.inj (congrArg Symbol.qualifier same)
      rw [← whole, String.toList_ofList] at slash
      exact splits.2 slash
  · have between : SplitsAt (qualifiedName qualifier name).text qualifier.toList name.toList :=
      splitsAt_append slash name
    rw [between.parse_eq, String.ofList_toList, String.ofList_toList]
    simp only [String.toList_eq_nil_iff]
    split
    case isTrue empty =>
      refine iff_of_false (unqualifiedName_ne _ _ _) ?_
      rintro ⟨hasQualifier, _, hasName⟩
      exact empty.elim hasQualifier hasName
    case isFalse full => exact iff_of_true rfl ⟨full ∘ .inl, slash, full ∘ .inr⟩

theorem parse_unqualified_iff (name : String) :
    parse name = unqualifiedName name ↔
      '/' ∉ name.toList ∨ (∃ rest, name = "/" ++ rest) ∨
        ∃ rest, '/' ∉ rest.toList ∧ name = rest ++ "/" := by
  constructor
  · intro whole
    by_cases slash : '/' ∈ name.toList
    · rcases exists_splitsAt slash with ⟨before, after, splits⟩
      rw [splits.parse_eq] at whole
      split at whole
      case isTrue atEnd =>
        refine .inr (atEnd.imp ?_ ?_) <;> rintro rfl
        · exact ⟨String.ofList after, splits.eq_append⟩
        · refine ⟨String.ofList before, ?_, splits.eq_append.trans String.append_empty⟩
          rw [String.toList_ofList]
          exact splits.2
      case isFalse => exact (unqualifiedName_ne _ _ _ whole.symm).elim
    · exact .inl slash
  · rintro (noSlash | ⟨rest, rfl⟩ | ⟨rest, noSlash, rfl⟩)
    · exact parse_of_not_mem noSlash
    · have first : SplitsAt ("/" ++ rest) [] rest.toList :=
        ⟨by rw [String.toList_append]; rfl, nofun⟩
      rw [first.parse_eq, if_pos (.inl rfl)]
    · have last : SplitsAt (rest ++ "/") rest.toList [] :=
        ⟨by rw [String.toList_append]; rfl, noSlash⟩
      rw [last.parse_eq, if_pos (.inr rfl)]

theorem parse_text_iff (symbol : Symbol) : parse symbol.text = symbol ↔ symbol.IsLegible := by
  rcases symbol with ⟨_ | qualifier, name⟩
  · exact parse_unqualified_iff name
  · exact parse_qualified_iff qualifier name

end Symbol

namespace Keyword

/-- The text without one colon at its beginning. -/
def withoutColon (text : String) : String :=
  match text.toList with
  | ':' :: rest => String.ofList rest
  | _ => text

theorem parse_eq (text : String) : parse text = ⟨Symbol.parse (withoutColon text)⟩ := by
  unfold parse withoutColon
  cases text.toList with
  | nil => rfl
  | cons first rest => split <;> simp_all

theorem withoutColon_append (text : String) : withoutColon (":" ++ text) = text := by
  unfold withoutColon
  rw [String.toList_append]
  exact String.ofList_toList

theorem parse_text_eq (keyword : Keyword) :
    parse keyword.text = ⟨Symbol.parse keyword.symbol.text⟩ := by
  rw [parse_eq, text, withoutColon_append]

theorem text_parse_eq (text : String) : (parse text).text = ":" ++ withoutColon text := by
  rw [parse_eq, Keyword.text, Symbol.text_parse]

end Keyword

/-- What is read from a text has that text, but for the colon of a keyword, and so it is read back
from it. A name that was put together of any parts is read back exactly if it is legible. -/
theorem names_round_trip :
    (∀ text : String, (Symbol.parse text).text = text ∧
      (Keyword.parse text).text = ":" ++ Keyword.withoutColon text ∧
      Symbol.parse (Symbol.parse text).text = Symbol.parse text ∧
      Keyword.parse (Keyword.parse text).text = Keyword.parse text) ∧
    (∀ symbol : Symbol, Symbol.parse symbol.text = symbol ↔ symbol.IsLegible) ∧
    ∀ keyword : Keyword, Keyword.parse keyword.text = keyword ↔ keyword.symbol.IsLegible := by
  refine ⟨fun text => ⟨Symbol.text_parse text, Keyword.text_parse_eq text, ?_, ?_⟩,
    Symbol.parse_text_iff, fun keyword => ?_⟩
  · rw [Symbol.text_parse]
  · rw [Keyword.text_parse_eq, Keyword.parse_eq, Keyword.parse_eq, Keyword.withoutColon_append]
  · rw [Keyword.parse_text_eq, ← Symbol.parse_text_iff]
    exact ⟨congrArg Keyword.symbol, congrArg Keyword.mk⟩

end LispRuntime
