import LispRuntime.Value.Printing
import Mathlib.Data.List.Basic

/-! The text of plain data: nil, booleans, integers, characters and strings, in lists and vectors
at any depth. Such a text can be read in one way only. Where a form ends is told by what stands
behind it, so the readings are compared together with whatever follows: nothing, a space, or a
bracket that closes. -/

namespace LispRuntime

/-- A plain datum as it is written, tag by tag. -/
inductive Form where
  | nil
  | boolean (value : Bool)
  | integer (value : Int64)
  | character (value : Char)
  | string (text : String)
  | list (items : List Form)
  | vector (items : List Form)
deriving Repr, Inhabited

namespace Form

/-- The character that a form begins with, if it is not a mere word. -/
def mark : Form → Option Char
  | nil | boolean _ | integer _ => none
  | character _ => some '\\'
  | string _ => some '"'
  | list _ => some '('
  | vector _ => some '['

mutual

/-- What stands behind the mark. -/
def body : Form → List Char
  | nil => "nil".toList
  | boolean true => "true".toList
  | boolean false => "false".toList
  | integer value => (toString value.toInt).toList
  | character value => (Text.characterName value).toList
  | string text => text.toList.flatMap Text.escapeCharacter ++ ['"']
  | list items => between items ++ [')']
  | vector items => between items ++ [']']

def between : List Form → List Char
  | [] => []
  | first :: rest => first.mark.toList ++ first.body ++ behind rest

/-- Items behind the first one, each with a space before it. -/
def behind : List Form → List Char
  | [] => []
  | item :: rest => ' ' :: (item.mark.toList ++ item.body ++ behind rest)

end

def chars (form : Form) : List Char := form.mark.toList ++ form.body

def text (form : Form) : String := String.ofList form.chars

def items : Form → List Form
  | list items | vector items => items
  | _ => []

mutual

/-- A property holds of every form if it holds of a form whenever it holds of its items. -/
theorem induct {Property : Form → Prop}
    (step : ∀ form, (∀ item ∈ form.items, Property item) → Property form) :
    ∀ form, Property form
  | nil | boolean _ | integer _ | character _ | string _ =>
      step _ (fun _ member => nomatch member)
  | list items | vector items => step _ (inductItems step items)

theorem inductItems {Property : Form → Prop}
    (step : ∀ form, (∀ item ∈ form.items, Property item) → Property form) :
    ∀ items : List Form, ∀ item ∈ items, Property item
  | [], _, member => nomatch member
  | first :: rest, item, member =>
      (List.mem_cons.mp member).elim (fun equal => equal ▸ induct step first)
        (inductItems step rest item)

end

end Form

/-! ## Words -/

namespace Text

/-- Letters, digits and the minus sign. -/
def isWord (char : Char) : Bool := char.isAlphanum || char == '-'

/-- No word goes on here. -/
def EndsWord (rest : List Char) : Prop := rest.takeWhile isWord = []

theorem endsWord_nil : EndsWord [] := rfl

theorem endsWord_cons {first : Char} (notWord : isWord first = false) (rest : List Char) :
    EndsWord (first :: rest) :=
  List.takeWhile_cons_of_neg (by rw [notWord]; exact Bool.false_ne_true)

/-- A word and what follows it can be told apart. -/
theorem word_append_inj {word other rest otherRest : List Char}
    (isWords : ∀ char ∈ word, isWord char = true) (otherWords : ∀ char ∈ other, isWord char = true)
    (ends : EndsWord rest) (otherEnds : EndsWord otherRest)
    (same : word ++ rest = other ++ otherRest) : word = other ∧ rest = otherRest := by
  have words : word = other := by
    have taken := congrArg (List.takeWhile isWord) same
    rwa [List.takeWhile_append_of_pos isWords, List.takeWhile_append_of_pos otherWords, ends,
      otherEnds, List.append_nil, List.append_nil] at taken
  subst words
  exact ⟨rfl, List.append_cancel_left same⟩

/-! ### Integers -/

theorem toList_integer (number : Int) :
    (toString number).toList =
      match number with
      | .ofNat number => Nat.toDigits 10 number
      | .negSucc number => '-' :: Nat.toDigits 10 (number + 1) := by
  cases number with
  | ofNat number => exact Nat.toList_repr
  | negSucc number => exact String.toList_append.trans (congrArg ('-' :: ·) Nat.toList_repr)

theorem isDigit_of_mem {number : Nat} {char : Char} (member : char ∈ Nat.toDigits 10 number) :
    char.isDigit = true :=
  Nat.isDigit_of_mem_toDigits (by decide) (by decide) member

theorem toDigits_inj {number other : Nat}
    (same : Nat.toDigits 10 number = Nat.toDigits 10 other) : number = other := by
  have read : Nat.ofDigitChars 10 (Nat.toDigits 10 number) 0 = number :=
    Nat.ofDigitChars_toDigits (by decide) (by decide)
  rw [same, Nat.ofDigitChars_toDigits (by decide) (by decide)] at read
  exact read.symm

theorem digit_of_mem_integer {number : Int} {char : Char}
    (member : char ∈ (toString number).toList) : char = '-' ∨ char.isDigit = true := by
  rw [toList_integer] at member
  cases number with
  | ofNat number => exact .inr (isDigit_of_mem member)
  | negSucc number => exact (List.mem_cons.mp member).imp_right isDigit_of_mem

theorem isWord_of_mem_integer {number : Int} {char : Char}
    (member : char ∈ (toString number).toList) : isWord char = true := by
  rcases digit_of_mem_integer member with rfl | digit
  · rfl
  · rw [isWord, Char.isAlphanum, digit, Bool.or_true, Bool.true_or]

theorem integer_ne_nil (number : Int) : (toString number).toList ≠ [] := by
  rw [toList_integer]
  cases number with
  | ofNat number => exact Nat.toDigits_ne_nil
  | negSucc number => exact List.cons_ne_nil _ _

theorem toDigits_ne_minus (number : Nat) (rest : List Char) :
    Nat.toDigits 10 number ≠ '-' :: rest := by
  intro same
  have sign : '-' ∈ Nat.toDigits 10 number := same ▸ List.mem_cons_self ..
  exact Bool.false_ne_true (isDigit_of_mem sign)

theorem integer_inj {number other : Int}
    (same : (toString number).toList = (toString other).toList) : number = other := by
  rw [toList_integer, toList_integer] at same
  cases number <;> cases other
  case ofNat.ofNat => exact congrArg Int.ofNat (toDigits_inj same)
  case negSucc.negSucc =>
    exact congrArg Int.negSucc (Nat.succ.inj (toDigits_inj (List.cons.inj same).2))
  case ofNat.negSucc => exact (toDigits_ne_minus _ _ same).elim
  case negSucc.ofNat => exact (toDigits_ne_minus _ _ same.symm).elim

/-! ### Characters -/

/-- The character that has this name. -/
def namedCharacter : List Char → Char
  | [char] => char
  | 'n' :: _ => '\n'
  | 's' :: _ => ' '
  | 't' :: _ => '\t'
  | 'r' :: _ => '\r'
  | 'b' :: _ => Char.ofNat 8
  | _ => Char.ofNat 12

theorem named_characterName (char : Char) : namedCharacter (characterName char).toList = char := by
  unfold characterName
  split_ifs with newline space tab carriage backspace formfeed
  case pos => rw [newline]; rfl
  case pos => rw [space]; rfl
  case pos => rw [tab]; rfl
  case pos => rw [carriage]; rfl
  case pos => rw [← Char.ofNat_toNat char, backspace]; rfl
  case pos => rw [← Char.ofNat_toNat char, formfeed]; rfl
  case neg => rw [String.toList_singleton]; rfl

/-- Whatever the first character of a name is, the others are letters. -/
theorem characterName_eq (char : Char) : ∃ first others,
    (characterName char).toList = first :: others ∧ ∀ letter ∈ others, isWord letter = true := by
  unfold characterName
  split_ifs
  case neg => exact ⟨char, [], String.toList_singleton char, nofun⟩
  all_goals exact ⟨_, _, rfl, List.all_eq_true.mp (by decide)⟩

theorem characterName_append_inj {char other : Char} {rest otherRest : List Char}
    (ends : EndsWord rest) (otherEnds : EndsWord otherRest)
    (same : (characterName char).toList ++ rest = (characterName other).toList ++ otherRest) :
    char = other ∧ rest = otherRest := by
  rcases characterName_eq char with ⟨first, others, name, letters⟩
  rcases characterName_eq other with ⟨otherFirst, otherOthers, otherName, otherLetters⟩
  rw [name, otherName, List.cons_append, List.cons_append, List.cons.injEq] at same
  rcases same with ⟨rfl, same⟩
  rcases word_append_inj letters otherLetters ends otherEnds same with ⟨rfl, sameRest⟩
  refine ⟨?_, sameRest⟩
  rw [← named_characterName char, ← named_characterName other, name, otherName]

/-! ### Strings -/

/-- Reads a string up to the quote that closes it. -/
def readQuoted : List Char → Option (List Char × List Char)
  | [] => none
  | '"' :: rest => some ([], rest)
  | '\\' :: escaped :: rest =>
      let char :=
        match escaped with
        | 'n' => '\n'
        | 't' => '\t'
        | 'r' => '\r'
        | char => char
      (readQuoted rest).map fun (chars, rest) => (char :: chars, rest)
  | char :: rest => (readQuoted rest).map fun (chars, rest) => (char :: chars, rest)

theorem readQuoted_escape (char : Char) (rest : List Char) :
    readQuoted (escapeCharacter char ++ rest) =
      (readQuoted rest).map fun (chars, rest) => (char :: chars, rest) := by
  unfold escapeCharacter
  split_ifs with newline tab carriage backslash quote
  case neg => simp [readQuoted, backslash]
  all_goals
    subst char
    rfl

theorem readQuoted_append (chars rest : List Char) :
    readQuoted (chars.flatMap escapeCharacter ++ '"' :: rest) = some (chars, rest) := by
  induction chars with
  | nil => rfl
  | cons char chars induction =>
      rw [List.flatMap_cons, List.append_assoc, readQuoted_escape, induction]
      rfl

theorem quoted_append_inj {chars other rest otherRest : List Char}
    (same : chars.flatMap escapeCharacter ++ ['"'] ++ rest =
      other.flatMap escapeCharacter ++ ['"'] ++ otherRest) : chars = other ∧ rest = otherRest := by
  rw [List.append_assoc, List.append_assoc, List.singleton_append, List.singleton_append] at same
  have read := readQuoted_append chars rest
  rw [same, readQuoted_append] at read
  exact (Prod.mk.inj (Option.some.inj read)).imp Eq.symm Eq.symm

end Text

/-! ## Forms -/

namespace Form

open Text (isWord EndsWord)

theorem between_cons (first : Form) (rest : List Form) :
    between (first :: rest) = first.chars ++ behind rest := rfl

theorem behind_cons (item : Form) (rest : List Form) :
    behind (item :: rest) = ' ' :: (item.chars ++ behind rest) := rfl

theorem isWord_of_mem_body {form : Form} (noMark : form.mark = none) {char : Char}
    (member : char ∈ form.body) : isWord char = true := by
  cases form with
  | nil => exact List.all_eq_true.mp (by decide : nil.body.all isWord = true) char member
  | boolean value =>
      have word : (boolean value).body.all isWord = true := by cases value <;> decide
      exact List.all_eq_true.mp word char member
  | integer => exact Text.isWord_of_mem_integer member
  | _ => cases noMark

theorem body_ne_nil {form : Form} (noMark : form.mark = none) : form.body ≠ [] := by
  cases form with
  | nil => exact List.cons_ne_nil _ _
  | boolean value => cases value <;> exact List.cons_ne_nil _ _
  | integer value => exact Text.integer_ne_nil _
  | _ => cases noMark

theorem isWord_mark {form : Form} {char : Char} (marked : form.mark = some char) :
    isWord char = false := by
  cases form <;> cases marked <;> rfl

/-- The first character of a text tells the mark. -/
theorem exists_chars_eq (form : Form) : ∃ first others, form.chars = first :: others ∧
    form.mark = if isWord first then none else some first := by
  cases marked : form.mark with
  | none =>
      rcases List.exists_cons_of_ne_nil (body_ne_nil marked) with ⟨first, others, body⟩
      have letter := isWord_of_mem_body marked (body ▸ List.mem_cons_self ..)
      refine ⟨first, others, ?_, by rw [letter]; rfl⟩
      rw [chars, marked, body]
      rfl
  | some char =>
      refine ⟨char, form.body, ?_, by rw [isWord_mark marked]; rfl⟩
      rw [chars, marked]
      rfl

theorem mark_eq {left right : Form} {rest otherRest : List Char}
    (same : left.chars ++ rest = right.chars ++ otherRest) : left.mark = right.mark := by
  rcases left.exists_chars_eq with ⟨first, others, chars, mark⟩
  rcases right.exists_chars_eq with ⟨otherFirst, otherOthers, otherChars, otherMark⟩
  rw [chars, otherChars, List.cons_append, List.cons_append] at same
  rw [mark, otherMark, (List.cons.inj same).1]

theorem body_integer_ne {value : Int64} {letters : List Char}
    (hasLetter : ∃ char ∈ letters, char ≠ '-' ∧ char.isDigit = false) :
    (integer value).body ≠ letters := by
  rintro rfl
  rcases hasLetter with ⟨char, member, notSign, notDigit⟩
  rcases Text.digit_of_mem_integer member with sign | digit
  · exact notSign sign
  · exact Bool.false_ne_true (notDigit.symm.trans digit)

theorem eq_of_noMark {form : Form} (noMark : form.mark = none) :
    form = nil ∨ (∃ value, form = boolean value) ∨ ∃ value, form = integer value := by
  cases form with
  | nil => exact .inl rfl
  | boolean value => exact .inr (.inl ⟨value, rfl⟩)
  | integer value => exact .inr (.inr ⟨value, rfl⟩)
  | _ => cases noMark

theorem word_inj {left right : Form} (noMark : left.mark = none) (otherNoMark : right.mark = none)
    (same : left.body = right.body) : left = right := by
  have letter : ∃ char ∈ nil.body, char ≠ '-' ∧ char.isDigit = false :=
    ⟨'n', by decide, by decide, rfl⟩
  have letters (value : Bool) :
      ∃ char ∈ (boolean value).body, char ≠ '-' ∧ char.isDigit = false := by
    cases value
    · exact ⟨'f', by decide, by decide, rfl⟩
    · exact ⟨'t', by decide, by decide, rfl⟩
  rcases eq_of_noMark noMark with rfl | ⟨value, rfl⟩ | ⟨value, rfl⟩ <;>
    rcases eq_of_noMark otherNoMark with rfl | ⟨other, rfl⟩ | ⟨other, rfl⟩
  · rfl
  · cases other <;> cases same
  · exact (body_integer_ne letter same.symm).elim
  · cases value <;> cases same
  · cases value <;> cases other <;> first | rfl | cases same
  · exact (body_integer_ne (letters value) same.symm).elim
  · exact (body_integer_ne letter same).elim
  · exact (body_integer_ne (letters other) same).elim
  · exact congrArg integer (Int64.toInt_inj.mp (Text.integer_inj same))

/-- Forms with one mark. -/
inductive SameMark : Form → Form → Prop
  | words {left right : Form} (noMark : left.mark = none) (otherNoMark : right.mark = none) :
      SameMark left right
  | characters (left right : Char) : SameMark (character left) (character right)
  | strings (left right : String) : SameMark (string left) (string right)
  | lists (left right : List Form) : SameMark (list left) (list right)
  | vectors (left right : List Form) : SameMark (vector left) (vector right)

theorem sameMark_of_eq {left right : Form} (marks : left.mark = right.mark) :
    SameMark left right := by
  cases left with
  | nil | boolean | integer => exact .words rfl marks.symm
  | character => cases right <;> cases marks; exact .characters _ _
  | string => cases right <;> cases marks; exact .strings _ _
  | list => cases right <;> cases marks; exact .lists _ _
  | vector => cases right <;> cases marks; exact .vectors _ _

/-- Whatever else is read from the same characters is this form. -/
def ReadsAlone (form : Form) : Prop :=
  ∀ (other : Form) (rest otherRest : List Char), EndsWord rest → EndsWord otherRest →
    form.chars ++ rest = other.chars ++ otherRest → form = other ∧ rest = otherRest

/-- Lists and vectors end with these. -/
def IsClosing (char : Char) : Prop := char = ')' ∨ char = ']'

section

variable {closing : Char} {left right : List Form} {rest otherRest : List Char}

theorem IsClosing.not_isWord (closes : IsClosing closing) : isWord closing = false := by
  rcases closes with rfl | rfl <;> rfl

theorem IsClosing.ne_space (closes : IsClosing closing) : closing ≠ ' ' := by
  rcases closes with rfl | rfl <;> decide

theorem IsClosing.ne_mark (closes : IsClosing closing) (form : Form) :
    form.mark ≠ some closing := by
  rcases closes with rfl | rfl <;> cases form <;> nofun

theorem endsWord_behind (closes : IsClosing closing) (items : List Form) (rest : List Char) :
    EndsWord (behind items ++ closing :: rest) := by
  cases items with
  | nil => exact Text.endsWord_cons closes.not_isWord rest
  | cons => exact Text.endsWord_cons rfl _

theorem behind_append_inj (alone : ∀ item ∈ left, item.ReadsAlone) (closes : IsClosing closing)
    (same : behind left ++ closing :: rest = behind right ++ closing :: otherRest) :
    left = right ∧ rest = otherRest := by
  induction left generalizing right with
  | nil =>
      cases right with
      | nil => exact ⟨rfl, (List.cons.inj same).2⟩
      | cons => exact (closes.ne_space (List.cons.inj same).1).elim
  | cons item left induction =>
      cases right with
      | nil => exact (closes.ne_space (List.cons.inj same).1.symm).elim
      | cons other right =>
          rcases List.forall_mem_cons.mp alone with ⟨itemAlone, othersAlone⟩
          rw [behind_cons, behind_cons, List.cons_append, List.cons_append, List.append_assoc,
            List.append_assoc] at same
          rcases itemAlone _ _ _ (endsWord_behind closes _ _) (endsWord_behind closes _ _)
            (List.cons.inj same).2 with ⟨rfl, sameRest⟩
          rcases induction othersAlone sameRest with ⟨rfl, sameEnd⟩
          exact ⟨rfl, sameEnd⟩

/-- No form begins with what ends one. -/
theorem chars_append_ne_closing (closes : IsClosing closing) (form : Form)
    (others more : List Char) : form.chars ++ others ≠ closing :: more := by
  rcases form.exists_chars_eq with ⟨first, tail, chars, mark⟩
  intro same
  rw [chars, List.cons_append] at same
  rw [(List.cons.inj same).1, closes.not_isWord] at mark
  exact closes.ne_mark form mark

theorem between_append_inj (alone : ∀ item ∈ left, item.ReadsAlone) (closes : IsClosing closing)
    (same : between left ++ [closing] ++ rest = between right ++ [closing] ++ otherRest) :
    left = right ∧ rest = otherRest := by
  rw [List.append_assoc, List.append_assoc, List.singleton_append, List.singleton_append] at same
  cases left with
  | nil =>
      cases right with
      | nil => exact ⟨rfl, (List.cons.inj same).2⟩
      | cons =>
          rw [between_cons, List.append_assoc] at same
          exact (chars_append_ne_closing closes _ _ _ same.symm).elim
  | cons item left =>
      cases right with
      | nil =>
          rw [between_cons, List.append_assoc] at same
          exact (chars_append_ne_closing closes _ _ _ same).elim
      | cons other right =>
          rcases List.forall_mem_cons.mp alone with ⟨itemAlone, othersAlone⟩
          rw [between_cons, between_cons, List.append_assoc, List.append_assoc] at same
          rcases itemAlone _ _ _ (endsWord_behind closes _ _) (endsWord_behind closes _ _) same with
            ⟨rfl, sameRest⟩
          rcases behind_append_inj othersAlone closes sameRest with ⟨rfl, sameEnd⟩
          exact ⟨rfl, sameEnd⟩

end

theorem ReadsAlone.of_items (form : Form) (alone : ∀ item ∈ form.items, item.ReadsAlone) :
    form.ReadsAlone := by
  intro other rest otherRest ends otherEnds same
  have marks := mark_eq same
  rw [chars, chars, marks, List.append_assoc, List.append_assoc] at same
  have bodies := List.append_cancel_left same
  cases sameMark_of_eq marks with
  | words noMark otherNoMark =>
      have words := Text.word_append_inj (fun _ => isWord_of_mem_body noMark)
        (fun _ => isWord_of_mem_body otherNoMark) ends otherEnds bodies
      exact words.imp_left (word_inj noMark otherNoMark)
  | characters =>
      exact (Text.characterName_append_inj ends otherEnds bodies).imp_left (congrArg character)
  | strings =>
      exact (Text.quoted_append_inj bodies).imp_left (congrArg string ∘ String.toList_inj.mp)
  | lists => exact (between_append_inj alone (.inl rfl) bodies).imp_left (congrArg list)
  | vectors => exact (between_append_inj alone (.inr rfl) bodies).imp_left (congrArg vector)

theorem readsAlone (form : Form) : form.ReadsAlone := induct ReadsAlone.of_items form

/-- Two forms that are written alike are one form. -/
theorem text_inj {left right : Form} (same : left.text = right.text) : left = right := by
  have chars : left.chars = right.chars := String.ofList_inj.mp same
  exact (left.readsAlone right [] [] Text.endsWord_nil Text.endsWord_nil (by rw [chars])).1

end Form

end LispRuntime
