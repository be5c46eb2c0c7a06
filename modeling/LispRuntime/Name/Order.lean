/-! Texts are ordered by their characters, and characters by their scalar
values; a text that another one extends comes first. -/

namespace LispRuntime

def compareChars : List Char → List Char → Ordering
  | [], [] => .eq
  | [], _ :: _ => .lt
  | _ :: _, [] => .gt
  | left :: leftRest, right :: rightRest =>
      (compare left.toNat right.toNat).then (compareChars leftRest rightRest)

def compareText (left right : String) : Ordering :=
  compareChars left.toList right.toList

/-- An absent text comes before every present one. -/
def compareOptional : Option String → Option String → Ordering
  | none, none => .eq
  | none, some _ => .lt
  | some _, none => .gt
  | some left, some right => compareText left right

end LispRuntime
