/-! Tags are values as the nodes of a hierarchy and the keys of a method table.
A tag has the label of its value: two values are equal exactly when their
labels are, and tables look at labels only. A tag also keeps the value that it
was made from, and for a vector the tags of its elements. -/

namespace LispRuntime

inductive Tag (α : Type) where
  | plain (label : Nat) (value : α)
  | vector (label : Nat) (value : α) (parts : List (Tag α))
deriving Repr

namespace Tag

variable {α : Type}

def label : Tag α → Nat
  | plain label _ => label
  | vector label _ _ => label

def value : Tag α → α
  | plain _ value => value
  | vector _ value _ => value

def sameAs (left right : Tag α) : Bool := left.label == right.label

end Tag

/-! Sets and tables of tags keep the tag that came first when another one with
its label arrives. -/

abbrev TagSet (α : Type) := List (Tag α)

namespace TagSet

variable {α : Type}

def has (set : TagSet α) (tag : Tag α) : Bool := set.any tag.sameAs

def insert (set : TagSet α) (tag : Tag α) : TagSet α :=
  if TagSet.has set tag then set else set ++ [tag]

def insertAll (set : TagSet α) (tags : List (Tag α)) : TagSet α :=
  tags.foldl TagSet.insert set

def erase (set : TagSet α) (tag : Tag α) : TagSet α :=
  set.filter fun other => !tag.sameAs other

def isSubsetOf (left right : TagSet α) : Bool := left.all (TagSet.has right)

def sameElements (left right : TagSet α) : Bool :=
  left.length == right.length && isSubsetOf left right

end TagSet

abbrev TagTable (α β : Type) := List (Tag α × β)

namespace TagTable

variable {α β : Type}

def lookup (table : TagTable α β) (tag : Tag α) : Option β :=
  (List.find? (fun entry => tag.sameAs entry.1) table).map Prod.snd

def insert (table : TagTable α β) (tag : Tag α) (value : β) : TagTable α β :=
  match table with
  | [] => [(tag, value)]
  | (key, old) :: rest =>
      if tag.sameAs key then (key, value) :: rest
      else (key, old) :: insert rest tag value

def erase (table : TagTable α β) (tag : Tag α) : TagTable α β :=
  table.filter fun entry => !tag.sameAs entry.1

def keys (table : TagTable α β) : List (Tag α) := table.map Prod.fst

end TagTable

end LispRuntime
