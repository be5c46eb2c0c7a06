import LispRuntime.Hash.Mix
import LispRuntime.Name.Order

/-! Symbols are names with an optional qualifier, keywords are symbols that
stand for themselves. Both are known by their parts alone: two symbols with
the same qualifier and the same name are one symbol. -/

namespace LispRuntime

structure Symbol where
  qualifier : Option String
  name : String
deriving DecidableEq, Repr, Inhabited

namespace Symbol

def unqualifiedName (name : String) : Symbol := ⟨none, name⟩

def qualifiedName (qualifier name : String) : Symbol := ⟨some qualifier, name⟩

/-- Splits at the first slash, if something stands on both sides of it. A text
without such a slash is a name as it is. -/
def parse (text : String) : Symbol :=
  match text.toList.takeWhile (· != '/'), text.toList.dropWhile (· != '/') with
  | [], _ => unqualifiedName text
  | before, _ :: after :: rest =>
      qualifiedName (String.ofList before) (String.ofList (after :: rest))
  | _, _ => unqualifiedName text

def text (symbol : Symbol) : String :=
  match symbol.qualifier with
  | some qualifier => qualifier ++ "/" ++ symbol.name
  | none => symbol.name

def isQualified (symbol : Symbol) : Bool := symbol.qualifier.isSome

def unqualified (symbol : Symbol) : Symbol := unqualifiedName symbol.name

/-- The qualifier as a symbol of its own. -/
def qualifierSymbol (symbol : Symbol) : Option Symbol :=
  symbol.qualifier.map unqualifiedName

def compare (left right : Symbol) : Ordering :=
  (compareOptional left.qualifier right.qualifier).then
    (compareText left.name right.name)

def hash (symbol : Symbol) : UInt32 :=
  match symbol.qualifier with
  | some qualifier => Hash.combine (Hash.ofString symbol.name) (Hash.ofString qualifier)
  | none => Hash.ofString symbol.name

end Symbol

structure Keyword where
  symbol : Symbol
deriving DecidableEq, Repr, Inhabited

namespace Keyword

def named (name : String) : Keyword := ⟨Symbol.unqualifiedName name⟩

/-- One leading colon is dropped, the rest is read as a symbol. -/
def parse (text : String) : Keyword :=
  match text.toList with
  | ':' :: rest => ⟨Symbol.parse (String.ofList rest)⟩
  | _ => ⟨Symbol.parse text⟩

def text (keyword : Keyword) : String := ":" ++ keyword.symbol.text

def compare (left right : Keyword) : Ordering :=
  left.symbol.compare right.symbol

/-- Keeps a keyword apart from the symbol of the same text. -/
def hash (keyword : Keyword) : UInt32 := keyword.symbol.hash + 0x9e3779b9

end Keyword

end LispRuntime
