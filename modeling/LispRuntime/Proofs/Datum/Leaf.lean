import LispRuntime.Proofs.Real64.Order
import LispRuntime.Value.Hashing
import LispRuntime.Value.Comparison
import Mathlib.Data.List.Basic

/-! Leaves are what values look like that have no elements: immediates, texts,
names, and references, which are known by nothing but where they are. They are
ordered by a key, a list of lists of numbers that is read from left to right. -/

namespace LispRuntime

/-- Kinds of values that equal only themselves. -/
inductive ReferenceKind where
  | transient
  | var
  | space
  | atom
  | volatile
  | multimethod
  | hierarchy
  | delay
  | function
  | reduced
deriving DecidableEq, Repr

namespace ReferenceKind

def rank : ReferenceKind → Nat
  | transient => 10
  | var => 11
  | space => 12
  | atom => 13
  | volatile => 14
  | multimethod => 15
  | hierarchy => 16
  | delay => 17
  | function => 18
  | reduced => 19

theorem rank_injective {left right : ReferenceKind} (equal : left.rank = right.rank) :
    left = right := by
  cases left <;> cases right <;> first | rfl | cases equal

theorem ten_le_rank (kind : ReferenceKind) : 10 ≤ kind.rank := by
  cases kind <;> decide

end ReferenceKind

inductive Leaf where
  | nil
  | boolean (value : Bool)
  | integer (value : Int64)
  | real (value : Real64)
  | character (value : Char)
  | string (text : String)
  | symbol (name : Symbol)
  | keyword (name : Keyword)
  | reference (kind : ReferenceKind) (position : Nat)
deriving DecidableEq, Repr

/-! ## Keys -/

/-- A key says first of what type a thing is, and then what it is. -/
abbrev OrderKey := List (List Int)

namespace OrderKey

def ofText (text : String) : List Int := text.toList.map fun char => (char.toNat : Int)

/-- An absent text comes before every present one. -/
def ofOptional : Option String → List Int
  | none => [0]
  | some text => 1 :: ofText text

theorem ofText_injective {left right : String} (equal : ofText left = ofText right) :
    left = right := by
  apply String.toList_injective
  refine List.map_injective_iff.mpr (fun first second same => ?_) equal
  exact Char.toNat_inj.mp (Int.ofNat.inj same)

theorem ofOptional_injective {left right : Option String}
    (equal : ofOptional left = ofOptional right) : left = right := by
  cases left <;> cases right <;> simp_all [ofOptional]
  exact ofText_injective equal

theorem compare_cast (left right : Nat) :
    compare (left : Int) (right : Int) = compare left right := by
  rcases Nat.lt_trichotomy left right with less | equal | greater
  · rw [Nat.compare_eq_lt.mpr less, Int.compare_eq_lt.mpr (by omega)]
  · rw [Nat.compare_eq_eq.mpr equal, Int.compare_eq_eq.mpr (by omega)]
  · rw [Nat.compare_eq_gt.mpr greater, Int.compare_eq_gt.mpr (by omega)]

theorem compare_ofText (left right : String) :
    compare (ofText left) (ofText right) = compareText left right := by
  suffices chars : ∀ left right : List Char,
      compare (left.map fun char => (char.toNat : Int))
        (right.map fun char => (char.toNat : Int)) = compareChars left right from chars _ _
  intro left right
  induction left generalizing right with
  | nil => cases right <;> rfl
  | cons head tail induction =>
      cases right with
      | nil => rfl
      | cons other rest =>
          simp only [List.map_cons, List.compare_cons_cons, compareChars, induction,
            compare_cast]

theorem compare_ofOptional (left right : Option String) :
    compare (ofOptional left) (ofOptional right) = compareOptional left right := by
  cases left <;> cases right <;>
    simp [ofOptional, compareOptional, List.compare_cons_cons, compare_ofText]
  all_goals rfl

end OrderKey

namespace Leaf

def rank : Leaf → Nat
  | nil => 0
  | boolean _ => 1
  | integer _ | real _ => 2
  | character _ => 3
  | string _ => 4
  | symbol _ => 5
  | keyword _ => 6
  | reference kind _ => kind.rank

/-- Ranks seven to nine are those of sequences, maps and sets. -/
theorem rank_lt_or_gt (leaf : Leaf) : leaf.rank < 7 ∨ 9 < leaf.rank := by
  cases leaf with
  | reference kind _ => exact .inr kind.ten_le_rank
  | _ => exact .inl (by simp [rank])

/-- What tells a leaf from others of its rank. An integer stands just before
the real that it becomes; integers that become the same real follow in order. -/
def detail : Leaf → OrderKey
  | nil => []
  | boolean value => [[value.toNat]]
  | integer value => [[(Real64.ofInteger value).rank, 0, value.toInt]]
  | real value => [[value.rank, 1]]
  | character value => [[value.toNat]]
  | string text => [OrderKey.ofText text]
  | symbol name => [OrderKey.ofOptional name.qualifier, OrderKey.ofText name.name]
  | keyword name =>
      [OrderKey.ofOptional name.symbol.qualifier, OrderKey.ofText name.symbol.name]
  | reference _ position => [[position]]

def key (leaf : Leaf) : OrderKey := [(leaf.rank : Int)] :: leaf.detail

private theorem symbol_eq {left right : Symbol}
    (qualifiers : left.qualifier = right.qualifier) (names : left.name = right.name) :
    left = right := by
  cases left
  cases right
  cases qualifiers
  cases names
  rfl

theorem key_injective {left right : Leaf} (equal : left.key = right.key) : left = right := by
  have ranks : left.rank = right.rank := by
    simpa using (List.cons.inj equal).1
  have details : left.detail = right.detail := (List.cons.inj equal).2
  cases left <;> cases right <;> simp_all [rank, detail]
  case boolean.boolean left right => cases left <;> cases right <;> simp_all
  case integer.integer => exact Int64.toInt_inj.mp details.2
  case real.real => exact Real64.rank_injective details
  case character.character => exact Char.toNat_inj.mp details
  case string.string => exact OrderKey.ofText_injective details
  case symbol.symbol left right =>
    exact symbol_eq (OrderKey.ofOptional_injective details.1)
      (OrderKey.ofText_injective details.2)
  case keyword.keyword left right =>
    exact congrArg Keyword.mk (symbol_eq (OrderKey.ofOptional_injective details.1)
      (OrderKey.ofText_injective details.2))
  case reference.reference => exact ReferenceKind.rank_injective ranks
  all_goals
    have bound := ReferenceKind.ten_le_rank
    rename ReferenceKind => kind
    have := bound kind
    omega

/-! ## The order -/

protected def compare (left right : Leaf) : Ordering := Ord.compare left.key right.key

theorem compare_of_rank_ne {left right : Leaf} (different : left.rank ≠ right.rank) :
    left.compare right = Ord.compare left.rank right.rank := by
  simp only [Leaf.compare, key, List.compare_cons_cons, OrderKey.compare_cast]
  rcases Nat.lt_or_gt_of_ne different with less | greater
  · rw [Nat.compare_eq_lt.mpr less]
    rfl
  · rw [Nat.compare_eq_gt.mpr greater]
    rfl

theorem compare_of_rank_eq {left right : Leaf} (same : left.rank = right.rank) :
    left.compare right = Ord.compare left.detail right.detail := by
  simp [Leaf.compare, key, List.compare_cons_cons, same]

/-! ## The hash -/

def hash : Leaf → UInt32
  | nil => 0
  | boolean true => 1231
  | boolean false => 1237
  | integer value => Hash.ofInteger value
  | real value => Hash.ofBits value.bits
  | character value => Hash.ofWord (UInt32.ofNat value.toNat)
  | string text => Hash.ofString text
  | symbol name => name.hash
  | keyword name => name.hash
  | reference _ position => Hash.ofBits (UInt64.ofNat position)

end Leaf

end LispRuntime
