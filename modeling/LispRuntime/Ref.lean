/-! References to mutable cells. Each kind of cell has a store of its own, and a
reference is a position in the store of its kind, so a reference to an atom is
never mistaken for one to a var. -/

namespace LispRuntime

inductive CellKind where
  | deferred
  | atom
  | volatile
  | var
  | space
  | multimethod
  | hierarchy
  | transient
  | function
  | registry
deriving DecidableEq, Repr

structure Ref (kind : CellKind) where
  index : Nat
deriving DecidableEq, Repr, Inhabited

/-- Cells of one kind. A cell that was once added stays at its position. -/
structure Store (α : Type) where
  cells : Array α

namespace Store

variable {α : Type}

def empty : Store α := ⟨#[]⟩

instance : Inhabited (Store α) := ⟨empty⟩

/-- Where the next cell will stand. -/
def next (store : Store α) : Nat := store.cells.size

def get? (store : Store α) (index : Nat) : Option α := store.cells[index]?

def push (store : Store α) (cell : α) : Store α := ⟨store.cells.push cell⟩

/-- Changes nothing outside the store. -/
def set (store : Store α) (index : Nat) (cell : α) : Store α :=
  ⟨store.cells.setIfInBounds index cell⟩

def modify (store : Store α) (index : Nat) (change : α → α) : Store α :=
  match store.get? index with
  | some cell => store.set index (change cell)
  | none => store

def toList (store : Store α) : List α := store.cells.toList

theorem get?_push_next (store : Store α) (cell : α) :
    (store.push cell).get? store.next = some cell := by
  simp [get?, push, next]

theorem get?_push_of_lt (store : Store α) (cell : α) {index : Nat}
    (old : index < store.next) :
    (store.push cell).get? index = store.get? index := by
  have bound : index < store.cells.size := old
  simp [get?, push, Array.getElem?_push, Nat.ne_of_lt bound]

theorem get?_set (store : Store α) (index : Nat) (cell : α) {other : Nat} :
    (store.set index cell).get? other =
      if other = index ∧ index < store.next then some cell
      else store.get? other := by
  simp only [get?, set, next, Array.getElem?_setIfInBounds]
  by_cases same : index = other
  · subst same
    by_cases bound : index < store.cells.size <;> simp [bound]
  · simp [same, Ne.symm same]

end Store

end LispRuntime
