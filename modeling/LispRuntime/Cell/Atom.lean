import LispRuntime.Collection.Update

/-! Atoms change by comparing and setting: a new state is installed only in the
place of the one that it was worked out from. A validator can turn a state
down, and watches are told of every change. Volatiles are plain cells. -/

namespace LispRuntime

namespace Atom

abbrev Cell := Ref .atom

def create (value : Value) : Run Value := do
  let world ← get
  set { world with atoms := world.atoms.push ⟨value, 0, none, []⟩ }
  return .atom ⟨world.atoms.next⟩

def change (cell : Cell) (change : AtomCell → AtomCell) : Run Unit :=
  Run.update fun world => { world with atoms := world.atoms.modify cell.index change }

def deref (cell : Cell) : Run Value := do
  return (← Run.atomAt cell).value

/-- A validator must find the new state truthy. -/
def validate (cell : Cell) (candidate : Value) : Attempt Unit := do
  match (← Run.atomAt cell).validator with
  | none => return ()
  | some validator =>
      if ← Attempt.callTruthy validator [candidate] then return ()
      else throw .invalidReferenceState

def notifyAll (cell : Cell) (old new : Value) : List (Value × Value) → Attempt Unit
  | [] => return ()
  | (key, watch) :: rest => do
      let _ ← Attempt.call watch [key, .atom cell, old, new]
      notifyAll cell old new rest

/-- Tells the watches that are there now, in the order of their keys. -/
def notify (cell : Cell) (old new : Value) : Attempt Unit := do
  notifyAll cell old new (← Run.atomAt cell).watches

def install (cell : Cell) (value : Value) : Run Unit :=
  change cell fun atom => { atom with value := value, revision := atom.revision + 1 }

/-- Installs a state if nothing has been installed since a revision. -/
def installOver (cell : Cell) (revision : Nat) (value : Value) : Run Bool := do
  if (← Run.atomAt cell).revision = revision then
    install cell value
    return true
  else return false

/-- Works a new state out of the current one until no other change comes in
between; answers with the state that was replaced and the new one. -/
def swapWithin (cell : Cell) (function : Value) (arguments : List Value) :
    Nat → Attempt (Value × Value)
  | 0 => Run.stuck
  | fuel + 1 => do
      let current ← Run.atomAt cell
      let candidate ← Attempt.call function (current.value :: arguments)
      validate cell candidate
      if ← installOver cell current.revision candidate then
        notify cell current.value candidate
        return (current.value, candidate)
      else swapWithin cell function arguments fuel

def swapValues (cell : Cell) (function : Value) (arguments : List Value) :
    Attempt (Value × Value) := do
  swapWithin cell function arguments (← Run.limit)

def swap (cell : Cell) (function : Value) (arguments : List Value) : Attempt Value := do
  return (← swapValues cell function arguments).2

/-- Installs a state if the current one is identical to what is expected. -/
def compareAndSet (cell : Cell) (expected new : Value) : Attempt Bool := do
  validate cell new
  let current ← Run.atomAt cell
  if current.value.identical expected then
    install cell new
    notify cell current.value new
    return true
  else return false

/-- Installs a state unconditionally; answers with the one that was replaced and
the new one. -/
def resetValues (cell : Cell) (new : Value) : Attempt (Value × Value) := do
  validate cell new
  let old ← deref cell
  install cell new
  notify cell old new
  return (old, new)

def reset (cell : Cell) (new : Value) : Attempt Value := do
  return (← resetValues cell new).2

/-- A new validator must accept the current state. -/
def setValidator (cell : Cell) (validator : Option Value) : Attempt Unit := do
  match validator with
  | none => pure ()
  | some function =>
      if !(← Attempt.callTruthy function [← deref cell]) then
        throw .invalidReferenceState
  change cell fun atom => { atom with validator := validator }

def validator (cell : Cell) : Run (Option Value) := do
  return (← Run.atomAt cell).validator

def addWatch (cell : Cell) (key watch : Value) : Run Unit := do
  let watches ← SortedTable.assoc (← Run.atomAt cell).watches key watch
  change cell fun atom => { atom with watches := watches }

def removeWatch (cell : Cell) (key : Value) : Run Unit := do
  let watches ← SortedTable.dissoc (← Run.atomAt cell).watches key
  change cell fun atom => { atom with watches := watches }

def watches (cell : Cell) : Run (List (Value × Value)) := do
  return (← Run.atomAt cell).watches

end Atom

namespace Volatile

abbrev Cell := Ref .volatile

def create (value : Value) : Run Value := do
  let world ← get
  set { world with volatiles := world.volatiles.push value }
  return .volatile ⟨world.volatiles.next⟩

def assign (cell : Cell) (value : Value) : Run Value := do
  Run.update fun world =>
    { world with volatiles := world.volatiles.set cell.index value }
  return value

/-- Reads, applies and stores; what a function stores in between is lost. -/
def swap (cell : Cell) (function : Value) (arguments : List Value) : Attempt Value := do
  let current ← Run.volatileAt cell
  let new ← Attempt.call function (current :: arguments)
  assign cell new

end Volatile

end LispRuntime
