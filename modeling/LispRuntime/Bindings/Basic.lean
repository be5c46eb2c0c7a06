import LispRuntime.Ref

/-! Dynamic bindings. Every thread has a stack of frames; a frame holds all
bindings that are visible in it, those of the frame below included, so that a
look-up reads the top frame alone. A binding is a cell of its own, owned by the
thread that pushed it: frames share cells, and an assignment to a cell is seen
through all of them. A whole stack can be captured and installed elsewhere. -/

namespace LispRuntime

abbrev ThreadId := Nat

structure BindingCell (α : Type) where
  owner : ThreadId
  value : α

structure BindingFrame where
  /-- Vars and the cells that hold their values. -/
  visible : List (Ref .var × Nat)
  /-- The frame that a pop brings back. -/
  below : Option Nat

/-- A stack, by its top frame. An empty stack has none. -/
abbrev Stack := Option Nat

structure Bindings (α : Type) where
  cells : Store (BindingCell α)
  frames : Store BindingFrame
  /-- The stack of each thread. -/
  threads : Store Stack
  /-- Vars that some frame has bound at some time. No look-up finds another. -/
  everBound : List (Ref .var)

namespace Bindings

variable {α : Type}

/-- One thread with an empty stack. -/
def empty : Bindings α := ⟨.empty, .empty, Store.empty.push none, []⟩

instance : Inhabited (Bindings α) := ⟨empty⟩

def stackOf (bindings : Bindings α) (thread : ThreadId) : Stack :=
  (bindings.threads.get? thread).join

def visibleIn (bindings : Bindings α) (stack : Stack) : List (Ref .var × Nat) :=
  match stack with
  | none => []
  | some top =>
      match bindings.frames.get? top with
      | some frame => frame.visible
      | none => []

def findVar (var : Ref .var) (visible : List (Ref .var × Nat)) : Option Nat :=
  (visible.find? fun entry => entry.1 == var).map Prod.snd

/-- Replaces the cell of a var that is there, and adds one that is not. -/
def bindVar (var : Ref .var) (cell : Nat) :
    List (Ref .var × Nat) → List (Ref .var × Nat)
  | [] => [(var, cell)]
  | (other, old) :: rest =>
      if other == var then (var, cell) :: rest
      else (other, old) :: bindVar var cell rest

/-- The cell of a var as a thread sees it. -/
def cellOf (bindings : Bindings α) (thread : ThreadId) (var : Ref .var) : Option Nat :=
  if bindings.everBound.contains var then
    findVar var (bindings.visibleIn (bindings.stackOf thread))
  else none

def value? (bindings : Bindings α) (thread : ThreadId) (var : Ref .var) : Option α :=
  ((bindings.cellOf thread var).bind bindings.cells.get?).map BindingCell.value

def isBound (bindings : Bindings α) (thread : ThreadId) (var : Ref .var) : Bool :=
  (bindings.cellOf thread var).isSome

/-- The visible bindings of a thread with their values. -/
def current (bindings : Bindings α) (thread : ThreadId) : List (Ref .var × α) :=
  (bindings.visibleIn (bindings.stackOf thread)).filterMap fun entry =>
    (bindings.cells.get? entry.2).map fun cell => (entry.1, cell.value)

/-! A frame stands on one that was there before it, so following them down
takes no more steps than there are frames. -/

def depthFrom (bindings : Bindings α) : Nat → Stack → Nat
  | 0, _ => 0
  | _, none => 0
  | fuel + 1, some top =>
      match bindings.frames.get? top with
      | some frame => bindings.depthFrom fuel frame.below + 1
      | none => 0

def depth (bindings : Bindings α) (thread : ThreadId) : Nat :=
  bindings.depthFrom bindings.frames.next (bindings.stackOf thread)

/-- All values that a stack keeps, those included that no look-up finds. -/
def keptBy (bindings : Bindings α) : Nat → Stack → List α
  | 0, _ => []
  | _, none => []
  | fuel + 1, some top =>
      match bindings.frames.get? top with
      | some frame =>
          frame.visible.filterMap (fun entry =>
            (bindings.cells.get? entry.2).map BindingCell.value) ++
            bindings.keptBy fuel frame.below
      | none => []

def kept (bindings : Bindings α) (stack : Stack) : List α :=
  bindings.keptBy bindings.frames.next stack

/-! ## Changes -/

def setStack (bindings : Bindings α) (thread : ThreadId) (stack : Stack) : Bindings α :=
  { bindings with threads := bindings.threads.set thread stack }

/-- A new thread, with an empty stack. -/
def fork (bindings : Bindings α) : ThreadId × Bindings α :=
  (bindings.threads.next, { bindings with threads := bindings.threads.push none })

/-- Gives a var a new cell that belongs to the thread. -/
def addCell (thread : ThreadId)
    (state : List (Ref .var × Nat) × Bindings α) (binding : Ref .var × α) :
    List (Ref .var × Nat) × Bindings α :=
  let (visible, bindings) := state
  (bindVar binding.1 bindings.cells.next visible,
    { bindings with
      cells := bindings.cells.push ⟨thread, binding.2⟩
      everBound :=
        if bindings.everBound.contains binding.1 then bindings.everBound
        else binding.1 :: bindings.everBound })

/-- A frame with some new bindings on top of the visible ones. The last binding
of a var is the one that counts. -/
def push (bindings : Bindings α) (thread : ThreadId) (added : List (Ref .var × α)) :
    Bindings α :=
  let stack := bindings.stackOf thread
  let (visible, bindings) :=
    added.foldl (addCell thread) (bindings.visibleIn stack, bindings)
  { bindings with frames := bindings.frames.push ⟨visible, stack⟩ }.setStack thread
    (some bindings.frames.next)

/-- Nothing can be popped off an empty stack. -/
def pop (bindings : Bindings α) (thread : ThreadId) : Option (Bindings α) :=
  match bindings.stackOf thread with
  | none => none
  | some top =>
      match bindings.frames.get? top with
      | some frame => some (bindings.setStack thread frame.below)
      | none => none

/-- Why an assignment is turned down. -/
inductive Refusal where
  | unbound
  /-- The cell belongs to another thread. -/
  | foreign
deriving DecidableEq, Repr

/-- Assigns the cell that the thread sees, if it is the thread's own. -/
def assign (bindings : Bindings α) (thread : ThreadId) (var : Ref .var) (value : α) :
    Except Refusal (Bindings α) :=
  match bindings.cellOf thread var with
  | none => .error .unbound
  | some index =>
      match bindings.cells.get? index with
      | none => .error .unbound
      | some cell =>
          if cell.owner = thread then
            .ok { bindings with cells := bindings.cells.set index { cell with value := value } }
          else .error .foreign

end Bindings

end LispRuntime
