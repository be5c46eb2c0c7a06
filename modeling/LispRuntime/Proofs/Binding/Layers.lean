import LispRuntime.Cell.Binding
import Mathlib.Data.List.Induction

/-! What dynamic bindings are, without frames and cells. Every push that succeeds makes a
layer, which belongs to the thread that pushed it. A stack is a list of layers, the nearest
one first, and a var is found in the nearest layer that mentions it. Capturing a stack and
installing it shares its layers, so that an assignment is seen wherever the layer is. -/

namespace LispRuntime.Binding

/-- What a thread does. A stack to install is named by the number of its capture; by any
other number it is the empty one. -/
inductive Action where
  | push (added : List (Ref .var × Value))
  | pushMap (map : Value)
  | pop
  | assign (var : Ref .var) (value : Value)
  | capture
  | install (number : Nat)
  | setDynamic (var : Ref .var) (isDynamic : Bool)
  | bindRoot (var : Ref .var) (value : Value)
  | unbindRoot (var : Ref .var)
  | fork

/-- A thread takes its turn. -/
structure Command where
  thread : ThreadId
  action : Action

/-- What one push binds. -/
structure Layer where
  owner : ThreadId
  bindings : List (Ref .var × Value)

namespace Layer

/-- The last mention of a var counts. -/
def find (layer : Layer) (var : Ref .var) : Option Value :=
  (layer.bindings.reverse.find? fun binding => binding.1 == var).map Prod.snd

/-- Gives a var another value wherever the layer mentions it. -/
def assign (layer : Layer) (var : Ref .var) (value : Value) : Layer :=
  { layer with
    bindings := layer.bindings.map fun binding =>
      if binding.1 = var then (var, value) else binding }

end Layer

/-- All layers by number, the stacks of the threads and those that have been captured. -/
structure Layers where
  pushed : List Layer
  threads : List (List Nat)
  captured : List (List Nat)
  vars : Store VarCell

namespace Layers

variable (layers : Layers)

/-- One thread, with nothing bound. -/
def start (vars : Store VarCell) : Layers := ⟨[], [[]], [], vars⟩

def stackOf (thread : ThreadId) : List Nat := layers.threads[thread]?.getD []

/-- What a layer has for a var, and whose it is. -/
def entry (number : Nat) (var : Ref .var) : Option (BindingCell Value) :=
  layers.pushed[number]?.bind fun layer => (layer.find var).map fun value => ⟨layer.owner, value⟩

/-- The nearest layer of a stack that mentions the var. -/
def nearestIn (stack : List Nat) (var : Ref .var) : Option Nat :=
  stack.find? fun number => (layers.entry number var).isSome

def visible (thread : ThreadId) (var : Ref .var) : Option (BindingCell Value) :=
  (layers.nearestIn (layers.stackOf thread) var).bind (layers.entry · var)

def lookup (thread : ThreadId) (var : Ref .var) : Option Value :=
  (layers.visible thread var).map BindingCell.value

/-- Who pushed the binding that the thread sees. -/
def pusher (thread : ThreadId) (var : Ref .var) : Option ThreadId :=
  (layers.visible thread var).map BindingCell.owner

def isDynamic (var : Ref .var) : Bool :=
  ((layers.vars.get? var.index).map VarCell.isDynamic).getD false

def nameOf (var : Ref .var) : String :=
  ((layers.vars.get? var.index).map VarCell.qualifiedName).getD ""

def root (var : Ref .var) : Option Value :=
  (layers.vars.get? var.index).bind VarCell.root

/-- The nearest binding counts, or else the root. -/
def deref (thread : ThreadId) (var : Ref .var) : Except Error Value :=
  match (layers.lookup thread var).or (layers.root var) with
  | some value => .ok value
  | none => .error (.unboundVar (layers.nameOf var))

/-- The stacks of all threads, and those that have been captured. -/
def allStacks : List (List Nat) := layers.threads ++ layers.captured

/-- Each stack is made of layers that there are. -/
def Bounded : Prop :=
  ∀ stack ∈ layers.allStacks, ∀ number ∈ stack, number < layers.pushed.length

/-! ## Changes -/

def withLayer (layer : Layer) : Layers := { layers with pushed := layers.pushed ++ [layer] }

def withCapture (stack : List Nat) : Layers :=
  { layers with captured := layers.captured ++ [stack] }

def withStack (thread : ThreadId) (stack : List Nat) : Layers :=
  { layers with threads := layers.threads.set thread stack }

def assignIn (number : Nat) (var : Ref .var) (value : Value) : Layers :=
  { layers with pushed := layers.pushed.modify number fun layer => layer.assign var value }

def withVar (var : Ref .var) (change : VarCell → VarCell) : Layers :=
  { layers with vars := layers.vars.modify var.index change }

def withThread : Layers := { layers with threads := layers.threads ++ [[]] }

def push (thread : ThreadId) (added : List (Ref .var × Value)) : Except Error Unit × Layers :=
  match added.find? fun binding => !layers.isDynamic binding.1 with
  | some (var, _) => (.error (.nonDynamicBinding (layers.nameOf var)), layers)
  | none =>
      (.ok (), (layers.withLayer ⟨thread, added⟩).withStack thread
        (layers.pushed.length :: layers.stackOf thread))

def varOf? : Value → Option (Ref .var)
  | .var cell => some cell
  | _ => none

def pushMap (thread : ThreadId) (map : Value) : Except Error Unit × Layers :=
  match map.mapEntries? with
  | none => (.error (.wrongType "push-thread-bindings" "map" map.typeName), layers)
  | some entries =>
      match entries.find? fun entry => (varOf? entry.1).isNone with
      | some (key, _) => (.error (.wrongType "push-thread-bindings" "var" key.typeName), layers)
      | none =>
          layers.push thread
            (entries.filterMap fun entry => (varOf? entry.1).map fun var => (var, entry.2))

def pop (thread : ThreadId) : Except Error Unit × Layers :=
  match layers.stackOf thread with
  | [] => (.error .bindingStackUnderflow, layers)
  | _ :: rest => (.ok (), layers.withStack thread rest)

def assign (thread : ThreadId) (var : Ref .var) (value : Value) : Except Error Unit × Layers :=
  match layers.nearestIn (layers.stackOf thread) var with
  | none => (.error (.varNotThreadBound (layers.nameOf var)), layers)
  | some number =>
      if layers.pusher thread var = some thread then
        (.ok (), layers.assignIn number var value)
      else (.error (.setFromForeignThread (layers.nameOf var)), layers)

def act (thread : ThreadId) : Action → Except Error Unit × Layers
  | .push added => layers.push thread added
  | .pushMap map => layers.pushMap thread map
  | .pop => layers.pop thread
  | .assign var value => layers.assign thread var value
  | .capture => (.ok (), layers.withCapture (layers.stackOf thread))
  | .install number =>
      (.ok (), (layers.withCapture (layers.stackOf thread)).withStack thread
        (layers.captured[number]?.getD []))
  | .setDynamic var isDynamic =>
      (.ok (), layers.withVar var fun cell => { cell with isDynamic := isDynamic })
  | .bindRoot var value => (.ok (), layers.withVar var fun cell => { cell with root := some value })
  | .unbindRoot var => (.ok (), layers.withVar var fun cell => { cell with root := none })
  | .fork => (.ok (), layers.withThread)

/-- A thread that there is not does nothing. -/
def perform (command : Command) : Except Error Unit × Layers :=
  if command.thread < layers.threads.length then layers.act command.thread command.action
  else (.ok (), layers)

def performAll : List Command → Layers → List (Except Error Unit) × Layers
  | [], layers => ([], layers)
  | command :: rest, layers =>
      let (outcome, between) := layers.perform command
      let (outcomes, after) := performAll rest between
      (outcome :: outcomes, after)

end Layers

/-! ## One layer -/

namespace Layer

theorem find_mk_append (owner : ThreadId) (bindings : List (Ref .var × Value)) (var : Ref .var)
    (value : Value) (sought : Ref .var) :
    find ⟨owner, bindings ++ [(var, value)]⟩ sought =
      if var = sought then some value else find ⟨owner, bindings⟩ sought := by
  by_cases same : var = sought
  · simp [find, same]
  · simp [find, same]

theorem isSome_find (owner : ThreadId) (bindings : List (Ref .var × Value)) (var : Ref .var) :
    (find ⟨owner, bindings⟩ var).isSome = true ↔ var ∈ bindings.map Prod.fst := by
  simp [find]

theorem find_assign (layer : Layer) (var sought : Ref .var) (value : Value) :
    (layer.assign var value).find sought =
      if sought = var then (layer.find var).map fun _ => value else layer.find sought := by
  rcases layer with ⟨owner, bindings⟩
  induction bindings using List.reverseRec with
  | nil => simp [assign, find]
  | append_singleton before binding induction =>
      rcases binding with ⟨mentioned, old⟩
      have split : assign ⟨owner, before ++ [(mentioned, old)]⟩ var value =
          ⟨owner, (assign ⟨owner, before⟩ var value).bindings ++
            [if mentioned = var then (var, value) else (mentioned, old)]⟩ := by
        simp [assign]
      have earlier : find ⟨owner, (assign ⟨owner, before⟩ var value).bindings⟩ sought = _ :=
        induction
      rw [split, find_mk_append owner before]
      by_cases here : mentioned = var
      · rw [if_pos here, find_mk_append, earlier, here]
        by_cases asked : sought = var
        · simp [asked]
        · simp [asked, Ne.symm asked, find_mk_append]
      · rw [if_neg here, find_mk_append, earlier]
        by_cases asked : sought = var
        · simp [asked, here]
        · simp [asked, find_mk_append]

end Layer

/-! ## All layers -/

namespace Layers

variable {layers : Layers} {number other : Nat} {var sought : Ref .var} {thread : ThreadId}
  {stack : List Nat}

theorem entry_withLayer (layers : Layers) (layer : Layer) (number : Nat) (sought : Ref .var) :
    (layers.withLayer layer).entry number sought =
      if number = layers.pushed.length then
        (layer.find sought).map fun value => ⟨layer.owner, value⟩
      else layers.entry number sought := by
  rw [entry, entry, withLayer, List.getElem?_append]
  by_cases old : number < layers.pushed.length
  · rw [if_pos old, if_neg (Nat.ne_of_lt old)]
  · rw [if_neg old]
    by_cases new : number = layers.pushed.length
    · simp [new]
    · have beyond : layers.pushed.length < number := by omega
      simp [new, Nat.sub_ne_zero_of_lt beyond, List.getElem?_eq_none (Nat.le_of_lt beyond)]

theorem entry_assignIn (layers : Layers) (number other : Nat) (var sought : Ref .var)
    (value : Value) :
    (layers.assignIn number var value).entry other sought =
      if other = number ∧ sought = var then
        (layers.entry number var).map fun cell => { cell with value := value }
      else layers.entry other sought := by
  rw [entry, assignIn, List.getElem?_modify]
  by_cases here : number = other
  · subst here
    cases found : layers.pushed[number]? with
    | none => simp [entry, found]
    | some layer =>
        simp only [entry, found, Option.map_eq_map, Option.map_some, if_pos, Option.bind_some,
          Layer.find_assign]
        by_cases asked : sought = var
        · simp [asked, Layer.assign, Function.comp_def]
        · simp [asked, Layer.assign]
  · simp [here, Ne.symm here, entry]

theorem performAll_cons (command : Command) (rest : List Command) (layers : Layers) :
    (performAll (command :: rest) layers).2 = (performAll rest (layers.perform command).2).2 :=
  rfl

theorem performAll_append (first second : List Command) (layers : Layers) :
    (performAll (first ++ second) layers).2 =
      (performAll second (performAll first layers).2).2 := by
  induction first generalizing layers with
  | nil => rfl
  | cons command rest induction => exact induction (layers.perform command).2

theorem nearestIn_congr {left right : Layers}
    (same : ∀ number ∈ stack, (left.entry number var).isSome = (right.entry number var).isSome) :
    left.nearestIn stack var = right.nearestIn stack var := by
  induction stack with
  | nil => rfl
  | cons top rest induction =>
      rcases List.forall_mem_cons.mp same with ⟨first, others⟩
      rw [nearestIn, nearestIn, List.find?_cons, List.find?_cons, first]
      split
      · rfl
      · exact induction others

theorem nearestIn_cons (layers : Layers) (top : Nat) (rest : List Nat) (var : Ref .var) :
    layers.nearestIn (top :: rest) var =
      if (layers.entry top var).isSome then some top else layers.nearestIn rest var := by
  rw [nearestIn, List.find?_cons]
  cases (layers.entry top var).isSome <;> rfl

/-- To assign does not change which layers mention a var. -/
theorem nearestIn_assignIn (layers : Layers) (number : Nat) (var : Ref .var) (value : Value)
    (stack : List Nat) (sought : Ref .var) :
    (layers.assignIn number var value).nearestIn stack sought = layers.nearestIn stack sought := by
  apply nearestIn_congr
  intro other _
  rw [entry_assignIn]
  split
  case isTrue here => rw [here.1, here.2, Option.isSome_map]
  case isFalse => rfl

theorem exists_entry_of_nearestIn (near : layers.nearestIn stack var = some number) :
    number ∈ stack ∧ ∃ cell, layers.entry number var = some cell := by
  have mentions := List.find?_some near
  exact ⟨List.mem_of_find?_eq_some near, Option.isSome_iff_exists.mp mentions⟩

theorem pusher_eq_some_iff {owner : ThreadId} : layers.pusher thread var = some owner ↔
    ∃ number cell, layers.nearestIn (layers.stackOf thread) var = some number ∧
      layers.entry number var = some cell ∧ cell.owner = owner := by
  simp only [pusher, visible, Option.map_eq_some_iff, Option.bind_eq_some_iff]
  constructor
  · intro seen
    rcases seen with ⟨cell, ⟨number, near, entry⟩, owner⟩
    exact ⟨number, cell, near, entry, owner⟩
  · intro seen
    rcases seen with ⟨number, cell, near, entry, owner⟩
    exact ⟨cell, ⟨number, near, entry⟩, owner⟩

/-- A thread sees a binding if and only if there is somebody who pushed it. -/
theorem isSome_lookup : (layers.lookup thread var).isSome = (layers.pusher thread var).isSome := by
  rw [lookup, pusher, Option.isSome_map, Option.isSome_map]

theorem stackOf_mem (present : thread < layers.threads.length) :
    layers.stackOf thread ∈ layers.allStacks := by
  rw [stackOf, List.getElem?_eq_getElem present]
  exact List.mem_append_left _ (List.getElem_mem present)

/-- Only a thread that there is has layers. -/
theorem present_of_mem (member : number ∈ layers.stackOf thread) :
    thread < layers.threads.length := by
  by_contra absent
  rw [stackOf, List.getElem?_eq_none (Nat.le_of_not_lt absent)] at member
  cases member

theorem Bounded.lt (bounded : layers.Bounded) (member : number ∈ layers.stackOf thread) :
    number < layers.pushed.length :=
  bounded _ (stackOf_mem (present_of_mem member)) number member

theorem stackOf_withThread (layers : Layers) (thread : ThreadId) :
    layers.withThread.stackOf thread = layers.stackOf thread := by
  rw [stackOf, stackOf, withThread, List.getElem?_append]
  split
  case isTrue => rfl
  case isFalse beyond =>
    rw [List.getElem?_eq_none (Nat.le_of_not_lt beyond), List.getElem?_singleton]
    split <;> rfl

theorem stackOf_withStack (layers : Layers) (bound : thread < layers.threads.length)
    (stack : List Nat) (other : ThreadId) :
    (layers.withStack thread stack).stackOf other =
      if other = thread then stack else layers.stackOf other := by
  rw [stackOf, stackOf, withStack, List.getElem?_set]
  by_cases here : thread = other
  · subst here
    simp [bound]
  · simp [here, Ne.symm here]

end Layers

end LispRuntime.Binding
