import LispRuntime.Proofs.Binding.Layers
import LispRuntime.Proofs.World.Running
import Mathlib.Data.List.Nodup
import Mathlib.Logic.Function.Basic

/-! How frames and cells stand for layers. A frame has the number of the layer that was pushed
with it. For each var that a layer mentions there is one cell, which no other layer and no
other var has; a frame leads each var to the cell of the nearest layer that mentions it. -/

namespace LispRuntime

namespace Bindings

variable {α : Type} {visible : List (Ref .var × Nat)} {var sought : Ref .var} {cell : Nat}

theorem findVar_cons (entry : Ref .var × Nat) (rest : List (Ref .var × Nat)) (sought : Ref .var) :
    findVar sought (entry :: rest) =
      if entry.1 = sought then some entry.2 else findVar sought rest := by
  by_cases here : entry.1 = sought
  · simp [findVar, here]
  · simp [findVar, here]

theorem findVar_bindVar (var : Ref .var) (cell : Nat) (visible : List (Ref .var × Nat))
    (sought : Ref .var) :
    findVar sought (bindVar var cell visible) =
      if var = sought then some cell else findVar sought visible := by
  induction visible with
  | nil =>
      rw [bindVar, findVar_cons]
  | cons entry rest induction =>
      rw [bindVar]
      by_cases here : entry.1 = var
      · rw [if_pos (beq_iff_eq.mpr here), findVar_cons, findVar_cons, here]
        split <;> rfl
      · rw [if_neg (by simpa using here), findVar_cons, findVar_cons, induction]
        by_cases asked : entry.1 = sought
        · rw [if_pos asked, if_pos asked, if_neg (fun same => here (asked.trans same.symm))]
        · rw [if_neg asked, if_neg asked]

/-- Each var stands in a frame once. -/
abbrev Distinct (visible : List (Ref .var × Nat)) : Prop := (visible.map Prod.fst).Nodup

theorem mem_bindVar (var : Ref .var) (cell : Nat) (visible : List (Ref .var × Nat)) :
    ∀ other ∈ (bindVar var cell visible).map Prod.fst,
      other = var ∨ other ∈ visible.map Prod.fst := by
  induction visible with
  | nil => simp [bindVar]
  | cons entry rest induction =>
      intro other member
      rw [bindVar] at member
      split at member
      · rcases List.mem_cons.mp member with here | inside
        · exact .inl here
        · exact .inr (List.mem_cons_of_mem _ inside)
      · rcases List.mem_cons.mp member with here | inside
        · exact .inr (here ▸ List.mem_cons_self ..)
        · exact (induction other inside).imp_right (List.mem_cons_of_mem _)

theorem Distinct.bindVar (distinct : Distinct visible) (var : Ref .var) (cell : Nat) :
    Distinct (bindVar var cell visible) := by
  induction visible with
  | nil => exact List.nodup_singleton _
  | cons entry rest induction =>
      rcases List.nodup_cons.mp distinct with ⟨apart, distinctRest⟩
      rw [Bindings.bindVar]
      split
      case isTrue here =>
        rw [← beq_iff_eq.mp here]
        exact distinct
      case isFalse different =>
        refine List.nodup_cons.mpr ⟨fun member => ?_, induction distinctRest⟩
        rcases mem_bindVar var cell rest _ member with same | inside
        · exact different (beq_iff_eq.mpr same)
        · exact apart inside

theorem findVar_eq_some_iff (distinct : Distinct visible) :
    findVar var visible = some cell ↔ (var, cell) ∈ visible := by
  induction visible with
  | nil => simp [findVar]
  | cons entry rest induction =>
      rcases List.nodup_cons.mp distinct with ⟨apart, distinctRest⟩
      rcases entry with ⟨other, stored⟩
      rw [findVar_cons, List.mem_cons]
      by_cases here : other = var
      · subst here
        have absent : (other, cell) ∉ rest := fun member =>
          apart (List.mem_map.mpr ⟨_, member, rfl⟩)
        simp [absent, eq_comm]
      · simp [here, Ne.symm here, induction distinctRest]

end Bindings

namespace Binding

open Bindings (findVar Distinct)

/-! ## The cells of one layer -/

/-- What making the cells of a layer comes to. Those vars have cells of their own that the
layer mentions. -/
structure Filled (layer : Layer) (before after : List (Ref .var × Nat) × Bindings Value)
    (own : Ref .var → Option Nat) : Prop where
  frames : after.2.frames = before.2.frames
  threads : after.2.threads = before.2.threads
  visible : ∀ var, findVar var after.1 = (own var).or (findVar var before.1)
  distinct : Distinct before.1 → Distinct after.1
  grown : before.2.cells.next ≤ after.2.cells.next
  old : ∀ index < before.2.cells.next, after.2.cells.get? index = before.2.cells.get? index
  new : ∀ var cell, own var = some cell →
    before.2.cells.next ≤ cell ∧ cell < after.2.cells.next
  apart : ∀ var other cell, own var = some cell → own other = some cell → var = other
  filled : ∀ var, (own var).bind after.2.cells.get? =
    (layer.find var).map fun value => ⟨layer.owner, value⟩
  known : ∀ var cell, own var = some cell → var ∈ after.2.everBound
  stillKnown : ∀ var ∈ before.2.everBound, var ∈ after.2.everBound

theorem filled_nil (owner : ThreadId) (state : List (Ref .var × Nat) × Bindings Value) :
    Filled ⟨owner, []⟩ state state fun _ => none where
  frames := rfl
  threads := rfl
  visible _ := rfl
  distinct := id
  grown := Nat.le_refl _
  old _ _ := rfl
  new _ _ := nofun
  apart _ _ _ := nofun
  filled _ := rfl
  known _ _ := nofun
  stillKnown _ := id

theorem Filled.snoc {owner : ThreadId} {bindings : List (Ref .var × Value)}
    {before after : List (Ref .var × Nat) × Bindings Value} {own : Ref .var → Option Nat}
    (filled : Filled ⟨owner, bindings⟩ before after own) (var : Ref .var) (value : Value) :
    Filled ⟨owner, bindings ++ [(var, value)]⟩ before
      (Bindings.addCell owner after (var, value))
      (Function.update own var (some after.2.cells.next)) where
  frames := filled.frames
  threads := filled.threads
  visible sought := by
    rw [Bindings.addCell, Bindings.findVar_bindVar, filled.visible, Function.update_apply]
    by_cases here : var = sought
    · rw [if_pos here, if_pos here.symm, Option.some_or]
    · rw [if_neg here, if_neg (Ne.symm here)]
  distinct distinct := (filled.distinct distinct).bindVar _ _
  grown := by
    have grown := filled.grown
    simp only [Bindings.addCell, Store.next_push]
    omega
  old index bound := by
    have grown := filled.grown
    simp only [Bindings.addCell]
    rw [Store.get?_push_of_lt _ _ (by omega), filled.old index bound]
  new sought cell found := by
    have grown := filled.grown
    simp only [Bindings.addCell, Store.next_push]
    rw [Function.update_apply] at found
    split at found
    · cases found
      omega
    · have bounds := filled.new sought cell found
      omega
  apart left right cell leftFound rightFound := by
    rw [Function.update_apply] at leftFound rightFound
    -- The new cell is beyond all that were there.
    split at leftFound <;> split at rightFound
    · simp_all
    · cases leftFound
      exact absurd (filled.new right _ rightFound).2 (Nat.lt_irrefl _)
    · cases rightFound
      exact absurd (filled.new left _ leftFound).2 (Nat.lt_irrefl _)
    · exact filled.apart left right cell leftFound rightFound
  filled sought := by
    rw [Layer.find_mk_append, Function.update_apply]
    by_cases here : sought = var
    · rw [if_pos here, if_pos here.symm]
      exact Store.get?_push_next ..
    · rw [if_neg here, if_neg (Ne.symm here), ← filled.filled sought]
      cases found : own sought with
      | none => rfl
      | some cell => exact Store.get?_push_of_lt _ _ (filled.new sought cell found).2
  known sought cell found := by
    simp only [Bindings.addCell]
    rw [Function.update_apply] at found
    split at found
    case isTrue here => split <;> simp_all
    case isFalse =>
      have inside := filled.known sought cell found
      split
      · exact inside
      · exact List.mem_cons_of_mem _ inside
  stillKnown sought member := by
    have inside := filled.stillKnown sought member
    simp only [Bindings.addCell]
    split
    · exact inside
    · exact List.mem_cons_of_mem _ inside

theorem Filled.isSome_own {layer : Layer} {before after : List (Ref .var × Nat) × Bindings Value}
    {own : Ref .var → Option Nat} (filled : Filled layer before after own) (var : Ref .var) :
    (own var).isSome = (layer.find var).isSome := by
  have cells := congrArg Option.isSome (filled.filled var)
  rw [Option.isSome_map] at cells
  rw [← cells]
  cases found : own var with
  | none => rfl
  | some cell =>
      rcases Store.exists_of_lt_next (filled.new var cell found).2 with ⟨stored, present⟩
      rw [Option.bind_some, present]
      rfl

theorem exists_filled (owner : ThreadId) (added : List (Ref .var × Value))
    (state : List (Ref .var × Nat) × Bindings Value) :
    ∃ own, Filled ⟨owner, added⟩ state (added.foldl (Bindings.addCell owner) state) own := by
  induction added using List.reverseRec with
  | nil => exact ⟨_, filled_nil owner state⟩
  | append_singleton before binding induction =>
      rcases induction with ⟨own, filled⟩
      rw [List.foldl_append]
      exact ⟨_, filled.snoc binding.1 binding.2⟩

/-! ## Stacks of frames -/

/-- The frames of a stack, from the top down. A frame stands on earlier ones. -/
inductive Stacked (frames : Store BindingFrame) : Stack → List Nat → Prop where
  | empty : Stacked frames none []
  | frame {top : Nat} {frame : BindingFrame} {rest : List Nat}
      (found : frames.get? top = some frame) (below : Stacked frames frame.below rest)
      (lower : ∀ number ∈ rest, number < top) : Stacked frames (some top) (top :: rest)

namespace Stacked

variable {frames : Store BindingFrame} {stack : Stack} {numbers : List Nat}

theorem unique {other : List Nat} (stacked : Stacked frames stack numbers)
    (again : Stacked frames stack other) : numbers = other := by
  induction stacked generalizing other with
  | empty =>
      cases again
      rfl
  | frame found below lower induction =>
      cases again with
      | frame foundAgain belowAgain _ =>
          cases found.symm.trans foundAgain
          rw [induction belowAgain]

theorem push (stacked : Stacked frames stack numbers) (frame : BindingFrame) :
    Stacked (frames.push frame) stack numbers := by
  induction stacked with
  | empty => exact .empty
  | frame found below lower induction =>
      have still := Store.get?_push_of_lt frames frame (Store.lt_next_of_get? found)
      exact .frame (still.trans found) induction lower

theorem lt_next (stacked : Stacked frames stack numbers) :
    ∀ number ∈ numbers, number < frames.next := by
  induction stacked with
  | empty => exact fun _ => nofun
  | frame found below lower induction =>
      exact List.forall_mem_cons.mpr ⟨Store.lt_next_of_get? found, induction⟩

/-- As the numbers go down, there are no more of them than there is room for. -/
theorem length_le (stacked : Stacked frames stack numbers) {bound : Nat}
    (below : ∀ number ∈ numbers, number < bound) : numbers.length ≤ bound := by
  induction stacked generalizing bound with
  | empty => exact Nat.zero_le _
  | frame found rest lower induction =>
      have top := below _ (List.mem_cons_self ..)
      have fewer := induction lower
      rw [List.length_cons]
      omega

/-- A number that stands for no stack stands for the empty one. -/
theorem getD {held : List Stack} {others : List (List Nat)}
    (each : List.Forall₂ (Stacked frames) held others) (number : Nat) :
    Stacked frames (held[number]?.getD none) (others[number]?.getD []) := by
  induction each generalizing number with
  | nil => exact .empty
  | cons stacked rest induction =>
      cases number with
      | zero => exact stacked
      | succ number => exact induction number

end Stacked

/-! ## Layers by frames and cells -/

/-- The bindings and the captured stacks stand for the layers, with cells at these places. -/
structure Represents (bindings : Bindings Value) (captured : List Stack) (layers : Layers)
    (place : Nat → Ref .var → Option Nat) : Prop where
  frames : bindings.frames.next = layers.pushed.length
  threads : bindings.threads.next = layers.threads.length
  stacked : ∀ thread, Stacked bindings.frames (bindings.stackOf thread) (layers.stackOf thread)
  captured : List.Forall₂ (Stacked bindings.frames) captured layers.captured
  visible : ∀ top frame, bindings.frames.get? top = some frame →
    Distinct frame.visible ∧ ∃ rest, Stacked bindings.frames frame.below rest ∧
      (∀ number ∈ rest, number < top) ∧ ∀ var, findVar var frame.visible =
        (layers.nearestIn (top :: rest) var).bind (place · var)
  cells : ∀ number var, (place number var).bind bindings.cells.get? = layers.entry number var
  placed : ∀ number var cell, place number var = some cell → cell < bindings.cells.next
  apart : ∀ number var other sought cell, place number var = some cell →
    place other sought = some cell → number = other ∧ var = sought
  known : ∀ number var cell, place number var = some cell → var ∈ bindings.everBound

namespace Represents

variable {bindings : Bindings Value} {captured : List Stack} {layers : Layers}
  {place : Nat → Ref .var → Option Nat} {stack : Stack} {numbers : List Nat}
  {thread : ThreadId} {var : Ref .var}

theorem start (vars : Store VarCell) :
    Represents .empty [] (Layers.start vars) fun _ _ => none where
  frames := rfl
  threads := rfl
  stacked thread := by
    rcases thread with _ | thread
    · exact .empty
    · exact .empty
  captured := .nil
  visible _ _ found := by cases Store.lt_next_of_get? found
  cells _ _ := rfl
  placed _ _ _ := nofun
  apart _ _ _ _ _ := nofun
  known _ _ _ := nofun

/-! ### What is seen -/

theorem visibleIn_spec (represents : Represents bindings captured layers place)
    (stacked : Stacked bindings.frames stack numbers) :
    Distinct (bindings.visibleIn stack) ∧ ∀ var, findVar var (bindings.visibleIn stack) =
      (layers.nearestIn numbers var).bind (place · var) := by
  cases stacked with
  | empty => exact ⟨List.nodup_nil, fun _ => rfl⟩
  | frame found below lower =>
      rcases represents.visible _ _ found with ⟨distinct, rest, belowAgain, -, visible⟩
      cases below.unique belowAgain
      rw [Bindings.visibleIn, found]
      exact ⟨distinct, visible⟩

/-- That a var has never been bound is no news. -/
theorem cellOf_eq (represents : Represents bindings captured layers place) (thread : ThreadId)
    (var : Ref .var) :
    bindings.cellOf thread var =
      (layers.nearestIn (layers.stackOf thread) var).bind (place · var) := by
  rw [Bindings.cellOf, (represents.visibleIn_spec (represents.stacked thread)).2 var]
  split
  case isTrue => rfl
  case isFalse never =>
    rw [eq_comm, Option.bind_eq_none_iff]
    intro number _
    cases found : place number var with
    | none => rfl
    | some cell =>
        exact absurd (List.contains_iff_mem.mpr (represents.known _ _ _ found)) never

theorem visible_eq (represents : Represents bindings captured layers place) (thread : ThreadId)
    (var : Ref .var) :
    (bindings.cellOf thread var).bind bindings.cells.get? = layers.visible thread var := by
  rw [represents.cellOf_eq, Layers.visible, Option.bind_assoc]
  exact Option.bind_congr fun number _ => represents.cells number var

theorem value?_eq (represents : Represents bindings captured layers place) (thread : ThreadId)
    (var : Ref .var) : bindings.value? thread var = layers.lookup thread var := by
  rw [Bindings.value?, represents.visible_eq, Layers.lookup]

theorem isBound_eq (represents : Represents bindings captured layers place) (thread : ThreadId)
    (var : Ref .var) : bindings.isBound thread var = (layers.lookup thread var).isSome := by
  rw [Layers.lookup, Option.isSome_map, ← represents.visible_eq, Bindings.isBound]
  cases found : bindings.cellOf thread var with
  | none => rfl
  | some cell =>
      rw [represents.cellOf_eq] at found
      rcases Option.bind_eq_some_iff.mp found with ⟨number, -, isPlace⟩
      rcases Store.exists_of_lt_next (represents.placed _ _ _ isPlace) with ⟨stored, present⟩
      rw [Option.bind_some, present]
      rfl

theorem depthFrom_eq (stacked : Stacked bindings.frames stack numbers) {fuel : Nat}
    (enough : numbers.length ≤ fuel) : bindings.depthFrom fuel stack = numbers.length := by
  induction stacked generalizing fuel with
  | empty => cases fuel <;> rfl
  | frame found below lower induction =>
      rcases Nat.exists_eq_add_of_lt enough with ⟨more, rfl⟩
      rw [Bindings.depthFrom, found]
      simp only [List.length_cons]
      rw [induction (by omega)]

theorem depth_eq (represents : Represents bindings captured layers place) (thread : ThreadId) :
    bindings.depth thread = (layers.stackOf thread).length :=
  have stacked := represents.stacked thread
  depthFrom_eq stacked (stacked.length_le stacked.lt_next)

theorem current_sublist (cells : Store (BindingCell Value)) (visible : List (Ref .var × Nat)) :
    ((visible.filterMap fun entry =>
      (cells.get? entry.2).map fun cell => (entry.1, cell.value)).map Prod.fst).Sublist
        (visible.map Prod.fst) := by
  induction visible with
  | nil => exact .slnil
  | cons entry rest induction =>
      rw [List.filterMap_cons]
      cases cells.get? entry.2 with
      | none => exact induction.cons _
      | some cell => exact induction.cons_cons _

/-- Every var that is bound stands among the current bindings once, with its value. -/
theorem current_spec (represents : Represents bindings captured layers place)
    (thread : ThreadId) : ((bindings.current thread).map Prod.fst).Nodup ∧
      ∀ var value, (var, value) ∈ bindings.current thread ↔
        layers.lookup thread var = some value := by
  rcases represents.visibleIn_spec (represents.stacked thread) with ⟨distinct, visible⟩
  refine ⟨(current_sublist _ _).nodup distinct, fun var value => ?_⟩
  have seen : layers.visible thread var =
      (findVar var (bindings.visibleIn (bindings.stackOf thread))).bind bindings.cells.get? := by
    rw [← represents.visible_eq, represents.cellOf_eq, visible]
  rw [Layers.lookup, seen, Bindings.current, List.mem_filterMap]
  constructor
  · intro listed
    rcases listed with ⟨⟨mentioned, cell⟩, member, pair⟩
    rcases Option.map_eq_some_iff.mp pair with ⟨stored, present, same⟩
    cases same
    rw [(Bindings.findVar_eq_some_iff distinct).mpr member, Option.bind_some, present]
    rfl
  · intro found
    rcases Option.map_eq_some_iff.mp found with ⟨stored, present, rfl⟩
    rcases Option.bind_eq_some_iff.mp present with ⟨cell, isVisible, stands⟩
    exact ⟨(var, cell), (Bindings.findVar_eq_some_iff distinct).mp isVisible,
      Option.map_eq_some_iff.mpr ⟨stored, stands, rfl⟩⟩

/-! ### Stacks that change -/

theorem stackOf_setStack (bindings : Bindings Value) (bound : thread < bindings.threads.next)
    (stack : Stack) (other : ThreadId) :
    (bindings.setStack thread stack).stackOf other =
      if other = thread then stack else bindings.stackOf other := by
  rw [Bindings.stackOf, Bindings.stackOf, Bindings.setStack, Store.get?_set]
  by_cases here : other = thread
  · rw [if_pos ⟨here, bound⟩, if_pos here]
    rfl
  · rw [if_neg (fun both => here both.1), if_neg here]

theorem setStack (represents : Represents bindings captured layers place)
    (bound : thread < layers.threads.length) (stacked : Stacked bindings.frames stack numbers) :
    Represents (bindings.setStack thread stack) captured (layers.withStack thread numbers)
      place where
  frames := represents.frames
  threads := by
    rw [Bindings.setStack, Layers.withStack, Store.next_set, List.length_set]
    exact represents.threads
  stacked other := by
    rw [stackOf_setStack _ (represents.threads ▸ bound), Layers.stackOf_withStack layers bound]
    split
    · exact stacked
    · exact represents.stacked other
  captured := represents.captured
  visible := represents.visible
  cells := represents.cells
  placed := represents.placed
  apart := represents.apart
  known := represents.known

theorem capture (represents : Represents bindings captured layers place)
    (stacked : Stacked bindings.frames stack numbers) :
    Represents bindings (captured ++ [stack]) (layers.withCapture numbers) place where
  frames := represents.frames
  threads := represents.threads
  stacked := represents.stacked
  captured := List.rel_append represents.captured (.cons stacked .nil)
  visible := represents.visible
  cells := represents.cells
  placed := represents.placed
  apart := represents.apart
  known := represents.known

/-- Frames and cells have nothing to do with what vars hold otherwise. -/
theorem withVars (represents : Represents bindings captured layers place) (vars : Store VarCell) :
    Represents bindings captured { layers with vars := vars } place where
  frames := represents.frames
  threads := represents.threads
  stacked := represents.stacked
  captured := represents.captured
  visible := represents.visible
  cells := represents.cells
  placed := represents.placed
  apart := represents.apart
  known := represents.known

theorem withVar (represents : Represents bindings captured layers place) (var : Ref .var)
    (change : VarCell → VarCell) :
    Represents bindings captured (layers.withVar var change) place :=
  represents.withVars _

theorem fork (represents : Represents bindings captured layers place) :
    Represents bindings.fork.2 captured layers.withThread place where
  frames := represents.frames
  threads := by
    simp [Bindings.fork, Layers.withThread, represents.threads]
  stacked thread := by
    have stacked := represents.stacked thread
    rw [Bindings.stackOf] at stacked ⊢
    rw [Layers.stackOf_withThread]
    simp only [Bindings.fork, Store.get?_push]
    by_cases new : thread = bindings.threads.next
    · have beyond : layers.threads.length ≤ thread := Nat.le_of_eq (represents.threads ▸ new.symm)
      rw [if_pos new, Layers.stackOf, List.getElem?_eq_none beyond]
      exact .empty
    · rwa [if_neg new]
  captured := represents.captured
  visible := represents.visible
  cells := represents.cells
  placed := represents.placed
  apart := represents.apart
  known := represents.known

/-- Nothing can be popped off an empty stack; otherwise the stack below is back. -/
theorem pop_cases (represents : Represents bindings captured layers place)
    (bound : thread < layers.threads.length) :
    layers.stackOf thread = [] ∧ bindings.pop thread = none ∨
    ∃ top rest after, layers.stackOf thread = top :: rest ∧ bindings.pop thread = some after ∧
      Represents after captured (layers.withStack thread rest) place := by
  have stacked := represents.stacked thread
  rw [Bindings.pop]
  generalize bindings.stackOf thread = stack, layers.stackOf thread = numbers at stacked
  cases stacked with
  | empty => exact .inl ⟨rfl, rfl⟩
  | frame found below lower =>
      refine .inr ⟨_, _, _, rfl, ?_, represents.setStack bound below⟩
      simp only [found]

/-! ### Pushing -/

/-- The places of a new layer, and those of the layers before. -/
def extended (place : Nat → Ref .var → Option Nat) (new : Nat) (own : Ref .var → Option Nat) :
    Nat → Ref .var → Option Nat :=
  fun number var => if number = new then own var else place number var

/-- Below a new layer everything is found where it was. -/
theorem nearestIn_extended (layer : Layer) (own : Ref .var → Option Nat)
    (old : ∀ number ∈ numbers, number < layers.pushed.length) (var : Ref .var) :
    ((layers.withLayer layer).nearestIn numbers var).bind
        (extended place layers.pushed.length own · var) =
      (layers.nearestIn numbers var).bind (place · var) := by
  have same : (layers.withLayer layer).nearestIn numbers var = layers.nearestIn numbers var := by
    apply Layers.nearestIn_congr
    intro number member
    rw [Layers.entry_withLayer, if_neg (Nat.ne_of_lt (old number member))]
  rw [same]
  apply Option.bind_congr
  intro number near
  rw [extended, if_neg (Nat.ne_of_lt (old number (Layers.exists_entry_of_nearestIn near).1))]

section

variable {layer : Layer} {state : List (Ref .var × Nat) × Bindings Value}
  {own : Ref .var → Option Nat}

/-- A new frame leads each var to the nearest cell, be it a new one or an old one. -/
theorem findVar_filled (represents : Represents bindings captured layers place)
    (stacked : Stacked bindings.frames stack numbers)
    (filled : Filled layer (bindings.visibleIn stack, bindings) state own) (var : Ref .var) :
    findVar var state.1 =
      ((layers.withLayer layer).nearestIn (layers.pushed.length :: numbers) var).bind
        (extended place layers.pushed.length own · var) := by
  have old : ∀ number ∈ numbers, number < layers.pushed.length :=
    represents.frames ▸ stacked.lt_next
  rw [filled.visible, (represents.visibleIn_spec stacked).2, Layers.nearestIn_cons,
    Layers.entry_withLayer, if_pos rfl, Option.isSome_map, ← filled.isSome_own]
  cases here : own var with
  | none => exact (nearestIn_extended layer own old var).symm
  | some cell => simp [extended, here]

/-- The cells of a new layer are beyond all others. -/
theorem apart_filled (represents : Represents bindings captured layers place)
    (filled : Filled layer (bindings.visibleIn stack, bindings) state own)
    {number other cell : Nat} {var sought : Ref .var}
    (found : extended place layers.pushed.length own number var = some cell)
    (again : extended place layers.pushed.length own other sought = some cell) :
    number = other ∧ var = sought := by
  rw [extended] at found again
  split at found <;> split at again
  · simp_all [filled.apart var sought cell found again]
  · exact absurd (represents.placed other sought cell again)
      (Nat.not_lt_of_le (filled.new var cell found).1)
  · exact absurd (represents.placed number var cell found)
      (Nat.not_lt_of_le (filled.new sought cell again).1)
  · exact represents.apart number var other sought cell found again

theorem withLayer (represents : Represents bindings captured layers place)
    (stacked : Stacked bindings.frames stack numbers)
    (filled : Filled layer (bindings.visibleIn stack, bindings) state own) :
    Represents { state.2 with frames := state.2.frames.push ⟨state.1, stack⟩ } captured
      (layers.withLayer layer) (extended place layers.pushed.length own) := by
  have frames : state.2.frames = bindings.frames := filled.frames
  have old : ∀ number ∈ numbers, number < layers.pushed.length :=
    represents.frames ▸ stacked.lt_next
  constructor
  case frames => simp [frames, represents.frames, Layers.withLayer]
  case threads => exact (congrArg Store.next filled.threads).trans represents.threads
  case stacked =>
    intro thread
    have same : Bindings.stackOf { state.2 with frames := state.2.frames.push ⟨state.1, stack⟩ }
        thread = bindings.stackOf thread := by
      rw [Bindings.stackOf, Bindings.stackOf]
      exact congrArg (fun threads => (Store.get? threads thread).join) filled.threads
    rw [same, frames]
    exact (represents.stacked thread).push _
  case captured =>
    rw [frames]
    exact represents.captured.imp fun _ _ stacked => stacked.push _
  case visible =>
    intro top frame found
    rw [frames] at found ⊢
    rw [Store.get?_push, represents.frames] at found
    split at found
    case isTrue new =>
      cases found
      subst new
      exact ⟨filled.distinct (represents.visibleIn_spec stacked).1, numbers, stacked.push _, old,
        represents.findVar_filled stacked filled⟩
    case isFalse =>
      rcases represents.visible top frame found with ⟨distinct, rest, below, lower, visible⟩
      have bound := represents.frames ▸ Store.lt_next_of_get? found
      have oldRest : ∀ number ∈ top :: rest, number < layers.pushed.length :=
        List.forall_mem_cons.mpr ⟨bound, fun number member =>
          Nat.lt_trans (lower number member) bound⟩
      refine ⟨distinct, rest, below.push _, lower, fun var => ?_⟩
      rw [visible, nearestIn_extended layer own oldRest]
  case cells =>
    intro number var
    rw [Layers.entry_withLayer, extended]
    split
    case isTrue => exact filled.filled var
    case isFalse =>
      rw [← represents.cells number var]
      apply Option.bind_congr
      intro cell found
      exact filled.old cell (represents.placed number var cell found)
  case placed =>
    intro number var cell found
    rw [extended] at found
    split at found
    · exact (filled.new var cell found).2
    · exact Nat.lt_of_lt_of_le (represents.placed number var cell found) filled.grown
  case apart => exact fun number var other sought cell => represents.apart_filled filled
  case known =>
    intro number var cell found
    rw [extended] at found
    split at found
    · exact filled.known var cell found
    · exact filled.stillKnown var (represents.known number var cell found)

end

/-- A push makes the next layer. -/
theorem push (represents : Represents bindings captured layers place)
    (bound : thread < layers.threads.length) (added : List (Ref .var × Value)) :
    ∃ after, Represents (bindings.push thread added) captured
      ((layers.withLayer ⟨thread, added⟩).withStack thread
        (layers.pushed.length :: layers.stackOf thread)) after := by
  have stacked := represents.stacked thread
  rcases exists_filled thread added (bindings.visibleIn (bindings.stackOf thread), bindings) with
    ⟨own, filled⟩
  have represented := represents.withLayer stacked filled
  refine ⟨extended place layers.pushed.length own, ?_⟩
  rw [Bindings.push]
  apply represented.setStack bound
  dsimp only
  rw [filled.frames, ← represents.frames]
  exact .frame (Store.get?_push_next ..) (stacked.push _) stacked.lt_next

/-! ### Assigning -/

theorem assignCell (represents : Represents bindings captured layers place) {number index : Nat}
    {cell : BindingCell Value} (stands : place number var = some index)
    (present : bindings.cells.get? index = some cell) (value : Value) :
    Represents { bindings with cells := bindings.cells.set index { cell with value := value } }
      captured (layers.assignIn number var value) place := by
  have entry : layers.entry number var = some cell := by
    rw [← represents.cells, stands, Option.bind_some, present]
  constructor
  case frames => simp [Layers.assignIn, represents.frames]
  case threads => exact represents.threads
  case stacked => exact represents.stacked
  case captured => exact represents.captured
  case visible =>
    intro top frame found
    rcases represents.visible top frame found with ⟨distinct, rest, below, lower, visible⟩
    refine ⟨distinct, rest, below, lower, fun sought => ?_⟩
    rw [visible, Layers.nearestIn_assignIn]
  case cells =>
    intro other sought
    rw [Layers.entry_assignIn]
    split
    case isTrue here =>
      rw [here.1, here.2, stands, entry]
      exact Store.get?_set_self _ present
    case isFalse elsewhere =>
      rw [← represents.cells]
      apply Option.bind_congr
      intro stored found
      apply Store.get?_set_of_ne
      intro same
      exact elsewhere (represents.apart other sought number var index (same ▸ found) stands)
  case placed => simpa using represents.placed
  case apart => exact represents.apart
  case known => exact represents.known

/-- The three ways an assignment can go. -/
theorem assign_cases (represents : Represents bindings captured layers place)
    (thread : ThreadId) (var : Ref .var) (value : Value) :
    layers.nearestIn (layers.stackOf thread) var = none ∧ layers.pusher thread var = none ∧
      bindings.assign thread var value = .error .unbound ∨
    ∃ number owner, layers.nearestIn (layers.stackOf thread) var = some number ∧
      layers.pusher thread var = some owner ∧
      (owner ≠ thread ∧ bindings.assign thread var value = .error .foreign ∨
        owner = thread ∧ ∃ after, bindings.assign thread var value = .ok after ∧
          Represents after captured (layers.assignIn number var value) place) := by
  have cellOf := represents.cellOf_eq thread var
  cases near : layers.nearestIn (layers.stackOf thread) var with
  | none =>
      rw [near] at cellOf
      refine .inl ⟨rfl, ?_, ?_⟩
      · rw [Layers.pusher, Layers.visible, near]
        rfl
      · rw [Bindings.assign, cellOf]
        rfl
  | some number =>
      rcases Layers.exists_entry_of_nearestIn near with ⟨-, cell, entry⟩
      have stored := represents.cells number var
      rw [entry] at stored
      rcases Option.bind_eq_some_iff.mp stored with ⟨index, stands, present⟩
      rw [near, Option.bind_some, stands] at cellOf
      refine .inr ⟨number, cell.owner, rfl, ?_, ?_⟩
      · rw [Layers.pusher, Layers.visible, near, Option.bind_some, entry]
        rfl
      · by_cases own : cell.owner = thread
        · refine .inr ⟨own, _, ?_, represents.assignCell stands present value⟩
          simp only [Bindings.assign, cellOf, present, if_pos own]
        · refine .inl ⟨own, ?_⟩
          simp only [Bindings.assign, cellOf, present, if_neg own]

end Represents

end Binding

end LispRuntime
