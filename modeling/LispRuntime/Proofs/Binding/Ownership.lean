import LispRuntime.Proofs.Binding.Answers
import LispRuntime.Proofs.Binding.Histories

/-! Who may change what a thread sees. A binding can be seen by many threads, as stacks are
captured and installed, but it belongs to the thread that pushed it. -/

namespace LispRuntime.Binding

namespace Layers

variable {layers : Layers} {thread : ThreadId} {var : Ref .var} {number : Nat}

/-- Why a thread may not assign the var. -/
def refusal (layers : Layers) (thread : ThreadId) (var : Ref .var) : Error :=
  match layers.pusher thread var with
  | none => .varNotThreadBound (layers.nameOf var)
  | some _ => .setFromForeignThread (layers.nameOf var)

theorem visible_assignIn (near : layers.nearestIn (layers.stackOf thread) var = some number)
    (value : Value) : (layers.assignIn number var value).visible thread var =
      (layers.entry number var).map fun cell => { cell with value := value } := by
  have stillNear : (layers.assignIn number var value).nearestIn
      ((layers.assignIn number var value).stackOf thread) var = some number :=
    (nearestIn_assignIn ..).trans near
  rw [visible, stillNear, Option.bind_some, entry_assignIn, if_pos ⟨rfl, rfl⟩]

/-- The pusher of a binding may assign it. -/
theorem assign_of_pusher (own : layers.pusher thread var = some thread) (value : Value) :
    (layers.assign thread var value).1 = .ok () ∧
      (layers.assign thread var value).2.lookup thread var = some value := by
  rcases pusher_eq_some_iff.mp own with ⟨number, cell, near, entry, -⟩
  rw [assign, near]
  dsimp only
  rw [if_pos own, lookup, visible_assignIn near, entry]
  exact ⟨rfl, rfl⟩

theorem assign_of_ne (foreign : layers.pusher thread var ≠ some thread) (value : Value) :
    layers.assign thread var value = (.error (layers.refusal thread var), layers) := by
  rw [assign, refusal]
  cases near : layers.nearestIn (layers.stackOf thread) var with
  | none =>
      have nobody : layers.pusher thread var = none := by
        rw [pusher, visible, near]
        rfl
      rw [nobody]
  | some number =>
      rcases exists_entry_of_nearestIn near with ⟨-, cell, entry⟩
      have pusher : layers.pusher thread var = some cell.owner :=
        pusher_eq_some_iff.mpr ⟨number, cell, near, entry, rfl⟩
      dsimp only
      rw [if_neg foreign, pusher]

end Layers

variable {machine : Machine} {world : World} {captured : List Stack} {layers : Layers}

/-- Only the thread that pushed a binding can assign it; others fail, and change nothing.
What a thread sees is changed by nobody else. -/
structure Guarded (machine : Machine) (world : World) (captured : List Stack) (layers : Layers) :
    Prop where
  assigned : ∀ thread (var : Ref .var) value, var.index < world.vars.next →
    layers.pusher thread var = some thread →
    ∃ after, (Var.assign var value).run machine (world.turnOf thread) = some (.ok value, after) ∧
      Var.binding var machine (after.turnOf thread) = some (some value, after.turnOf thread)
  refused : ∀ thread (var : Ref .var) value, var.index < world.vars.next →
    layers.pusher thread var ≠ some thread →
    (Var.assign var value).run machine (world.turnOf thread) =
      some (.error (layers.refusal thread var), world.turnOf thread)
  kept : ∀ thread var owner commands, layers.pusher thread var = some owner →
    (∀ command ∈ commands, command.action.NamesOf world.vars ∧ command.thread ≠ thread) →
    ∃ before outcomes capturedAfter after last,
      Var.binding var machine (world.turnOf thread) = some (some before, world.turnOf thread) ∧
      performAll captured commands machine world = some ((outcomes, capturedAfter), after) ∧
      Var.binding var machine (after.turnOf thread) = some (some last, after.turnOf thread) ∧
      (last = before ∨ ∃ number,
        layers.nearestIn (layers.stackOf thread) var = some number ∧
        layers.Reassigned number var owner last commands)

theorem Shows.guarded (shows : Shows world captured layers) (machine : Machine) :
    Guarded machine world captured layers where
  assigned thread var value known own := by
    rcases (shows.turnOf thread).assign machine known value with ⟨after, ran, follows⟩
    rcases Layers.assign_of_pusher own value with ⟨succeeds, seen⟩
    refine ⟨after, ran.trans ?_, (follows.shows.binding_run machine thread var).trans ?_⟩
    · exact congrArg (fun outcome => some (outcome.map fun _ => value, after)) succeeds
    · exact congrArg (fun seen => some (seen, after.turnOf thread)) seen
  refused thread var value known foreign := by
    rcases (shows.turnOf thread).assign machine known value with ⟨after, ran, follows⟩
    have fails : layers.assign thread var value = (.error (layers.refusal thread var), layers) :=
      Layers.assign_of_ne foreign value
    rcases follows.unchanged _ (congrArg Prod.fst fails) with ⟨rfl, -⟩
    exact ran.trans (congrArg (fun answer => some (answer.1.map fun _ => value, _)) fails)
  kept thread var owner commands pusher others := by
    rcases Option.map_eq_some_iff.mp pusher with ⟨cell, seen, rfl⟩
    have known : ∀ command ∈ commands, command.action.NamesOf world.vars :=
      fun command member => (others command member).1
    rcases performAll_follows machine shows known with ⟨capturedAfter, after, ran, showsAfter, -⟩
    have same : (Layers.performAll commands layers).2.stackOf thread = layers.stackOf thread :=
      Layers.stackOf_performAll_of_others fun command member => (others command member).2
    rcases (Layers.visible_performAll shows.bounded same var).2 cell seen with
      ⟨last, seenLast, cause⟩
    have first : layers.lookup thread var = some cell.value := by
      rw [Layers.lookup, seen, Option.map_some]
    have final : (Layers.performAll commands layers).2.lookup thread var = some last := by
      rw [Layers.lookup, seenLast, Option.map_some]
    have before := shows.binding_run machine thread var
    have afterwards := showsAfter.binding_run machine thread var
    rw [first] at before
    rw [final] at afterwards
    exact ⟨cell.value, _, capturedAfter, after, last, before, ran, afterwards, cause⟩

/-- Whatever threads have done in turn, whatever has been captured and installed: a binding
that has been conveyed is read-only for all but the thread that pushed it. -/
theorem performAll_guards_bindings (machine : Machine) {start : World}
    (unbound : start.bindings = .empty) {commands : List Command}
    (known : ∀ command ∈ commands, command.action.NamesOf start.vars) :
    ∃ outcomes captured reached,
      performAll [] commands machine start = some ((outcomes, captured), reached) ∧
      reached.vars.next = start.vars.next ∧
      Guarded machine reached captured (Layers.performAll commands (.start start.vars)).2 := by
  rcases performAll_follows machine (.start unbound) known with
    ⟨captured, reached, ran, showsReached, -, declared⟩
  exact ⟨_, captured, reached, ran, declared, showsReached.guarded machine⟩

/-! A binding that is conveyed to a thread, which pushes another one on top of it. -/

/-- A var that may be bound. -/
def oneVar : World :=
  let cell : VarCell :=
    ⟨⟨0⟩, .unqualifiedName "lib", .unqualifiedName "x", none, true, none⟩
  { World.initial with vars := Store.empty.push cell }

def conveyed : List Command :=
  [⟨0, .push [(⟨0⟩, .nil)]⟩, ⟨0, .capture⟩, ⟨0, .fork⟩, ⟨1, .install 0⟩, ⟨1, .push []⟩]

theorem conveyed_guarded : ∃ outcomes captured reached,
    performAll [] conveyed ⟨fun _ _ _ _ => none, [], 0⟩ oneVar =
      some ((outcomes, captured), reached) ∧
    (Var.assign ⟨0⟩ (.boolean true)).run ⟨fun _ _ _ _ => none, [], 0⟩ (reached.turnOf 1) =
      some (.error (.setFromForeignThread "lib/x"), reached.turnOf 1) ∧
    ∃ after,
      (Var.assign ⟨0⟩ (.boolean true)).run ⟨fun _ _ _ _ => none, [], 0⟩ (reached.turnOf 0) =
        some (.ok (.boolean true), after) := by
  have known : ∀ command ∈ conveyed, command.action.NamesOf oneVar.vars := by
    change ∀ command ∈ conveyed, ∀ var ∈ command.action.vars, var.index < oneVar.vars.next
    decide
  rcases performAll_guards_bindings ⟨fun _ _ _ _ => none, [], 0⟩ rfl known with
    ⟨outcomes, captured, reached, ran, declared, guarded⟩
  have there : (⟨0⟩ : Ref .var).index < reached.vars.next := by
    rw [declared]
    decide
  rcases guarded.assigned 0 ⟨0⟩ (.boolean true) there (by decide) with ⟨after, assigned, -⟩
  have refused := guarded.refused 1 ⟨0⟩ (.boolean true) there (by decide)
  exact ⟨outcomes, captured, reached, ran, refused, after, assigned⟩

end LispRuntime.Binding
