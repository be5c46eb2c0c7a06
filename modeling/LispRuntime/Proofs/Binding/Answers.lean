import LispRuntime.Proofs.Binding.Commands
import LispRuntime.Proofs.Binding.Snapshot

/-! What a thread finds out about bindings. Layers tell what every answer is. -/

namespace LispRuntime.Binding

/-- The map has each var for which the thread has a binding, once, and nothing else. -/
def Layers.Lists (layers : Layers) (thread : ThreadId) (map : Value) : Prop :=
  ∃ (current : List (Ref .var × Value)) (entries : List (Value × Value)),
    (current.map Prod.fst).Nodup ∧
    (∀ var value, (var, value) ∈ current ↔ layers.lookup thread var = some value) ∧
    map.mapEntries? = some entries ∧
    entries.Perm (current.map fun binding => (.var binding.1, binding.2))

/-- Whoever's turn it is, the answers are those of the layers. To ask changes nothing, but
that a map is made when all bindings are asked for. -/
structure AnswersAs (machine : Machine) (world : World) (layers : Layers) : Prop where
  isThreadBound : ∀ thread var, Var.isThreadBound var machine (world.turnOf thread) =
    some ((layers.lookup thread var).isSome, world.turnOf thread)
  binding : ∀ thread var, Var.binding var machine (world.turnOf thread) =
    some (layers.lookup thread var, world.turnOf thread)
  deref : ∀ thread (var : Ref .var), var.index < world.vars.next →
    (Var.deref var).run machine (world.turnOf thread) =
      some (layers.deref thread var, world.turnOf thread)
  depth : ∀ thread, Binding.depth machine (world.turnOf thread) =
    some ((layers.stackOf thread).length, world.turnOf thread)
  asMap : ∀ thread, ∃ map after,
    Binding.asMap.run machine (world.turnOf thread) = some (.ok map, after) ∧
    (world.turnOf thread).Keeps after ∧ after.maps.Sound ∧ layers.Lists thread map

variable {machine : Machine} {world : World} {captured : List Stack} {layers : Layers}

namespace Shows

theorem binding_run (shows : Shows world captured layers) (machine : Machine)
    (thread : ThreadId) (var : Ref .var) :
    Var.binding var machine (world.turnOf thread) =
      some (layers.lookup thread var, world.turnOf thread) := by
  rcases shows.bindings with ⟨place, represents⟩
  rw [← represents.value?_eq]
  rfl

theorem deref_run (shows : Shows world captured layers) (machine : Machine)
    (thread : ThreadId) {var : Ref .var} (known : var.index < world.vars.next) :
    (Var.deref var).run machine (world.turnOf thread) =
      some (layers.deref thread var, world.turnOf thread) := by
  rcases Store.exists_of_lt_next known with ⟨cell, present⟩
  have looked : Run.varAt var machine (world.turnOf thread) = some (cell, world.turnOf thread) := by
    rw [varAt_run]
    exact congrArg (Option.map fun cell => (cell, world.turnOf thread)) present
  have rooted : Var.root var machine (world.turnOf thread) =
      some (cell.root, world.turnOf thread) := Run.run_bind looked
  have root : layers.root var = cell.root := by
    rw [Layers.root, ← shows.vars, present, Option.bind_some]
  have name : layers.nameOf var = cell.qualifiedName := by
    rw [Layers.nameOf, ← shows.vars, present]
    rfl
  rw [Var.deref, Attempt.run_first (shows.binding_run machine thread var), Layers.deref]
  cases layers.lookup thread var with
  | some value => rfl
  | none =>
      dsimp only
      rw [Attempt.run_first rooted, Option.none_or, root, name]
      cases cell.root with
      | some value => rfl
      | none => exact Attempt.run_first looked

theorem asMap_run (shows : Shows world captured layers) (enough : 2 ≤ machine.limit)
    (sound : world.maps.Sound) (thread : ThreadId) :
    ∃ map after, Binding.asMap.run machine (world.turnOf thread) = some (.ok map, after) ∧
      (world.turnOf thread).Keeps after ∧ after.maps.Sound ∧ layers.Lists thread map := by
  rcases shows.bindings with ⟨place, represents⟩
  rcases represents.current_spec thread with ⟨distinct, listed⟩
  have soundTurn : (world.turnOf thread).maps.Sound := sound
  rcases ofPairs_vars machine enough soundTurn distinct with
    ⟨map, entries, after, ran, keeps, soundAfter, contents, perm⟩
  exact ⟨map, after, ran, keeps, soundAfter, _, entries, distinct, listed, contents, perm⟩

theorem answersAs (shows : Shows world captured layers) (enough : 2 ≤ machine.limit)
    (sound : world.maps.Sound) : AnswersAs machine world layers where
  isThreadBound thread var := by
    rcases shows.bindings with ⟨place, represents⟩
    rw [← represents.isBound_eq]
    rfl
  binding := shows.binding_run machine
  deref thread _ := shows.deref_run machine thread
  depth thread := by
    rcases shows.bindings with ⟨place, represents⟩
    rw [← represents.depth_eq]
    rfl
  asMap := shows.asMap_run enough sound

end Shows

end LispRuntime.Binding
