import LispRuntime.Proofs.Binding.Answers
import LispRuntime.Proofs.Binding.Undoing

/-! Whatever threads have done in turn, bindings are what layers make of them. A turn that
fails has done nothing, and a push that is popped has hidden what it hid only for a while. -/

namespace LispRuntime.Binding

variable {machine : Machine} {world : World} {captured : List Stack} {layers : Layers}

theorem AnswersAs.of_alike {other : Layers} (answers : AnswersAs machine world layers)
    (alike : layers.Alike other) : AnswersAs machine world other := by
  have lookup : layers.lookup = other.lookup := by
    funext thread var
    rw [Layers.lookup, Layers.lookup, alike.visible]
  have deref : layers.deref = other.deref := by
    funext thread var
    rw [Layers.deref, Layers.deref, lookup, Layers.root, Layers.root, Layers.nameOf,
      Layers.nameOf, alike.vars]
  have lists : layers.Lists = other.Lists := by
    funext thread map
    rw [Layers.Lists, Layers.Lists, lookup]
  constructor
  case isThreadBound => exact lookup ▸ answers.isThreadBound
  case binding => exact lookup ▸ answers.binding
  case deref => exact deref ▸ answers.deref
  case depth =>
    intro thread
    rw [answers.depth, alike.depth]
  case asMap => exact lists ▸ answers.asMap

/-- What can be relied on in a world where threads have taken turns. -/
structure Agrees (machine : Machine) (world : World) (captured : List Stack) (layers : Layers) :
    Prop where
  answers : AnswersAs machine world layers
  /-- What fails changes nothing. -/
  refused : ∀ command error, command.action.NamesOf world.vars →
    (layers.perform command).1 = .error error →
    Binding.perform captured command machine world =
      some ((.error error, captured), world.turnOf command.thread)
  /-- If no stack changes in between, a pop leaves what was assigned to bindings from before
  the push, and nothing else. -/
  undone : ∀ thread added (between : List Command),
    thread < layers.threads.length → (layers.push thread added).1 = .ok () →
    (∀ command ∈ ⟨thread, .push added⟩ :: between, command.action.NamesOf world.vars) →
    (∀ command ∈ between, command.action.isCalm) →
    ∃ outcomes capturedAfter after,
      performAll captured (⟨thread, .push added⟩ :: between ++ [⟨thread, .pop⟩]) machine world =
        some ((outcomes, capturedAfter), after) ∧
      AnswersAs machine after (Layers.performAll
        (between.filter fun command => !command.isLost thread added) layers).2
  /-- In any case, whoever pops what a thread has pushed is back to the bindings that this
  thread had before. They have their old values, or values assigned to these very bindings. -/
  restored : ∀ thread added (between : List Command) user rest,
    thread < layers.threads.length → (layers.push thread added).1 = .ok () →
    (∀ command ∈ ⟨thread, .push added⟩ :: between, command.action.NamesOf world.vars) →
    (Layers.performAll (⟨thread, .push added⟩ :: between) layers).2.stackOf user =
      layers.pushed.length :: rest →
    ∃ outcomes capturedAfter after,
      performAll captured (⟨thread, .push added⟩ :: between ++ [⟨user, .pop⟩]) machine world =
        some ((outcomes, capturedAfter), after) ∧
      Binding.depth machine (after.turnOf user) =
        some ((layers.stackOf thread).length, after.turnOf user) ∧
      ∀ var,
        (layers.visible thread var = none →
          Var.binding var machine (after.turnOf user) = some (none, after.turnOf user)) ∧
        ∀ cell, layers.visible thread var = some cell → ∃ value,
          Var.binding var machine (after.turnOf user) = some (some value, after.turnOf user) ∧
          (value = cell.value ∨ ∃ number,
            layers.nearestIn (layers.stackOf thread) var = some number ∧
            layers.Reassigned number var cell.owner value
              (⟨thread, .push added⟩ :: between ++ [⟨user, .pop⟩]))

/-- To pop names no var. -/
theorem namesOf_snoc_pop {vars : Store VarCell} {commands : List Command} (user : ThreadId)
    (known : ∀ command ∈ commands, command.action.NamesOf vars) :
    ∀ command ∈ commands ++ [⟨user, .pop⟩], command.action.NamesOf vars := by
  intro command member
  rcases List.mem_append.mp member with earlier | last
  · exact known command earlier
  · rw [List.mem_singleton.mp last]
    exact fun _ => nofun

theorem Shows.agrees (shows : Shows world captured layers) (enough : 2 ≤ machine.limit)
    (sound : world.maps.Sound) : Agrees machine world captured layers where
  answers := shows.answersAs enough sound
  refused command error known fails := by
    rcases shows.perform machine known with ⟨capturedAfter, after, ran, follows⟩
    rcases follows.unchanged error fails with ⟨rfl, rfl⟩
    rw [ran, fails]
  undone thread added between present pushes known calm := by
    rcases performAll_follows machine shows (namesOf_snoc_pop thread known) with
      ⟨capturedAfter, after, ran, showsAfter, maps, -⟩
    refine ⟨_, capturedAfter, after, ran, ?_⟩
    have answers := showsAfter.answersAs enough (maps ▸ sound)
    exact answers.of_alike (Layers.pop_undoes_push shows.bounded present pushes calm)
  restored thread added between user rest present pushes known top := by
    rcases performAll_follows machine shows (namesOf_snoc_pop user known) with
      ⟨capturedAfter, after, ran, showsAfter, maps, -⟩
    have answers := showsAfter.answersAs enough (maps ▸ sound)
    have same := Layers.pop_restores_stack shows.bounded present pushes top
    refine ⟨_, capturedAfter, after, ran, ?_, fun var => ?_⟩
    · rw [answers.depth, same]
    · rcases Layers.visible_performAll shows.bounded same var with ⟨unbound, bound⟩
      rw [answers.binding, Layers.lookup]
      constructor
      · intro absent
        rw [unbound absent, Option.map_none]
      · intro cell seen
        rcases bound cell seen with ⟨value, visible, cause⟩
        refine ⟨value, ?_, cause⟩
        rw [visible, Option.map_some]

/-- Threads that take turns with bindings find what the layers say, and come to the same
outcomes. -/
theorem performAll_agrees_with_layers (machine : Machine) (enough : 2 ≤ machine.limit)
    {start : World} (unbound : start.bindings = .empty) (sound : start.maps.Sound)
    {commands : List Command} (known : ∀ command ∈ commands, command.action.NamesOf start.vars) :
    ∃ captured reached, performAll [] commands machine start =
        some (((Layers.performAll commands (.start start.vars)).1, captured), reached) ∧
      reached.vars.next = start.vars.next ∧
      Agrees machine reached captured (Layers.performAll commands (.start start.vars)).2 := by
  rcases performAll_follows machine (.start unbound) known with
    ⟨captured, reached, ran, showsReached, maps, declared⟩
  exact ⟨captured, reached, ran, declared, showsReached.agrees enough (maps ▸ sound)⟩

/-! A binding that is captured and installed on another thread, with a push on top of it.
The thread that made it goes on to assign and to pop it. -/

/-- Two vars that may be bound. -/
def twoVars : World :=
  let cell (name : String) : VarCell :=
    ⟨⟨0⟩, .unqualifiedName "lib", .unqualifiedName name, some .nil, true, none⟩
  { World.initial with vars := (Store.empty.push (cell "x")).push (cell "y") }

def conveyance : List Command :=
  [ ⟨0, .push [(⟨0⟩, .boolean false), (⟨0⟩, .boolean true)]⟩,
    ⟨0, .capture⟩,
    ⟨0, .fork⟩,
    ⟨1, .install 0⟩,
    ⟨1, .push [(⟨1⟩, .character 'y')]⟩,
    ⟨1, .assign ⟨0⟩ .nil⟩,
    ⟨0, .assign ⟨0⟩ (.character 'x')⟩,
    ⟨0, .pop⟩,
    ⟨0, .pop⟩]

theorem conveyance_agrees_with_layers : ∃ captured reached,
    performAll [] conveyance ⟨fun _ _ _ _ => none, [], 2⟩ twoVars =
      some (([.ok (), .ok (), .ok (), .ok (), .ok (), .error (.setFromForeignThread "lib/x"),
        .ok (), .ok (), .error .bindingStackUnderflow], captured), reached) ∧
    Var.binding ⟨0⟩ ⟨fun _ _ _ _ => none, [], 2⟩ (reached.turnOf 1) =
      some (some (.character 'x'), reached.turnOf 1) ∧
    (Var.deref ⟨0⟩).run ⟨fun _ _ _ _ => none, [], 2⟩ (reached.turnOf 0) =
      some (.ok .nil, reached.turnOf 0) ∧
    Binding.depth ⟨fun _ _ _ _ => none, [], 2⟩ (reached.turnOf 1) =
      some (2, reached.turnOf 1) := by
  have known : ∀ command ∈ conveyance, command.action.NamesOf twoVars.vars := by
    change ∀ command ∈ conveyance, ∀ var ∈ command.action.vars, var.index < twoVars.vars.next
    decide
  rcases performAll_agrees_with_layers ⟨fun _ _ _ _ => none, [], 2⟩ (Nat.le_refl 2) rfl
    ArrayMap.Pool.sound_empty known with ⟨captured, reached, ran, declared, agrees⟩
  have there : (⟨0⟩ : Ref .var).index < reached.vars.next := by
    rw [declared]
    decide
  exact ⟨captured, reached, ran, agrees.answers.binding 1 ⟨0⟩, agrees.answers.deref 0 ⟨0⟩ there,
    agrees.answers.depth 1⟩

end LispRuntime.Binding
