import LispRuntime.Proofs.Dispatch.Conflicts
import LispRuntime.Proofs.Multimethod.Commands

/-! Preferences that conflict. A preference is turned down when the reverse holds at the time,
so that no two tags are ever recorded each over the other. Neither what other tags inherit from
a new preference nor what they inherit by a new link is looked at, and in this way two tags can
come to be preferred over each other. -/

namespace LispRuntime.Multimethod

open Dispatch (Tables)
open Dispatch.Tables (Decides Extends SameRules Undisputed climbingFuel climbing_decides
  prefer_cases prefers_iff_recorded)

variable {machine : Machine} {world after : World} {defaults : Cell → Tag Value} {cell : Cell}
  {multimethod : MultimethodCell} {taxonomy : HierarchyCell}

/-! ## What is recorded -/

theorem Action.change_undisputed {tables changed : Tables Value Value}
    {hierarchy : Hierarchy Value} {version : Nat} {default : Tag Value} (action : Action)
    (sound : hierarchy.Sound) (before : Undisputed tables.preferences)
    (ran : action.change hierarchy version default tables = some changed) :
    Undisputed changed.preferences := by
  cases action with
  | add tag method =>
      cases ran
      exact before
  | remove tag =>
      cases ran
      unfold Tables.removeMethod
      split <;> exact before
  | removeAll =>
      cases ran
      exact fun _ _ => nofun
  | prefer preferred other =>
      rcases Option.map_eq_some_iff.mp ran with ⟨_, taken, rfl⟩
      rcases prefer_cases tables sound preferred other with
        ⟨-, refused⟩ | ⟨free, after, accepted, -, adds⟩
      · cases taken.symm.trans refused
        exact before
      · cases taken.symm.trans accepted
        exact adds.undisputed before (free ∘ .direct)
  | refresh age =>
      cases ran
      rw [(SameRules.sync tables (version - age)).preferences]
      exact before
  | answer age sought =>
      rcases Option.map_eq_some_iff.mp ran with ⟨⟨answer, _⟩, resolved, rfl⟩
      rw [(SameRules.resolve resolved).preferences]
      exact before

/-- No multimethod has two tags recorded each over the other. -/
def AllUndisputed (world : World) : Prop :=
  ∀ index multimethod, world.multimethods.get? index = some multimethod →
    Undisputed multimethod.tables.preferences

theorem allUndisputed_initial : AllUndisputed World.initial := by
  intro index multimethod found
  cases Store.lt_next_of_get? found

theorem AllUndisputed.perform {asked : Set (Tag Value)} (undisputed : AllUndisputed world)
    (consistent : Consistent defaults asked world) {command : Command}
    (ran : Multimethod.perform defaults command machine world = some ((), after)) :
    AllUndisputed after := by
  cases command with
  | newHierarchy | elsewhere change =>
      cases ran
      exact undisputed
  | copyHierarchy cell =>
      rw [copyHierarchy_run] at ran
      rcases Option.map_eq_some_iff.mp ran with ⟨taxonomy, -, pair⟩
      cases pair
      exact undisputed
  | rearrange cell change =>
      rw [rearrange_run] at ran
      rcases Option.bind_eq_some_iff.mp ran with ⟨taxonomy, -, rest⟩
      rcases Option.map_eq_some_iff.mp rest with ⟨changed, -, pair⟩
      cases pair
      exact undisputed
  | create name dispatch default hierarchy =>
      rw [create_run] at ran
      rcases Option.map_eq_some_iff.mp ran with ⟨taxonomy, -, pair⟩
      cases pair
      intro index multimethod found
      dsimp only at found
      rw [Store.get?_push] at found
      split at found
      · cases found
        exact fun _ _ => nofun
      · exact undisputed index multimethod found
  | act cell action =>
      rcases consistent.exists_of_act ran with
        ⟨multimethod, taxonomy, tables, present, above, changed, rfl⟩
      rcases consistent.reached _ taxonomy above with ⟨changes, reached⟩
      have kept := action.change_undisputed (Hierarchy.sound_of_performAll reached)
        (undisputed _ multimethod present) changed
      intro index other found
      dsimp only [World.withTables] at found
      rw [Store.get?_modify, present] at found
      split at found
      · cases found
        exact kept
      · exact undisputed index other found

theorem asksOnly_univ (command : Command) : command.AsksOnly Set.univ := by
  unfold Command.AsksOnly
  split <;> trivial

theorem AllUndisputed.performAll {commands : List Command} (undisputed : AllUndisputed world)
    (consistent : Consistent defaults Set.univ world)
    (ran : Multimethod.performAll defaults commands machine world = some ((), after)) :
    AllUndisputed after := by
  induction commands generalizing world with
  | nil =>
      cases ran
      exact undisputed
  | cons command rest induction =>
      rcases Run.exists_of_bind ran with ⟨_, between, first, others⟩
      exact induction (undisputed.perform consistent first)
        (consistent.perform (asksOnly_univ command) first) others

/-! ## What is inherited -/

/-- The question whether one tag is preferred over another, with the fuel that is provided. -/
abbrev prefersIn (hierarchy : Hierarchy Value) (tables : Tables Value Value)
    (preferred other : Tag Value) : Option Bool :=
  tables.prefers hierarchy (climbingFuel hierarchy) preferred other

/-- A preference that is asked for is turned down, and nothing changes, or it is taken in. -/
theorem preferOver_cases (machine : Machine) (sound : taxonomy.hierarchy.Sound)
    (present : world.multimethods.get? cell.index = some multimethod)
    (above : world.hierarchies.get? multimethod.hierarchy.index = some taxonomy)
    (preferred other : Tag Value) :
    prefersIn taxonomy.hierarchy multimethod.tables other preferred = some true ∧
      preferOver cell preferred other machine world = some (false, world) ∨
    prefersIn taxonomy.hierarchy multimethod.tables other preferred = some false ∧
      ∃ tables, preferOver cell preferred other machine world =
        some (true, world.withTables cell tables) ∧
        tables.methods = multimethod.tables.methods ∧
        Extends multimethod.tables.preferences tables.preferences preferred other := by
  have reverse := climbing_decides multimethod.tables sound other preferred
  rw [preferOver_run machine preferred other present above, reverse.eq_true_iff,
    reverse.eq_false_iff]
  rcases prefer_cases multimethod.tables sound preferred other with
    ⟨holds, refused⟩ | ⟨free, tables, taken, methods, adds⟩
  · refine .inl ⟨holds, ?_⟩
    rw [refused, Option.map_some, Option.getD_none, withTables_self present]
    rfl
  · refine .inr ⟨free, tables, ?_, methods, adds⟩
    rw [taken]
    rfl

def siblingCommands : List Command :=
  [.newHierarchy,
    .rearrange ⟨0⟩ (.derive (bare 2) (bare 0)),
    .rearrange ⟨0⟩ (.derive (bare 2) (bare 1)),
    .rearrange ⟨0⟩ (.derive (bare 3) (bare 0)),
    .rearrange ⟨0⟩ (.derive (bare 3) (bare 1)),
    .create ⟨none, "m"⟩ .nil .nil ⟨0⟩,
    .act ⟨0⟩ (.prefer (bare 0) (bare 1))]

end LispRuntime.Multimethod
