import LispRuntime.Proofs.Binding.Ownership

/-! Bodies that run with bindings of their own. The bindings are pushed before the body runs,
and when it is over, with a value or with an error, one frame is popped: the frame that then
stands on top. This is the frame that was pushed if the body leaves the stack as it found it,
as a balanced body does. -/

namespace LispRuntime

namespace World

/-- The stack of the thread that is running. -/
def stack (world : World) : Stack := world.bindings.stackOf world.thread

/-- The stack is one frame on top of another stack. -/
def StandsOn (world : World) (below : Stack) : Prop :=
  ∃ top frame, world.stack = some top ∧ world.bindings.frames.get? top = some frame ∧
    frame.below = below

/-- The world without the top frame of the stack, if there is one. -/
def popped (world : World) : World :=
  { world with bindings := (world.bindings.pop world.thread).getD world.bindings }

end World

namespace Binding

/-- Frames stay as they are, and it is the turn of the same thread. -/
structure KeepsFrames (before after : World) : Prop where
  thread : after.thread = before.thread
  threads : before.bindings.threads.next ≤ after.bindings.threads.next
  frames : ∀ number frame, before.bindings.frames.get? number = some frame →
    after.bindings.frames.get? number = some frame

/-- What a body does apart from its own stack. Other threads may have their turns. -/
structure Elsewhere where
  change : World → World
  keeps : ∀ world, KeepsFrames world (change world)
  stack : ∀ world, (change world).stack = world.stack

/-- What a body does, one thing after the other. How it goes on may depend on what there was to
see, and it ends with a value or with an error. (Bindings that come as a map are pushed once
they have been read, or nothing is done.) -/
inductive Body where
  | exit (outcome : Except Error Value)
  | push (added : List (Ref .var × Value)) (goOn : Except Error Unit → Body)
  | pop (goOn : Except Error Unit → Body)
  /-- Puts any stack in the place of the one that is there. -/
  | install (stack : Stack) (goOn : Stack → Body)
  | within (added : List (Ref .var × Value)) (inner : Body) (goOn : Except Error Value → Body)
  | elsewhere (other : Elsewhere) (goOn : World → Body)

namespace Body

def run : Body → Attempt Value
  | exit outcome => Attempt.ofExcept outcome
  | push added goOn => do (goOn (← Attempt.outcome (Binding.push added))).run
  | pop goOn => do (goOn (← Attempt.outcome Binding.pop)).run
  | install stack goOn => do (goOn (← Attempt.ofRun (Binding.install stack))).run
  | within added inner goOn => do
      (goOn (← Attempt.outcome (Binding.within added inner.run))).run
  | elsewhere other goOn => do
      Attempt.ofRun (Run.update other.change)
      (goOn (← Attempt.ofRun get)).run

/-- The body pops what it has pushed and nothing else, and puts a stack that it has replaced
back. So many frames on the stack are its own; while another stack is installed, the body
knows the one that it has to put back, and does with the other one what it likes. -/
def Balanced : Body → Option Stack → Nat → Prop
  | exit _, replaced, own => replaced = none ∧ own = 0
  | push _ goOn, none, own =>
      (goOn (.ok ())).Balanced none (own + 1) ∧
        ∀ error, (goOn (.error error)).Balanced none own
  | pop goOn, none, own => 0 < own ∧ (goOn (.ok ())).Balanced none (own - 1)
  | install _ goOn, none, own => ∀ old, (goOn old).Balanced (some old) own
  | install stack goOn, some replaced, own =>
      ∀ old, (goOn old).Balanced (if stack = replaced then none else some replaced) own
  | within _ inner goOn, none, own =>
      inner.Balanced none 0 ∧ ∀ outcome, (goOn outcome).Balanced none own
  | push _ goOn, some replaced, own => ∀ outcome, (goOn outcome).Balanced (some replaced) own
  | pop goOn, some replaced, own => ∀ outcome, (goOn outcome).Balanced (some replaced) own
  | within _ _ goOn, some replaced, own =>
      ∀ outcome, (goOn outcome).Balanced (some replaced) own
  | elsewhere _ goOn, replaced, own => ∀ world, (goOn world).Balanced replaced own

end Body

/-! ## Frames -/

namespace KeepsFrames

theorem refl (world : World) : KeepsFrames world world := ⟨rfl, Nat.le_refl _, fun _ _ => id⟩

theorem trans {first second third : World} (keeps : KeepsFrames first second)
    (keepsAgain : KeepsFrames second third) : KeepsFrames first third where
  thread := keepsAgain.thread.trans keeps.thread
  threads := Nat.le_trans keeps.threads keepsAgain.threads
  frames number frame found := keepsAgain.frames number frame (keeps.frames number frame found)

theorem present {before after : World} (keeps : KeepsFrames before after)
    (present : before.thread < before.bindings.threads.next) :
    after.thread < after.bindings.threads.next := by
  rw [keeps.thread]
  exact Nat.lt_of_lt_of_le present keeps.threads

end KeepsFrames

end Binding

namespace World

variable {world : World} {top : Nat} {frame : BindingFrame}

theorem thread_lt_of_stack (on : world.stack = some top) :
    world.thread < world.bindings.threads.next :=
  Store.lt_next_of_get? (Option.join_eq_some_iff.mp on)

theorem stack_setStack (present : world.thread < world.bindings.threads.next)
    {bindings : Bindings Value} (same : bindings.threads = world.bindings.threads)
    (stack : Stack) :
    World.stack { world with bindings := bindings.setStack world.thread stack } = stack := by
  change ((bindings.threads.set world.thread stack).get? world.thread).join = stack
  rw [same, Store.get?_set, if_pos ⟨rfl, present⟩, Option.join_some]

/-! ## Popping -/

theorem pop_eq_none (empty : world.stack = none) : world.bindings.pop world.thread = none := by
  rw [World.stack] at empty
  rw [Bindings.pop, empty]

theorem pop_eq_some (on : world.stack = some top)
    (found : world.bindings.frames.get? top = some frame) :
    world.bindings.pop world.thread =
      some (world.bindings.setStack world.thread frame.below) := by
  rw [World.stack] at on
  simp only [Bindings.pop, on, found]

/-- A stack whose top frame is not there cannot be popped. -/
theorem pop_eq_none_of_missing (on : world.stack = some top)
    (missing : world.bindings.frames.get? top = none) :
    world.bindings.pop world.thread = none := by
  rw [World.stack] at on
  simp only [Bindings.pop, on, missing]

theorem popped_of_none (stuck : world.bindings.pop world.thread = none) :
    world.popped = world := by
  rw [popped, stuck, Option.getD_none]

theorem stack_popped_of_standsOn {below : Stack} (stands : world.StandsOn below) :
    world.popped.stack = below := by
  rcases stands with ⟨top, frame, on, found, rfl⟩
  rw [popped, pop_eq_some on found, Option.getD_some]
  exact stack_setStack (thread_lt_of_stack on) rfl frame.below

/-- What is popped is one frame on top of what is left, or there was nothing to pop. -/
theorem standsOn_or_popped_eq (world : World) :
    world.StandsOn world.popped.stack ∨
      world.popped = world ∧ ∀ top, world.stack = some top →
        world.bindings.frames.get? top = none := by
  cases on : world.stack with
  | none => exact .inr ⟨popped_of_none (pop_eq_none on), fun _ => nofun⟩
  | some top =>
      cases found : world.bindings.frames.get? top with
      | none =>
          refine .inr ⟨popped_of_none (pop_eq_none_of_missing on found), ?_⟩
          rintro _ ⟨⟩
          exact found
      | some frame =>
          have stands : world.StandsOn frame.below := ⟨top, frame, on, found, rfl⟩
          rw [stack_popped_of_standsOn stands]
          exact .inl stands

end World

namespace Binding

variable {machine : Machine} {world after : World} {added : List (Ref .var × Value)}

theorem keepsFrames_setStack (world : World) (stack : Stack) :
    KeepsFrames world
      { world with bindings := world.bindings.setStack world.thread stack } where
  thread := rfl
  threads := Nat.le_of_eq (Store.next_set ..).symm
  frames _ _ := id

theorem keepsFrames_popped (world : World) : KeepsFrames world world.popped := by
  rcases world.standsOn_or_popped_eq with ⟨top, frame, on, found, _⟩ | ⟨same, _⟩
  · rw [World.popped, World.pop_eq_some on found, Option.getD_some]
    exact keepsFrames_setStack world frame.below
  · rw [same]
    exact .refl world

/-- A pop succeeds if and only if there is a frame to pop. -/
theorem pop_cases {outcome : Except Error Unit}
    (ran : Binding.pop.run machine world = some (outcome, after)) :
    after = world.popped ∧ ∀ below, world.StandsOn below → outcome = .ok () := by
  rcases Attempt.exists_of_first ran with ⟨_, _, seen, ran⟩
  cases seen
  rcases Attempt.exists_of_first ran with ⟨_, _, turn, ran⟩
  cases turn
  rw [World.popped]
  split at ran
  case h_1 popped same =>
      cases ran
      rw [same, Option.getD_some]
      exact ⟨rfl, fun _ _ => rfl⟩
  case h_2 stuck =>
      cases ran
      rw [stuck, Option.getD_none]
      refine ⟨rfl, fun below stands => ?_⟩
      rcases stands with ⟨top, frame, on, found, _⟩
      cases stuck.symm.trans (World.pop_eq_some on found)

/-! ## Pushing -/

theorem firstStatic_world {first : Option (Ref .var)}
    (ran : firstStatic added machine world = some (first, after)) : after = world := by
  induction added with
  | nil =>
      cases ran
      rfl
  | cons binding rest induction =>
      rcases Run.exists_of_bind ran with ⟨isDynamic, between, looked, ran⟩
      have same : between = world := by
        rcases Run.exists_of_bind looked with ⟨cell, reached, found, done⟩
        cases done
        rcases Run.exists_of_bind found with ⟨_, _, seen, found⟩
        cases seen
        exact (Run.eq_some_of_found found).2.symm
      subst same
      cases isDynamic with
      | true => exact induction ran
      | false =>
          cases ran
          rfl

end Binding

namespace World

/-- The world with a frame of bindings on top of the stack. -/
def pushed (world : World) (added : List (Ref .var × Value)) : World :=
  { world with bindings := world.bindings.push world.thread added }

end World

namespace Binding

variable {machine : Machine} {world after : World} {added : List (Ref .var × Value)}

/-- A push is refused and does nothing, or it pushes a frame. -/
theorem push_cases {outcome : Except Error Unit}
    (ran : (Binding.push added).run machine world = some (outcome, after)) :
    (∃ error, outcome = .error error ∧ after = world) ∨
      outcome = .ok () ∧ after = world.pushed added := by
  rcases Attempt.exists_of_first ran with ⟨first, between, looked, ran⟩
  cases firstStatic_world looked
  cases first with
  | none =>
      rcases Attempt.exists_of_first ran with ⟨_, _, seen, ran⟩
      cases seen
      rcases Attempt.exists_of_first ran with ⟨_, _, turn, ran⟩
      cases turn
      cases ran
      exact .inr ⟨rfl, rfl⟩
  | some var =>
      rcases Attempt.exists_of_first ran with ⟨cell, reached, found, ran⟩
      rcases Run.exists_of_bind found with ⟨_, _, seen, found⟩
      cases seen
      cases ran
      exact .inl ⟨_, rfl, (Run.eq_some_of_found found).2.symm⟩

/-- What was pushed is one frame on top of what was there, and no frame has changed. -/
theorem pushed_spec (present : world.thread < world.bindings.threads.next)
    (added : List (Ref .var × Value)) :
    (world.pushed added).StandsOn world.stack ∧ KeepsFrames world (world.pushed added) := by
  rcases exists_filled world.thread added
    (world.bindings.visibleIn world.stack, world.bindings) with ⟨own, filled⟩
  generalize made : added.foldl (Bindings.addCell world.thread)
    (world.bindings.visibleIn world.stack, world.bindings) = state at filled
  have same : world.pushed added = { world with
      bindings := Bindings.setStack
        { state.2 with frames := state.2.frames.push ⟨state.1, world.stack⟩ }
        world.thread (some state.2.frames.next) } := by
    rw [← made]
    rfl
  rw [same]
  constructor
  · refine ⟨state.2.frames.next, ⟨state.1, world.stack⟩, ?_, ?_, rfl⟩
    · exact World.stack_setStack present filled.threads _
    · exact Store.get?_push_next ..
  · refine ⟨rfl, ?_, fun number frame found => ?_⟩
    · refine Nat.le_of_eq ((congrArg Store.next filled.threads).symm.trans ?_)
      exact (Store.next_set ..).symm
    · have kept := found
      rw [← filled.frames] at kept
      exact (Store.get?_push_of_lt _ _ (Store.lt_next_of_get? kept)).trans kept

/-- The body does not run at all, or it runs between a push and a pop. -/
theorem within_cases {body : Attempt Value} {outcome : Except Error Value}
    (ran : (Binding.within added body).run machine world = some (outcome, after)) :
    (∃ error, (Binding.push added).run machine world = some (.error error, world) ∧
        outcome = .error error ∧ after = world) ∨
      ∃ left, (Binding.push added).run machine world = some (.ok (), world.pushed added) ∧
        body.run machine (world.pushed added) = some (outcome, left) ∧ after = left.popped := by
  rcases Attempt.exists_of_bind ran with ⟨error, pushed, rfl⟩ | ⟨_, between, pushed, ran⟩
  · rcases push_cases pushed with ⟨_, _, rfl⟩ | ⟨impossible, _⟩
    · exact .inl ⟨error, pushed, rfl, rfl⟩
    · cases impossible
  · rcases push_cases pushed with ⟨_, impossible, _⟩ | ⟨_, rfl⟩
    · cases impossible
    · rcases Attempt.exists_of_first ran with ⟨bodyOutcome, left, bodyRan, ran⟩
      rcases Attempt.exists_of_first ran with ⟨popOutcome, last, popped, ran⟩
      have answered : bodyOutcome = outcome ∧ last = after := by
        cases bodyOutcome <;> cases ran <;> exact ⟨rfl, rfl⟩
      rcases answered with ⟨rfl, rfl⟩
      exact .inr ⟨left, pushed, bodyRan, (pop_cases popped).1⟩

/-! ## What changes no frame -/

theorem keepsFrames_of_push {outcome : Except Error Unit}
    (present : world.thread < world.bindings.threads.next)
    (ran : (Binding.push added).run machine world = some (outcome, after)) :
    KeepsFrames world after := by
  rcases push_cases ran with ⟨_, _, rfl⟩ | ⟨_, rfl⟩
  · exact .refl _
  · exact (pushed_spec present added).2

theorem keepsFrames_of_pop {outcome : Except Error Unit}
    (ran : Binding.pop.run machine world = some (outcome, after)) : KeepsFrames world after := by
  rw [(pop_cases ran).1]
  exact keepsFrames_popped world

theorem keepsFrames_of_within {body : Attempt Value} {outcome : Except Error Value}
    (present : world.thread < world.bindings.threads.next)
    (inside : ∀ left, body.run machine (world.pushed added) = some (outcome, left) →
      KeepsFrames (world.pushed added) left)
    (ran : (Binding.within added body).run machine world = some (outcome, after)) :
    KeepsFrames world after := by
  rcases within_cases ran with ⟨_, _, _, rfl⟩ | ⟨left, _, ranBody, rfl⟩
  · exact .refl _
  · have pushed := (pushed_spec present added).2
    exact (pushed.trans (inside left ranBody)).trans (keepsFrames_popped left)

namespace Body

variable {outcome : Except Error Value} {base : Stack} {own : Nat}

theorem run_keepsFrames {body : Body} (present : world.thread < world.bindings.threads.next)
    (ran : body.run.run machine world = some (outcome, after)) : KeepsFrames world after := by
  induction body generalizing world outcome after with
  | exit answer =>
      cases answer <;> cases ran <;> exact .refl world
  | push added goOn induction =>
      rcases Attempt.exists_of_first ran with ⟨answer, between, pushed, ran⟩
      have keeps := keepsFrames_of_push present pushed
      exact keeps.trans (induction answer (keeps.present present) ran)
  | pop goOn induction =>
      rcases Attempt.exists_of_first ran with ⟨answer, between, popped, ran⟩
      have keeps := keepsFrames_of_pop popped
      exact keeps.trans (induction answer (keeps.present present) ran)
  | install stack goOn induction =>
      rcases Attempt.exists_of_first ran with ⟨old, between, installed, ran⟩
      cases installed
      have keeps := keepsFrames_setStack world stack
      exact keeps.trans (induction _ (keeps.present present) ran)
  | within added inner goOn innerInduction induction =>
      rcases Attempt.exists_of_first ran with ⟨answer, between, ranWithin, ran⟩
      have pushed := (pushed_spec present added).2
      have keeps := keepsFrames_of_within present
        (fun left => innerInduction (pushed.present present)) ranWithin
      exact keeps.trans (induction answer (keeps.present present) ran)
  | elsewhere other goOn induction =>
      rcases Attempt.exists_of_first ran with ⟨_, between, changed, ran⟩
      cases changed
      rcases Attempt.exists_of_first ran with ⟨seen, _, looked, ran⟩
      cases looked
      have keeps := other.keeps world
      exact keeps.trans (induction _ (keeps.present present) ran)

end Body

/-! ## Balanced bodies -/

/-- So many frames, and below them the base. -/
def Above (frames : Store BindingFrame) : Stack → Nat → Stack → Prop
  | stack, 0, base => stack = base
  | stack, own + 1, base => ∃ top frame, stack = some top ∧ frames.get? top = some frame ∧
      Above frames frame.below own base

/-- Where a balanced body is: its own frames are on top of the base, in the stack that is there
or in the one that it has to put back. -/
def At (world : World) (base : Stack) (replaced : Option Stack) (own : Nat) : Prop :=
  Above world.bindings.frames (replaced.getD world.stack) own base

namespace KeepsFrames

variable {before : World} {stack base : Stack} {own : Nat}

theorem above (keeps : KeepsFrames before after)
    (above : Above before.bindings.frames stack own base) :
    Above after.bindings.frames stack own base := by
  induction own generalizing stack with
  | zero => exact above
  | succ own induction =>
      rcases above with ⟨top, frame, on, found, rest⟩
      exact ⟨top, frame, on, keeps.frames top frame found, induction rest⟩

theorem standsOn (keeps : KeepsFrames before after) (same : after.stack = before.stack)
    (stands : before.StandsOn base) : after.StandsOn base := by
  rcases stands with ⟨top, frame, on, found, below⟩
  exact ⟨top, frame, same.trans on, keeps.frames top frame found, below⟩

/-- While another stack is installed, nothing happens to the one to be put back. -/
theorem stillAt {replaced : Option Stack} (keeps : KeepsFrames before after)
    (here : replaced = none → after.stack = before.stack) (at' : At before base replaced own) :
    At after base replaced own := by
  cases replaced with
  | some stack => exact keeps.above at'
  | none =>
      rw [At, Option.getD_none, here rfl]
      exact keeps.above at'

end KeepsFrames

namespace At

variable {base : Stack} {own : Nat}

/-- A frame that is pushed is one more of the body's own. -/
theorem pushed (present : world.thread < world.bindings.threads.next)
    (place : At world base none own) (added : List (Ref .var × Value)) :
    At (world.pushed added) base none (own + 1) := by
  rcases pushed_spec present added with ⟨⟨top, frame, on, found, below⟩, keeps⟩
  refine ⟨top, frame, on, found, ?_⟩
  rw [below]
  exact keeps.above place

/-- A frame of its own can be popped, and then it has one less. -/
theorem popped {outcome : Except Error Unit} (place : At world base none (own + 1))
    (ran : Binding.pop.run machine world = some (outcome, after)) :
    outcome = .ok () ∧ At after base none own := by
  rcases place with ⟨top, frame, on, found, rest⟩
  have stands : world.StandsOn frame.below := ⟨top, frame, on, found, rfl⟩
  have keeps := keepsFrames_of_pop ran
  rcases pop_cases ran with ⟨rfl, succeeds⟩
  refine ⟨succeeds _ stands, ?_⟩
  rw [At, Option.getD_none, World.stack_popped_of_standsOn stands]
  exact keeps.above rest

/-- The stack that has been replaced is put back. -/
theorem restored {stack : Stack} (present : world.thread < world.bindings.threads.next)
    (place : At world base (some stack) own) :
    At { world with bindings := world.bindings.setStack world.thread stack } base none own := by
  rw [At, Option.getD_none, World.stack_setStack present rfl]
  exact (keepsFrames_setStack world stack).above place

end At

/-- What is inside leaves the frame that has been pushed on top, and this is the one that is
popped. -/
theorem stack_of_within {body : Attempt Value} {outcome : Except Error Value}
    (present : world.thread < world.bindings.threads.next)
    (inside : ∀ left, body.run machine (world.pushed added) = some (outcome, left) →
      KeepsFrames (world.pushed added) left ∧ left.stack = (world.pushed added).stack)
    (ran : (Binding.within added body).run machine world = some (outcome, after)) :
    after.stack = world.stack := by
  rcases within_cases ran with ⟨_, _, _, rfl⟩ | ⟨left, _, ranBody, rfl⟩
  · rfl
  · rcases inside left ranBody with ⟨keeps, back⟩
    have stands := (pushed_spec present added).1
    exact World.stack_popped_of_standsOn (keeps.standsOn back stands)

namespace Body

variable {outcome : Except Error Value} {base : Stack} {own : Nat}

/-- A balanced body takes its own frames away and leaves the base. -/
theorem stack_of_balanced {body : Body} {replaced : Option Stack}
    (balanced : body.Balanced replaced own)
    (present : world.thread < world.bindings.threads.next)
    (place : At world base replaced own)
    (ran : body.run.run machine world = some (outcome, after)) : after.stack = base := by
  induction body generalizing world outcome after base replaced own with
  | exit answer =>
      rcases balanced with ⟨rfl, rfl⟩
      have same : after = world := by cases answer <;> cases ran <;> rfl
      rw [same]
      exact place
  | push added goOn induction =>
      rcases Attempt.exists_of_first ran with ⟨answer, between, pushed, rest⟩
      have keeps := keepsFrames_of_push present pushed
      have presentThen := keeps.present present
      cases replaced with
      | some stack => exact induction answer (balanced answer) presentThen (keeps.above place) rest
      | none =>
          rcases push_cases pushed with ⟨error, rfl, rfl⟩ | ⟨rfl, rfl⟩
          · exact induction _ (balanced.2 error) present place rest
          · exact induction _ balanced.1 presentThen (place.pushed present added) rest
  | pop goOn induction =>
      rcases Attempt.exists_of_first ran with ⟨answer, between, popped, ran⟩
      have keeps := keepsFrames_of_pop popped
      have presentThen := keeps.present present
      cases replaced with
      | some stack => exact induction answer (balanced answer) presentThen (keeps.above place) ran
      | none =>
          rcases Nat.exists_eq_add_one_of_ne_zero (Nat.ne_of_gt balanced.1) with ⟨fewer, rfl⟩
          rcases place.popped popped with ⟨rfl, fewerThere⟩
          exact induction _ balanced.2 presentThen fewerThere ran
  | install stack goOn induction =>
      rcases Attempt.exists_of_first ran with ⟨old, between, installed, ran⟩
      cases installed
      have keeps := keepsFrames_setStack world stack
      have presentThen := keeps.present present
      cases replaced with
      | none => exact induction _ (balanced _) presentThen (keeps.above place) ran
      | some other =>
          refine induction _ (balanced _) presentThen ?_ ran
          split
          case isFalse => exact keeps.above place
          case isTrue same =>
            subst same
            exact place.restored present
  | within added inner goOn innerInduction induction =>
      rcases Attempt.exists_of_first ran with ⟨answer, between, ranWithin, ran⟩
      have inside := (pushed_spec present added).2.present present
      have keeps := keepsFrames_of_within present (fun left => run_keepsFrames inside) ranWithin
      have presentThen := keeps.present present
      cases replaced with
      | some stack => exact induction answer (balanced answer) presentThen (keeps.above place) ran
      | none =>
          have same : between.stack = world.stack :=
            stack_of_within present (fun left ranInner =>
              ⟨run_keepsFrames inside ranInner, innerInduction balanced.1 inside rfl ranInner⟩)
              ranWithin
          exact induction answer (balanced.2 answer) presentThen
            (keeps.stillAt (fun _ => same) place) ran
  | elsewhere other goOn induction =>
      rcases Attempt.exists_of_first ran with ⟨_, between, changed, ran⟩
      cases changed
      rcases Attempt.exists_of_first ran with ⟨seen, _, looked, ran⟩
      cases looked
      have keeps := other.keeps world
      exact induction _ (balanced _) (keeps.present present)
        (keeps.stillAt (fun _ => other.stack world) place) ran

end Body

/-! ## What is left of a scope -/

/-- As the frames that were there are there still, the pop brings the old stack back if and
only if the body has left one frame on top of it. (Off an empty stack nothing is popped.) -/
theorem stack_popped_eq_iff {left : World} {numbers : List Nat}
    (stacked : Stacked world.bindings.frames world.stack numbers)
    (keeps : KeepsFrames world left) :
    left.popped.stack = world.stack ↔
      left.StandsOn world.stack ∨ left.stack = none ∧ world.stack = none := by
  constructor
  · intro back
    rcases left.standsOn_or_popped_eq with stands | ⟨same, missing⟩
    · rw [back] at stands
      exact .inl stands
    · rw [same] at back
      rw [back] at missing ⊢
      generalize world.stack = stack at stacked missing ⊢
      cases stacked with
      | empty => exact .inr ⟨rfl, rfl⟩
      | frame found below lower => cases (missing _ rfl).symm.trans (keeps.frames _ _ found)
  · rintro (stands | ⟨emptied, empty⟩)
    · exact World.stack_popped_of_standsOn stands
    · rw [World.popped_of_none (World.pop_eq_none emptied), emptied, empty]

/-- Whatever the body does to the stack and however it ends: if the bindings are refused, it
does not run and nothing is done. Otherwise its outcome is the outcome of the whole, and one
frame is popped. That brings the old stack back if and only if the body has left one frame on
top of it, which a balanced body does. -/
theorem within_restores_iff {body : Body} {outcome : Except Error Value} {numbers : List Nat}
    (present : world.thread < world.bindings.threads.next)
    (stacked : Stacked world.bindings.frames world.stack numbers)
    (ran : (Binding.within added body.run).run machine world = some (outcome, after)) :
    (∃ error, (Binding.push added).run machine world = some (.error error, world) ∧
        outcome = .error error ∧ after = world) ∨
      ∃ left, (Binding.push added).run machine world = some (.ok (), world.pushed added) ∧
        (world.pushed added).StandsOn world.stack ∧
        body.run.run machine (world.pushed added) = some (outcome, left) ∧
        KeepsFrames world left ∧ after = left.popped ∧
        (after.stack = world.stack ↔
          left.StandsOn world.stack ∨ left.stack = none ∧ world.stack = none) ∧
        (body.Balanced none 0 → after.stack = world.stack) := by
  rcases within_cases ran with refused | ⟨left, pushed, ranBody, rfl⟩
  · exact .inl refused
  · rcases pushed_spec present added with ⟨stands, keepsPushed⟩
    have inside := keepsPushed.present present
    have keepsBody := Body.run_keepsFrames inside ranBody
    have keeps := keepsPushed.trans keepsBody
    refine .inr ⟨left, pushed, stands, ranBody, keeps, rfl,
      stack_popped_eq_iff stacked keeps, fun balanced => ?_⟩
    have back := Body.stack_of_balanced balanced inside rfl ranBody
    exact World.stack_popped_of_standsOn (keepsBody.standsOn back stands)

/-! A scope within another scope. What runs in the inner one leaves a frame behind, so that the
frame of the outer one is still there when both are over. -/

def leaking : Body := .push [(⟨0⟩, .boolean true)] fun _ => .exit (.ok .nil)

def aroundLeaking : Body :=
  .within [(⟨0⟩, .nil)] leaking fun _ => .exit (.error .bindingStackUnderflow)

theorem aroundLeaking_leaves_frame : ∃ after,
    (Binding.within [(⟨0⟩, .nil)] aroundLeaking.run).run ⟨fun _ _ _ _ => none, [], 0⟩ oneVar =
      some (.error .bindingStackUnderflow, after) ∧
    after.stack ≠ oneVar.stack := by
  have present : oneVar.thread < oneVar.bindings.threads.next := by decide
  have ran : (Binding.within [(⟨0⟩, .nil)] aroundLeaking.run).run ⟨fun _ _ _ _ => none, [], 0⟩
      oneVar = some (.error .bindingStackUnderflow, _) := rfl
  refine ⟨_, ran, fun back => ?_⟩
  rcases within_restores_iff present .empty ran with
    ⟨_, refused, _⟩ | ⟨left, _, _, ran, _, _, restores, _⟩
  · cases refused
  · cases ran
    rcases restores.mp back with ⟨top, frame, on, found, below⟩ | ⟨impossible, _⟩
    · cases on
      cases found
      cases below
    · cases impossible

end Binding

end LispRuntime
