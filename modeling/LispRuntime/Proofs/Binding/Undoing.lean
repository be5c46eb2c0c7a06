import LispRuntime.Proofs.Binding.Histories

/-! What a push leaves behind when it has been popped. As long as stacks stay as they are
in between, all that was assigned to its own bindings is out of sight, and all else is as if
there had been no push. In any case who pops it is back to what the push covered. -/

namespace LispRuntime.Binding

/-- Does the action leave all stacks alone? -/
def Action.isCalm : Action → Bool
  | .push .. | .pushMap .. | .pop | .install .. => false
  | _ => true

/-- Does the command assign a binding that the thread has just pushed? -/
def Command.isLost (thread : ThreadId) (added : List (Ref .var × Value)) (command : Command) :
    Bool :=
  match command.action with
  | .assign var _ => decide (command.thread = thread) && (added.map Prod.fst).contains var
  | _ => false

namespace Layers

variable {layers upper lower : Layers} {thread user : ThreadId} {added : List (Ref .var × Value)}
  {var : Ref .var}

/-- No thread can tell the one from the other by looking at bindings and vars. -/
structure Alike (left right : Layers) : Prop where
  vars : left.vars = right.vars
  depth : ∀ thread, (left.stackOf thread).length = (right.stackOf thread).length
  visible : ∀ thread var, left.visible thread var = right.visible thread var

/-- What `lower` is, `upper` is with one layer more, which stands on top of the thread's stack
and nowhere else. -/
structure Covered (thread : ThreadId) (added : List (Ref .var × Value)) (upper lower : Layers) :
    Prop where
  vars : upper.vars = lower.vars
  present : thread < upper.threads.length
  threads : upper.threads.length = lower.threads.length
  top : upper.stackOf thread = lower.pushed.length :: lower.stackOf thread
  others : ∀ other, other ≠ thread → upper.stackOf other = lower.stackOf other
  below : ∀ user, ∀ number ∈ lower.stackOf user, number < lower.pushed.length
  old : ∀ number < lower.pushed.length, ∀ var, upper.entry number var = lower.entry number var
  own : ∀ var, (upper.entry lower.pushed.length var).map BindingCell.owner =
    if var ∈ added.map Prod.fst then some thread else none

/-! ## Looking below a layer -/

namespace Covered

theorem lt_of_nearestIn (covered : Covered thread added upper lower) {number : Nat}
    (near : lower.nearestIn (lower.stackOf user) var = some number) :
    number < lower.pushed.length :=
  covered.below user number (exists_entry_of_nearestIn near).1

/-- Below the new layer everything is found where it was. -/
theorem nearestIn_below (covered : Covered thread added upper lower) (user : ThreadId)
    (var : Ref .var) :
    upper.nearestIn (lower.stackOf user) var = lower.nearestIn (lower.stackOf user) var := by
  apply nearestIn_congr
  intro number member
  rw [covered.old number (covered.below user number member)]

theorem entry_below (covered : Covered thread added upper lower) (user : ThreadId)
    (var : Ref .var) :
    (lower.nearestIn (lower.stackOf user) var).bind (upper.entry · var) =
      lower.visible user var := by
  apply Option.bind_congr
  intro number near
  exact covered.old number (covered.lt_of_nearestIn near) var

/-- Where the new layer does not come first, a var is found where it was. -/
theorem nearestIn_eq (covered : Covered thread added upper lower)
    (outside : user ≠ thread ∨ var ∉ added.map Prod.fst) :
    upper.nearestIn (upper.stackOf user) var = lower.nearestIn (lower.stackOf user) var := by
  by_cases same : user = thread
  · subst same
    have absent := covered.own var
    rw [if_neg (outside.resolve_left (· rfl)), Option.map_eq_none_iff] at absent
    rw [covered.top, nearestIn_cons, absent]
    exact covered.nearestIn_below user var
  · rw [covered.others user same, covered.nearestIn_below]

theorem visible_eq (covered : Covered thread added upper lower)
    (outside : user ≠ thread ∨ var ∉ added.map Prod.fst) :
    upper.visible user var = lower.visible user var := by
  rw [visible, covered.nearestIn_eq outside, covered.entry_below]

theorem pusher_eq (covered : Covered thread added upper lower)
    (outside : user ≠ thread ∨ var ∉ added.map Prod.fst) :
    upper.pusher user var = lower.pusher user var := by
  rw [pusher, pusher, covered.visible_eq outside]

/-- The thread finds its own bindings in the new layer. -/
theorem nearestIn_own (covered : Covered thread added upper lower)
    (inside : var ∈ added.map Prod.fst) :
    upper.nearestIn (upper.stackOf thread) var = some lower.pushed.length ∧
      upper.pusher thread var = some thread := by
  have owner := covered.own var
  rw [if_pos inside] at owner
  rcases Option.map_eq_some_iff.mp owner with ⟨cell, found, isOwner⟩
  have near : upper.nearestIn (upper.stackOf thread) var = some lower.pushed.length := by
    rw [covered.top, nearestIn_cons, found]
    rfl
  refine ⟨near, ?_⟩
  rw [pusher, visible, near, Option.bind_some, found, Option.map_some, isOwner]

/-! ## What is done meanwhile -/

theorem withVar (covered : Covered thread added upper lower) (var : Ref .var)
    (change : VarCell → VarCell) :
    Covered thread added (upper.withVar var change) (lower.withVar var change) :=
  { covered with vars := congrArg (Store.modify · var.index change) covered.vars }

theorem withThread (covered : Covered thread added upper lower) :
    Covered thread added upper.withThread lower.withThread := by
  constructor
  case vars => exact covered.vars
  case present => exact Nat.lt_of_lt_of_le covered.present (by simp [Layers.withThread])
  case threads => simp [Layers.withThread, covered.threads]
  case top =>
    rw [stackOf_withThread, stackOf_withThread]
    exact covered.top
  case others =>
    intro other different
    rw [stackOf_withThread, stackOf_withThread]
    exact covered.others other different
  case below =>
    intro other number member
    rw [stackOf_withThread] at member
    exact covered.below other number member
  case old => exact covered.old
  case own => exact covered.own

theorem assignIn (covered : Covered thread added upper lower) {number : Nat}
    (bound : number < lower.pushed.length) (var : Ref .var) (value : Value) :
    Covered thread added (upper.assignIn number var value) (lower.assignIn number var value) := by
  have length : (lower.assignIn number var value).pushed.length = lower.pushed.length :=
    List.length_modify ..
  constructor
  case vars => exact covered.vars
  case present => exact covered.present
  case threads => exact covered.threads
  case top => exact length ▸ covered.top
  case others => exact covered.others
  case below => exact fun other number member => length ▸ covered.below other number member
  case old =>
    intro other isOld sought
    rw [length] at isOld
    rw [entry_assignIn, entry_assignIn, covered.old number bound, covered.old other isOld]
  case own =>
    intro sought
    rw [length, entry_assignIn, if_neg fun both => Nat.ne_of_gt bound both.1]
    exact covered.own sought

/-- What the thread assigns to its own new bindings shows nowhere below. -/
theorem assignOwn (covered : Covered thread added upper lower) (var : Ref .var) (value : Value) :
    Covered thread added (upper.assignIn lower.pushed.length var value) lower := by
  constructor
  case vars => exact covered.vars
  case present => exact covered.present
  case threads => exact covered.threads
  case top => exact covered.top
  case others => exact covered.others
  case below => exact covered.below
  case old =>
    intro other isOld sought
    rw [entry_assignIn, if_neg fun both => Nat.ne_of_lt isOld both.1]
    exact covered.old other isOld sought
  case own =>
    intro sought
    rw [entry_assignIn, ← covered.own sought]
    split
    case isTrue here =>
      rw [Option.map_map, here.2]
      rfl
    case isFalse => rfl

theorem assign (covered : Covered thread added upper lower) (user : ThreadId) (var : Ref .var)
    (value : Value) :
    Covered thread added (upper.assign user var value).2
      (if Command.isLost thread added ⟨user, .assign var value⟩ then lower
        else (lower.assign user var value).2) := by
  by_cases own : user = thread ∧ var ∈ added.map Prod.fst
  · rcases own with ⟨rfl, inside⟩
    rcases covered.nearestIn_own inside with ⟨near, pusher⟩
    rw [Layers.assign, near, pusher]
    have lost : Command.isLost user added ⟨user, .assign var value⟩ = true := by
      simpa [Command.isLost] using inside
    simp only [if_pos lost]
    exact covered.assignOwn var value
  · have outside : user ≠ thread ∨ var ∉ added.map Prod.fst := not_and_or.mp own
    have kept : Command.isLost thread added ⟨user, .assign var value⟩ = false := by
      simpa [Command.isLost] using own
    rw [if_neg (Bool.not_eq_true _ ▸ kept), Layers.assign, Layers.assign,
      covered.nearestIn_eq outside, covered.pusher_eq outside]
    cases near : lower.nearestIn (lower.stackOf user) var with
    | none => exact covered
    | some number =>
        dsimp only
        split
        · exact covered.assignIn (covered.lt_of_nearestIn near) var value
        · exact covered

theorem perform (covered : Covered thread added upper lower) {command : Command}
    (calm : command.action.isCalm) :
    Covered thread added (upper.perform command).2
      (if command.isLost thread added then lower else (lower.perform command).2) := by
  rcases command with ⟨user, action⟩
  rw [Layers.perform, Layers.perform, covered.threads]
  by_cases present : user < lower.threads.length
  · rw [if_pos present, if_pos present]
    cases action with
    | assign var value => exact covered.assign user var value
    | setDynamic var isDynamic => exact covered.withVar var _
    | bindRoot var value => exact covered.withVar var _
    | unbindRoot var => exact covered.withVar var _
    | capture => exact { covered with }
    | fork => exact covered.withThread
    | push | pushMap | pop | install => cases calm
  · rw [if_neg present, if_neg present, ite_self]
    exact covered

theorem performAll (covered : Covered thread added upper lower) {commands : List Command}
    (calm : ∀ command ∈ commands, command.action.isCalm) :
    Covered thread added (performAll commands upper).2
      (performAll (commands.filter fun command => !command.isLost thread added) lower).2 := by
  induction commands generalizing upper lower with
  | nil => exact covered
  | cons command rest induction =>
      rcases List.forall_mem_cons.mp calm with ⟨first, others⟩
      have next := covered.perform first
      rw [List.filter_cons]
      cases lost : command.isLost thread added with
      | true =>
          rw [lost] at next
          exact induction next others
      | false =>
          rw [lost] at next
          exact induction next others

/-! ## Without the layer -/

/-- Popping takes the new layer away, and no thread can tell that it has ever been there. -/
theorem pop (covered : Covered thread added upper lower) :
    Alike (upper.pop thread).2 lower := by
  have popped : (upper.pop thread).2 = upper.withStack thread (lower.stackOf thread) := by
    rw [Layers.pop, covered.top]
  have below : ∀ other, (upper.withStack thread (lower.stackOf thread)).stackOf other =
      lower.stackOf other := by
    intro other
    rw [stackOf_withStack upper covered.present]
    split
    case isTrue same => rw [same]
    case isFalse different => exact covered.others other different
  rw [popped]
  constructor
  case vars => exact covered.vars
  case depth =>
    intro other
    rw [below]
  case visible =>
    intro other var
    have near : (upper.withStack thread (lower.stackOf thread)).nearestIn
        (lower.stackOf other) var = lower.nearestIn (lower.stackOf other) var :=
      covered.nearestIn_below other var
    rw [visible, below, near]
    exact covered.entry_below other var

end Covered

theorem performAll_push (present : thread < layers.threads.length) (rest : List Command) :
    (performAll (⟨thread, .push added⟩ :: rest) layers).2 =
      (performAll rest (layers.push thread added).2).2 := by
  rw [performAll_cons, perform, if_pos present]
  rfl

theorem performAll_pop (present : thread < layers.threads.length) :
    (performAll [⟨thread, .pop⟩] layers).2 = (layers.pop thread).2 := by
  rw [performAll_cons, perform, if_pos present]
  rfl

theorem push_eq_of_ok (pushes : (layers.push thread added).1 = .ok ()) :
    (layers.push thread added).2 = (layers.withLayer ⟨thread, added⟩).withStack thread
      (layers.pushed.length :: layers.stackOf thread) := by
  rw [push] at pushes ⊢
  split at pushes
  case h_1 => cases pushes
  case h_2 => rfl

/-- A push covers what was there. -/
theorem covered_push (bounded : layers.Bounded) (present : thread < layers.threads.length)
    (pushes : (layers.push thread added).1 = .ok ()) :
    Covered thread added (layers.push thread added).2 layers := by
  have present' : thread < (layers.withLayer ⟨thread, added⟩).threads.length := present
  rw [push_eq_of_ok pushes]
  constructor
  case vars => rfl
  case present => simpa [withStack] using present'
  case threads => simp [withStack, withLayer]
  case top => rw [stackOf_withStack _ present', if_pos rfl]
  case others =>
    intro other different
    rw [stackOf_withStack _ present', if_neg different]
    rfl
  case below => exact fun user number member => bounded.lt member
  case old =>
    intro number isOld var
    exact (entry_withLayer ..).trans (if_neg (Nat.ne_of_lt isOld))
  case own =>
    intro var
    have new : ((layers.withLayer ⟨thread, added⟩).withStack thread
        (layers.pushed.length :: layers.stackOf thread)).entry layers.pushed.length var =
          (Layer.find ⟨thread, added⟩ var).map fun value => ⟨thread, value⟩ :=
      (entry_withLayer ..).trans (if_pos rfl)
    have mentions := Layer.isSome_find thread added var
    rw [new, Option.map_map]
    split
    case isTrue inside =>
      rcases Option.isSome_iff_exists.mp (mentions.mpr inside) with ⟨value, found⟩
      rw [found]
      rfl
    case isFalse outside =>
      rw [Option.not_isSome_iff_eq_none.mp (outside ∘ mentions.mp)]
      rfl

/-- Whatever is assigned meanwhile, and whoever assigns it: once a push has been popped, all
is as if only that had been assigned which the push did not hide. -/
theorem pop_undoes_push (bounded : layers.Bounded) (present : thread < layers.threads.length)
    (pushes : (layers.push thread added).1 = .ok ()) {between : List Command}
    (calm : ∀ command ∈ between, command.action.isCalm) :
    Alike (performAll (⟨thread, .push added⟩ :: between ++ [⟨thread, .pop⟩]) layers).2
      (performAll (between.filter fun command => !command.isLost thread added) layers).2 := by
  have covered := (covered_push bounded present pushes).performAll calm
  rw [performAll_append, performAll_push present, performAll_pop covered.present]
  exact covered.pop

/-! ## In the general case -/

/-- A new layer stands on what was there, and is nowhere else. -/
theorem standsOn_push (bounded : layers.Bounded) (pushes : (layers.push thread added).1 = .ok ()) :
    (layers.push thread added).2.StandsOn layers.pushed.length (layers.stackOf thread) := by
  intro stack member rest suffix
  have notBelow : ∀ old ∈ layers.allStacks, ¬layers.pushed.length :: rest <:+ old := by
    intro old inside isSuffix
    exact Nat.lt_irrefl _ (bounded old inside _ (isSuffix.subset (List.mem_cons_self ..)))
  rw [push_eq_of_ok pushes] at member
  rcases mem_withStack member with new | old
  · rw [new] at suffix
    rcases List.suffix_cons_iff.mp suffix with whole | below
    · exact (List.cons.inj whole).2
    · have top := below.subset (List.mem_cons_self ..)
      exact absurd below (notBelow _ (stackOf_mem (present_of_mem top)))
  · exact absurd suffix (notBelow stack old)

/-- Whatever happens meanwhile, and wherever the new layer has been carried: who pops it has
the stack that the thread had before it was pushed. -/
theorem pop_restores_stack (bounded : layers.Bounded) (present : thread < layers.threads.length)
    (pushes : (layers.push thread added).1 = .ok ()) {between : List Command} {rest : List Nat}
    (top : (performAll (⟨thread, .push added⟩ :: between) layers).2.stackOf user =
      layers.pushed.length :: rest) :
    (performAll (⟨thread, .push added⟩ :: between ++ [⟨user, .pop⟩]) layers).2.stackOf user =
      layers.stackOf thread := by
  have grown : layers.pushed.length < (layers.push thread added).2.pushed.length := by
    rw [push_eq_of_ok pushes]
    simp [withStack, withLayer]
  have standsOn := (standsOn_push bounded pushes).performAll grown between
  rw [performAll_push present] at top
  rw [performAll_append, performAll_push present]
  generalize (performAll between (layers.push thread added).2).2 = reached at top standsOn ⊢
  have held : user < reached.threads.length :=
    present_of_mem (top ▸ List.mem_cons_self ..)
  have below : rest = layers.stackOf thread :=
    standsOn _ (stackOf_mem held) rest (top ▸ List.suffix_rfl)
  have popped : (reached.pop user).2 = reached.withStack user rest := by
    rw [pop, top]
  rw [performAll_pop held, popped, stackOf_withStack reached held, if_pos rfl, below]

end Layers

end LispRuntime.Binding
