import LispRuntime.Proofs.Atom.Account
import LispRuntime.Proofs.Printing.Inside
import Mathlib.Logic.Function.Basic

/-! What is stored in cells that show what they hold. A cell comes to show itself by a store and by
nothing else, and the store does so exactly if what is stored leads to the cell already. So a run of
commands ties no knot exactly if none of its stores does. -/

namespace LispRuntime

/-! ## Paths through one place -/

section

variable {α : Type} {before after : α → α → Prop} {place : α}

/-- Steps from anywhere else can be taken in either way, so the place is reached in either way. -/
theorem reaches_of_agree (agree : ∀ left right, left ≠ place → before left right → after left right)
    {start : α} (reached : Relation.ReflTransGen before start place) :
    Relation.ReflTransGen after start place := by
  induction reached using Relation.ReflTransGen.head_induction_on with
  | refl => exact .refl
  | @head left right step _ induction =>
      by_cases here : left = place
      · exact here ▸ .refl
      · exact .head (agree _ _ here step) induction

/-- A way around goes by the place, or can be taken in the other way. -/
theorem around_of_agree (agree : ∀ left right, left ≠ place → before left right → after left right)
    {start last : α} (path : Relation.TransGen before start last) :
    Relation.TransGen after start last ∨
      Relation.ReflTransGen before start place ∧ Relation.TransGen before place last := by
  induction path with
  | single step =>
      by_cases here : start = place
      · exact .inr ⟨here ▸ .refl, here ▸ .single step⟩
      · exact .inl (.single (agree _ _ here step))
  | @tail middle last path step induction =>
      rcases induction with other | ⟨reached, around⟩
      · by_cases here : middle = place
        · exact .inr ⟨here ▸ path.to_reflTransGen, here ▸ .single step⟩
        · exact .inl (other.tail (agree _ _ here step))
      · exact .inr ⟨reached, around.tail step⟩

end

namespace Holdings

/-- What cells hold when one of them has been given a value. -/
def store (holdings : Holdings) (holder : Holder) (value : Value) : Holdings :=
  Function.update holdings holder (some value)

/-- No cell shows itself. -/
def KnotFree (holdings : Holdings) : Prop :=
  ∀ holder : Holder, ¬ Relation.TransGen (Shows none holdings) holder.value holder.value

variable {holdings : Holdings} {holder : Holder} {value outer inner : Value}

theorem KnotFree.not_knotted (free : holdings.KnotFree) (limit : Option Nat) (value : Value) :
    ¬ Knotted limit holdings value := by
  intro knotted
  rcases knotted.unlimited with ⟨holder, _, around⟩
  exact free holder around

theorem store_self : holdings.store holder value holder = some value := Function.update_self ..

theorem store_of_ne {other : Holder} (different : other ≠ holder) :
    holdings.store holder value other = holdings other :=
  Function.update_of_ne different ..

theorem eq_store {after : Holdings} (changed : after holder = some value)
    (kept : ∀ other, other ≠ holder → after other = holdings other) :
    after = holdings.store holder value := by
  funext other
  by_cases same : other = holder
  · rw [same, changed, store_self]
  · rw [kept other same, store_of_ne same]

/-- Nothing else shows anything else for it. -/
theorem shows_store_iff (different : outer ≠ holder.value) :
    Shows none (holdings.store holder value) outer inner ↔ Shows none holdings outer inner := by
  by_cases isHolder : ∃ other : Holder, other.value = outer
  · rcases isHolder with ⟨other, rfl⟩
    rw [shows_holder_iff, shows_holder_iff, store_of_ne fun same =>
      different (congrArg Holder.value same)]
  · exact shows_congr fun other same => (isHolder ⟨other, same⟩).elim

/-- A store in a world without knots ties one exactly if the value leads to the cell. -/
theorem store_knotFree_iff (free : holdings.KnotFree) :
    (holdings.store holder value).KnotFree ↔ ¬ Reaches none holdings value holder.value := by
  constructor
  · intro freeToo leads
    have shows : Shows none (holdings.store holder value) holder.value value :=
      shows_holder_iff.mpr store_self
    have leadsToo : Reaches none (holdings.store holder value) value holder.value :=
      reaches_of_agree (fun _ _ different => (shows_store_iff different).mpr) leads
    exact freeToo holder (.head' shows leadsToo)
  · intro loose other around
    -- A way around either leaves the cell out, and was there before, or goes by the cell, and then
    -- it has come from the value that is stored now.
    have back : ∀ left right, left ≠ holder.value →
        Shows none (holdings.store holder value) left right → Shows none holdings left right :=
      fun _ _ different => (shows_store_iff different).mp
    rcases around_of_agree back around with old | ⟨reached, onward⟩
    · exact free other old
    · rcases Relation.TransGen.head'_iff.mp (onward.trans_left reached) with ⟨first, shows, leads⟩
      cases store_self.symm.trans (shows_holder_iff.mp shows)
      exact loose (reaches_of_agree back leads)

end Holdings

/-! ## Changes of cells -/

namespace World

variable {world : World}

theorem holdings_pushAtom (cell : AtomCell) :
    { world with atoms := world.atoms.push cell }.holdings =
      world.holdings.store (.atom ⟨world.atoms.next⟩) cell.value := by
  refine Holdings.eq_store (congrArg (Option.map _) (Store.get?_push_next ..)) fun other kept => ?_
  cases other with
  | atom other =>
      have old : other.index ≠ world.atoms.next := fun same =>
        kept (congrArg _ (congrArg Ref.mk same))
      exact congrArg (Option.map _) ((Store.get?_push ..).trans (if_neg old))
  | volatile | delay => rfl

theorem holdings_pushVolatile (value : Value) :
    { world with volatiles := world.volatiles.push value }.holdings =
      world.holdings.store (.volatile ⟨world.volatiles.next⟩) value := by
  refine Holdings.eq_store (Store.get?_push_next ..) fun other kept => ?_
  cases other with
  | volatile other =>
      have old : other.index ≠ world.volatiles.next := fun same =>
        kept (congrArg _ (congrArg Ref.mk same))
      exact (Store.get?_push ..).trans (if_neg old)
  | atom | delay => rfl

theorem holdings_installedIn {cell : Ref .atom} {atom : AtomCell}
    (here : world.atoms.get? cell.index = some atom) (value : Value) :
    (Atom.installedIn cell world value).holdings = world.holdings.store (.atom cell) value := by
  refine Holdings.eq_store (congrArg (Option.map _) (Store.get?_modify_self here _))
    fun other kept => ?_
  cases other with
  | atom other =>
      have old : other.index ≠ cell.index := fun same => kept (congrArg _ (Ref.index_inj.mp same))
      exact congrArg (Option.map _) ((Store.get?_modify ..).trans (if_neg old))
  | volatile | delay => rfl

theorem holdings_setVolatile {cell : Ref .volatile} {old : Value}
    (here : world.volatiles.get? cell.index = some old) (value : Value) :
    { world with volatiles := world.volatiles.set cell.index value }.holdings =
      world.holdings.store (.volatile cell) value := by
  refine Holdings.eq_store (Store.get?_set_self _ here) fun other kept => ?_
  cases other with
  | volatile other =>
      exact Store.get?_set_of_ne _ _ fun same => kept (congrArg _ (Ref.index_inj.mp same))
  | atom | delay => rfl

theorem holdings_pushPending (body : Value) :
    { world with deferred := world.deferred.push (.pending body) }.holdings = world.holdings := by
  funext holder
  cases holder with
  | delay cell =>
      refine (congrArg (Option.bind · Deferred.shown?) (Store.get?_push ..)).trans ?_
      split
      case isTrue new =>
        have absent : world.deferred.get? cell.index = none := by
          rw [new]
          exact Array.getElem?_size
        exact (congrArg (Option.bind · Deferred.shown?) absent).symm
      case isFalse => rfl
  | atom | volatile => rfl

/-- What a delay shows when its cell gets another state. -/
theorem holdings_settingDeferred (cell : Ref .deferred) (state : Deferred) (holder : Holder) :
    (world.settingDeferred cell.index state).holdings holder =
      if holder = .delay cell ∧ cell.index < world.deferred.next then state.shown?
      else world.holdings holder := by
  cases holder with
  | delay other =>
      refine (congrArg (Option.bind · Deferred.shown?) (Store.get?_set ..)).trans ?_
      simp only [Holder.delay.injEq, ← Ref.index_inj]
      split <;> rfl
  | atom | volatile => exact (if_neg fun both => nomatch both.1).symm

/-- A body that runs, or has run in vain, leaves its cell showing nothing. -/
theorem holdings_unrealized {cell : Ref .deferred} (empty : world.holdings (.delay cell) = none)
    {state : Deferred} (still : state.shown? = none) :
    (world.settingDeferred cell.index state).holdings = world.holdings := by
  funext holder
  rw [holdings_settingDeferred]
  split
  case isTrue here => rw [here.1, still, empty]
  case isFalse => rfl

theorem holdings_realized (cell : Ref .deferred) (value : Value) :
    (world.settingDeferred cell.index (.realized value)).holdings = world.holdings ∨
      (world.settingDeferred cell.index (.realized value)).holdings =
        world.holdings.store (.delay cell) value := by
  by_cases there : cell.index < world.deferred.next
  · refine .inr (Holdings.eq_store ?_ fun other kept => ?_)
    · rw [holdings_settingDeferred, if_pos ⟨rfl, there⟩]
      rfl
    · rw [holdings_settingDeferred, if_neg fun both => kept both.1]
  · refine .inl (funext fun holder => ?_)
    rw [holdings_settingDeferred, if_neg fun both => there both.2]

end World

theorem World.initial_knotFree : World.initial.holdings.KnotFree := by
  rintro holder around
  rcases Relation.TransGen.head'_iff.mp around with ⟨inner, shows, _⟩
  cases holder <;> cases Holdings.shows_holder_iff.mp shows

/-! ## Commands -/

/-- No call changes what cells hold. -/
def Machine.KeepsHoldings (machine : Machine) : Prop :=
  ∀ function arguments world outcome after,
    machine.call machine.held function arguments world = some (outcome, after) →
      after.holdings = world.holdings

namespace Atom

/-- The calls of a machine, with no account of what they do. -/
def keepingCalls {admissible : Value → Prop} : Calls admissible :=
  fun _ _ world _ _ after => after.holdings = world.holdings

variable {cell : Cell} {admissible : Value → Prop} {world after : World}
  {deeds : List (Deed admissible)}

theorem recorded_keeping {machine : Machine} (keeps : machine.KeepsHoldings) :
    Recorded machine (keepingCalls : Calls admissible) :=
  fun function arguments world outcome after ran =>
    ⟨[], keeps function arguments world outcome after ran⟩

theorem Validates.keeps {candidate : Value} {outcome : Except Error Unit}
    (validates : Validates cell keepingCalls candidate world deeds outcome after) :
    after.holdings = world.holdings := by
  cases validates with
  | unguarded => rfl
  | guarded _ _ examines =>
      cases examines with
      | intro called => exact called

theorem Notifies.keeps {old new : Value} {watches : List (Value × Value)}
    {outcome : Except Error Unit}
    (notifies : Notifies cell keepingCalls old new watches world deeds outcome after) :
    after.holdings = world.holdings := by
  induction notifies with
  | done => rfl
  | failed called => exact called
  | next called _ induction => exact induction.trans called

theorem WorksOut.keeps {function : Value} {arguments : List Value}
    {outcome : Except Error (Value × Value)}
    (worksOut : WorksOut cell keepingCalls function arguments world deeds outcome after) :
    after.holdings = world.holdings := by
  induction worksOut with
  | failed _ called => exact called
  | rejected _ called rejects => exact rejects.keeps.trans called
  | due _ called accepts => exact accepts.keeps.trans called
  | overtaken _ called accepts _ _ _ induction =>
      exact induction.trans (accepts.keeps.trans called)

/-- The state that is given with an update. The others work it out. -/
def Update.given? : Update → Option Value
  | .reset new | .resetValues new | .compareAndSet _ new => some new
  | .swap .. | .swapValues .. => none

theorem Update.Prepares.keeps {update : Update} {outcome : Except Error (Value × Value)}
    (prepares : update.Prepares cell keepingCalls world deeds outcome after) :
    after.holdings = world.holdings := by
  cases update with
  | swap | swapValues => exact WorksOut.keeps prepares
  | reset | resetValues | compareAndSet =>
      cases prepares with
      | rejected rejects => exact rejects.keeps
      | due accepts => exact accepts.keeps

theorem Update.Prepares.given {update : Update} {old new given : Value}
    (prepares : update.Prepares cell keepingCalls world deeds (.ok (old, new)) after)
    (isGiven : update.given? = some given) : new = given := by
  cases update with
  | swap | swapValues => cases isGiven
  | reset | resetValues | compareAndSet =>
      cases isGiven
      cases prepares
      rfl

/-- An update stores one value in the atom, or nothing anywhere. -/
theorem Recorded.update_stores {machine : Machine} (keeps : machine.KeepsHoldings) {update : Update}
    {outcome : Except Error Answer}
    (ran : (update.perform cell).run machine world = some (outcome, after)) :
    after.holdings = world.holdings ∨
      ∃ value, (∀ given, update.given? = some given → value = given) ∧
        after.holdings = world.holdings.store (.atom cell) value := by
  have recorded : Recorded machine (keepingCalls : Calls fun _ => True) := recorded_keeping keeps
  rcases recorded.fulfilsUpdate ran with ⟨deeds, fulfils⟩
  cases fulfils with
  | refused prepares | declined prepares => exact .inl prepares.keeps
  | @effective _ _ ready _ _ _ _ new atom _ prepares _ there notifies =>
      have modified := (Store.get?_modify ..).symm.trans there
      rw [if_pos rfl] at modified
      rcases Option.map_eq_some_iff.mp modified with ⟨old, here, _⟩
      refine .inr ⟨new, fun given isGiven => prepares.given isGiven, ?_⟩
      calc after.holdings
        _ = (installedIn cell ready new).holdings := notifies.keeps
        _ = ready.holdings.store (.atom cell) new := World.holdings_installedIn here new
        _ = world.holdings.store (.atom cell) new := by rw [prepares.keeps]

end Atom

section

variable {machine : Machine} {world after : World}

/-- A swap stores what the function answers, or nothing if it fails. -/
theorem Volatile.swap_stores (keeps : machine.KeepsHoldings) {cell : Ref .volatile}
    {function : Value} {arguments : List Value} {outcome : Except Error Value}
    (ran : (Volatile.swap cell function arguments).run machine world = some (outcome, after)) :
    after.holdings = world.holdings ∨
      ∃ value, after.holdings = world.holdings.store (.volatile cell) value := by
  rcases Attempt.exists_of_first ran with ⟨old, start, looked, ran⟩
  rcases Run.eq_some_of_found looked with ⟨here, rfl⟩
  rcases Run.exists_of_bind ran with ⟨answer, between, called, ran⟩
  have kept := keeps _ _ _ _ _ called
  cases answer with
  | error error =>
      cases ran
      exact .inl kept
  | ok value =>
      cases ran
      have still : between.holdings (.volatile cell) = some old := by
        rw [kept]
        exact here
      refine .inr ⟨value, ?_⟩
      rw [← kept]
      exact World.holdings_setVolatile still value

/-- A delay comes to hold what its body answers, unless it has been realized or the body fails.
While the body runs the delay shows nothing. -/
theorem force_stores (keeps : machine.KeepsHoldings) {cell : Ref .deferred}
    {outcome : Except Error Value}
    (ran : (force cell pure).run machine world = some (outcome, after)) :
    after.holdings = world.holdings ∨
      ∃ value, after.holdings = world.holdings.store (.delay cell) value := by
  rcases exists_of_force ran with ⟨_, _, _, rfl⟩ | ⟨body, between, pending, called, rfl⟩
  · exact .inl rfl
  rcases Attempt.exists_of_map called with ⟨answer, called, same⟩
  have empty : world.holdings (.delay cell) = none :=
    congrArg (Option.bind · Deferred.shown?) pending
  have kept : between.holdings = world.holdings :=
    (keeps _ _ _ _ _ called).trans (World.holdings_unrealized empty rfl)
  cases outcome with
  | error error =>
      exact .inl ((World.holdings_unrealized (kept ▸ empty) rfl).trans kept)
  | ok value =>
      rw [← kept]
      exact (World.holdings_realized cell value).imp_right fun stored => ⟨value, stored⟩

end

namespace Holding

/-- Whatever else is done. No cell shows anything else by it. -/
structure Elsewhere where
  change : World → World
  keeps : ∀ world, (change world).holdings = world.holdings

inductive Command where
  | newAtom (value : Value)
  | newVolatile (value : Value)
  | newDelay (body : Value)
  | update (cell : Ref .atom) (made : Atom.Update)
  | assign (cell : Ref .volatile) (value : Value)
  | swap (cell : Ref .volatile) (function : Value) (arguments : List Value)
  | force (cell : Ref .deferred)
  | elsewhere (other : Elsewhere)

namespace Command

/-- An error is left aside. -/
def perform : Command → Run Unit
  | newAtom value => do discard <| Atom.create value
  | newVolatile value => do discard <| Volatile.create value
  | newDelay body => do discard <| Value.newDelay body
  | update cell made => do discard <| Run.outcome (made.perform cell)
  | assign cell value => do
      discard <| Run.volatileAt cell
      discard <| Volatile.assign cell value
  | swap cell function arguments => do
      discard <| Run.outcome (Volatile.swap cell function arguments)
  | force cell => do discard <| Run.outcome (LispRuntime.force cell pure)
  | elsewhere other => Run.update other.change

/-- The cell that may come to show something else. -/
def target? (world : World) : Command → Option Holder
  | newAtom _ => some (.atom ⟨world.atoms.next⟩)
  | newVolatile _ => some (.volatile ⟨world.volatiles.next⟩)
  | update cell _ => some (.atom cell)
  | assign cell _ | swap cell .. => some (.volatile cell)
  | force cell => some (.delay cell)
  | newDelay _ | elsewhere _ => none

/-- What is stored, if the command has it. -/
def given? : Command → Option Value
  | newAtom value | newVolatile value | assign _ value => some value
  | update _ made => made.given?
  | newDelay _ | swap .. | force _ | elsewhere _ => none

/-- By the command the cell comes to hold the value. -/
structure Stores (command : Command) (before after : World) (holder : Holder) (value : Value) :
    Prop where
  target : command.target? before = some holder
  given : ∀ given, command.given? = some given → value = given
  stored : after.holdings = before.holdings.store holder value

variable {machine : Machine} {command : Command} {before after : World}

/-- A command stores one value in its cell, or nothing anywhere. -/
theorem stores_of_perform (keeps : machine.KeepsHoldings)
    (ran : command.perform machine before = some ((), after)) :
    after.holdings = before.holdings ∨
      ∃ holder value, command.Stores before after holder value := by
  cases command with
  | newAtom value =>
      cases ran
      exact .inr ⟨_, value, rfl, fun _ given => Option.some.inj given, World.holdings_pushAtom _⟩
  | newVolatile value =>
      cases ran
      exact .inr ⟨_, value, rfl, fun _ given => Option.some.inj given,
        World.holdings_pushVolatile _⟩
  | newDelay body =>
      cases ran
      exact .inl (World.holdings_pushPending body)
  | update cell made =>
      rcases Run.exists_of_discard ran with ⟨outcome, ran⟩
      refine (Atom.Recorded.update_stores keeps ran).imp_right ?_
      rintro ⟨value, given, stored⟩
      exact ⟨_, value, rfl, given, stored⟩
  | assign cell value =>
      rcases Run.exists_of_bind ran with ⟨_, between, looked, ran⟩
      rcases Run.exists_of_discard looked with ⟨old, looked⟩
      rcases Run.eq_some_of_found looked with ⟨here, rfl⟩
      cases ran
      exact .inr ⟨_, value, rfl, fun _ given => Option.some.inj given,
        World.holdings_setVolatile here value⟩
  | swap cell function arguments =>
      rcases Run.exists_of_discard ran with ⟨outcome, ran⟩
      refine (Volatile.swap_stores keeps ran).imp_right ?_
      rintro ⟨value, stored⟩
      exact ⟨_, value, rfl, nofun, stored⟩
  | force cell =>
      rcases Run.exists_of_discard ran with ⟨outcome, ran⟩
      refine (force_stores keeps ran).imp_right ?_
      rintro ⟨value, stored⟩
      exact ⟨_, value, rfl, nofun, stored⟩
  | elsewhere other =>
      cases ran
      exact .inl (other.keeps before)

end Command

/-! ## Runs -/

def performAll (commands : List Command) : Run Unit := commands.forM Command.perform

/-- In a run of the commands there is this world before one of them, or in the end. -/
def PassesThrough (machine : Machine) (start : World) (commands : List Command) (moment : World) :
    Prop :=
  ∃ earlier later, commands = earlier ++ later ∧
    performAll earlier machine start = some ((), moment)

/-- In a run of the commands this one leads from one world to another. -/
def Occurs (machine : Machine) (start : World) (commands : List Command) (command : Command)
    (before after : World) : Prop :=
  ∃ earlier later, commands = earlier ++ command :: later ∧
    performAll earlier machine start = some ((), before) ∧
    command.perform machine before = some ((), after)

/-- Nothing leads to the cell that it is stored in. -/
def IsLoose (machine : Machine) (start : World) (commands : List Command) : Prop :=
  ∀ command before after holder value, Occurs machine start commands command before after →
    command.Stores before after holder value →
    ¬ Holdings.Reaches none before.holdings value holder.value

section

variable {machine : Machine} {start between before after moment : World}
  {commands : List Command} {command other : Command}

theorem Occurs.passesThrough (occurs : Occurs machine start commands command before after) :
    PassesThrough machine start commands before ∧ PassesThrough machine start commands after := by
  rcases occurs with ⟨earlier, later, rfl, reached, ran⟩
  refine ⟨⟨earlier, command :: later, rfl, reached⟩,
    ⟨earlier ++ [command], later, by rw [List.append_assoc]; rfl, ?_⟩⟩
  refine (congrFun (congrFun List.forM_append machine) start).trans ?_
  exact (Run.run_bind reached).trans (Run.run_bind ran)

theorem Occurs.later (ran : command.perform machine start = some ((), between))
    (occurs : Occurs machine between commands other before after) :
    Occurs machine start (command :: commands) other before after := by
  rcases occurs with ⟨earlier, last, rfl, reached, performed⟩
  exact ⟨command :: earlier, last, rfl, (Run.run_bind ran).trans reached, performed⟩

theorem isLoose_cons (loose : ∀ after holder value,
      command.perform machine start = some ((), after) → command.Stores start after holder value →
      ¬ Holdings.Reaches none start.holdings value holder.value)
    (looseBehind : ∀ between, command.perform machine start = some ((), between) →
      IsLoose machine between commands) : IsLoose machine start (command :: commands) := by
  rintro other before after holder value ⟨earlier, later, split, reached, ran⟩ stores
  cases earlier with
  | nil =>
      cases split
      cases reached
      exact loose after holder value ran stores
  | cons first earlier =>
      cases split
      rcases Run.exists_of_bind reached with ⟨_, between, started, reached⟩
      exact looseBehind between started other before after holder value
        ⟨earlier, later, rfl, reached, ran⟩ stores

theorem isLoose_nil : IsLoose machine start [] := by
  rintro _ _ _ _ _ ⟨earlier, later, split, _⟩
  cases earlier <;> cases split

/-- The command stores what it is given, and that does not lead to its cell. -/
theorem isLoose_of_given {holder : Holder} {value : Value}
    (target : command.target? start = some holder) (given : command.given? = some value)
    (loose : ¬ Holdings.Reaches none start.holdings value holder.value)
    (ran : command.perform machine start = some ((), between))
    (looseBehind : IsLoose machine between commands) :
    IsLoose machine start (command :: commands) := by
  refine isLoose_cons (fun after other stored _ stores => ?_) fun reached ranToo => ?_
  · cases target.symm.trans stores.target
    cases stores.given value given
    exact loose
  · cases ran.symm.trans ranToo
    exact looseBehind

/-- A command ties a knot exactly if what it stores leads to its cell. -/
theorem Command.knotFree_iff (keeps : machine.KeepsHoldings) (free : before.holdings.KnotFree)
    (ran : command.perform machine before = some ((), after)) :
    after.holdings.KnotFree ↔ ∀ holder value, command.Stores before after holder value →
      ¬ Holdings.Reaches none before.holdings value holder.value := by
  constructor
  · intro freeToo holder value stores
    exact (Holdings.store_knotFree_iff free).mp (stores.stored ▸ freeToo)
  · intro loose
    rcases command.stores_of_perform keeps ran with kept | ⟨holder, value, stores⟩
    · exact kept ▸ free
    · rw [stores.stored]
      exact (Holdings.store_knotFree_iff free).mpr (loose holder value stores)

/-- In a run that begins without knots none is tied exactly if nothing leads to the cell that it is
stored in. -/
theorem knotFree_iff_isLoose (keeps : machine.KeepsHoldings) (free : start.holdings.KnotFree) :
    (∀ moment, PassesThrough machine start commands moment → moment.holdings.KnotFree) ↔
      IsLoose machine start commands := by
  constructor
  · intro freeAll command before after holder value occurs stores
    rcases occurs.passesThrough with ⟨passes, passesToo⟩
    rcases occurs with ⟨_, _, _, _, ran⟩
    exact (Command.knotFree_iff keeps (freeAll before passes) ran).mp (freeAll after passesToo)
      holder value stores
  · rintro loose moment ⟨earlier, later, rfl, reached⟩
    -- The first command leaves a world without knots, and the others begin in that one.
    induction earlier generalizing start with
    | nil =>
        cases reached
        exact free
    | cons command earlier induction =>
        rcases Run.exists_of_bind reached with ⟨_, between, ran, reached⟩
        have occurs : Occurs machine start (command :: earlier ++ later) command start between :=
          ⟨[], earlier ++ later, rfl, rfl, ran⟩
        have freeNow : between.holdings.KnotFree :=
          (Command.knotFree_iff keeps free ran).mpr fun holder value =>
            loose command start between holder value occurs
        have looseBehind : IsLoose machine between (earlier ++ later) :=
          fun _ _ _ _ _ occurs => loose _ _ _ _ _ (occurs.later ran)
        exact induction freeNow reached looseBehind

end

end Holding

end LispRuntime
