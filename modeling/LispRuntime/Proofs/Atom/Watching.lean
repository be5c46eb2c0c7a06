import LispRuntime.Proofs.Atom.Settling
import LispRuntime.Proofs.Collection.Insertion
import LispRuntime.Proofs.Value.Comparison
import LispRuntime.Proofs.Value.Making
import LispRuntime.Proofs.World.InStep

/-! The watches of an atom. They come and go, and an update that takes effect calls those that are
there, in the order of their keys. That is the order that the keys had when the watches were
added. -/

namespace LispRuntime

namespace Atom

inductive Command where
  | request (made : Request fun _ => True)
  | watch (key function : Value)
  | unwatch (key : Value)
  /-- Something is done elsewhere. -/
  | elsewhere (change : World → World)

namespace Command

/-- An error is left aside. -/
def perform (cell : Cell) : Command → Run Unit
  | request made => discard (made.perform cell).run
  | watch key function => addWatch cell key function
  | unwatch key => removeWatch cell key
  | elsewhere change => Run.update change

def keys : Command → List Value
  | watch key _ | unwatch key => [key]
  | request _ | elsewhere _ => []

end Command

def performAll (cell : Cell) : List Command → Run Unit
  | [] => return ()
  | command :: rest => do
      command.perform cell
      performAll cell rest

/-! ## What is left alone -/

def Update.IsAloof (machine : Machine) (cell : Cell) (update : Update) : Prop :=
  ∀ function arguments, update.source = .inl (function, arguments) →
    Atom.IsAloof machine cell function

/-- The functions do nothing to the atom, and nothing is done to it elsewhere, where lazy seqs
and delays that have been realized stay what they are. -/
def Command.IsAloof (machine : Machine) (cell : Cell) : Command → Prop
  | request (.update made) => made.IsAloof machine cell
  | request (.setValidator validator) =>
      ∀ function ∈ validator, Atom.IsAloof machine cell function.val
  | watch _ function => Atom.IsAloof machine cell function
  | unwatch _ => True
  | elsewhere change => ∀ world,
      (change world).atoms.get? cell.index = world.atoms.get? cell.index ∧
        (change world).Recalls world.deferred

/-- Comparing the keys does nothing to the atom. -/
def KeysAloof (machine : Machine) (cell : Cell) (keys : List Value) : Prop :=
  ∀ left ∈ keys, ∀ right ∈ keys, ∀ world order after,
    left.compare right machine world = some (order, after) →
    after.atoms.get? cell.index = world.atoms.get? cell.index

/-- As long as lazy seqs that have been realized stay what they are, the keys compare as these
data do. -/
def KeysCompare (machine : Machine) (cells : Store Deferred) (keys : List Value)
    (datumOf : Value → Datum) : Prop :=
  ∀ left ∈ keys, ∀ right ∈ keys, ∀ world order after, world.Recalls cells →
    left.compare right machine world = some (order, after) →
    order = (datumOf left).compare (datumOf right)

/-- The watch that was added last for each key, unless it has been removed since. -/
def Command.registers (datumOf : Value → Datum) (known : Datum → Option (Value × Value)) :
    Command → Datum → Option (Value × Value)
  | watch key function => Function.update known (datumOf key) (some (key, function))
  | unwatch key => Function.update known (datumOf key) none
  | request _ | elsewhere _ => known

def registered (datumOf : Value → Datum) (commands : List Command) :
    Datum → Option (Value × Value) :=
  commands.foldl (Command.registers datumOf) fun _ => none

/-! ## What has been realized -/

section

variable {machine : Machine} {cell : Cell} {atom changed : AtomCell} {world after : World}

theorem Checked.recalls (keeps : machine.KeepsRealized) {validator : Option Value}
    {candidate : Value} {calls : List Application} {verdict : Except Error Unit}
    (checked : Checked machine validator candidate world calls verdict after) :
    after.Recalls world.deferred := by
  cases checked with
  | unguarded => exact .refl _
  | guarded guard called => exact keeps _ _ _ _ _ called

theorem Offered.recalls (keeps : machine.KeepsRealized)
    {source : (Value × List Value) ⊕ Value} {calls : List Application}
    {outcome : Except Error Value}
    (offered : Offered machine atom source world calls outcome after) :
    after.Recalls world.deferred := by
  cases offered with
  | failed called => exact keeps _ _ _ _ _ called
  | workedOut called checked => exact (keeps _ _ _ _ _ called).trans (checked.recalls keeps)
  | given checked => exact checked.recalls keeps

theorem Told.recalls (keeps : machine.KeepsRealized) {old : Value}
    {watches : List (Value × Value)} {calls : List Application} {outcome : Except Error Unit}
    (tells : Told machine cell old changed watches world calls outcome after) :
    after.Recalls world.deferred := by
  induction tells with
  | done => exact .refl _
  | failed there called => exact keeps _ _ _ _ _ called
  | next there called later induction => exact (keeps _ _ _ _ _ called).trans induction

theorem Settles.recalls (keeps : machine.KeepsRealized) {update : Update}
    {asked told : List Application} {outcome : Except Error Answer}
    (settles : Settles machine cell atom update world asked told outcome changed after) :
    after.Recalls world.deferred := by
  cases settles with
  | refused offered | declined offered => exact offered.recalls keeps
  | effective offered replaces tells =>
      exact (offered.recalls keeps).trans (tells.recalls keeps :)

theorem Examines.called {validator candidate : Value} {deeds : List (Deed fun _ => True)}
    {verdict : Except Error Unit}
    (examines : Examines (callsOf machine) validator candidate world deeds verdict after) :
    ∃ outcome, machine.call machine.held validator [candidate] world = some (outcome, after) := by
  cases examines with
  | intro called => exact ⟨_, called.2⟩

/-- An update does not touch the validator and the watches. -/
theorem Settles.others {update : Update} {asked told : List Application}
    {outcome : Except Error Answer}
    (settles : Settles machine cell atom update world asked told outcome changed after) :
    changed.validator = atom.validator ∧ changed.watches = atom.watches := by
  cases settles <;> exact ⟨rfl, rfl⟩

end

/-! ## The watches that are there -/

/-- What is known of an atom: all that it calls leaves it alone, and its watches are those that
have been registered, in the order of their keys if these compare as some data do. -/
structure Attended (machine : Machine) (cell : Cell) (cells : Store Deferred) (keys : List Value)
    (known : (Value → Datum) → Datum → Option (Value × Value)) (world : World)
    (atom : AtomCell) : Prop where
  here : world.atoms.get? cell.index = some atom
  recalls : world.Recalls cells
  guard : ∀ validator, atom.validator = some validator → Atom.IsAloof machine cell validator
  keyed : ∀ entry ∈ atom.watches, entry.1 ∈ keys
  watches : ∀ entry ∈ atom.watches, Atom.IsAloof machine cell entry.2
  lists : ∀ datumOf, KeysCompare machine cells keys datumOf →
    Table.Lists (fun entry => datumOf entry.1) (known datumOf) atom.watches

namespace Attended

variable {machine : Machine} {cell : Cell} {cells : Store Deferred} {keys : List Value}
  {known : (Value → Datum) → Datum → Option (Value × Value)} {world after : World}
  {atom changed : AtomCell}

/-- The watches stay what they are. -/
theorem moving (attended : Attended machine cell cells keys known world atom)
    (here : after.atoms.get? cell.index = some changed) (onward : after.Recalls world.deferred)
    (guard : ∀ validator, changed.validator = some validator →
      Atom.IsAloof machine cell validator)
    (same : changed.watches = atom.watches) :
    Attended machine cell cells keys known after changed where
  here := here
  recalls := attended.recalls.trans onward
  guard := guard
  keyed := same ▸ attended.keyed
  watches := same ▸ attended.watches
  lists := same ▸ attended.lists

/-! ### Requests -/

theorem updating (keeps : machine.KeepsRealized)
    (attended : Attended machine cell cells keys known world atom) {update : Update}
    (aloof : update.IsAloof machine cell) {outcome : Except Error Answer}
    (ran : (update.perform cell).run machine world = some (outcome, after)) :
    ∃ asked told changed,
      Settles machine cell atom update world asked told outcome changed after ∧
      Attended machine cell cells keys known after changed := by
  rcases settles_of_run aloof attended.guard attended.watches attended.here ran with
    ⟨asked, told, changed, settles, there⟩
  rcases settles.others with ⟨sameGuard, sameWatches⟩
  exact ⟨asked, told, changed, settles,
    attended.moving there (settles.recalls keeps) (sameGuard ▸ attended.guard) sameWatches⟩

theorem calling (keeps : machine.KeepsRealized)
    (attended : Attended machine cell cells keys known world atom) {function : Value}
    (aloof : Atom.IsAloof machine cell function) {arguments : List Value}
    {outcome : Except Error Value}
    (called : machine.call machine.held function arguments world = some (outcome, after)) :
    Attended machine cell cells keys known after atom :=
  attended.moving ((aloof _ _ _ _ called).trans attended.here) (keeps _ _ _ _ _ called)
    attended.guard rfl

theorem guarding (attended : Attended machine cell cells keys known world atom)
    {validator : Option Value}
    (aloof : ∀ function ∈ validator, Atom.IsAloof machine cell function) :
    Attended machine cell cells keys known (guardedIn cell world validator)
      { atom with validator := validator } :=
  attended.moving (Store.get?_modify_self attended.here _) (.refl _) aloof rfl

theorem requesting (keeps : machine.KeepsRealized)
    (attended : Attended machine cell cells keys known world atom)
    {made : Request fun _ => True} (aloof : (Command.request made).IsAloof machine cell)
    {outcome : Except Error Answer}
    (ran : (made.perform cell).run machine world = some (outcome, after)) :
    ∃ changed, Attended machine cell cells keys known after changed := by
  cases made with
  | update update =>
      rcases attended.updating keeps aloof ran with ⟨-, -, changed, -, still⟩
      exact ⟨changed, still⟩
  | setValidator validator =>
      rcases (recorded_callsOf machine).fulfils ran with ⟨deeds, fulfils⟩
      cases fulfils with
      | cleared => exact ⟨_, attended.guarding nofun⟩
      | disqualified _ examines =>
          rcases examines.called with ⟨_, called⟩
          exact ⟨atom, attended.calling keeps (aloof _ rfl) called⟩
      | guarded _ examines =>
          rcases examines.called with ⟨_, called⟩
          refine ⟨_, (attended.calling keeps (aloof _ rfl) called).guarding ?_⟩
          rintro _ ⟨⟩
          exact aloof _ rfl

/-! ### Watches -/

theorem comparing (keeps : machine.KeepsRealized) (compares : KeysAloof machine cell keys)
    {left right : Value} (leftKey : left ∈ keys) (rightKey : right ∈ keys) :
    ∀ world order after, world.atoms.get? cell.index = some atom ∧ world.Recalls cells →
      left.compare right machine world = some (order, after) →
      (after.atoms.get? cell.index = some atom ∧ after.Recalls cells) ∧
        ∀ datumOf, KeysCompare machine cells keys datumOf →
          order = (datumOf left).compare (datumOf right) := by
  rintro world order after ⟨here, recalls⟩ compared
  refine ⟨⟨?_, ?_⟩, ?_⟩
  · exact (compares _ leftKey _ rightKey _ _ _ compared).trans here
  · exact recalls.trans ((Made.compare left right).recalls keeps compared)
  · intro datumOf keysCompare
    exact keysCompare _ leftKey _ rightKey _ _ _ recalls compared

theorem exists_of_rewatch {compute : List (Value × Value) → Run (List (Value × Value))}
    (here : world.atoms.get? cell.index = some atom)
    (ran : (do
      let watches ← compute (← Run.atomAt cell).watches
      change cell fun atom => { atom with watches := watches }) machine world =
        some ((), after)) :
    ∃ watches between, compute atom.watches machine world = some (watches, between) ∧
      after = { between with
        atoms := between.atoms.modify cell.index fun atom =>
          { atom with watches := watches } } := by
  rcases Run.exists_of_bind ran with ⟨found, reached, looked, ran⟩
  rcases atomAt_run looked with ⟨rfl, there, _⟩
  cases here.symm.trans there
  rcases Run.exists_of_bind ran with ⟨watches, between, computed, ran⟩
  cases ran
  exact ⟨watches, between, computed, rfl⟩

theorem watching (keeps : machine.KeepsRealized) (compares : KeysAloof machine cell keys)
    (attended : Attended machine cell cells keys known world atom) {key function : Value}
    (aKey : key ∈ keys) (aloof : Atom.IsAloof machine cell function)
    (ran : addWatch cell key function machine world = some ((), after)) :
    ∃ changed, Attended machine cell cells keys
      (fun datumOf => (Command.watch key function).registers datumOf (known datumOf))
      after changed := by
  rcases exists_of_rewatch attended.here ran with ⟨watches, between, inserted, rfl⟩
  rcases SortedTable.inserted_of_run
    (fun entry member => comparing keeps compares (attended.keyed entry member) aKey)
    ⟨attended.here, attended.recalls⟩ inserted with ⟨⟨here, recalls⟩, inserted⟩
  refine ⟨{ atom with watches := watches }, Store.get?_modify_self here _, recalls,
    attended.guard, ?_, ?_, ?_⟩
  · intro entry member
    rcases inserted.mem entry member with rfl | member
    · exact aKey
    · exact attended.keyed entry member
  · intro entry member
    rcases inserted.mem entry member with rfl | member
    · exact aloof
    · exact attended.watches entry member
  · intro datumOf keysCompare
    have lists := (attended.lists datumOf keysCompare).put (key, function)
    rwa [← inserted.eq_putInOrder fun _ _ _ decided => decided datumOf keysCompare] at lists

theorem unwatching (keeps : machine.KeepsRealized) (compares : KeysAloof machine cell keys)
    (attended : Attended machine cell cells keys known world atom) {key : Value}
    (aKey : key ∈ keys) (ran : removeWatch cell key machine world = some ((), after)) :
    ∃ changed, Attended machine cell cells keys
      (fun datumOf => (Command.unwatch key).registers datumOf (known datumOf)) after changed := by
  rcases exists_of_rewatch attended.here ran with ⟨watches, between, erased, rfl⟩
  rcases SortedTable.erased_of_run
    (fun entry member => comparing keeps compares (attended.keyed entry member) aKey)
    ⟨attended.here, attended.recalls⟩ erased with ⟨⟨here, recalls⟩, erased⟩
  refine ⟨{ atom with watches := watches }, Store.get?_modify_self here _, recalls,
    attended.guard, fun entry member => attended.keyed entry (erased.mem entry member),
    fun entry member => attended.watches entry (erased.mem entry member), ?_⟩
  intro datumOf keysCompare
  have lists := attended.lists datumOf keysCompare
  have dropped := lists.drop (datumOf key)
  rwa [← erased.eq_drop (fun _ _ _ decided => decided datumOf keysCompare) lists.sorted]
    at dropped

/-! ### Whole runs -/

theorem performing (keeps : machine.KeepsRealized) (compares : KeysAloof machine cell keys)
    (attended : Attended machine cell cells keys known world atom) {command : Command}
    (among : ∀ key ∈ command.keys, key ∈ keys) (aloof : command.IsAloof machine cell)
    (ran : command.perform cell machine world = some ((), after)) :
    ∃ changed, Attended machine cell cells keys
      (fun datumOf => command.registers datumOf (known datumOf)) after changed := by
  cases command with
  | request made =>
      have performed := Run.run_discard (made.perform cell).run machine world
      rcases Option.map_eq_some_iff.mp (performed.symm.trans ran) with ⟨⟨outcome, _⟩, answered, ⟨⟩⟩
      exact attended.requesting keeps aloof answered
  | watch key function =>
      exact attended.watching keeps compares (among key (List.mem_singleton_self key)) aloof ran
  | unwatch key =>
      exact attended.unwatching keeps compares (among key (List.mem_singleton_self key)) ran
  | elsewhere change =>
      cases ran
      rcases aloof world with ⟨same, onward⟩
      exact ⟨atom, attended.moving (same.trans attended.here) onward attended.guard rfl⟩

theorem performingAll (keeps : machine.KeepsRealized) (compares : KeysAloof machine cell keys)
    (attended : Attended machine cell cells keys known world atom) {commands : List Command}
    (among : ∀ command ∈ commands, ∀ key ∈ command.keys, key ∈ keys)
    (aloof : ∀ command ∈ commands, command.IsAloof machine cell)
    (ran : performAll cell commands machine world = some ((), after)) :
    ∃ changed, Attended machine cell cells keys
      (fun datumOf => commands.foldl (Command.registers datumOf) (known datumOf)) after
      changed := by
  induction commands generalizing known world atom with
  | nil =>
      cases ran
      exact ⟨atom, attended⟩
  | cons command rest induction =>
      rcases Run.exists_of_bind ran with ⟨_, between, performed, ran⟩
      rcases attended.performing keeps compares (among command (List.mem_cons_self ..))
        (aloof command (List.mem_cons_self ..)) performed with ⟨changed, later⟩
      exact induction later (fun other member => among other (List.mem_cons_of_mem _ member))
        (fun other member => aloof other (List.mem_cons_of_mem _ member)) ran

end Attended

/-! ## Keys without elements -/

end Atom

namespace Value

/-- The datum of a value without elements. -/
def leafDatum (value : Value) : Datum := .leaf (value.leaf?.getD .nil)

theorem eq_of_compare_leaves {machine : Machine} {left right : Value} {world after : World}
    {order : Ordering} (leftIsLeaf : left.leaf?.isSome) (rightIsLeaf : right.leaf?.isSome)
    (ran : left.compare right machine world = some (order, after)) :
    order = left.leafDatum.compare right.leafDatum ∧ after = world := by
  rcases Option.isSome_iff_exists.mp leftIsLeaf with ⟨leftLeaf, leftKnown⟩
  rcases Option.isSome_iff_exists.mp rightIsLeaf with ⟨rightLeaf, rightKnown⟩
  rcases Run.exists_of_bind ran with ⟨fuel, between, limit, ran⟩
  cases limit
  generalize machine.limit = fuel at ran
  cases fuel with
  | zero => cases ran
  | succ fuel =>
      rw [compareWithin_leaf leftKnown rightKnown] at ran
      cases ran
      rw [leafDatum, leafDatum, leftKnown, rightKnown]
      exact ⟨rfl, rfl⟩

end Value

namespace Atom

theorem keysAloof_of_leaves {machine : Machine} {cell : Cell} {keys : List Value}
    (leaves : ∀ key ∈ keys, key.leaf?.isSome) : KeysAloof machine cell keys := by
  intro left leftKey right rightKey world order after compared
  rw [(Value.eq_of_compare_leaves (leaves _ leftKey) (leaves _ rightKey) compared).2]

/-- Keys like keywords and numbers compare in the same way all the time. -/
theorem keysCompare_of_leaves {machine : Machine} {cells : Store Deferred} {keys : List Value}
    (leaves : ∀ key ∈ keys, key.leaf?.isSome) :
    KeysCompare machine cells keys Value.leafDatum :=
  fun _ leftKey _ rightKey _ _ _ _ compared =>
    (Value.eq_of_compare_leaves (leaves _ leftKey) (leaves _ rightKey) compared).1

/-! ## Every update -/

/-- An update calls these functions of its own and of the atom, if it gets so far. -/
def Update.Calls (update : Update) (atom : AtomCell) (function : Value) : Prop :=
  (∃ arguments, update.source = .inl (function, arguments)) ∨ atom.validator = some function ∨
    ∃ key, (key, function) ∈ atom.watches

def ripening : Machine where
  call _ function _ world :=
    match function, (world.atoms.get? 1).map AtomCell.value with
    | .nil, some .nil => some (.error .invalidReferenceState, world)
    | .nil, _ => some (.ok (.list 1 [.integer 9] none), world)
    | other, _ => some (.ok other, world)
  held := []
  limit := 4

theorem ripening_call {held : List Operand} {function : Value} {arguments : List Value}
    {world after : World} {outcome : Except Error Value}
    (called : ripening.call held function arguments world = some (outcome, after)) :
    after = world := by
  unfold ripening at called
  dsimp only at called
  split at called <;> cases called <;> rfl

theorem ripening_keepsRealized : ripening.KeepsRealized := by
  intro function arguments world outcome after called
  rw [ripening_call called]
  exact .refl _

theorem ripening_isAloof (cell : Cell) (function : Value) :
    Atom.IsAloof ripening cell function := by
  intro arguments world outcome after called
  rw [ripening_call called]

/-- Two atoms, of which the first one has watches, and a lazy seq with a body. -/
def unripe (watches : List (Value × Value)) : World :=
  { World.initial with
    deferred := Store.empty.push (.pending .nil)
    atoms := (Store.empty.push ⟨.nil, 0, none, watches⟩).push ⟨.nil, 0, none, []⟩ }

def ripen (world : World) : World :=
  { world with atoms := world.atoms.set 1 ⟨.boolean true, 0, none, []⟩ }

theorem ripen_leaves (world : World) :
    (ripen world).atoms.get? 0 = world.atoms.get? 0 ∧ (ripen world).Recalls world.deferred :=
  ⟨Store.get?_set_of_ne _ _ Nat.zero_ne_one, .refl world⟩

end Atom

end LispRuntime
