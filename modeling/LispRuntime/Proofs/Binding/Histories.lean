import LispRuntime.Proofs.Binding.Layers

/-! What layers go through while threads take turns. Where a layer has come to stand on
others, it stands on these wherever it is seen, and it keeps what it binds until its own
thread finds it there and assigns it. -/

namespace LispRuntime.Binding.Layers

variable {layers : Layers} {thread user owner : ThreadId} {var : Ref .var} {number : Nat}
  {below stack : List Nat} {command : Command} {cell : BindingCell Value}

/-! ## Stacks after a turn -/

theorem mem_withStack {new : List Nat} (member : stack ∈ (layers.withStack user new).allStacks) :
    stack = new ∨ stack ∈ layers.allStacks := by
  rcases List.mem_append.mp member with onThread | captured
  · rcases List.mem_or_eq_of_mem_set onThread with old | same
    · exact .inr (List.mem_append_left _ old)
    · exact .inl same
  · exact .inr (List.mem_append_right _ captured)

theorem mem_withCapture {new : List Nat} (member : stack ∈ (layers.withCapture new).allStacks) :
    stack = new ∨ stack ∈ layers.allStacks := by
  rw [allStacks, withCapture, ← List.append_assoc] at member
  rcases List.mem_append.mp member with old | same
  · exact .inr old
  · exact .inl (List.mem_singleton.mp same)

theorem mem_withThread (member : stack ∈ layers.withThread.allStacks) :
    stack = [] ∨ stack ∈ layers.allStacks := by
  rw [allStacks, withThread, List.append_assoc] at member
  rcases List.mem_append.mp member with old | other
  · exact .inr (List.mem_append_left _ old)
  · rcases List.mem_cons.mp other with empty | captured
    · exact .inl empty
    · exact .inr (List.mem_append_right _ captured)

/-- Bindings that come as a map are pushed, or nothing happens. -/
theorem pushMap_snd (layers : Layers) (user : ThreadId) (map : Value) :
    (layers.pushMap user map).2 = layers ∨
      ∃ added, (layers.pushMap user map).2 = (layers.push user added).2 := by
  rw [pushMap]
  split
  · exact .inl rfl
  · split
    · exact .inl rfl
    · exact .inr ⟨_, rfl⟩

/-- A stack comes from an earlier one: some of it has been popped, or a new layer pushed. -/
def ComesFrom (layers : Layers) (stack : List Nat) : Prop :=
  ∃ old ∈ layers.allStacks, stack <:+ old ∨ stack = layers.pushed.length :: old

theorem comesFrom_of_mem (member : stack ∈ layers.allStacks) : layers.ComesFrom stack :=
  ⟨stack, member, .inl List.suffix_rfl⟩

theorem comesFrom_of_suffix (present : user < layers.threads.length)
    (suffix : stack <:+ layers.stackOf user) : layers.ComesFrom stack :=
  ⟨_, stackOf_mem present, .inl suffix⟩

theorem comesFrom_push (present : user < layers.threads.length) {added : List (Ref .var × Value)}
    (member : stack ∈ (layers.push user added).2.allStacks) : layers.ComesFrom stack := by
  rw [push] at member
  split at member
  · exact comesFrom_of_mem member
  · rcases mem_withStack member with new | old
    · exact ⟨_, stackOf_mem present, .inr new⟩
    · exact comesFrom_of_mem old

theorem comesFrom_act (present : user < layers.threads.length) {action : Action}
    (member : stack ∈ (layers.act user action).2.allStacks) : layers.ComesFrom stack := by
  cases action with
  | push added => exact comesFrom_push present member
  | pushMap map =>
      rw [act] at member
      rcases layers.pushMap_snd user map with same | ⟨added, same⟩
      · exact comesFrom_of_mem (same ▸ member)
      · exact comesFrom_push present (same ▸ member)
  | pop =>
      rw [act, pop] at member
      split at member
      case h_1 => exact comesFrom_of_mem member
      case h_2 top rest popped =>
        rcases mem_withStack member with new | old
        · apply comesFrom_of_suffix present
          rw [new, popped]
          exact List.suffix_cons top rest
        · exact comesFrom_of_mem old
  | assign var value =>
      rw [act, assign] at member
      split at member
      · exact comesFrom_of_mem member
      · split at member
        · exact comesFrom_of_mem member
        · exact comesFrom_of_mem member
  | capture =>
      rcases mem_withCapture member with new | old
      · exact comesFrom_of_mem (new ▸ stackOf_mem present)
      · exact comesFrom_of_mem old
  | install number =>
      rcases mem_withStack member with new | member
      · cases found : layers.captured[number]? with
        | none =>
            rw [found] at new
            exact comesFrom_of_suffix present (new ▸ List.nil_suffix)
        | some held =>
            rw [found] at new
            exact comesFrom_of_mem
              (List.mem_append_right _ (new ▸ List.mem_of_getElem? found))
      · rcases mem_withCapture member with new | old
        · exact comesFrom_of_mem (new ▸ stackOf_mem present)
        · exact comesFrom_of_mem old
  | fork =>
      rcases mem_withThread member with empty | old
      · exact comesFrom_of_suffix present (empty ▸ List.nil_suffix)
      · exact comesFrom_of_mem old
  | setDynamic | bindRoot | unbindRoot => exact comesFrom_of_mem member

theorem comesFrom_perform (member : stack ∈ (layers.perform command).2.allStacks) :
    layers.ComesFrom stack := by
  rw [perform] at member
  split at member
  case isTrue present => exact comesFrom_act present member
  case isFalse => exact comesFrom_of_mem member

/-! ## Layers after a turn -/

theorem pushed_le_push (layers : Layers) (user : ThreadId) (added : List (Ref .var × Value)) :
    layers.pushed.length ≤ (layers.push user added).2.pushed.length := by
  rw [push]
  split
  · exact Nat.le_refl _
  · simp [withStack, withLayer]

theorem pushed_le_act (layers : Layers) (user : ThreadId) (action : Action) :
    layers.pushed.length ≤ (layers.act user action).2.pushed.length := by
  cases action with
  | push added => exact layers.pushed_le_push user added
  | pushMap map =>
      rw [act]
      rcases layers.pushMap_snd user map with same | ⟨added, same⟩
      · exact Nat.le_of_eq (congrArg (List.length ∘ pushed) same.symm)
      · rw [same]
        exact layers.pushed_le_push user added
  | pop =>
      rw [act, pop]
      split <;> exact Nat.le_refl _
  | assign var value =>
      rw [act, assign]
      split
      · exact Nat.le_refl _
      · split
        · simp [assignIn]
        · exact Nat.le_refl _
  | capture | install | setDynamic | bindRoot | unbindRoot | fork => exact Nat.le_refl _

theorem pushed_le_perform (layers : Layers) (command : Command) :
    layers.pushed.length ≤ (layers.perform command).2.pushed.length := by
  rw [perform]
  split
  · exact layers.pushed_le_act _ _
  · exact Nat.le_refl _

theorem entry_push (old : number < layers.pushed.length) (user : ThreadId)
    (added : List (Ref .var × Value)) (var : Ref .var) :
    (layers.push user added).2.entry number var = layers.entry number var := by
  rw [push]
  split
  · rfl
  · exact (entry_withLayer ..).trans (if_neg (Nat.ne_of_lt old))

/-- What a layer has for a var stays as it is, unless its own thread finds it and assigns it. -/
theorem entry_act (old : number < layers.pushed.length) (user : ThreadId) (action : Action)
    (var : Ref .var) :
    (layers.act user action).2.entry number var = layers.entry number var ∨
      ∃ value, action = .assign var value ∧
        layers.nearestIn (layers.stackOf user) var = some number ∧
        layers.pusher user var = some user ∧
        (layers.act user action).2.entry number var =
          (layers.entry number var).map fun cell => { cell with value := value } := by
  cases action with
  | push added => exact .inl (entry_push old user added var)
  | pushMap map =>
      left
      rw [act]
      rcases layers.pushMap_snd user map with same | ⟨added, same⟩
      · rw [same]
      · rw [same]
        exact entry_push old user added var
  | pop =>
      left
      rw [act, pop]
      split <;> rfl
  | assign assigned value =>
      rw [act, assign]
      split
      case h_1 => exact .inl rfl
      case h_2 place near =>
        split
        case isFalse => exact .inl rfl
        case isTrue own =>
          rw [entry_assignIn]
          by_cases here : number = place ∧ var = assigned
          · rcases here with ⟨rfl, rfl⟩
            exact .inr ⟨value, rfl, near, own, if_pos ⟨rfl, rfl⟩⟩
          · exact .inl (if_neg here)
  | capture | install | setDynamic | bindRoot | unbindRoot | fork => exact .inl rfl

theorem isSome_entry_perform (old : number < layers.pushed.length) (command : Command)
    (var : Ref .var) :
    ((layers.perform command).2.entry number var).isSome =
      (layers.entry number var).isSome := by
  rw [perform]
  split
  case isTrue =>
    rcases entry_act old command.thread command.action var with same | ⟨value, -, -, -, assigned⟩
    · rw [same]
    · rw [assigned, Option.isSome_map]
  case isFalse => rfl

theorem lt_of_entry (found : layers.entry number var = some cell) :
    number < layers.pushed.length := by
  rcases Option.bind_eq_some_iff.mp found with ⟨layer, present, -⟩
  exact (List.getElem?_eq_some_iff.mp present).1

theorem exists_entry_perform (found : layers.entry number var = some cell) (command : Command) :
    ∃ value, (layers.perform command).2.entry number var = some ⟨cell.owner, value⟩ ∧
      (value = cell.value ∨ command = ⟨cell.owner, .assign var value⟩ ∧
        layers.nearestIn (layers.stackOf cell.owner) var = some number) := by
  rcases command with ⟨user, action⟩
  rw [perform]
  split
  case isFalse => exact ⟨cell.value, found, .inl rfl⟩
  case isTrue =>
    rcases entry_act (lt_of_entry found) user action var with
      same | ⟨value, isAssign, near, own, assigned⟩
    · exact ⟨cell.value, same.trans found, .inl rfl⟩
    · rcases pusher_eq_some_iff.mp own with ⟨place, seen, nearAgain, entry, owner⟩
      cases near.symm.trans nearAgain
      cases entry.symm.trans found
      subst owner
      rw [found] at assigned
      exact ⟨value, assigned, .inr ⟨congrArg (Command.mk cell.owner) isAssign, near⟩⟩

/-! ## Many turns -/

/-- Among the commands, a thread finds a var in its own layer of this number and assigns it. -/
def Reassigned (layers : Layers) (number : Nat) (var : Ref .var) (owner : ThreadId)
    (value : Value) (commands : List Command) : Prop :=
  ∃ earlier later, commands = earlier ++ ⟨owner, .assign var value⟩ :: later ∧
    (performAll earlier layers).2.nearestIn ((performAll earlier layers).2.stackOf owner) var =
      some number

/-- The value that a layer has for a var is the old one, or the last one assigned. -/
theorem exists_entry_performAll (found : layers.entry number var = some cell)
    (commands : List Command) :
    ∃ value, (performAll commands layers).2.entry number var = some ⟨cell.owner, value⟩ ∧
      (value = cell.value ∨ layers.Reassigned number var cell.owner value commands) := by
  induction commands generalizing layers cell with
  | nil => exact ⟨cell.value, found, .inl rfl⟩
  | cons command rest induction =>
      rcases exists_entry_perform found command with ⟨between, foundBetween, first⟩
      rcases induction foundBetween with
        ⟨value, foundLast, same | ⟨earlier, later, split, near⟩⟩
      · refine ⟨value, foundLast, ?_⟩
        rcases first with unchanged | ⟨isAssign, near⟩
        · exact .inl (same.trans unchanged)
        · right
          refine ⟨[], rest, ?_, near⟩
          rw [isAssign, same]
          rfl
      · exact ⟨value, foundLast,
          .inr ⟨command :: earlier, later, congrArg (command :: ·) split, near⟩⟩

/-- Layers go on to mention the vars that they mentioned. -/
theorem nearestIn_performAll (old : ∀ number ∈ stack, number < layers.pushed.length)
    (commands : List Command) (var : Ref .var) :
    (performAll commands layers).2.nearestIn stack var = layers.nearestIn stack var := by
  induction commands generalizing layers with
  | nil => rfl
  | cons command rest induction =>
      have still : ∀ number ∈ stack, number < (layers.perform command).2.pushed.length :=
        fun number member => Nat.lt_of_lt_of_le (old number member) (layers.pushed_le_perform _)
      rw [performAll_cons, induction still]
      exact nearestIn_congr fun number member => isSome_entry_perform (old number member) ..

/-- Whoever comes to have the stack that a thread had, finds each var where that thread found
it. Its value is the old one, or one that the thread of the layer has assigned meanwhile. -/
theorem visible_performAll (bounded : layers.Bounded) {commands : List Command}
    (same : (performAll commands layers).2.stackOf user = layers.stackOf thread)
    (var : Ref .var) :
    (layers.visible thread var = none → (performAll commands layers).2.visible user var = none) ∧
    ∀ cell, layers.visible thread var = some cell →
      ∃ value, (performAll commands layers).2.visible user var = some ⟨cell.owner, value⟩ ∧
        (value = cell.value ∨ ∃ number,
          layers.nearestIn (layers.stackOf thread) var = some number ∧
          layers.Reassigned number var cell.owner value commands) := by
  have near : (performAll commands layers).2.nearestIn
      ((performAll commands layers).2.stackOf user) var =
        layers.nearestIn (layers.stackOf thread) var := by
    rw [same]
    exact nearestIn_performAll (fun number member => bounded.lt member) commands var
  rw [visible, visible, near]
  cases found : layers.nearestIn (layers.stackOf thread) var with
  | none =>
      refine ⟨fun _ => rfl, fun cell seen => ?_⟩
      cases seen
  | some number =>
      rcases exists_entry_of_nearestIn found with ⟨-, stored, entry⟩
      refine ⟨fun absent => ?_, fun cell seen => ?_⟩
      · cases entry.symm.trans absent
      · rcases exists_entry_performAll seen commands with ⟨value, seenLast, cause⟩
        exact ⟨value, seenLast, cause.imp_right fun reassigned => ⟨number, rfl, reassigned⟩⟩

/-! ## Turns of others -/

theorem stackOf_push_of_ne (present : user < layers.threads.length)
    (added : List (Ref .var × Value)) {other : ThreadId} (different : other ≠ user) :
    (layers.push user added).2.stackOf other = layers.stackOf other := by
  rw [push]
  split
  · rfl
  · exact (stackOf_withStack (layers.withLayer ⟨user, added⟩) present _ other).trans
      (if_neg different)

theorem stackOf_act_of_ne (present : user < layers.threads.length) (action : Action)
    {other : ThreadId} (different : other ≠ user) :
    (layers.act user action).2.stackOf other = layers.stackOf other := by
  have elsewhere : ∀ (changed : Layers) (stack : List Nat), changed.threads = layers.threads →
      (changed.withStack user stack).stackOf other = layers.stackOf other := by
    intro changed stack same
    rw [stackOf_withStack changed (same ▸ present), if_neg different, stackOf, same, stackOf]
  cases action with
  | push added => exact stackOf_push_of_ne present added different
  | pushMap map =>
      rw [act]
      rcases layers.pushMap_snd user map with same | ⟨added, same⟩
      · rw [same]
      · rw [same]
        exact stackOf_push_of_ne present added different
  | pop =>
      rw [act, pop]
      split
      · rfl
      · exact elsewhere layers _ rfl
  | assign var value =>
      rw [act, assign]
      split
      · rfl
      · split <;> rfl
  | install number => exact elsewhere (layers.withCapture _) _ rfl
  | fork => exact layers.stackOf_withThread other
  | capture | setDynamic | bindRoot | unbindRoot => rfl

theorem stackOf_performAll_of_others {commands : List Command}
    (others : ∀ command ∈ commands, command.thread ≠ thread) :
    (performAll commands layers).2.stackOf thread = layers.stackOf thread := by
  induction commands generalizing layers with
  | nil => rfl
  | cons command rest induction =>
      rcases List.forall_mem_cons.mp others with ⟨other, othersRest⟩
      rw [performAll_cons, induction othersRest, perform]
      split
      case isTrue present => exact stackOf_act_of_ne present _ (Ne.symm other)
      case isFalse => rfl

/-! ## What a layer stands on -/

/-- Wherever the layer is seen, these are the layers below it. -/
def StandsOn (layers : Layers) (number : Nat) (below : List Nat) : Prop :=
  ∀ stack ∈ layers.allStacks, ∀ rest, number :: rest <:+ stack → rest = below

theorem StandsOn.perform (standsOn : layers.StandsOn number below)
    (old : number < layers.pushed.length) (command : Command) :
    (layers.perform command).2.StandsOn number below := by
  intro stack member rest suffix
  rcases comesFrom_perform member with ⟨earlier, inside, popped | pushed⟩
  · exact standsOn earlier inside rest (suffix.trans popped)
  · rw [pushed] at suffix
    rcases List.suffix_cons_iff.mp suffix with new | inEarlier
    · exact absurd (List.cons.inj new).1 (Nat.ne_of_lt old)
    · exact standsOn earlier inside rest inEarlier

theorem StandsOn.performAll (standsOn : layers.StandsOn number below)
    (old : number < layers.pushed.length) (commands : List Command) :
    (performAll commands layers).2.StandsOn number below := by
  induction commands generalizing layers with
  | nil => exact standsOn
  | cons command rest induction =>
      exact induction (standsOn.perform old command)
        (Nat.lt_of_lt_of_le old (layers.pushed_le_perform command))

end LispRuntime.Binding.Layers
