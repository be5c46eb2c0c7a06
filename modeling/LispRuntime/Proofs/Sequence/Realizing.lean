import LispRuntime.Proofs.Sequence.Chart

/-! Seqs of values whose lazy seqs are accounted for. Whatever has been realized before, asking
for a seq comes to an end: with a seq of the charted course, or with its error. -/

namespace LispRuntime

namespace Stage

variable {machine : Machine} {account : Account machine} {α : Type}

/-- The computation ends, at a later stage, with an answer for which the predicate holds. -/
abbrev Ends (before : Stage account) (computation : Run α) (post : α → Stage account → Prop) :
    Prop :=
  Run.Ends Stage.world machine before computation post

/-- Looking at the limit changes nothing. -/
theorem limit_ends (stage : Stage account) :
    stage.Ends Run.limit fun limit after => limit = machine.limit ∧ after = stage :=
  ⟨_, stage, rfl, le_refl _, rfl, rfl⟩

/-- A stage that is reached by realizing something. -/
def realizing (before : Stage account) {world : World}
    (realizes : Realizes account.toLikeness before.chart before.world world) : Stage account :=
  ⟨before.chart, world, account.realizes before.kept realizes⟩

end Stage

/-! ## New values -/

section

variable {machine : Machine} {account : Account machine} {stage : Stage account}

namespace Value

theorem newList_ends (items : List Value) (metadata : Option Value) :
    stage.Ends (newList items metadata) fun value _ =>
      ∃ address, value = list address items metadata :=
  ⟨_, stage.realizing .allocates, rfl, ⟨fun _ _ => id, fun _ _ => .rfl⟩, _, rfl⟩

theorem newVector_ends (items : List Value) (metadata : Option Value) :
    stage.Ends (newVector items metadata) fun value _ =>
      ∃ address, value = vector address items metadata :=
  ⟨_, stage.realizing .allocates, rfl, ⟨fun _ _ => id, fun _ _ => .rfl⟩, _, rfl⟩

theorem listSeq_ends (items : List Value) :
    stage.Ends (listSeq items) fun seq after =>
      SeqOf account.toLikeness after.chart (.of items) seq := by
  unfold listSeq
  cases items with
  | nil => exact Run.Ends.pure ⟨.inl rfl, trivial, .refl _⟩
  | cons first rest =>
      apply (newList_ends (first :: rest) none).weaken
      intro seq after _ isList
      rcases isList with ⟨address, rfl⟩
      exact ⟨.inr rfl, trivial, .refl _⟩

theorem entryVectors_end (entries : List (Value × Value)) :
    stage.Ends (entries.mapM entryVector) fun vectors _ =>
      List.Forall₂ account.Alike vectors
        (entries.map fun entry => .vector 0 [entry.1, entry.2] none) := by
  induction entries generalizing stage with
  | nil => exact Run.Ends.pure .nil
  | cons entry rest induction =>
      rw [List.mapM_cons]
      apply (newVector_ends [entry.1, entry.2] none).bind
      intro vector between _ isVector
      rcases isVector with ⟨address, rfl⟩
      apply induction.bind
      intro vectors after _ alike
      exact Run.Ends.pure (.cons (account.entries ..) alike)

theorem entrySeq_ends (entries : List (Value × Value)) :
    stage.Ends (entrySeq entries) fun seq after =>
      SeqOf account.toLikeness after.chart
        (.of (entries.map fun entry => .vector 0 [entry.1, entry.2] none)) seq := by
  apply (entryVectors_end entries).bind
  intro vectors between _ alike
  apply (listSeq_ends vectors).weaken
  intro seq after _ seqOf
  exact seqOf.of_same (.of alike)

end Value

/-! ## Lazy seqs -/

/-- What asking for a seq comes to. -/
def Account.Shows (account : Account machine) (course : Course) :
    Except Error Value → Stage account → Prop
  | .error error, _ => course 0 = some (.error error)
  | .ok seq, after => SeqOf account.toLikeness after.chart course seq

theorem Account.Shows.of_same {course other : Course} {outcome : Except Error Value}
    (shows : account.Shows course outcome stage)
    (same : account.toLikeness.Same course other) : account.Shows other outcome stage := by
  cases outcome with
  | ok seq => exact SeqOf.of_same shows same
  | error error =>
      have agree := same 0
      rw [show course 0 = some (.error error) from shows] at agree
      cases here : other 0 with
      | none => rw [here] at agree; cases agree
      | some step => rw [here] at agree; cases agree; exact here

namespace Stage

section

variable {before reached : Stage account} {cell : Nat} {mark : Mark} {body : Value}
  (marked : before.chart cell = some mark)
  (pending : before.world.deferred.get? cell = some (.pending body))

/-- While more is realized for it, the lazy seq remains in progress. -/
theorem running_of_started (le : before.realizing (.starts marked pending) ≤ reached) :
    reached.world.deferred.get? cell = some (.running body) :=
  ((le.running cell body).mpr ⟨⟨mark, marked⟩, Store.get?_set_self _ pending⟩).2

theorem free_of_started (free : before.Free (mark.depth + 1)) :
    (before.realizing (.starts marked pending)).Free mark.depth := by
  intro other otherBody otherMark running otherMarked
  by_cases same : other = cell
  · subst same
    cases marked.symm.trans otherMarked
    exact Nat.le_refl _
  · have runs := (Store.get?_set_of_ne _ _ same).symm.trans running
    exact Nat.le_of_succ_le (free other otherBody otherMark runs otherMarked)

/-- When the lazy seq is settled, no more is in progress than was before. -/
theorem le_settled (le : before.realizing (.starts marked pending) ≤ reached) {state : Deferred}
    {realizes : Realizes account.toLikeness reached.chart reached.world
      (reached.world.settingDeferred cell state)}
    (ended : ∀ body, state ≠ .running body) : before ≤ reached.realizing realizes := by
  refine ⟨le.chart, fun other otherBody => ?_⟩
  by_cases same : other = cell
  · subst same
    have settled := Store.get?_set_self state (running_of_started marked pending le)
    constructor
    · intro running
      cases settled.symm.trans running.2
      exact (ended _ rfl).elim
    · intro running
      cases pending.symm.trans running.2
  · have reachedSame := Store.get?_set_of_ne reached.world.deferred state same
    have beforeSame := Store.get?_set_of_ne before.world.deferred (.running body) same
    have running := le.running other otherBody
    constructor
    · intro runs
      have started := running.mp ⟨runs.1, reachedSame.symm.trans runs.2⟩
      exact ⟨started.1, beforeSame.symm.trans started.2⟩
    · intro runs
      have still := running.mpr ⟨runs.1, beforeSame.trans runs.2⟩
      exact ⟨still.1, reachedSame.trans still.2⟩

end

end Stage

/-- A lazy seq shows its course, if what its body answers with shows its own. -/
theorem force_ends {cell : Ref .deferred} {mark : Mark} {complete : Value → Attempt Value}
    (marked : stage.chart cell.index = some mark) (free : stage.Free (mark.depth + 1))
    (completes : ∀ (between : Stage account) (answer : Value),
      answer.ChartedIn between.chart → answer.depthIn between.chart ≤ mark.depth →
      between.Free mark.depth →
      between.Ends (complete answer).run (account.Shows (answer.courseIn between.chart))) :
    stage.Ends (force cell complete).run (account.Shows mark.course) := by
  rcases account.charted stage.kept marked with ⟨state, here, charted⟩
  cases charted with
  | realized seqOf => exact ⟨_, stage, force_run_realized here, le_refl _, seqOf⟩
  | running => exact absurd (free _ _ _ here marked) (Nat.not_succ_le_self _)
  | @pending body =>
      have freeThen := Stage.free_of_started marked here free
      have ends : (stage.realizing (.starts marked here)).Ends
          (do complete (← Attempt.call body [])).run (account.Shows mark.course) := by
        rcases account.answers (stage.realizing (.starts marked here)).kept marked
          (Store.get?_set_self _ here) freeThen with
          ⟨outcome, later, after, called, grows, kept, running, answers⟩
        have called : (stage.realizing (.starts marked here)).Ends (Attempt.call body []).run
            fun outcome after => mark.Answers account.toLikeness after.chart outcome :=
          ⟨outcome, ⟨later, after, kept⟩, called, ⟨grows, running⟩, answers⟩
        apply called.attempt
        · exact fun _ _ _ fails => fails
        · intro answer between le answers
          apply (completes between answer answers.1 answers.2.1 (freeThen.later le)).weaken
          exact fun outcome last _ shows => Account.Shows.of_same shows answers.2.2
      rcases ends with ⟨outcome, reached, ran, le, shows⟩
      have running := Stage.running_of_started marked here le
      have markedThen := le.chart _ _ marked
      cases outcome with
      | error error =>
          exact ⟨_, reached.realizing (.fails markedThen running), force_run_pending here ran,
            Stage.le_settled marked here le (fun _ => nofun), shows⟩
      | ok seq =>
          exact ⟨_, reached.realizing (.succeeds markedThen running shows),
            force_run_pending here ran, Stage.le_settled marked here le (fun _ => nofun), shows⟩

namespace Value

theorem depthIn_lt_limit {value : Value} (charted : value.ChartedIn stage.chart) :
    value.depthIn stage.chart < machine.limit := by
  cases value with
  | lazySeq cell =>
      rcases charted with ⟨mark, marked⟩
      simp only [depthIn, marked]
      exact account.shallow stage.kept marked
  | _ => exact account.starts

theorem seqWithin_ends {fuel : Nat} {value : Value} (charted : value.ChartedIn stage.chart)
    (enough : value.depthIn stage.chart < fuel) (free : stage.Free (value.depthIn stage.chart)) :
    stage.Ends (seqWithin fuel value).run (account.Shows (value.courseIn stage.chart)) := by
  induction fuel generalizing stage value with
  | zero => cases enough
  | succ fuel induction =>
      cases value with
      | nil => exact Run.Ends.pure ⟨.inl rfl, trivial, .refl _⟩
      | list address items metadata =>
          cases items with
          | nil => exact Run.Ends.pure ⟨.inl rfl, trivial, .refl _⟩
          | cons first rest => exact Run.Ends.pure ⟨.inr rfl, trivial, .refl _⟩
      | cons => exact Run.Ends.pure ⟨.inr rfl, charted, .refl _⟩
      | vector | string | hashSet | sortedSet => exact Run.Ends.lift (listSeq_ends _)
      | arrayMap | hashMap | sortedMap => exact Run.Ends.lift (entrySeq_ends _)
      | lazySeq cell =>
          rcases charted with ⟨mark, marked⟩
          simp only [depthIn, courseIn, marked] at enough free ⊢
          apply force_ends marked free
          intro between answer chartedThen depth freeThen
          exact induction chartedThen (Nat.lt_of_le_of_lt depth (Nat.lt_of_succ_lt_succ enough))
            (freeThen.of_le depth)
      | _ => exact Run.Ends.pure rfl

/-- Asking for a seq comes to an end, whatever has been realized. -/
theorem seq_ends {value : Value} (charted : value.ChartedIn stage.chart) (idle : stage.Idle) :
    stage.Ends value.seq.run (account.Shows (value.courseIn stage.chart)) := by
  apply stage.limit_ends.first
  intro limit between _ same
  rcases same with ⟨rfl, rfl⟩
  exact seqWithin_ends charted (depthIn_lt_limit charted) (idle.free _)

end Value

end

end LispRuntime
