import TangledGraph.Proofs.Training.Intake
import TangledGraph.Proofs.Training.Rollover

/-!
# Outcomes and the names of their tasks

What is reported is named, and names are forgotten only at the end of a generation, when
the outcomes on tasks that are not retained are dropped as well. So each outcome that is
on record is on a task that is named or retained.
-/
namespace TangledGraph

variable {p : Population}

namespace Trainer

variable {s : Settings} {t next : Trainer}

/-- What happens to a trainer: its calls, and between them what agents do to what they
share. Calls may end in errors. -/
inductive Event (t : Trainer) : Trainer → Prop
  /-- Any words may come next. -/
  | redraw (stream : Stream) : Event t { t with stream }
  /-- Agents may write the memory and name tasks at any time. They leave the memory its
  shape, and take no name back. -/
  | share (c : Commons) (kept : c.memory.map Memory.shape = t.memory.map Memory.shape)
      (named : ∀ name ∈ t.tasks, name ∈ c.tasks) : Event t (t.withCommons c)
  | report {next : Trainer} (team : TeamId) (task : String) (value : Float)
      (run : t.reportOutcome team task value = .ok next) : Event t next
  | apply (reports : List Report) : Event t (applyReports reports t).2
  | evaluate {next : Trainer} (query : AgentQuery) (environment : Environment)
      {result : Except Error Nat}
      (run : t.evaluate query environment = .ok (result, next)) : Event t next
  | evolve {next : Trainer} (tasks : List String) (mode : Scoring.Mode)
      {result : Except Error Summary} (run : t.evolve tasks mode = .ok (result, next)) :
      Event t next
  /-- The trainer is taken up again from what is stored of it. -/
  | load {next : Trainer} (entropy : Stream)
      (run : Trainer.load t.saved entropy = .ok (.ok next)) : Event t next

/-- Whatever an agent has done before, it may go on to interact. -/
theorem Event.interact {agent agent' : Agent} {c : Commons} {ended : Except Error Unit}
    (interaction : Interaction)
    (run : interaction.run t.population agent t.commons = .ok (ended, agent', c)) :
    t.Event (t.withCommons c) :=
  .share c (Interaction.run_memory run) (Interaction.run_tasks run)

theorem Event.call (event : t.Event next) : t.Call next := by
  cases event with
  | redraw stream => exact .redraw stream
  | share c kept named => exact .share c kept
  | report team task value run => exact .report team task value run
  | apply reports => exact .apply reports
  | evaluate query environment run => exact .evaluate query environment run
  | evolve tasks mode run => exact .evolve tasks mode run
  | load entropy run => exact .load entropy run

/-- The trainers that come of settings by any number of events. -/
def History (s : Settings) (t : Trainer) : Prop :=
  ∃ first stream, start s stream = .ok (.ok first) ∧ Relation.ReflTransGen Event first t

theorem History.lineage (history : History s t) : Lineage s t := by
  obtain ⟨first, stream, run, events⟩ := history
  exact ⟨first, stream, run, Relation.ReflTransGen.mono (fun _ _ => Event.call) _ _ events⟩

theorem History.start {stream : Stream} (run : Trainer.start s stream = .ok (.ok t)) :
    History s t := ⟨t, stream, run, .refl⟩

theorem History.event (history : History s t) (event : t.Event next) : History s next := by
  obtain ⟨first, stream, run, events⟩ := history
  exact ⟨first, stream, run, events.tail event⟩

/-- What a start brings about and every event keeps holds of a whole history. -/
theorem History.induction {I : Trainer → Prop} (history : History s t)
    (start : ∀ {stream t}, Trainer.start s stream = .ok (.ok t) → I t)
    (keep : ∀ {t next}, History s t → I t → t.Event next → I next) : I t := by
  obtain ⟨first, stream, run, events⟩ := history
  induction events with
  | refl => exact start run
  | tail events event ih => exact keep ⟨first, stream, run, events⟩ ih event

/-- Each outcome on record is on a task that is named or retained. -/
def Documented (t : Trainer) : Prop :=
  ∀ id task x, t.outcome? id task = some x →
    task ∈ t.tasks ∨ task ∈ t.settings.trainer.retainedTasks

theorem outcome?_eq_some {id : TeamId} {task : String} {x : Float} :
    t.outcome? id task = some x ↔
      ∃ team, t.population.team? id = some team ∧ team.outcomes[task]? = some x :=
  Option.bind_eq_some_iff

theorem Documented.recorded (documented : t.Documented) (o : Outcome) :
    (t.recorded o).Documented := by
  intro id task x found
  rw [outcome?_eq_some, team?_recorded] at found
  obtain ⟨_, mapped, outcome⟩ := found
  obtain ⟨team, known, rfl⟩ := Option.map_eq_some_iff.1 mapped
  have before (outcome : team.outcomes[task]? = some x) :
      task ∈ (t.recorded o).tasks ∨ task ∈ t.settings.trainer.retainedTasks :=
    (documented id task x (outcome?_eq_some.2 ⟨team, known, outcome⟩)).imp_left fun named =>
      Std.ExtTreeSet.mem_insert.2 (.inr named)
  split at outcome
  case isFalse => exact before outcome
  case isTrue =>
    rw [Std.ExtTreeMap.getElem?_insert] at outcome
    split at outcome
    case isFalse => exact before outcome
    case isTrue same => exact .inl (Std.ExtTreeSet.mem_insert.2 (.inl same))

theorem Documented.recordedAll (documented : t.Documented) (os : List Outcome) :
    (t.recordedAll os).Documented := by
  induction os generalizing t with
  | nil => exact documented
  | cons o os ih => exact ih (documented.recorded o)

/-- However far reports are taken in, their outcomes are recorded. -/
theorem Documented.applyReports (documented : t.Documented) (reports : List Report) :
    (applyReports reports t).2.Documented := by
  obtain ⟨-, run⟩ | ⟨taken, refused, rest, -, -, -, -, run⟩ := applyReports_cases reports t
  all_goals
    rw [run]
    exact documented.recordedAll _

theorem Documented.withCommons (documented : t.Documented) {c : Commons}
    (named : ∀ name ∈ t.tasks, name ∈ c.tasks) : (t.withCommons c).Documented :=
  fun id task x found => (documented id task x found).imp_left (named task)

theorem Documented.evaluate (documented : t.Documented) {query : AgentQuery}
    {environment : Environment} {result : Except Error Nat}
    (run : t.evaluate query environment = .ok (result, next)) : next.Documented := by
  obtain ⟨evaluated, c, evaluation, ended⟩ := evaluate_parts run
  have shared := documented.withCommons (evaluateAll_tasks evaluation)
  obtain ⟨e, -, -, rfl⟩ | ⟨reports, ended, -, applied, -⟩ := ended
  · exact shared
  · have taken := shared.applyReports reports
    rwa [applied] at taken

/-- The outcomes that a generation leaves are those on retained tasks. -/
theorem RollsOver.documented {fitness : List Float} (rolls : t.RollsOver next fitness)
    (settings : next.settings = t.settings) : next.Documented := by
  intro id task x found
  obtain ⟨team, known, outcome⟩ := outcome?_eq_some.1 found
  have after := Population.containsTeam_of_team? known
  by_cases before : t.population.containsTeam id = true
  · rw [rolls.outcomes id before after] at found
    split at found
    case isTrue retained => exact .inr (settings ▸ retained)
    case isFalse => cases found
  · rw [(rolls.new id (by simpa using before) team known).1] at outcome
    cases outcome

theorem Documented.resumed (documented : t.Documented) (entropy : Stream) :
    (t.resumed entropy).Documented := by
  intro id task x found
  refine documented id task x ?_
  obtain ⟨_, restored, outcome⟩ := outcome?_eq_some.1 found
  rw [Trainer.resumed, Population.team?_stored] at restored
  obtain ⟨team, known, rfl⟩ := Option.map_eq_some_iff.1 restored
  exact outcome?_eq_some.2 ⟨team, known, outcome⟩

theorem start_documented {stream : Stream} (run : start s stream = .ok (.ok t)) :
    t.Documented := by
  obtain ⟨-, stock, rest, made, rfl⟩ := start_eq_ok run
  have admits := initialTeams_admits s.trainer.teamPopSize Stock.sound_empty.below
    (.refl 0 _) _ _ _ made
  intro id task x found
  obtain ⟨team, known, outcome⟩ := outcome?_eq_some.1 found
  have merits : stock.population.merits? id = some team.merits := congrArg (Option.map _) known
  have none : team.outcomes = ∅ := congrArg Merits.outcomes (admits.since id _ rfl merits)
  rw [none] at outcome
  cases outcome

/-- Outcomes come on record with the names of their tasks, and go with them. -/
theorem History.documented (history : History s t) : t.Documented := by
  refine history.induction start_documented fun {t next} before documented event => ?_
  have lineage := before.lineage
  have sound := lineage.sound
  cases event with
  | redraw stream => exact documented
  | share c kept named => exact documented.withCommons named
  | report team task value run =>
    obtain ⟨-, rfl⟩ := (reportOutcome_eq_ok (o := ⟨team, task, value⟩)).1 run
    exact documented.recorded _
  | apply reports => exact documented.applyReports reports
  | evaluate query environment run => exact documented.evaluate run
  | evolve tasks mode run =>
    have settings := (lineage.call (.evolve tasks mode run)).sound.settings
    obtain ⟨-, rfl⟩ | ⟨⟨summary, rfl⟩, -⟩ := evolve_eq_ok sound run
    · exact documented
    · obtain ⟨epoch⟩ := evolve_epoch run
      exact (epoch.rollsOver sound).documented (settings.trans sound.settings.symm)
  | load entropy run =>
    obtain ⟨-, rfl⟩ := (sound.load_saved lineage.valid entropy).1 run
    exact documented.resumed entropy

/-- A generation attaches each score to the root whose row it is of, and drops each
outcome that is not retained; and so no outcome is ever on record on a task that is neither
named nor retained. -/
theorem Lineage.rolls_over (lineage : Lineage s t) :
    (∀ tasks mode summary next, t.evolve tasks mode = .ok (.ok summary, next) →
      ∃ outcomes fitness rest, t.outcomeMatrix tasks = .ok outcomes ∧
        t.Records (t.effectiveTasks tasks) outcomes ∧
        (Scoring.score mode outcomes).run t.stream = .ok (fitness, rest) ∧
        fitness.length = t.roots.length ∧ t.RollsOver next fitness) ∧
    (History s t → t.Documented) := by
  refine ⟨fun tasks mode summary next run => ?_, History.documented⟩
  obtain ⟨epoch⟩ := evolve_epoch run
  exact ⟨epoch.outcomes, epoch.fitness, epoch.middle, epoch.outcomes_eq,
    records_of_outcomeMatrix epoch.outcomes_eq, epoch.fitness_eq, epoch.length_fitness,
    epoch.rollsOver lineage.sound⟩

/-- The second of two teams has a score and no outcome after the generation. An agent is
rewarded then, and the task of the reward is named. -/
theorem rolls_over_in_shortRun : ∃ t summary next fitness later, History small t ∧
    t.evolve ["task"] .single = .ok (.ok summary, next) ∧ t.RollsOver next fitness ∧
    (∃ x, fitness[1]? = some x ∧ next.fitness? ⟨1⟩ = some x) ∧
    next.outcome? ⟨1⟩ "task" = none ∧ History small later ∧ "task" ∈ later.tasks ∧
    later.Documented := by
  obtain ⟨t₀, t₁, t₂, stream, summary, next, start, first, second, evolution, before, after⟩ :=
    shortRun_calls
  have reported := ((History.start start).event (.report _ _ _ first)).event (.report _ _ _ second)
  have history := reported.event (.redraw stream)
  have ended := history.event (.evolve _ _ evolution)
  have sound := ended.lineage.sound
  obtain ⟨outcomes, fitness, rest, -, -, -, -, rolls⟩ :=
    (history.lineage.rolls_over).1 _ _ _ _ evolution
  have stays : next.population.containsTeam ⟨1⟩ = true :=
    (sound.unreferred (by simp [after])).1
  have there : t₂.population.containsTeam ⟨1⟩ = true :=
    (reported.lineage.sound.unreferred (by simp [before])).1
  have settings : t₂.settings = small := reported.lineage.sound.settings
  let reward : Interaction := .reward "task" 3.0 (.finish (.ok ()))
  have run : reward.run next.population (next.agentOf ⟨1⟩) next.commons =
      .ok (.ok (), ((next.agentOf ⟨1⟩).reward "task" 3.0 next.commons)) := rfl
  have later := ended.event (.interact reward run)
  refine ⟨_, summary, next, fitness, _, history, evolution, rolls, ?_, ?_, later, ?_,
    later.lineage.rolls_over.2 later⟩
  · exact rolls.scored (i := 1) (by simp [before]) stays
  · rw [rolls.outcomes ⟨1⟩ there stays, if_neg]
    simp [settings, small]
  · exact Std.ExtTreeSet.mem_insert_self

end Trainer

end TangledGraph
