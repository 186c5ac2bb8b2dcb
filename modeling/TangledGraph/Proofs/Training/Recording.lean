import Mathlib.Data.List.Pairwise
import TangledGraph.Proofs.Graph.Outline
import TangledGraph.Training.Trainer

/-!
# Outcomes on record

A reported outcome is written down at its team, in place of an earlier one on the
same task, and its task is named. Outcomes of different teams, or on different tasks,
do not get in each other's way, so the order in which they are reported does not count.
-/
namespace TangledGraph

/-- An outcome of a team on a task. -/
structure Outcome where
  team : TeamId
  task : String
  value : Float

/-- Two outcomes that have different places on record. -/
def Outcome.Apart (a b : Outcome) : Prop := a.team ≠ b.team ∨ a.task ≠ b.task

instance : Std.Symm Outcome.Apart := ⟨fun _ _ => Or.imp Ne.symm Ne.symm⟩

/-- The single outcomes of a report. -/
def Report.entries (report : Report) : List Outcome :=
  report.outcomes.toList.map fun (task, value) => ⟨report.team, task, value⟩

theorem Report.team_of_mem_entries {report : Report} {o : Outcome} (h : o ∈ report.entries) :
    o.team = report.team := by
  obtain ⟨pair, -, rfl⟩ := List.mem_map.1 h
  rfl

/-- Reports of different teams have no two outcomes with one place on record. -/
theorem Report.apart_entries {reports : List Report}
    (apart : reports.Pairwise fun a b => a.team ≠ b.team) :
    (reports.flatMap Report.entries).Pairwise Outcome.Apart := by
  refine List.pairwise_flatMap.2 ⟨fun report _ => ?_, apart.imp fun {a b} other o ho o' ho' => ?_⟩
  · refine List.pairwise_map.2 ((Std.ExtTreeMap.distinct_keys_toList).imp fun {x y} other => ?_)
    exact .inr fun same => other (Std.LawfulEqCmp.compare_eq_iff_eq.2 same)
  · refine .inl ?_
    rwa [team_of_mem_entries ho, team_of_mem_entries ho']

theorem Population.ext_team? {p q : Population} (teams : p.team? = q.team?)
    (learners : p.learners = q.learners) : p = q := by
  have same : p.teams = q.teams := Std.ExtTreeMap.ext_getElem? fun {id} => congrFun teams id
  exact congrArg₂ Population.mk same learners

namespace Trainer

variable {t next : Trainer} {o o' : Outcome}

/-- The outcome on record of a team on a task. -/
def outcome? (t : Trainer) (id : TeamId) (task : String) : Option Float :=
  (t.population.team? id).bind (·.outcome? task)

/-- The team of an outcome has it on record. -/
def recorded (t : Trainer) (o : Outcome) : Trainer :=
  { t with
    population := match t.population.team? o.team with
      | some team => t.population.setTeam o.team
          { team with outcomes := team.outcomes.insert o.task o.value }
      | none => t.population
    tasks := t.tasks.insert o.task }

theorem learners_recorded (t : Trainer) (o : Outcome) :
    (t.recorded o).population.learners = t.population.learners := by
  simp only [recorded]
  split <;> rfl

theorem team?_recorded (t : Trainer) (o : Outcome) (id : TeamId) :
    (t.recorded o).population.team? id = (t.population.team? id).map fun team =>
      if id = o.team then { team with outcomes := team.outcomes.insert o.task o.value }
      else team := by
  simp only [recorded]
  by_cases same : id = o.team
  · subst same
    cases found : t.population.team? o.team <;> simp [found]
  · simp only [if_neg same, Option.map_id']
    split
    · rw [Population.team?_setTeam, if_neg same]
    · rfl

theorem containsTeam_recorded (t : Trainer) (o : Outcome) :
    (t.recorded o).population.containsTeam = t.population.containsTeam := by
  funext id
  rw [Population.containsTeam_eq, Population.containsTeam_eq, team?_recorded, Option.isSome_map]

theorem outcome?_recorded (there : t.population.containsTeam o.team = true) (id : TeamId)
    (task : String) : (t.recorded o).outcome? id task =
      if id = o.team ∧ task = o.task then some o.value else t.outcome? id task := by
  obtain ⟨team, found⟩ := Population.containsTeam_iff.1 there
  rw [outcome?, team?_recorded]
  by_cases same : id = o.team
  · subst same
    simp only [found, Option.map_some, if_true, Option.bind_some, Team.outcome?, true_and, outcome?,
      Std.ExtTreeMap.getElem?_insert, Std.LawfulEqCmp.compare_eq_iff_eq, @eq_comm _ o.task task]
  · simp [same, outcome?]

/-- Only the outcomes of teams that are there can be reported. -/
theorem reportOutcome_eq_ok : t.reportOutcome o.team o.task o.value = .ok next ↔
    t.population.containsTeam o.team = true ∧ next = t.recorded o := by
  rw [Population.containsTeam_eq, reportOutcome, Population.setOutcome, recorded]
  cases t.population.team? o.team with
  | none => simp [bind, Except.bind, throw, throwThe, MonadExceptOf.throw]
  | some team =>
    simp only [bind, Except.bind, pure, Except.pure, Except.ok.injEq, Option.isSome_some, true_and]
    exact eq_comm

/-- The two teams, or the two tasks, do not get in each other's way. -/
theorem recorded_comm (apart : o.Apart o') :
    (t.recorded o).recorded o' = (t.recorded o').recorded o := by
  have population : ((t.recorded o).recorded o').population =
      ((t.recorded o').recorded o).population := by
    refine Population.ext_team? (funext fun id => ?_) (by simp only [learners_recorded])
    simp only [team?_recorded, Option.map_map]
    congr 1
    funext team
    simp only [Function.comp_apply]
    split <;> split
    case isTrue.isTrue same same' =>
      have tasks : o.task ≠ o'.task := apart.resolve_left fun other => other (same'.symm.trans same)
      simp only [Team.mk.injEq, true_and, and_true]
      refine Std.ExtTreeMap.ext_getElem? fun {task} => ?_
      simp only [Std.ExtTreeMap.getElem?_insert, Std.LawfulEqCmp.compare_eq_iff_eq]
      split <;> split <;> simp_all
    all_goals rfl
  have tasks : ((t.recorded o).recorded o').tasks = ((t.recorded o').recorded o).tasks := by
    refine Std.ExtTreeSet.ext_mem fun task => ?_
    simp only [recorded, Std.ExtTreeSet.mem_insert]
    exact or_left_comm
  exact congrArg₂ (fun population tasks => { t with population, tasks }) population tasks

/-- A list of outcomes is on record. -/
def recordedAll (t : Trainer) (os : List Outcome) : Trainer := os.foldl recorded t

theorem containsTeam_recordedAll (t : Trainer) (os : List Outcome) :
    (t.recordedAll os).population.containsTeam = t.population.containsTeam := by
  induction os generalizing t with
  | nil => rfl
  | cons o os ih => exact (ih (t.recorded o)).trans (containsTeam_recorded t o)

/-- Outcomes that have different places on record can be reported in any order. -/
theorem recordedAll_perm {os os' : List Outcome} (apart : os.Pairwise Outcome.Apart)
    (perm : os.Perm os') : t.recordedAll os = t.recordedAll os' := by
  refine perm.foldl_eq' (fun o listed o' listed' t => ?_) t
  by_cases same : o = o'
  · rw [same]
  · exact recorded_comm (apart.forall listed listed' same)

/-- Outcomes are reported one by one. -/
theorem foldlM_reportOutcome {os : List Outcome}
    (there : ∀ o ∈ os, t.population.containsTeam o.team = true) :
    os.foldlM (fun (t : Trainer) o => t.reportOutcome o.team o.task o.value) t =
      .ok (t.recordedAll os) := by
  induction os generalizing t with
  | nil => rfl
  | cons o os ih =>
    have first := reportOutcome_eq_ok.2 ⟨there o List.mem_cons_self, rfl⟩
    rw [List.foldlM_cons, first]
    exact ih fun o' listed => by
      rw [containsTeam_recorded]
      exact there o' (List.mem_cons_of_mem o listed)

theorem reportOutcomes_eq {team : TeamId} (there : t.population.containsTeam team = true)
    (outcomes : List (String × Float)) : reportOutcomes team outcomes t =
      (.ok (), t.recordedAll (outcomes.map fun (task, value) => ⟨team, task, value⟩)) := by
  induction outcomes generalizing t with
  | nil => rfl
  | cons outcome outcomes ih =>
    obtain ⟨task, value⟩ := outcome
    have first := reportOutcome_eq_ok (o := ⟨team, task, value⟩).2 ⟨there, rfl⟩
    simp only [reportOutcomes, first]
    exact ih (by rwa [containsTeam_recorded])

theorem applyReports_eq {reports : List Report}
    (there : ∀ report ∈ reports, t.population.containsTeam report.team = true) :
    applyReports reports t = (.ok (), t.recordedAll (reports.flatMap Report.entries)) := by
  induction reports generalizing t with
  | nil => rfl
  | cons report reports ih =>
    obtain ⟨first, others⟩ := List.forall_mem_cons.1 there
    simp only [applyReports, reportOutcomes_eq first]
    refine (ih fun report' listed => ?_).trans ?_
    · rw [containsTeam_recordedAll]
      exact others report' listed
    · rw [List.flatMap_cons, recordedAll, recordedAll, recordedAll, List.foldl_append]
      rfl

/-- Reports come to the same trainer in any order, and so do their single outcomes. -/
structure Merges (t : Trainer) (reports : List Report) (merged : Trainer) : Prop where
  whole : ∀ order : List Report, order.Perm reports → applyReports order t = (.ok (), merged)
  single : ∀ order : List Outcome, order.Perm (reports.flatMap Report.entries) →
    order.foldlM (fun (t : Trainer) o => t.reportOutcome o.team o.task o.value) t = .ok merged

theorem merges_recordedAll {reports : List Report}
    (there : ∀ report ∈ reports, t.population.containsTeam report.team = true)
    (apart : reports.Pairwise fun a b => a.team ≠ b.team) :
    t.Merges reports (t.recordedAll (reports.flatMap Report.entries)) := by
  have apart' := Report.apart_entries apart
  refine ⟨fun order perm => ?_, fun order perm => ?_⟩
  · rw [applyReports_eq fun report listed => there report (perm.subset listed),
      recordedAll_perm apart' (perm.flatMap_right Report.entries).symm]
  · have present : ∀ o ∈ order, t.population.containsTeam o.team = true := fun o listed => by
      obtain ⟨report, among, entry⟩ := List.mem_flatMap.1 (perm.subset listed)
      rw [Report.team_of_mem_entries entry]
      exact there report among
    rw [foldlM_reportOutcome present, recordedAll_perm apart' perm.symm]

end Trainer

end TangledGraph
