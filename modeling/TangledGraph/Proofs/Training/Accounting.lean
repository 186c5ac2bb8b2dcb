import TangledGraph.Proofs.Training.Culling
import TangledGraph.Proofs.Training.Descent
import TangledGraph.Proofs.Training.Elitism

/-!
# The accounts of a generation

A generation loses learners in two ways and makes them in one: they go with the roots
that are deleted, or because they are on no team in the end, and varied copies take new
identities. No learner is counted twice, even if it is made and pruned in the same
generation. So the summary of a generation agrees with the population and the counters
before and after it.
-/
namespace TangledGraph

open Draw

namespace Brood

variable {s : Settings} {generation : Nat} {breeders : Breeders}

/-- A child and the learners that were made for it are all that is new. -/
theorem birth_adds (parent : TeamId) (stock : Stock) :
    Yields (birth s generation breeders parent stock) (Stock.Adds stock) :=
  (birth_grows parent stock).mono fun _ path =>
    (Stock.Adds.of_found stock generation).trans (.of_path path)

theorem fill_adds (stock : Stock) :
    Yields (fill s generation breeders stock) fun brood => Stock.Adds stock brood.stock :=
  fill_keeps (I := Stock.Adds stock)
    (fun now parent before => (birth_adds parent now).mono fun _ => before.trans) (.refl stock)

end Brood

namespace Trainer

variable {s : Settings} {t next : Trainer} {tasks : List String} {mode : Scoring.Mode}
variable {summary : Summary}

section Epoch

variable (epoch : t.Epoch tasks mode summary next)
include epoch

/-- There is a score for each root. -/
theorem Epoch.length_fitness : epoch.fitness.length = t.roots.length :=
  (Scoring.score_yields mode epoch.outcomes _ _ _ epoch.fitness_eq).trans
    (records_of_outcomeMatrix epoch.outcomes_eq).rows

theorem Epoch.counters_eq : next.counters = epoch.brood.stock.counters :=
  congrArg Trainer.counters epoch.next_eq

/-- The end of a generation takes away the learners that are on no team, and no team. -/
theorem Epoch.census (exact : epoch.brood.stock.population.outline.Exact) :
    next.population.teamCount = epoch.brood.stock.population.teamCount ∧
      epoch.brood.stock.population.learnerCount =
        next.population.learnerCount + epoch.orphans.length := by
  obtain ⟨teams, learners⟩ := Population.pruneOrphans_census exact epoch.pruned_eq
  have kept := Population.teamCount_congr (congrArg Outline.teams
    (epoch.pruned.outline_retainOutcomes t.settings.trainer.retainedTasks))
  have same : next.population.learnerCount = epoch.pruned.learnerCount :=
    congrArg (·.population.learnerCount) epoch.next_eq
  refine ⟨(congrArg (·.population.teamCount) epoch.next_eq).trans (kept.trans teams), ?_⟩
  rw [same]
  exact learners

end Epoch

/-- The summary of a generation agrees with the trainer before it and after it. -/
structure Balances (t next : Trainer) (summary : Summary) : Prop where
  teams : (summary.teams : Int) =
    t.population.teamCount - summary.deletedTeams + summary.createdTeams
  learners : (summary.learners : Int) =
    t.population.learnerCount - summary.removedLearners - summary.prunedLearners +
      (next.counters.learner - t.counters.learner)
  /-- Each child took an identity, and nothing else did. -/
  createdTeams : (summary.createdTeams : Int) = next.counters.team - t.counters.team
  scored : summary.scored = t.population.rootCount
  deletedTeams : summary.deletedTeams ≤
    Selection.condemned t.population.rootCount t.settings.trainer.gap
  generation : summary.generation = t.generation
  nextGeneration : next.generation = t.generation + 1
  /-- What is left is what the summary says. -/
  teamCount : summary.teams = next.population.teamCount
  learnerCount : summary.learners = next.population.learnerCount
  roots : summary.roots = next.roots.length
  rootCount : summary.roots =
    (next.population.teamIds.filter fun id => next.population.references id = []).length

/-- However learners are shared and whatever is drawn, the summary of a generation
balances. -/
theorem Lineage.balances (lineage : Lineage s t)
    (run : t.evolve tasks mode = .ok (.ok summary, next)) : t.Balances next summary := by
  obtain ⟨epoch⟩ := evolve_epoch run
  have sound := lineage.sound
  have thins := sound.thins epoch.scored_eq epoch.selection_eq
  have stock := (epoch.selects.leaves sound).stock sound
  have some_parent := epoch.selects.survivors_ne_nil sound
    (Settings.valid_of_validate lineage.valid) lineage.roots_ne_nil
  have adds : Stock.Adds ⟨epoch.selection.population, t.counters⟩ epoch.brood.stock :=
    Brood.fill_adds _ _ _ _ epoch.brood_eq
  obtain ⟨⟨children, grown⟩, -⟩ :=
    epoch.selects.reproduction_full sound some_parent _ _ _ epoch.brood_eq
  obtain ⟨teamCount, pruned⟩ := epoch.census grown.growth.sound.exact
  have made := adds.teamCount stock.below
  have learned := adds.learnerCount stock.below
  have created := grown.teamCount_eq
  have le := Counters.le_def.1 adds.counters_le
  have before := thins.teamCount
  have before' := thins.learnerCount
  simp only at made learned created le
  have roots : next.roots = next.population.roots := (lineage.call (.evolve _ _ run)).sound.roots
  constructor
  case teams =>
    simp only [epoch.summary_eq, teamCount]
    omega
  case learners =>
    simp only [epoch.summary_eq, epoch.counters_eq]
    omega
  case createdTeams =>
    simp only [epoch.summary_eq, epoch.counters_eq]
    omega
  case scored =>
    simp only [epoch.summary_eq]
    exact congrArg List.length sound.roots
  case deletedTeams =>
    have length := Selection.length_doomed_le (Selection.ranked (t.roots.zip epoch.fitness))
      t.settings.trainer.gap epoch.elites
    rw [← thins.deletedTeams, (Selection.ranked_perm _).length_eq, List.length_zip,
      epoch.length_fitness, Nat.min_self, sound.roots] at length
    simp only [epoch.summary_eq]
    exact length
  case generation => simp only [epoch.summary_eq]
  case nextGeneration => exact congrArg Trainer.generation epoch.next_eq
  case teamCount => simp only [epoch.summary_eq]
  case learnerCount => simp only [epoch.summary_eq]
  case roots => simp only [epoch.summary_eq]
  case rootCount =>
    simp only [epoch.summary_eq, roots]
    exact next.population.rootCount_eq_length_filter

theorem balances_in_shortRun : ∃ t summary next, Lineage small t ∧
    t.evolve ["task"] .single = .ok (.ok summary, next) ∧ t.Balances next summary := by
  obtain ⟨t₀, t₁, t₂, stream, summary, next, start, first, second, evolution, -⟩ :=
    shortRun_calls
  have lineage := (((Lineage.start start).report first).report second).call (.redraw stream)
  exact ⟨_, summary, next, lineage, evolution, lineage.balances evolution⟩

end Trainer

end TangledGraph
