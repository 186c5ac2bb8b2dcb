import TangledGraph.Proofs.Training.Gap
import TangledGraph.Proofs.Training.Quota
import TangledGraph.Proofs.Training.Refusal

/-!
# What reproduction makes of a selection

Selection leaves a root if there was one. Reproduction then makes children until
there are as many roots, or teams, as the settings ask for: each child is a root,
elites stay roots, and no other team becomes one.
-/
namespace TangledGraph

open Draw

namespace Selection

theorem length_doomed_le (order : List (TeamId × Float)) (gap : Float) (elites : List TeamId) :
    (doomed order gap elites).length ≤ condemned order.length gap := by
  refine Nat.le_trans (List.length_filter_le _ _) ?_
  rw [List.length_map, List.length_drop]
  omega

/-- Not all teams that are scored are deleted. -/
theorem length_doomed_lt {order : List (TeamId × Float)} {gap : Float} {elites : List TeamId}
    (probability : isProbability gap = true) (some_team : order ≠ []) :
    (doomed order gap elites).length < order.length :=
  (length_doomed_le order gap elites).trans_lt
    (condemned_lt probability (List.length_pos_iff.2 some_team))

/-- Whatever order scores of some roots are put in, some root is not deleted. -/
theorem exists_spared {roots : List TeamId} (nodup : roots.Nodup) (some_root : roots ≠ [])
    {order : List (TeamId × Float)} (short : order.length ≤ roots.length) {gap : Float}
    {elites : List TeamId} (probability : isProbability gap = true) :
    ∃ id ∈ roots, id ∉ doomed order gap elites := by
  by_contra none
  simp only [not_exists, not_and, not_not] at none
  have all : roots.length ≤ (doomed order gap elites).length :=
    (List.subperm_of_subset nodup none).length_le
  have some_team : order ≠ [] := by
    rintro rfl
    have none_late := (doomed_sublist [] gap elites).length_le
    exact some_root (List.length_eq_zero_iff.1 (Nat.le_zero.1 (all.trans none_late)))
  exact absurd (length_doomed_lt probability some_team) (Nat.not_lt.2 (short.trans all))

end Selection

namespace Trainer

variable {s : Settings} {t next : Trainer} {tasks : List String} {mode : Scoring.Mode}
variable {elites : List TeamId} {selection : Selection}

/-- The elites and what is left after a selection for some outcomes of the roots,
whatever is drawn for their scores. -/
def Selects (t : Trainer) (tasks : List String) (mode : Scoring.Mode) (elites : List TeamId)
    (selection : Selection) : Prop :=
  ∃ outcomes stream fitness rest p, t.outcomeMatrix tasks = .ok outcomes ∧
    (Scoring.score mode outcomes).run stream = .ok (fitness, rest) ∧
    setFitnesses t.population (t.roots.zip fitness) = .ok p ∧
    t.chooseElites outcomes = .ok elites ∧
    Selection.run p (t.roots.zip fitness) t.settings.trainer.gap elites = .ok selection

/-- The roots that selection left. -/
def survivors (t : Trainer) (p : Population) : List TeamId := t.roots.filter p.containsTeam

/-- Reproduction after a selection. -/
def reproduction (t : Trainer) (elites : List TeamId) (p : Population) : Draw Brood :=
  Brood.fill t.settings t.generation (Breeders.of p (t.survivors p) elites) ⟨p, t.counters⟩

/-- A generation that succeeds, in parts: what each step gave, what the next one made of
it, and the words that were left. -/
structure Epoch (t : Trainer) (tasks : List String) (mode : Scoring.Mode) (summary : Summary)
    (next : Trainer) where
  outcomes : Scoring.Matrix
  fitness : List Float
  scored : Population
  elites : List TeamId
  selection : Selection
  brood : Brood
  orphans : List LearnerId
  pruned : Population
  middle : Stream
  rest : Stream
  outcomes_eq : t.outcomeMatrix tasks = .ok outcomes
  fitness_eq : (Scoring.score mode outcomes).run t.stream = .ok (fitness, middle)
  scored_eq : setFitnesses t.population (t.roots.zip fitness) = .ok scored
  elites_eq : t.chooseElites outcomes = .ok elites
  selection_eq :
    Selection.run scored (t.roots.zip fitness) t.settings.trainer.gap elites = .ok selection
  brood_eq : (t.reproduction elites selection.population).run middle = .ok (brood, rest)
  pruned_eq : brood.stock.population.pruneOrphans = .ok (orphans, pruned)
  next_eq : next = { t with
    population := pruned.retainOutcomes t.settings.trainer.retainedTasks
    counters := brood.stock.counters
    roots := (pruned.retainOutcomes t.settings.trainer.retainedTasks).roots
    elites
    generation := t.generation + 1
    tasks := {}
    stream := rest }
  summary_eq : summary = {
    generation := t.generation
    bestFitness := fitness.foldl greater (-infinity)
    scored := t.roots.length
    deletedTeams := selection.deletedTeams
    removedLearners := selection.removedLearners
    createdTeams := brood.created
    prunedLearners := orphans.length
    teams := next.population.teamCount
    learners := next.population.learnerCount
    roots := next.roots.length }

theorem evolve_epoch {summary : Summary} (run : t.evolve tasks mode = .ok (.ok summary, next)) :
    Nonempty (t.Epoch tasks mode summary next) := by
  unfold evolve at run
  cases outcomes_eq : t.outcomeMatrix tasks with
  | error e => simp [outcomes_eq] at run
  | ok outcomes =>
    simp only [outcomes_eq, bind_eq_ok, pure_eq_ok, Prod.mk.injEq, Except.ok.injEq] at run
    obtain ⟨⟨⟨_, ended⟩, rest⟩, run, rfl, rfl⟩ := run
    obtain ⟨fitness, middle, fitness_eq, run⟩ := run_bind_eq_ok.1 run
    obtain ⟨scored, scored_eq, run⟩ := run_lift_bind_eq_ok.1 run
    obtain ⟨elites, elites_eq, run⟩ := run_lift_bind_eq_ok.1 run
    obtain ⟨selection, selection_eq, run⟩ := run_lift_bind_eq_ok.1 run
    obtain ⟨brood, _, brood_eq, run⟩ := run_bind_eq_ok.1 run
    obtain ⟨⟨_, _⟩, ended_eq, run⟩ := run_lift_bind_eq_ok.1 run
    simp only [StateT.run_pure, pure_eq_ok, Prod.mk.injEq] at run
    obtain ⟨⟨rfl, rfl⟩, rfl⟩ := run
    simp only [nextGeneration, bind_eq_ok, pure_eq_ok, Prod.mk.injEq] at ended_eq
    obtain ⟨⟨orphans, pruned⟩, pruned_eq, rfl, rfl⟩ := ended_eq
    exact ⟨{
      outcomes, fitness, scored, elites, selection, brood, orphans, pruned, middle
      rest := _
      outcomes_eq, fitness_eq, scored_eq, elites_eq, selection_eq, brood_eq, pruned_eq
      next_eq := rfl
      summary_eq := rfl }⟩

section Epoch

variable {summary : Summary} (epoch : t.Epoch tasks mode summary next)
include epoch

theorem Epoch.selects : t.Selects tasks mode epoch.elites epoch.selection :=
  ⟨epoch.outcomes, _, epoch.fitness, _, epoch.scored, epoch.outcomes_eq, epoch.fitness_eq,
    epoch.scored_eq, epoch.elites_eq, epoch.selection_eq⟩

theorem Epoch.nextGeneration_eq : nextGeneration { t with
    population := epoch.brood.stock.population, counters := epoch.brood.stock.counters
    elites := epoch.elites } =
      .ok (epoch.orphans.length, { next with stream := t.stream }) := by
  obtain ⟨-, -, -, -, -, -, -, -, -, -, -, -, -, -, -, -, pruned_eq, rfl, -⟩ := epoch
  exact bind_eq_ok.2 ⟨_, pruned_eq, rfl⟩

end Epoch

/-- A generation that succeeds selects, reproduces and deletes the learners on no
team. -/
theorem evolve_parts {summary : Summary} (run : t.evolve tasks mode = .ok (.ok summary, next)) :
    ∃ elites selection brood stream rest pruned ended, t.Selects tasks mode elites selection ∧
      (t.reproduction elites selection.population).run stream = .ok (brood, rest) ∧
      nextGeneration { t with
        population := brood.stock.population, counters := brood.stock.counters, elites } =
          .ok (pruned, ended) ∧
      next = { ended with stream := rest } ∧ summary.createdTeams = brood.created := by
  obtain ⟨epoch⟩ := evolve_epoch run
  have rest : next.stream = epoch.rest := congrArg Trainer.stream epoch.next_eq
  exact ⟨_, _, _, _, _, _, _, epoch.selects, epoch.brood_eq, epoch.nextGeneration_eq,
    rest ▸ rfl, congrArg Summary.createdTeams epoch.summary_eq⟩

section Selects

variable (sound : t.Sound s) (selects : t.Selects tasks mode elites selection)
include sound selects

theorem Selects.leaves : t.Leaves elites selection.population := by
  obtain ⟨outcomes, _, fitness, _, p, -, -, written, chosen, selected⟩ := selects
  exact sound.leaves written chosen selected

/-- If there is a root, a root is left. -/
theorem Selects.survivors_ne_nil (valid : s.Valid) (some_root : t.roots ≠ []) :
    t.survivors selection.population ≠ [] := by
  obtain ⟨outcomes, _, fitness, _, p, -, -, written, -, selected⟩ := selects
  have outline := setFitnesses_outline written
  have exact : p.outline.Exact := outline ▸ sound.steady.sound.exact
  have teams : p.containsTeam = t.population.containsTeam := congrArg Outline.teams outline
  obtain ⟨-, -, kept⟩ := Selection.cull_outline exact selected
  have short : (Selection.ranked (t.roots.zip fitness)).length ≤ t.roots.length := by
    rw [(Selection.ranked_perm _).length_eq, List.length_zip]
    exact Nat.min_le_left _ _
  obtain ⟨id, root, spared⟩ := Selection.exists_spared sound.nodup_roots some_root short
    (sound.settings ▸ valid.gap : isProbability t.settings.trainer.gap = true)
  have there : p.containsTeam id = true := (congrFun teams id).trans (sound.unreferred root).1
  exact List.ne_nil_of_mem (List.mem_filter.2 ⟨root, kept id spared there⟩)

theorem Selects.reproduction_full (some_parent : t.survivors selection.population ≠ []) :
    Yields (t.reproduction elites selection.population)
      (Brood.Full t.settings (fun u => u ∉ elites ∧ u.val < t.counters.team)
        ⟨selection.population, t.counters⟩) := by
  have leaves := selects.leaves sound
  exact Brood.fill_full (leaves.pool sound _) some_parent (leaves.stock sound)
    (sound.allowed_of_partOf leaves.part leaves.fromRoots)

end Selects

end Trainer

end TangledGraph
