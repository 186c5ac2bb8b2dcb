import TangledGraph.Proofs.Graph.Merits
import TangledGraph.Proofs.Training.Accounting

/-!
# Merits from one generation to the next

Scores are written to the roots by place, before selection and reproduction change which
teams there are, and outcomes are dropped after that. No step gets in the way of another:
every team that stays has the score that is its own and the outcomes that are
retained of its own, and every child starts without merits.
-/
namespace TangledGraph

open Draw

theorem Population.Culled.merits?_eq {ts : List TeamId} {p q : Population} (h : Culled ts p q)
    (u : TeamId) : q.merits? u = if u ∈ ts then none else p.merits? u := by
  rw [merits?, h.teams]
  split
  · rfl
  · rw [Option.map_map]
    rfl

namespace Brood

variable {s : Settings} {generation : Nat} {breeders : Breeders}

theorem fill_admits {stock : Stock} (below : stock.population.outline.Below stock.counters) :
    Yields (fill s generation breeders stock) fun brood =>
      Stock.Admits generation stock brood.stock :=
  fill_keeps (I := Stock.Admits generation stock)
    (fun now parent before => (birth_grows parent now).mono fun _ => (before.found below).path)
    (.refl generation stock)

end Brood

namespace Trainer

variable {s : Settings} {t next : Trainer} {tasks : List String} {mode : Scoring.Mode}
variable {summary : Summary}

/-- The first teams have no merits. -/
theorem initialTeams_admits {stock now : Stock} (n : Nat)
    (below : stock.population.outline.Below stock.counters) (before : Stock.Admits 0 stock now) :
    Yields (initialTeams s n now) (Stock.Admits 0 stock) := by
  induction n generalizing now with
  | zero => exact Yields.pure before
  | succ n ih =>
    refine Yields.skip fun codes => ?_
    exact (addInitialLearners_grows _ codes _).bind fun made grown =>
      ih ((before.found below).path grown)

/-- Scores of different teams are written to these teams and to no others. -/
theorem setFitnesses_merits {p q : Population} {scores : List (TeamId × Float)}
    (nodup : (scores.map Prod.fst).Nodup) (run : setFitnesses p scores = .ok q) :
    (∀ score ∈ scores, q.merits? score.1 =
      (p.merits? score.1).map fun merits => { merits with fitness := some score.2 }) ∧
      ∀ u ∉ scores.map Prod.fst, q.merits? u = p.merits? u := by
  induction scores generalizing p with
  | nil =>
    simp only [setFitnesses, List.foldlM_nil, pure_eq_ok] at run
    simp [run]
  | cons score scores ih =>
    simp only [setFitnesses, List.foldlM_cons, bind_eq_ok] at run
    obtain ⟨r, written, run⟩ := run
    rw [List.map_cons, List.nodup_cons] at nodup
    obtain ⟨first, nodup⟩ := nodup
    obtain ⟨listed, unlisted⟩ := ih nodup run
    have other {u : TeamId} (apart : u ≠ score.1) : r.merits? u = p.merits? u := by
      rw [Population.merits?_setFitness written, Function.update_of_ne apart]
    refine ⟨List.forall_mem_cons.2 ⟨?_, fun score' later => ?_⟩, fun u outside => ?_⟩
    · rw [unlisted _ first, Population.merits?_setFitness written, Function.update_self]
    · have apart : score'.1 ≠ score.1 := ne_of_mem_of_not_mem (List.mem_map_of_mem later) first
      rw [listed score' later, other apart]
    · rw [List.map_cons, List.mem_cons, not_or] at outside
      rw [unlisted u outside.2, other outside.1]

/-- The last fitness of a team, if it has one. -/
def fitness? (t : Trainer) (id : TeamId) : Option Float :=
  (t.population.team? id).bind Team.fitness

/-- The generation that a team was made in. -/
def birth? (t : Trainer) (id : TeamId) : Option Nat :=
  (t.population.team? id).map Team.generation

theorem outcome?_of_merits? {id : TeamId} {merits : Option Merits}
    (h : t.population.merits? id = merits) (task : String) :
    t.outcome? id task = merits.bind (·.outcomes[task]?) := by
  rw [← h, Population.merits?, outcome?, Option.bind_map]
  rfl

theorem fitness?_of_merits? {id : TeamId} {merits : Option Merits}
    (h : t.population.merits? id = merits) : t.fitness? id = merits.bind Merits.fitness := by
  rw [← h, Population.merits?, fitness?, Option.bind_map]
  rfl

theorem birth?_of_merits? {id : TeamId} {merits : Option Merits}
    (h : t.population.merits? id = merits) : t.birth? id = merits.map Merits.generation := by
  rw [← h, Population.merits?, birth?, Option.map_map]
  rfl

section Epoch

variable (epoch : t.Epoch tasks mode summary next)
include epoch

/-- Teams from before that are there in the end have the merits that scoring left them, but
for outcomes that are dropped, and all other teams are without merits. -/
theorem Epoch.merits (sound : t.Sound s) {id : TeamId}
    (there : next.population.containsTeam id = true) : next.population.merits? id =
      if t.population.containsTeam id = true then
        (epoch.scored.merits? id).map (Merits.retain t.settings.trainer.retainedTasks)
      else some (.none t.generation) := by
  have stock := (epoch.selects.leaves sound).stock sound
  have thins := sound.thins epoch.scored_eq epoch.selection_eq
  have admits : Stock.Admits t.generation ⟨epoch.selection.population, t.counters⟩
      epoch.brood.stock := Brood.fill_admits stock.below _ _ _ epoch.brood_eq
  have adds : Stock.Adds ⟨epoch.selection.population, t.counters⟩ epoch.brood.stock :=
    Brood.fill_adds _ _ _ _ epoch.brood_eq
  have after : next.population.merits? id =
      (epoch.brood.stock.population.merits? id).map
        (Merits.retain t.settings.trainer.retainedTasks) := by
    have population : next.population = _ := congrArg Trainer.population epoch.next_eq
    rw [population, Population.merits?_retainOutcomes,
      Population.merits?_pruneOrphans epoch.pruned_eq]
  have grown : epoch.brood.stock.population.containsTeam id = true := by
    rwa [← Population.merits?_isSome, after, Option.isSome_map, Population.merits?_isSome] at there
  rw [after]
  split
  case isTrue before =>
    -- A team from before has none of the new identities, so selection has left it.
    have old : id.val < t.counters.team := sound.steady.sound.below.team before
    have left := ((adds.team id).1 grown).resolve_right fun new => Nat.not_le.2 old new.1
    have spared := ((thins.teams id).1 left).2
    rw [admits.before id left, thins.culled.merits?_eq, if_neg spared]
  case isFalse missing =>
    have gone : epoch.selection.population.containsTeam id = false := by
      rw [Bool.eq_false_iff]
      exact fun left => missing ((thins.teams id).1 left).1
    obtain ⟨merits, found⟩ := Option.isSome_iff_exists.1
      ((Population.merits?_isSome ..).trans grown)
    obtain rfl := admits.since id merits gone found
    rw [found, Option.map_some, Merits.retain_none]

/-- A root is scored as its row is, and no other team is scored. -/
theorem Epoch.scored_cases (sound : t.Sound s) (id : TeamId) :
    (∃ (i : Nat) (x : Float), t.roots[i]? = some id ∧ epoch.fitness[i]? = some x ∧
      epoch.scored.merits? id =
        (t.population.merits? id).map fun merits => { merits with fitness := some x }) ∨
      id ∉ t.roots ∧ epoch.scored.merits? id = t.population.merits? id := by
  have length := epoch.length_fitness
  have ids : (t.roots.zip epoch.fitness).map Prod.fst = t.roots := List.map_fst_zip length.ge
  have nodup : ((t.roots.zip epoch.fitness).map Prod.fst).Nodup := ids.symm ▸ sound.nodup_roots
  obtain ⟨listed, unlisted⟩ := setFitnesses_merits nodup epoch.scored_eq
  by_cases root : id ∈ t.roots
  · obtain ⟨i, inside, rfl⟩ := List.getElem_of_mem root
    have rated : i < epoch.fitness.length := length.symm ▸ inside
    have place := List.getElem?_eq_getElem inside
    have score := List.getElem?_eq_getElem rated
    have entry : (t.roots[i], epoch.fitness[i]) ∈ t.roots.zip epoch.fitness :=
      List.mem_of_getElem? (List.getElem?_zip_eq_some.2 ⟨place, score⟩)
    exact .inl ⟨i, _, place, score, listed _ entry⟩
  · exact .inr ⟨root, unlisted id (ids.symm ▸ root)⟩

/-- What becomes of the merits of a team that stays. -/
theorem Epoch.stays (sound : t.Sound s) {id : TeamId}
    (before : t.population.containsTeam id = true)
    (after : next.population.containsTeam id = true) :
    ∃ merits fitness, t.population.merits? id = some merits ∧
      next.population.merits? id =
        some { merits.retain t.settings.trainer.retainedTasks with fitness } ∧
      ((∃ (i : Nat) (x : Float), t.roots[i]? = some id ∧ epoch.fitness[i]? = some x ∧
          fitness = some x) ∨
        id ∉ t.roots ∧ fitness = merits.fitness) := by
  obtain ⟨merits, known⟩ := Option.isSome_iff_exists.1 ((Population.merits?_isSome ..).trans before)
  have kept := epoch.merits sound after
  rw [if_pos before] at kept
  obtain ⟨i, x, root, score, scored⟩ | ⟨other, scored⟩ := epoch.scored_cases sound id
  · rw [scored, known] at kept
    exact ⟨merits, some x, known, kept, .inl ⟨i, x, root, score, rfl⟩⟩
  · rw [scored, known] at kept
    exact ⟨merits, merits.fitness, known, kept, .inr ⟨other, rfl⟩⟩

end Epoch

/-- What a generation with given scores of the roots makes of outcomes, fitness and birth. -/
structure RollsOver (t next : Trainer) (fitness : List Float) : Prop where
  /-- A team that stays keeps its outcomes on retained tasks and no others. -/
  outcomes : ∀ id, t.population.containsTeam id = true →
    next.population.containsTeam id = true → ∀ task, next.outcome? id task =
      if task ∈ t.settings.trainer.retainedTasks then t.outcome? id task else none
  /-- A root that stays has its own score. -/
  scored : ∀ {i : Nat} {id : TeamId}, t.roots[i]? = some id →
    next.population.containsTeam id = true →
      ∃ x, fitness[i]? = some x ∧ next.fitness? id = some x
  unscored : ∀ id, t.population.containsTeam id = true → id ∉ t.roots →
    next.population.containsTeam id = true → next.fitness? id = t.fitness? id
  birth : ∀ id, t.population.containsTeam id = true →
    next.population.containsTeam id = true → next.birth? id = t.birth? id
  /-- A new team has no outcomes and no fitness, and was made in this generation. -/
  new : ∀ id, t.population.containsTeam id = false → ∀ team,
    next.population.team? id = some team →
      team.outcomes = ∅ ∧ team.fitness = none ∧ team.generation = t.generation
  tasks : next.tasks = {}

theorem Epoch.rollsOver (epoch : t.Epoch tasks mode summary next) (sound : t.Sound s) :
    t.RollsOver next epoch.fitness := by
  constructor
  case outcomes =>
    intro id before after task
    obtain ⟨merits, fitness, known, kept, -⟩ := epoch.stays sound before after
    rw [outcome?_of_merits? kept, outcome?_of_merits? known]
    exact Merits.outcome?_retain _ _ _
  case scored =>
    intro i id root after
    have before := (sound.unreferred (List.mem_of_getElem? root)).1
    obtain ⟨merits, fitness, -, kept, ⟨j, x, root', score, rfl⟩ | ⟨other, -⟩⟩ :=
      epoch.stays sound before after
    · have inside := (List.getElem?_eq_some_iff.1 root).1
      obtain rfl : i = j := (List.getElem?_inj inside sound.nodup_roots).1 (root.trans root'.symm)
      exact ⟨x, score, fitness?_of_merits? kept⟩
    · exact absurd (List.mem_of_getElem? root) other
  case unscored =>
    intro id before other after
    obtain ⟨merits, fitness, known, kept, ⟨i, x, root, -⟩ | ⟨-, rfl⟩⟩ :=
      epoch.stays sound before after
    · exact absurd (List.mem_of_getElem? root) other
    · rw [fitness?_of_merits? kept, fitness?_of_merits? known]
      rfl
  case birth =>
    intro id before after
    obtain ⟨merits, fitness, known, kept, -⟩ := epoch.stays sound before after
    rw [birth?_of_merits? kept, birth?_of_merits? known]
    rfl
  case new =>
    intro id missing team found
    have merits := epoch.merits sound (Population.containsTeam_of_team? found)
    rw [if_neg (by simp [missing]), Population.merits?, found] at merits
    obtain ⟨outcomes, fitness, generation⟩ := Merits.mk.inj (Option.some.inj merits)
    exact ⟨outcomes, fitness, generation⟩
  case tasks => exact congrArg Trainer.tasks epoch.next_eq

end Trainer

end TangledGraph
