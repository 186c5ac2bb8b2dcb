import TangledGraph.Proofs.Graph.Agreement
import TangledGraph.Proofs.Graph.Descent
import TangledGraph.Proofs.Training.Reachable

/-!
# What survives a generation

Deletion removes whole teams and learners, variation works on copies, and new
identities were never used. So a team or a learner that is there before and
after a generation is what it was, everything that it leads to is there as
well, and the team decides as before.
-/
namespace TangledGraph

namespace Trainer

variable {s : Settings} {t next : Trainer} {selected : Population} {grown : Stock}

section Stages

variable (sound : t.Sound s) (stages : Stages t next selected grown)
include sound stages

/-- Teams that survive a generation survive its selection. -/
theorem Stages.selected_team {id : TeamId} (before : t.population.containsTeam id = true)
    (after : next.population.containsTeam id = true) : selected.containsTeam id = true := by
  obtain old | new := stages.growth.team_new (stages.next_part.teams after)
  · exact old
  · exact absurd (sound.steady.sound.below.team before) (Nat.not_lt.2 new)

/-- Survivors keep their learners in order. -/
theorem Stages.members_eq {id : TeamId} (before : t.population.containsTeam id = true)
    (after : next.population.containsTeam id = true) :
    next.population.members id = t.population.members id := by
  have there := stages.selected_team sound before after
  calc next.population.members id = grown.population.members id :=
        (stages.next_part.members after).symm
    _ = selected.members id := stages.growth.part.members there
    _ = t.population.members id := (stages.selected_part.members there).symm

/-- Survivors keep their programs and actions. -/
theorem Stages.policy?_eq {l : LearnerId} {policy policy' : Program × Action}
    (before : t.population.policy? l = some policy)
    (after : next.population.policy? l = some policy') : policy' = policy := by
  have grownPolicy : grown.population.policy? l = some policy' := stages.next_part.policy after
  obtain ⟨old, there⟩ | new := stages.growth.learner_new grownPolicy
  · have same : some policy' = some old :=
      grownPolicy.symm.trans (stages.growth.part.policy there)
    have same' : some policy = some old := before.symm.trans (stages.selected_part.policy there)
    exact Option.some.inj (same.trans same'.symm)
  · exact absurd (sound.steady.sound.below.learner before) (Nat.not_lt.2 new)

/-- The surviving teams are the same before and after, and closed. -/
theorem Stages.agreeOn : Population.AgreeOn (fun id => t.population.containsTeam id = true ∧
    next.population.containsTeam id = true) t.population next.population := by
  have policies {id l} (here : t.population.containsTeam id = true ∧
      next.population.containsTeam id = true) (hl : l ∈ t.population.members id) :
      next.population.policy? l = t.population.policy? l := by
    obtain ⟨-, before, enlisted⟩ := Population.resolve_member sound.steady.sound.exact hl
    rw [← stages.members_eq sound here.1 here.2] at hl
    obtain ⟨-, after, enlisted'⟩ := Population.resolve_member stages.next_exact hl
    have policy := Population.policy?_of_learner? enlisted
    have policy' := Population.policy?_of_learner? enlisted'
    rw [policy, policy', stages.policy?_eq sound policy policy']
  have closed {id l u} (here : t.population.containsTeam id = true ∧
      next.population.containsTeam id = true) (hl : l ∈ t.population.members id)
      (leads : t.population.target? l = some u) :
      t.population.containsTeam u = true ∧ next.population.containsTeam u = true := by
    have leads' : next.population.target? l = some u := by
      rw [Population.target?_eq, Outline.target?, Population.outline_policy?, policies here hl]
      rwa [Population.target?_eq] at leads
    exact ⟨Population.resolve_target sound.steady.sound.exact leads,
      Population.resolve_target stages.next_exact leads'⟩
  exact ⟨id, fun here => stages.members_eq sound here.1 here.2, policies, closed⟩

end Stages

/-- What a generation preserves of two populations: the learners of teams, the
programs and actions of learners, all that a surviving team leads to, and the
decisions of surviving teams from equal contexts and memories. -/
structure Preserves (t next : Trainer) : Prop where
  teams : ∀ id before after, t.population.team? id = some before →
    next.population.team? id = some after → after.learners = before.learners
  learners : ∀ l before after, t.population.learner? l = some before →
    next.population.learner? l = some after →
      after.program = before.program ∧ after.action = before.action
  reach : ∀ id, t.population.containsTeam id = true → next.population.containsTeam id = true →
    ∀ u, Relation.ReflTransGen t.population.Leads id u →
      next.population.containsTeam u = true ∧
        ∀ l ∈ t.population.members u, next.population.containsLearner l = true
  decisions : ∀ id, t.population.containsTeam id = true → next.population.containsTeam id = true →
    ∀ (inputs : List (Array Float)) (m : Mind), m.Full →
      ∃ results m', t.population.decisions id inputs m = .ok (results, m') ∧
        next.population.decisions id inputs m = .ok (results, m')
  /-- Faults are the same as well where a memory lacks cells. -/
  alike : ∀ id, t.population.containsTeam id = true → next.population.containsTeam id = true →
    ∀ (inputs : List (Array Float)) (m : Mind),
      next.population.decisions id inputs m = t.population.decisions id inputs m

/-- A generation preserves the policy of every survivor. -/
theorem Reachable.evolve_preserves {tasks : List String} {mode : Scoring.Mode}
    {summary : Summary} (reached : Reachable s t)
    (run : t.evolve tasks mode = .ok (.ok summary, next)) : t.Preserves next := by
  have sound := reached.sound
  obtain ⟨⟨e, failed⟩, -⟩ | ⟨-, selected, grown, stages⟩ := evolve_eq_ok sound run
  · simp at failed
  have sound' := stages.sound sound
  have agree := stages.agreeOn sound
  have inside {id u : TeamId} (there : t.population.containsTeam id = true)
      (there' : next.population.containsTeam id = true)
      (path : Relation.ReflTransGen t.population.Leads id u) :
      t.population.containsTeam u = true ∧ next.population.containsTeam u = true := by
    induction path with
    | refl => exact ⟨there, there'⟩
    | tail _ step ih =>
      obtain ⟨l, hl, leads⟩ := step
      exact agree.closed ih hl leads
  refine ⟨?teams, ?learners, ?reach, ?decisions, ?alike⟩
  case teams =>
    intro id before after found found'
    have there := Population.containsTeam_of_team? found
    have there' := Population.containsTeam_of_team? found'
    rw [← Population.members_of_team? found, ← Population.members_of_team? found']
    exact agree.members ⟨there, there'⟩
  case learners =>
    intro l before after enlisted enlisted'
    have policy := Population.policy?_of_learner? enlisted
    have policy' := Population.policy?_of_learner? enlisted'
    exact Prod.mk.inj (stages.policy?_eq sound policy policy')
  case reach =>
    intro id there there' u path
    have survives := inside there there' path
    refine ⟨survives.2, fun l hl => ?_⟩
    rw [← agree.members survives] at hl
    obtain ⟨-, learner, enlisted⟩ := Population.resolve_member stages.next_exact hl
    rw [Population.containsLearner_eq, Population.policy?_of_learner? enlisted, Option.isSome_some]
  case decisions =>
    intro id there there' inputs m full
    obtain ⟨results, m', run⟩ :=
      Population.decisions_ok sound.steady.complete there inputs full
    exact ⟨results, m', run,
      (Population.decisions_congr agree ⟨there, there'⟩ inputs m).trans run⟩
  case alike =>
    exact fun id there there' => Population.decisions_congr agree ⟨there, there'⟩

theorem preserved_in_shortRun : ∃ t summary next, Reachable small t ∧
    t.evolve ["task"] .single = .ok (.ok summary, next) ∧
    t.population.containsTeam ⟨1⟩ = true ∧ next.population.containsTeam ⟨1⟩ = true ∧
    t.Preserves next := by
  obtain ⟨t, summary, next, reached, evolution, roots, roots'⟩ := shortRun_reachable
  have reached' : Reachable small next := reached.evolve _ _ evolution
  refine ⟨t, summary, next, reached, evolution, ?_, ?_, reached.evolve_preserves evolution⟩
  · exact (Population.mem_roots.1 (reached.sound.roots ▸ roots ▸ by simp)).1
  · exact (Population.mem_roots.1 (reached'.sound.roots ▸ roots' ▸ by simp)).1

end Trainer

end TangledGraph
