import TangledGraph.Proofs.Graph.Census
import TangledGraph.Proofs.Training.Generation

/-!
# Deletion of many roots

Selection deletes roots one after another, and each deletion changes the lists that the
next one reads: a learner that two of the roots share is on fewer teams when the second
one goes. It comes to the same as a deletion of all of them at once: the learners that
had only such teams are gone, and the others are no longer on them.
-/
namespace TangledGraph

namespace Population

variable {p q r : Population} {t : TeamId} {ts : List TeamId} {l : LearnerId}

/-- All teams of a learner, and there are some, are listed. -/
def Bereft (p : Population) (ts : List TeamId) (l : LearnerId) : Prop :=
  p.teamsOf l ≠ [] ∧ ∀ u ∈ p.teamsOf l, u ∈ ts

instance : Decidable (p.Bereft ts l) := inferInstanceAs (Decidable (_ ∧ _))

/-- Of one population, the other is what remains without the listed teams and the
learners that had no other. -/
structure Culled (ts : List TeamId) (p q : Population) : Prop where
  teams : ∀ u, q.team? u = if u ∈ ts then none else
    (p.team? u).map fun team =>
      { team with inLearners := team.inLearners.filter (¬p.Bereft ts ·) }
  learners : ∀ k, q.learner? k = if p.Bereft ts k then none else
    (p.learner? k).map fun learner =>
      { learner with inTeams := learner.inTeams.filter (· ∉ ts) }

theorem not_bereft_nil : ¬p.Bereft [] l := by
  rintro ⟨some_team, all⟩
  obtain ⟨u, listed⟩ := List.exists_mem_of_ne_nil _ some_team
  exact List.not_mem_nil (all u listed)

theorem Culled.refl (p : Population) : Culled [] p p where
  teams u := by
    cases p.team? u with
    | none => rfl
    | some team => simp [not_bereft_nil]
  learners k := by
    cases p.learner? k with
    | none => simp
    | some learner => simp [not_bereft_nil]

theorem Dissolved.teamsOf {gone : List LearnerId} (h : Dissolved t gone p r) (l : LearnerId) :
    r.teamsOf l = if l ∈ gone then [] else (p.teamsOf l).filter (· != t) := by
  unfold Population.teamsOf
  rw [h.learners]
  split
  case isTrue => rfl
  case isFalse => cases p.learner? l <;> rfl

/-- A learner that goes with the first of the teams or, after that, with the others goes
with all of them. -/
theorem bereft_cons (nodup : (p.teamsOf l).Nodup) {gone : List LearnerId}
    (goes : l ∈ gone ↔ p.teamsOf l = [t]) (h : Dissolved t gone p r) :
    p.Bereft (t :: ts) l ↔ l ∈ gone ∨ r.Bereft ts l := by
  unfold Bereft
  rw [h.teamsOf]
  by_cases sole : l ∈ gone
  · simp [sole, goes.1 sole]
  · rw [if_neg sole]
    have other : (p.teamsOf l).filter (· != t) = [] → p.teamsOf l = [] := by
      intro none
      by_contra some_team
      have only : ∀ u ∈ p.teamsOf l, u = t := fun u hu => by
        simpa using List.filter_eq_nil_iff.1 none u hu
      obtain ⟨u, hu⟩ := List.exists_mem_of_ne_nil _ some_team
      exact sole (goes.2 ((filter_ne_eq_nil_iff nodup (only u hu ▸ hu)).1 none))
    constructor
    · rintro ⟨some_team, all⟩
      refine .inr ⟨mt other some_team, fun u hu => ?_⟩
      obtain ⟨listed, apart⟩ := List.mem_filter.1 hu
      exact (List.mem_cons.1 (all u listed)).resolve_left (by simpa using apart)
    · rintro (gone' | ⟨some_team, all⟩)
      · exact absurd gone' sole
      · obtain ⟨v, hv⟩ := List.exists_mem_of_ne_nil _ some_team
        refine ⟨List.ne_nil_of_mem (List.mem_of_mem_filter hv), fun u hu => ?_⟩
        by_cases same : u = t
        · exact same ▸ List.mem_cons_self
        · exact List.mem_cons_of_mem _ (all u (List.mem_filter.2 ⟨hu, by simpa using same⟩))

/-- The deletion of the first of the teams, and then of the others at once. -/
theorem Culled.cons {team : Team} {deleted : List LearnerId} (exact : p.outline.Exact)
    (found : p.team? t = some team) (run : p.deleteTeam t = .ok (deleted, r))
    (rest : Culled ts r q) : Culled (t :: ts) p q := by
  obtain ⟨rfl, dissolved⟩ := deleteTeam_records exact found run
  have goes (l : LearnerId) :
      l ∈ team.learners.filter (fun l => p.teamsOf l = [t]) ↔ p.teamsOf l = [t] := by
    rw [List.mem_filter, decide_eq_true_iff]
    refine and_iff_right_of_imp fun sole => ?_
    have listed : t ∈ p.teamsOf l := sole ▸ List.mem_cons_self
    exact members_of_team? found ▸ exact.member_iff.2 listed
  have bereft (l : LearnerId) : p.Bereft (t :: ts) l ↔ _ ∨ r.Bereft ts l :=
    bereft_cons (exact.nodup_teamsOf l) (goes l) dissolved
  refine ⟨fun u => ?_, fun k => ?_⟩
  · rw [rest.teams, dissolved.teams]
    by_cases same : u = t
    · simp [same]
    · simp only [same, if_false, List.mem_cons, false_or, Option.map_map]
      split
      case isTrue => rfl
      case isFalse =>
        congr 1
        funext team
        simp only [Function.comp_apply, List.filter_filter, bereft, not_or, Bool.decide_and,
          Bool.and_comm]
  · rw [rest.learners, dissolved.learners]
    simp only [bereft]
    by_cases gone : k ∈ team.learners.filter fun l => p.teamsOf l = [t]
    · simp [gone]
    · rw [if_neg gone]
      simp only [gone, false_or, Option.map_map]
      split
      case isTrue => rfl
      case isFalse =>
        congr 1
        funext learner
        simp only [Function.comp_apply, List.filter_filter, List.mem_cons, not_or,
          Bool.decide_and, Bool.and_comm, bne, beq_eq_decide, decide_not]

section Culled

variable (h : Culled ts p q)
include h

theorem Culled.containsTeam_iff (u : TeamId) :
    q.containsTeam u = true ↔ p.containsTeam u = true ∧ u ∉ ts := by
  rw [containsTeam_eq, containsTeam_eq, h.teams]
  by_cases gone : u ∈ ts <;> simp [gone]

theorem Culled.containsLearner_iff (l : LearnerId) :
    q.containsLearner l = true ↔ p.containsLearner l = true ∧ ¬p.Bereft ts l := by
  rw [Population.containsLearner_iff, Population.containsLearner_iff, h.learners]
  by_cases gone : p.Bereft ts l <;> simp [gone]

end Culled

end Population

namespace Selection

/-- Roots that are deleted one after the other go at once, and the numbers are those of
the teams and learners that go. -/
theorem deleteAll_culls {ts : List TeamId} {selection after : Selection}
    (exact : selection.population.outline.Exact) (run : ts.foldlM delete selection = .ok after) :
    Population.Culled ts selection.population after.population ∧
      after.deletedTeams = selection.deletedTeams + ts.length ∧
      selection.population.teamCount + selection.deletedTeams =
        after.population.teamCount + after.deletedTeams ∧
      selection.population.learnerCount + selection.removedLearners =
        after.population.learnerCount + after.removedLearners := by
  induction ts generalizing selection with
  | nil =>
    simp only [List.foldlM_nil, pure_eq_ok] at run
    subst run
    exact ⟨.refl _, rfl, rfl, rfl⟩
  | cons t rest ih =>
    simp only [List.foldlM_cons, delete, bind_eq_ok, pure_eq_ok] at run
    obtain ⟨next, ⟨⟨deleted, r⟩, deletion, rfl⟩, run⟩ := run
    obtain ⟨-, exact', -, -⟩ := Population.deleteTeam_outline exact deletion
    obtain ⟨culled, length, teams, learners⟩ := ih exact' run
    obtain ⟨oneTeam, gone⟩ := Population.deleteTeam_census exact deletion
    obtain ⟨team, found⟩ := Population.found_of_deleteTeam deletion
    simp only [List.length_cons] at length ⊢
    simp only at teams learners
    exact ⟨.cons exact found deletion culled, by omega, by omega, by omega⟩

end Selection

namespace Trainer

variable {s : Settings} {t : Trainer} {scored : Population} {scores : List (TeamId × Float)}
variable {gap : Float} {elites : List TeamId} {selection : Selection}

/-- What a selection leaves of the population that was scored: the teams that are not
doomed, and the learners that are on one of them. -/
structure Thins (t : Trainer) (doomed : List TeamId) (scored : Population)
    (selection : Selection) : Prop where
  culled : Population.Culled doomed scored selection.population
  teams : ∀ id, selection.population.containsTeam id = true ↔
    t.population.containsTeam id = true ∧ id ∉ doomed
  learners : ∀ l, selection.population.containsLearner l = true ↔
    t.population.containsLearner l = true ∧
      ∃ id, l ∈ t.population.members id ∧ selection.population.containsTeam id = true
  deletedTeams : selection.deletedTeams = doomed.length
  teamCount : t.population.teamCount = selection.population.teamCount + selection.deletedTeams
  learnerCount :
    t.population.learnerCount = selection.population.learnerCount + selection.removedLearners

theorem Sound.thins (sound : t.Sound s) (written : setFitnesses t.population scores = .ok scored)
    {order : List (TeamId × Float)}
    (selected : Selection.cull order scored gap elites = .ok selection) :
    t.Thins (Selection.doomed order gap elites) scored selection := by
  have outline := setFitnesses_outline written
  have exact := sound.steady.sound.exact
  obtain ⟨culled, length, teamCount, learnerCount⟩ :=
    Selection.deleteAll_culls (outline ▸ exact : scored.outline.Exact) selected
  have sameTeams : scored.containsTeam = t.population.containsTeam :=
    congrArg Outline.teams outline
  have sameTeamsOf : scored.teamsOf = t.population.teamsOf := congrArg Outline.teamsOf outline
  have sameLearners := Population.containsLearner_congr (congrArg Outline.policy? outline)
  have teams (id : TeamId) : selection.population.containsTeam id = true ↔
      t.population.containsTeam id = true ∧ id ∉ Selection.doomed order gap elites := by
    rw [culled.containsTeam_iff, sameTeams]
  refine ⟨culled, teams, fun l => ?_, by simpa using length, ?_, ?_⟩
  · rw [culled.containsLearner_iff, sameLearners]
    refine and_congr_right fun there => ?_
    obtain ⟨policy, enlisted⟩ := Option.isSome_iff_exists.1
      ((Population.containsLearner_eq ..).symm.trans there)
    have some_team := sound.steady.employed enlisted
    simp only [Population.Bereft, sameTeamsOf, ne_eq, some_team, not_false_eq_true, true_and,
      not_forall]
    constructor
    · rintro ⟨id, listed, spared⟩
      have member : l ∈ t.population.members id := exact.member_iff.2 listed
      exact ⟨id, member, (teams id).2 ⟨Population.containsTeam_of_mem_members member, spared⟩⟩
    · rintro ⟨id, member, left⟩
      exact ⟨id, exact.member_iff.1 member, ((teams id).1 left).2⟩
  · rw [← Population.teamCount_congr sameTeams]
    exact teamCount
  · rw [← Population.learnerCount_congr sameLearners]
    exact learnerCount

namespace Thins

variable {doomed : List TeamId} (thins : t.Thins doomed scored selection)
include thins

/-- The doomed are gone. -/
theorem gone_iff {id : TeamId} (there : t.population.containsTeam id = true) :
    selection.population.containsTeam id = false ↔ id ∈ doomed := by
  rw [← Bool.not_eq_true, thins.teams]
  simp [there]

/-- A learner goes with the last team that lists it. -/
theorem bereft_iff {l : LearnerId} (there : t.population.containsLearner l = true) :
    selection.population.containsLearner l = false ↔
      ∀ id, l ∈ t.population.members id → selection.population.containsTeam id = false := by
  rw [← Bool.not_eq_true, thins.learners]
  simp [there]

theorem deletedTeams_eq : selection.deletedTeams =
    (t.population.teamIds.filter fun id => !selection.population.containsTeam id).length := by
  have := Population.teamCount_eq_add fun id left => ((thins.teams id).1 left).1
  have := thins.teamCount
  omega

theorem removedLearners_eq : selection.removedLearners =
    (t.population.learnerIds.filter fun l => !selection.population.containsLearner l).length := by
  have := Population.learnerCount_eq_add fun l left => ((thins.learners l).1 left).1
  have := thins.learnerCount
  omega

end Thins

end Trainer

end TangledGraph
