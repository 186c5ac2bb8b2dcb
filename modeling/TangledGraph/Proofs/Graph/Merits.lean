import TangledGraph.Proofs.Graph.Growth
import TangledGraph.Proofs.Graph.Records

/-!
# What edges do not tell of a team

A team has outcomes, a fitness and the generation that it was made in. No edit of an edge
touches them: they are those of a new team until something is recorded.
-/
namespace TangledGraph

/-- What a team has achieved, and when it was made. -/
structure Merits where
  outcomes : Outcomes
  fitness : Option Float
  generation : Nat

def Team.merits (team : Team) : Merits := ⟨team.outcomes, team.fitness, team.generation⟩

/-- The merits of a new team. -/
def Merits.none (generation : Nat) : Merits := ⟨{}, .none, generation⟩

/-- Merits without outcomes on tasks that are not listed. -/
def Merits.retain (tasks : List String) (merits : Merits) : Merits :=
  { merits with outcomes := merits.outcomes.filter fun task _ => tasks.contains task }

theorem Merits.outcome?_retain (tasks : List String) (merits : Merits) (task : String) :
    (merits.retain tasks).outcomes[task]? =
      if task ∈ tasks then merits.outcomes[task]? else .none := by
  rw [retain, Std.ExtTreeMap.getElem?_filter']
  cases merits.outcomes[task]? <;> simp [Option.filter]

theorem Merits.retain_none (tasks : List String) (generation : Nat) :
    (Merits.none generation).retain tasks = .none generation := by
  have dropped : ((∅ : Outcomes).filter fun task _ => tasks.contains task) = ∅ :=
    Std.ExtTreeMap.filter_eq_empty_iff.2 fun task there =>
      absurd there Std.ExtTreeMap.not_mem_empty
  exact congrArg (Merits.mk · .none generation) dropped

namespace Population

variable {p q : Population} {t : TeamId} {l : LearnerId} {action : Action}

def merits? (p : Population) (t : TeamId) : Option Merits := (p.team? t).map Team.merits

theorem merits?_isSome (p : Population) (t : TeamId) :
    (p.merits? t).isSome = p.containsTeam t := by
  rw [merits?, Option.isSome_map, containsTeam_eq]

/-- Merits are as they were if each team is, but for its lists. -/
theorem merits?_of_map {f : TeamId → Team → Team}
    (teams : ∀ u, q.team? u = (p.team? u).map (f u))
    (kept : ∀ u team, (f u team).merits = team.merits) : q.merits? = p.merits? := by
  funext u
  rw [merits?, merits?, teams, Option.map_map]
  exact congrArg (Option.map · (p.team? u)) (funext (kept u))

theorem merits?_resetTeam {team : Team} (found : p.team? t = some team) (f : Team → Team)
    (kept : ∀ team, (f team).merits = team.merits) :
    (p.setTeam t (f team)).merits? = p.merits? := by
  refine merits?_of_map (team?_resetTeam found f) fun u team => ?_
  split
  · exact kept team
  · rfl

theorem merits?_addTarget (run : p.addTarget action l = .ok q) : q.merits? = p.merits? := by
  refine merits?_of_map (addTarget_records run).1 fun u team => ?_
  split <;> rfl

theorem merits?_dropTarget (run : p.dropTarget action l = .ok q) : q.merits? = p.merits? := by
  refine merits?_of_map (dropTarget_records run).1 fun u team => ?_
  split <;> rfl

theorem merits?_createLearner {c d : Counters} {program : Program} {generation : Nat}
    (run : p.createLearner c program action generation = .ok (l, q, d)) :
    q.merits? = p.merits? := by
  obtain ⟨-, -, r, added, rfl⟩ := createLearner_eq_ok.1 run
  have kept := merits?_addTarget added
  exact kept

theorem merits?_addLearner (run : p.addLearner t l = .ok q) : q.merits? = p.merits? := by
  obtain ⟨team, learner, found, -, -, rfl⟩ := addLearner_eq_ok.1 run
  exact merits?_resetTeam found (fun team => { team with learners := team.learners ++ [l] })
    fun _ => rfl

theorem merits?_dropLearner (run : p.dropLearner t l = .ok q) : q.merits? = p.merits? := by
  refine merits?_of_map (dropLearner_records run).1 fun u team => ?_
  split <;> rfl

theorem merits?_setAction (run : p.setAction l action = .ok q) : q.merits? = p.merits? := by
  obtain ⟨learner, r, -, -, dropped, added⟩ := setAction_eq_ok.1 run
  have kept := merits?_dropTarget dropped
  exact (merits?_addTarget added).trans kept

theorem merits?_deleteLearner {learner : Learner} (run : p.deleteLearner l = .ok (learner, q)) :
    q.merits? = p.merits? := by
  have kept := merits?_dropTarget (deleteLearner_eq_ok.1 run).2.2
  exact kept

theorem merits?_pruneOrphans {orphans : List LearnerId}
    (run : p.pruneOrphans = .ok (orphans, q)) : q.merits? = p.merits? := by
  simp only [pruneOrphans, bind_eq_ok, pure_eq_ok, Prod.mk.injEq] at run
  obtain ⟨r, run, -, rfl⟩ := run
  refine foldlM_induction (fun r => r.merits? = p.merits?)
    (fun l _ before after same deletion => ?_) rfl run
  obtain ⟨⟨learner, _⟩, removal, rfl⟩ := map_eq_ok.1 deletion
  exact (merits?_deleteLearner removal).trans same

/-- A new team has no merits. -/
theorem merits?_createTeam (p : Population) (c : Counters) (generation : Nat) :
    (p.createTeam c generation).2.1.merits? =
      Function.update p.merits? ⟨c.team⟩ (some (.none generation)) := by
  funext u
  simp only [merits?, createTeam, Counters.newTeam, team?_setTeam, Function.update_apply]
  split <;> rfl

theorem merits?_setFitness {fitness : Float} (run : p.setFitness t fitness = .ok q) :
    q.merits? = Function.update p.merits? t
      ((p.merits? t).map fun merits => { merits with fitness := some fitness }) := by
  simp only [setFitness, bind_eq_ok, getTeam_eq_ok, pure_eq_ok] at run
  obtain ⟨team, found, rfl⟩ := run
  funext u
  simp only [merits?, team?_setTeam, Function.update_apply]
  split
  · rw [found]
    rfl
  · rfl

theorem merits?_retainOutcomes (p : Population) (keep : List String) (u : TeamId) :
    (p.retainOutcomes keep).merits? u = (p.merits? u).map (Merits.retain keep) := by
  have found : (p.retainOutcomes keep).team? u = (p.team? u).map fun team =>
      { team with outcomes := team.outcomes.filter fun task _ => keep.contains task } :=
    Std.ExtTreeMap.getElem?_map
  rw [merits?, merits?, found, Option.map_map, Option.map_map]
  rfl

end Population

namespace Stock

variable {base : Counters} {allowed : Action → Prop} {now next : Stock}

theorem Step.merits?_eq (h : Step base allowed now next) :
    next.population.merits? = now.population.merits? := by
  cases h with
  | enlist code known run => exact Population.merits?_createLearner run
  | join new run => exact Population.merits?_addLearner run
  | leave new run => exact Population.merits?_dropLearner run
  | teach => rfl
  | aim new ok run => exact Population.merits?_setAction run

/-- Growth changes no merits. -/
theorem Path.merits?_eq (h : Path base allowed now next) :
    next.population.merits? = now.population.merits? := by
  induction h with
  | refl => rfl
  | tail _ step ih => exact step.merits?_eq.trans ih

/-- The teams of an earlier stock are there with the merits that they had, and all other
teams are without merits. -/
structure Admits (generation : Nat) (old now : Stock) : Prop where
  counters_le : old.counters ≤ now.counters
  before : ∀ t, old.population.containsTeam t = true →
    now.population.merits? t = old.population.merits? t
  since : ∀ t merits, old.population.containsTeam t = false →
    now.population.merits? t = some merits → merits = .none generation

namespace Admits

variable {old : Stock} {generation : Nat}

theorem refl (generation : Nat) (s : Stock) : Admits generation s s where
  counters_le := le_rfl
  before _ _ := rfl
  since t merits missing found := by
    rw [← Population.merits?_isSome, found] at missing
    cases missing

theorem path (h : Admits generation old now) (path : Path base allowed now next) :
    Admits generation old next where
  counters_le := h.counters_le.trans path.counters_le
  before t there := path.merits?_eq ▸ h.before t there
  since t merits missing found := h.since t merits missing (path.merits?_eq ▸ found)

/-- The identity of a new team is that of no team from before. -/
theorem found (h : Admits generation old now)
    (below : old.population.outline.Below old.counters) :
    Admits generation old ⟨(now.population.createTeam now.counters generation).2.1,
      (now.population.createTeam now.counters generation).2.2⟩ where
  counters_le := h.counters_le.trans
    (by simp [Population.createTeam, Counters.newTeam, Counters.le_def])
  before t there := by
    have apart : t ≠ ⟨now.counters.team⟩ := by
      rintro rfl
      exact absurd (below.team there) (Nat.not_lt.2 h.counters_le.1)
    rw [Population.merits?_createTeam, Function.update_of_ne apart]
    exact h.before t there
  since t merits missing found := by
    rw [Population.merits?_createTeam, Function.update_apply] at found
    split at found
    · exact (Option.some.inj found).symm
    · exact h.since t merits missing found

end Admits

end Stock

end TangledGraph
