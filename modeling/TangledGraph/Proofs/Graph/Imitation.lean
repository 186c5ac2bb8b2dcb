import Mathlib.Data.List.Dedup
import TangledGraph.Graph.Variation
import TangledGraph.Proofs.Graph.History
import TangledGraph.Proofs.Graph.Looseness

/-!
# Variation in spite of loose records

Variation reads of a population what loose records leave as it is, and edits it. So
with the same words a loose stock is varied as a tidy one is, and stays as loose. A
population that an audit finds nothing in has a tidy copy: each record once.
-/
namespace TangledGraph

open Draw

namespace Stock

/-- The first population is the second one with loose records. -/
structure Loosens (a b : Stock) : Prop where
  population : a.population.Loosens b.population
  counters : a.counters = b.counters

variable {s : Settings} {generation : Nat} {a b : Stock} {p q : Population}

theorem drawAction_eq (h : p.Loosens q) (current : Action) (parent : TeamId) (pool : List TeamId)
    (forceAtomic : Bool) : drawAction s p current parent pool forceAtomic =
      drawAction s q current parent pool forceAtomic := by
  simp only [drawAction, h.containsTeam_eq]

theorem removable_eq (h : p.Loosens q) (t : TeamId) : removable p t = removable q t := by
  refine h.getTeam_bind (fun c d alike => ?_) t
  rw [h.atomicCount_eq, alike.learners]
  refine bind_congr fun n => congrArg (d.learners.filterM ·) ?_
  ext1 l
  exact h.getLearner_bind (fun _ _ alike => by rw [alike.isAtomic_eq]) l

theorem recruits_eq (h : p.Loosens q) (t : TeamId) (members pool : List LearnerId) :
    recruits p t members pool = recruits q t members pool := by
  have leads (l : LearnerId) := h.map_learner? (fun _ _ alike => alike.target?_eq) l
  have any (r : Population) (l : LearnerId) : (r.learner? l).any (fun learner =>
      learner.target? != some t) = ((r.learner? l).map Learner.target?).any (· != some t) := by
    cases r.learner? l <;> rfl
  simp only [recruits, any, leads]

section Learners

variable {l : LearnerId} {parent : TeamId} {pool : List TeamId} {forceAtomic : Bool}

theorem Loosens.varyProgramOf (h : a.Loosens b) :
    Follows Loosens (a.varyProgramOf s l) (b.varyProgramOf s l) := by
  refine Follows.lift_bind (h.population.getLearner l) fun c d alike => ?_
  rw [alike.program, h.counters]
  refine Follows.skip fun made => Follows.pure ⟨h.population.setLearner ?_ l, rfl⟩
  exact ⟨rfl, alike.action, alike.teams⟩

theorem Loosens.varyAction (h : a.Loosens b) :
    Follows (fun x y => x.1 = y.1 ∧ Loosens x.2 y.2) (a.varyAction s l parent pool forceAtomic)
      (b.varyAction s l parent pool forceAtomic) := by
  refine Follows.lift_bind (h.population.getLearner l) fun c d alike => ?_
  dsimp only
  rw [alike.action, drawAction_eq h.population]
  refine Follows.skip fun drawn => ?_
  cases drawn with
  | none => exact Follows.pure ⟨rfl, h⟩
  | some action =>
    refine Follows.ite (Follows.pure ⟨rfl, h⟩) ?_
    exact Follows.lift_bind (h.population.setAction l action) fun _ _ after =>
      Follows.pure ⟨rfl, after, h.counters⟩

theorem Loosens.learnerRound (h : a.Loosens b) :
    Follows (Sum.LiftRel Loosens Loosens) (learnerRound s l parent pool forceAtomic a)
      (learnerRound s l parent pool forceAtomic b) := by
  refine Follows.skip fun program => ?_
  refine Follows.either h.varyProgramOf (Follows.pure h) fun a b h => ?_
  refine Follows.skip fun act => ?_
  refine Follows.either h.varyAction (Follows.pure ⟨rfl, h⟩) fun x y ⟨same, h⟩ => ?_
  dsimp only
  rw [same]
  refine Follows.pure ?_
  split
  · exact .inr h
  · exact .inl h

theorem Loosens.varyLearner (h : a.Loosens b) :
    Follows Loosens (varyLearner s a l parent pool forceAtomic)
      (varyLearner s b l parent pool forceAtomic) :=
  Follows.iterate (fun _ _ h => h.learnerRound) _ h

end Learners

section Teams

variable {t : TeamId} {pool : List TeamId} {learnerPool : List LearnerId}

theorem deleteLearners_follows (h : p.Loosens q) (fuel : Nat) (probability : Float) :
    Follows Population.Loosens (deleteLearners s t fuel probability p)
      (deleteLearners s t fuel probability q) := by
  induction fuel generalizing probability p q with
  | zero => exact Follows.endless
  | succ fuel ih =>
    refine Follows.skip fun again => Follows.ite (Follows.pure h) ?_
    refine Follows.lift_bind (h.getTeam t) fun c d alike => ?_
    rw [alike.learners]
    refine Follows.ite (Follows.pure h) ?_
    rw [removable_eq h]
    refine Follows.skip fun candidates => Follows.skip fun victim => ?_
    cases victim with
    | none => exact Follows.pure h
    | some victim => exact Follows.lift_bind (h.dropLearner t victim) fun _ _ h => ih h _

theorem addLearners_follows (h : p.Loosens q) (fuel : Nat) (probability : Float) :
    Follows Population.Loosens (addLearners s t learnerPool fuel probability p)
      (addLearners s t learnerPool fuel probability q) := by
  induction fuel generalizing probability p q with
  | zero => exact Follows.endless
  | succ fuel ih =>
    refine Follows.skip fun again => Follows.ite (Follows.pure h) ?_
    refine Follows.lift_bind (h.getTeam t) fun c d alike => ?_
    dsimp only
    rw [alike.learners, recruits_eq h]
    refine Follows.ite (Follows.pure h) (Follows.skip fun recruit => ?_)
    cases recruit with
    | none => exact Follows.pure h
    | some recruit => exact Follows.lift_bind (h.addLearner t recruit) fun _ _ h => ih h _

theorem Loosens.replaceLearner (h : a.Loosens b) (member : LearnerId) :
    Follows Loosens (replaceLearner s generation t pool a member)
      (replaceLearner s generation t pool b member) := by
  unfold Stock.replaceLearner
  dsimp only
  rw [h.population.atomicCount_eq, h.counters]
  refine Follows.skip fun atomics => ?_
  refine Follows.lift_bind (h.population.getLearner member) fun c d alike => ?_
  rw [alike.isAtomic_eq]
  refine Follows.lift_bind (h.population.dropLearner t member) fun _ _ left => ?_
  refine Follows.lift_bind (left.cloneLearner _ member generation) ?_
  rintro ⟨copy, p, c⟩ ⟨copy', q, c'⟩ ⟨rfl, made, rfl⟩
  refine Follows.bind (Loosens.varyLearner ⟨made, rfl⟩) fun _ _ varied => ?_
  exact Follows.lift_bind (varied.population.addLearner t copy) fun _ _ joined =>
    Follows.pure ⟨joined, varied.counters⟩

theorem Loosens.replaceLearners (h : a.Loosens b) (ls : List LearnerId) :
    Follows Loosens (replaceLearners s generation t pool ls a)
      (replaceLearners s generation t pool ls b) := by
  induction ls generalizing a b with
  | nil => exact Follows.pure h
  | cons l rest ih =>
    refine Follows.skip fun replaces => Follows.ite ?_ (ih h)
    exact (h.replaceLearner l).bind fun _ _ => ih

theorem Loosens.teamPass (h : a.Loosens b) :
    Follows Loosens (teamPass s generation t learnerPool pool a)
      (teamPass s generation t learnerPool pool b) := by
  refine Follows.lift_bind (h.population.getTeam t) fun c d alike => ?_
  rw [alike.learners]
  refine (deleteLearners_follows h.population _ _).bind fun p q h' => ?_
  refine (addLearners_follows h' _ _).bind fun p q h'' => ?_
  refine Follows.lift_bind (h''.getTeam t) fun c d alike => ?_
  dsimp only
  rw [alike.learners]
  exact Loosens.replaceLearners (a := { a with population := p }) (b := { b with population := q })
    ⟨h'', h.counters⟩ _

theorem Loosens.teamPasses (h : a.Loosens b) (n : Nat) :
    Follows Loosens (teamPasses s generation t learnerPool pool n a)
      (teamPasses s generation t learnerPool pool n b) := by
  induction n generalizing a b with
  | zero => exact Follows.pure h
  | succ n ih => exact h.teamPass.bind fun _ _ => ih

theorem Loosens.varyTeam (h : a.Loosens b) :
    Follows Loosens (varyTeam s generation a t learnerPool pool)
      (varyTeam s generation b t learnerPool pool) := by
  refine Follows.skip fun repetitions => (h.teamPasses repetitions).bind fun _ _ varied => ?_
  rw [varied.population.assertWellFormed_eq]
  exact Follows.skip fun _ => Follows.pure varied

end Teams

end Stock

namespace Population

variable {p : Population}

/-- Each record once. -/
def tidied (p : Population) : Population where
  teams := p.teams.map fun _ team => { team with inLearners := team.inLearners.dedup }
  learners := p.learners.map fun _ learner => { learner with inTeams := learner.inTeams.dedup }

theorem team?_tidied (p : Population) (t : TeamId) : p.tidied.team? t =
    (p.team? t).map fun team => { team with inLearners := team.inLearners.dedup } :=
  Std.ExtTreeMap.getElem?_map

theorem learner?_tidied (p : Population) (l : LearnerId) : p.tidied.learner? l =
    (p.learner? l).map fun learner => { learner with inTeams := learner.inTeams.dedup } :=
  Std.ExtTreeMap.getElem?_map

theorem loosens_tidied (p : Population) : p.Loosens p.tidied where
  team t := by
    rw [team?_tidied]
    cases p.team? t with
    | none => exact .none
    | some team => exact .some ⟨rfl, (List.dedup_sublist _).subperm⟩
  learner l := by
    rw [learner?_tidied]
    cases p.learner? l with
    | none => exact .none
    | some learner => exact .some ⟨rfl, rfl, fun t => List.mem_dedup.symm⟩

theorem exact_tidied (audited : p.audit = []) (nodup : ∀ t, (p.members t).Nodup) :
    p.tidied.outline.Exact := by
  obtain ⟨member, reference⟩ := audit_eq_nil_iff.1 audited
  have alike := p.loosens_tidied
  have references (t : TeamId) : p.tidied.references t = (p.references t).dedup := by
    unfold Population.references
    rw [team?_tidied]
    cases p.team? t <;> simp
  have teamsOf (l : LearnerId) : p.tidied.teamsOf l = (p.teamsOf l).dedup := by
    unfold Population.teamsOf
    rw [learner?_tidied]
    cases p.learner? l <;> simp
  refine ⟨?_, ?_, ?_, ?_, ?_⟩
  · intro t l
    simp only [outline_members, outline_teamsOf, ← alike.members_eq, teamsOf, List.mem_dedup]
    exact member t l
  · intro t l
    simp only [outline_references, references, List.mem_dedup, ← Population.target?_eq]
    rw [← alike.target?_eq]
    exact reference t l
  · intro t
    rw [outline_members, ← alike.members_eq]
    exact nodup t
  · intro t
    rw [outline_references, references]
    exact List.nodup_dedup _
  · intro l
    rw [outline_teamsOf, teamsOf]
    exact List.nodup_dedup _

end Population

end TangledGraph
