import Mathlib.Data.List.Forall2
import TangledGraph.Proofs.Graph.Outline
import TangledGraph.Training.Generation

/-!
# Outcomes that are missing

A generation needs an outcome of every root on every task that counts. It is
refused exactly if there is no such task, or for the first root that lacks an
outcome, with the first task that it lacks one for.
-/
namespace TangledGraph

section Traversal

variable {α β ε : Type}

/-- The error of a computation that has one. -/
def refusal? : Except ε β → Option ε
  | .error e => some e
  | .ok _ => none

/-- A traversal ends at the first error, and otherwise in all the results in order. -/
theorem mapM_cases (f : α → Except ε β) (xs : List α) :
    (∃ e, xs.findSome? (fun a => refusal? (f a)) = some e ∧ xs.mapM f = .error e) ∨
      xs.findSome? (fun a => refusal? (f a)) = none ∧
        ∃ ys, xs.mapM f = .ok ys ∧ List.Forall₂ (fun a b => f a = .ok b) xs ys := by
  induction xs with
  | nil => exact .inr ⟨rfl, [], rfl, .nil⟩
  | cons a xs ih =>
    rw [List.mapM_cons]
    cases first : f a with
    | error e => exact .inl ⟨e, by simp [first, refusal?], rfl⟩
    | ok b =>
      have found : (a :: xs).findSome? (fun a => refusal? (f a)) =
          xs.findSome? fun a => refusal? (f a) := by
        simp [first, refusal?]
      rw [found]
      obtain ⟨e, rest, run⟩ | ⟨rest, ys, run, each⟩ := ih
      · exact .inl ⟨e, rest, by rw [run]; rfl⟩
      · exact .inr ⟨rest, b :: ys, by rw [run]; rfl, .cons first each⟩

end Traversal

namespace Trainer

variable {t : Trainer} {tasks : List String}

/-- Whether there is no outcome of a team on a task. -/
def lacks (t : Trainer) (id : TeamId) (task : String) : Bool :=
  ((t.population.team? id).bind (·.outcome? task)).isNone

/-- The first root without an outcome on some of the tasks, with the first of
these tasks. -/
def missing? (t : Trainer) (tasks : List String) : Option (TeamId × String) :=
  t.roots.findSome? fun id => (tasks.find? (t.lacks id)).map fun task => (id, task)

/-- A row is there, as wide as there are tasks, unless an outcome is missing. -/
theorem outcomeRow_cases {id : TeamId} (there : t.population.containsTeam id = true)
    (tasks : List String) :
    refusal? (t.outcomeRow tasks id) = (tasks.find? (t.lacks id)).map (Error.missingOutcome id) ∧
      ∀ row, t.outcomeRow tasks id = .ok row → row.length = tasks.length := by
  obtain ⟨team, found⟩ := Population.containsTeam_iff.1 there
  have row : t.outcomeRow tasks id = tasks.mapM (outcomeOf id team) := by
    rw [outcomeRow, found]
  have first : tasks.findSome? (fun task => refusal? (outcomeOf id team task)) =
      (tasks.find? (t.lacks id)).map (Error.missingOutcome id) := by
    rw [List.find?_eq_findSome?_guard, List.map_findSome?]
    congr 1
    funext task
    cases outcome : team.outcome? task <;>
      simp [outcomeOf, lacks, found, outcome, Option.guard, refusal?, pure, Except.pure, throw,
        throwThe, MonadExceptOf.throw]
  rw [row]
  obtain ⟨e, refused, run⟩ | ⟨refused, outcomes, run, each⟩ :=
    mapM_cases (outcomeOf id team) tasks
  · refine ⟨?_, by simp [run]⟩
    rw [run, ← first, refused]
    rfl
  · refine ⟨?_, fun row eq => ?_⟩
    · rw [run, ← first, refused]
      rfl
    · obtain rfl := Except.ok.inj (run.symm.trans eq)
      exact each.length_eq.symm

/-- The outcomes of all roots on the tasks that count, or the first reason why
there are none. -/
theorem outcomeMatrix_cases (there : ∀ id ∈ t.roots, t.population.containsTeam id = true)
    (tasks : List String) :
    t.effectiveTasks tasks = [] ∧ t.outcomeMatrix tasks = .error (.configuration .noTasks) ∨
    t.effectiveTasks tasks ≠ [] ∧
      ((∃ id task, t.missing? (t.effectiveTasks tasks) = some (id, task) ∧
          t.outcomeMatrix tasks = .error (.missingOutcome id task)) ∨
        t.missing? (t.effectiveTasks tasks) = none ∧
          ∃ outcomes, t.outcomeMatrix tasks = .ok outcomes ∧
            outcomes.length = t.roots.length ∧
            ∀ row ∈ outcomes, row.length = (t.effectiveTasks tasks).length) := by
  unfold outcomeMatrix
  generalize t.effectiveTasks tasks = effective
  by_cases none : effective = []
  · exact .inl ⟨none, by simp [none, bind, Except.bind, throw, throwThe, MonadExceptOf.throw]⟩
  refine .inr ⟨none, ?_⟩
  have some_task : effective.isEmpty = false := by simpa using none
  simp only [some_task, Bool.false_eq_true, if_false]
  have first : t.roots.findSome? (fun id => refusal? (t.outcomeRow effective id)) =
      (t.missing? effective).map fun found => Error.missingOutcome found.1 found.2 := by
    rw [missing?, List.map_findSome?, ← List.head?_filterMap, ← List.head?_filterMap]
    congr 1
    refine List.filterMap_congr fun id root => ?_
    rw [(outcomeRow_cases (there id root) effective).1, Function.comp_apply, Option.map_map]
    rfl
  obtain ⟨e, refused, run⟩ | ⟨refused, outcomes, run, each⟩ :=
    mapM_cases (t.outcomeRow effective) t.roots
  · rw [first, Option.map_eq_some_iff] at refused
    obtain ⟨⟨id, task⟩, found, rfl⟩ := refused
    exact .inl ⟨id, task, found, run⟩
  · rw [first, Option.map_eq_none_iff] at refused
    refine .inr ⟨refused, outcomes, run, each.length_eq.symm, fun row listed => ?_⟩
    obtain ⟨i, inside, rfl⟩ := List.getElem_of_mem listed
    have root : i < t.roots.length := each.length_eq.symm ▸ inside
    have made : t.outcomeRow effective t.roots[i] = .ok outcomes[i] := each.get root inside
    exact (outcomeRow_cases (there _ (List.getElem_mem root)) effective).2 _ made

end Trainer

end TangledGraph
