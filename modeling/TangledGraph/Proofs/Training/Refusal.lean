import TangledGraph.Proofs.Training.Beginning
import TangledGraph.Proofs.Training.Gap
import TangledGraph.Proofs.Training.Outcomes
import TangledGraph.Proofs.Training.Progress
import TangledGraph.Proofs.Training.Reachable

/-!
# What a trainer refuses

A trainer refuses nothing but invalid settings and a generation without the
outcomes that it needs, and then nothing has changed. Otherwise it goes on
without a fault, unless a loop that ends by chance does not end.
-/
namespace TangledGraph

open Rounding

namespace Trainer

variable {s : Settings} {t next : Trainer} {tasks : List String} {mode : Scoring.Mode}

/-- A trainer is started by valid settings only. -/
theorem Reachable.valid (h : Reachable s t) : s.validate = .ok () := by
  induction h with
  | start run => exact (start_eq_ok run).1
  | redraw _ _ ih | share _ _ _ ih | report _ _ _ _ _ ih | apply _ _ ih | evaluate _ _ _ _ ih
  | evolve _ _ _ _ ih => exact ih

/-- How a trainer takes a call for a generation. The places that it looks up are
there, and what it sorts, if there are only numbers in it, can be sorted. -/
structure Responds (t : Trainer) (tasks : List String) (mode : Scoring.Mode) : Prop where
  noTask : t.effectiveTasks tasks = [] →
    t.evolve tasks mode = .ok (.error (.configuration .noTasks), t)
  missing : t.effectiveTasks tasks ≠ [] → ∀ id task,
    t.missing? (t.effectiveTasks tasks) = some (id, task) →
      t.evolve tasks mode = .ok (.error (.missingOutcome id task), t)
  goes : t.effectiveTasks tasks ≠ [] → t.missing? (t.effectiveTasks tasks) = none →
    (∃ summary next, t.evolve tasks mode = .ok (.ok summary, next)) ∨
      t.evolve tasks mode = .error .endless
  champions : ∀ outcomes, t.outcomeMatrix tasks = .ok outcomes →
    ∀ i ∈ Scoring.elites outcomes, i < t.roots.length
  condemned : Selection.condemned t.roots.length t.settings.trainer.gap ≤ t.roots.length
  rankable : ∀ outcomes, t.outcomeMatrix tasks = .ok outcomes →
    (∀ row ∈ outcomes, ∀ x ∈ row, x.isNaN = false) → ∀ order,
      Sorts (fun a b => Scoring.standing order a.1 b.1 != .gt) outcomes.zipIdx
  sortable : ∀ fitness : List Float, (∀ x ∈ fitness, x.isNaN = false) →
    Sorts (fun a b => !(a.2 < b.2)) (t.roots.zip fitness)

/-- A trainer responds if its roots are there and it goes through a generation with
any outcomes, as many of each root. -/
theorem responds_of_faultless (there : ∀ id ∈ t.roots, t.population.containsTeam id = true)
    (gap : isProbability t.settings.trainer.gap = true)
    (advances : ∀ (outcomes : Scoring.Matrix) (n : Nat), (∀ row ∈ outcomes, row.length = n) →
      Draw.Faultless (t.advance outcomes mode) fun _ => True) : t.Responds tasks mode := by
  have cases := outcomeMatrix_cases there tasks
  constructor
  case noTask =>
    intro none
    obtain ⟨-, refused⟩ | ⟨some, -⟩ := cases
    · rw [evolve, refused]
      rfl
    · exact absurd none some
  case missing =>
    intro some id task missing
    obtain ⟨none, -⟩ | ⟨-, ⟨id', task', missing', refused⟩ | ⟨nothing, -⟩⟩ := cases
    · exact absurd none some
    · obtain ⟨rfl, rfl⟩ := Prod.mk.inj (Option.some.inj (missing.symm.trans missing'))
      rw [evolve, refused]
      rfl
    · simp [missing] at nothing
  case goes =>
    intro some nothing
    obtain ⟨none, -⟩ | ⟨-, ⟨id, task, missing, -⟩ | ⟨-, outcomes, full, -, rows⟩⟩ := cases
    · exact absurd none some
    · simp [missing] at nothing
    simp only [evolve, full]
    obtain ⟨⟨summary, next⟩, rest, run, -⟩ | ⟨run, -⟩ := advances outcomes _ rows t.stream
    · exact .inl ⟨summary, { next with stream := rest }, by rw [run]; rfl⟩
    · exact .inr (by rw [run]; rfl)
  case champions =>
    intro outcomes full i champion
    obtain ⟨-, refused⟩ | ⟨-, ⟨_, _, -, refused⟩ | ⟨-, outcomes', full', length, -⟩⟩ := cases
    · simp [refused] at full
    · simp [refused] at full
    · obtain rfl := Except.ok.inj (full.symm.trans full')
      exact length ▸ Scoring.elites_lt i champion
  case condemned => exact Selection.condemned_le gap
  case rankable =>
    intro outcomes _ numbers order
    refine Scoring.sorts_standing order fun row listed => ?_
    exact Scoring.numeric_of_forall (numbers row.1 (List.fst_mem_of_mem_zipIdx listed))
  case sortable =>
    intro fitness numbers
    exact sorts_descending Prod.snd fun score listed => numbers score.2 (List.of_mem_zip listed).2

theorem Sound.responds (sound : t.Sound s) (valid : s.Valid) (tasks : List String)
    (mode : Scoring.Mode) : t.Responds tasks mode :=
  responds_of_faultless (fun _ root => (sound.unreferred root).1) (sound.settings ▸ valid.gap)
    fun _ _ rows => advance_faultless sound valid rows mode

/-- A trainer is refused for invalid settings, and a generation for want of a
task or an outcome; a refused trainer is as it was. Nothing else goes wrong. -/
theorem refuses_or_goes :
    (∀ s stream,
      (∃ problem, s.validate = .error problem ∧
        start s stream = .ok (.error (.configuration problem))) ∨
      s.validate = .ok () ∧ 2 ≤ s.mutation.initMaxTeamSize ∧
        ((∃ t, start s stream = .ok (.ok t)) ∨
          start s stream = .error .endless ∧ ∃ later, stream.Before later ∧ later.Stuck)) ∧
    ∀ s t, Reachable s t → ∀ tasks mode, t.Responds tasks mode := by
  constructor
  · intro s stream
    obtain refused | ⟨valid, started⟩ := start_cases s stream
    · exact .inl refused
    · exact .inr ⟨valid, (Settings.valid_of_validate valid).two_learners, started⟩
  · intro s t reached tasks mode
    exact reached.sound.responds (Settings.valid_of_validate reached.valid) tasks mode

/-- Before the first report there is no task to score, and the first root lacks
any that is asked for. -/
theorem small_refuses : ∃ t, Reachable small t ∧
    t.evolve [] .single = .ok (.error (.configuration .noTasks), t) ∧
    t.evolve ["task"] .min = .ok (.error (.missingOutcome ⟨0⟩ "task"), t) := by
  have run : ((start small (Stream.ofScript [])).toOption.bind (·.toOption)).map (fun t =>
      (t.effectiveTasks [], t.missing? ["task"])) = some ([], some (⟨0⟩, "task")) := by
    decide +kernel
  obtain ⟨t, started, found⟩ := Option.map_eq_some_iff.1 run
  obtain ⟨result, ok, started⟩ := Option.bind_eq_some_iff.1 started
  obtain ⟨none, missing⟩ := Prod.mk.inj found
  obtain rfl := ok_of_toOption started
  have reached : Reachable small t := .start (ok_of_toOption ok)
  have responds := refuses_or_goes.2 small t reached
  have asked : t.effectiveTasks ["task"] = ["task"] := rfl
  refine ⟨t, reached, (responds [] .single).noTask none, ?_⟩
  exact (responds ["task"] .min).missing (by simp [asked]) _ _ (asked ▸ missing)

end Trainer

end TangledGraph
