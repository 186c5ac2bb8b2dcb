import Mathlib.Data.List.Nodup
import TangledGraph.Graph.Audit
import TangledGraph.Proofs.Graph.Removal

/-!
# Well-formed teams

What an assertion of the rules for a single team makes sure of, as a property
of its outline. A team that is a part of another population is well formed in
both or in neither.
-/
namespace TangledGraph

theorem length_eraseDups_le : ∀ xs : List LearnerId, xs.eraseDups.length ≤ xs.length
  | [] => Nat.le_refl _
  | x :: xs => by
    have kept := List.length_filter_le (fun y => !y == x) xs
    have rest := length_eraseDups_le (xs.filter fun y => !y == x)
    rw [List.eraseDups_cons, List.length_cons, List.length_cons]
    omega
termination_by xs => xs.length
decreasing_by exact Nat.lt_succ_of_le kept

/-- A list that loses nothing with its repetitions has none. -/
theorem nodup_of_length_eraseDups {xs : List LearnerId}
    (h : xs.eraseDups.length = xs.length) : xs.Nodup := by
  induction xs with
  | nil => exact List.nodup_nil
  | cons x xs ih =>
    rw [List.eraseDups_cons, List.length_cons, List.length_cons] at h
    have atMost := length_eraseDups_le (xs.filter fun y => !y == x)
    have kept := List.length_filter_le (fun y => !y == x) xs
    have all : xs.filter (fun y => !y == x) = xs :=
      List.filter_eq_self.2 (List.length_filter_eq_length_iff.1 (by omega))
    rw [all] at h
    refine List.nodup_cons.2 ⟨fun there => ?_, ih (by omega)⟩
    simpa using List.filter_eq_self.1 all x there

namespace Population

variable {p q : Population} {t : TeamId}

/-- The rules for a single team. -/
structure WellFormed (p : Population) (t : TeamId) : Prop where
  two_le : 2 ≤ (p.members t).length
  nodup : (p.members t).Nodup
  atomic : ∃ l ∈ p.members t, ∃ program code, p.policy? l = some (program, .atomic code)
  foreign : ∀ l ∈ p.members t, p.target? l ≠ some t

theorem exists_atomic {ls : List LearnerId} {n : Nat} (run : p.atomicAmong ls = .ok n)
    (some_atomic : n ≠ 0) :
    ∃ l ∈ ls, ∃ program code, p.policy? l = some (program, .atomic code) := by
  induction ls generalizing n with
  | nil =>
    simp only [atomicAmong, pure_eq_ok] at run
    exact absurd run.symm some_atomic
  | cons l ls ih =>
    simp only [atomicAmong, bind_eq_ok, getLearner_eq_ok, pure_eq_ok] at run
    obtain ⟨learner, enlisted, others, run, rfl⟩ := run
    cases action : learner.action with
    | atomic code =>
      refine ⟨l, List.mem_cons_self, learner.program, code, ?_⟩
      rw [policy?_of_learner? enlisted, action]
    | team target =>
      rw [if_neg (by simp [Learner.isAtomic, action])] at some_atomic
      obtain ⟨k, there, atomic⟩ := ih run some_atomic
      exact ⟨k, List.mem_cons_of_mem l there, atomic⟩

/-- The learners that break the rule against own targets. -/
theorem foreign_of_filterMapM {ls : List LearnerId}
    (run : (ls.filterMapM fun l => do
      let learner ← p.getLearner l
      pure (if learner.target? = some t then some (TeamProblem.ownTarget l t) else none) :
        Except Fault _) = .ok []) :
    ∀ l ∈ ls, p.target? l ≠ some t := by
  induction ls with
  | nil => simp
  | cons l ls ih =>
    simp only [List.filterMapM_cons, bind_assoc, pure_bind, bind_eq_ok, getLearner_eq_ok] at run
    obtain ⟨learner, enlisted, run⟩ := run
    by_cases own : learner.target? = some t
    · simp only [own, if_true, bind_eq_ok, pure_eq_ok] at run
      obtain ⟨others, -, listed⟩ := run
      simp at listed
    · rw [if_neg own] at run
      refine List.forall_mem_cons.2 ⟨?_, ih run⟩
      rwa [target?_of_learner? enlisted]

/-- A team that passes the assertion keeps all the rules. -/
theorem wellFormed_of_assert (run : p.assertWellFormed t = .ok ()) : p.WellFormed t := by
  simp only [assertWellFormed, bind_eq_ok] at run
  obtain ⟨problems, run, none⟩ := run
  obtain rfl : problems = [] := by
    cases problems with
    | nil => rfl
    | cons problem rest => simp at none
  simp only [teamProblems, atomicCount, bind_eq_ok, getTeam_eq_ok, pure_eq_ok] at run
  obtain ⟨team, found, n, ⟨team', found', counted⟩, own, foreign, eq⟩ := run
  obtain rfl : team = team' := Option.some.inj (found.symm.trans found')
  simp only [List.append_eq_nil_iff] at eq
  obtain ⟨⟨⟨size, atomic⟩, distinct⟩, rfl⟩ := eq
  have listed := members_of_team? found
  refine ⟨?_, ?_, ?_, ?_⟩
  · rw [listed]
    by_contra few
    simp [Nat.not_le.1 few] at size
  · rw [listed]
    refine nodup_of_length_eraseDups ?_
    by_contra repeated
    simp [repeated] at distinct
  · rw [listed]
    refine exists_atomic counted fun zero => ?_
    simp [zero] at atomic
  · rw [listed]
    exact foreign_of_filterMapM foreign

/-- The rules for a team are about nothing but the part that it is in. -/
theorem wellFormed_iff (exact : p.outline.Exact) (part : p.outline.PartOf q.outline)
    (there : p.containsTeam t) : p.WellFormed t ↔ q.WellFormed t := by
  have members : q.members t = p.members t := part.members there
  have policy {l} (h : l ∈ p.members t) : q.policy? l = p.policy? l := by
    obtain ⟨-, learner, enlisted⟩ := resolve_member exact h
    have before := policy?_of_learner? enlisted
    exact (part.policy before).trans before.symm
  have target {l} (h : l ∈ p.members t) : q.target? l = p.target? l := by
    simp only [target?_eq, Outline.target?, outline_policy?, policy h]
  constructor
  · intro h
    refine ⟨members ▸ h.two_le, members ▸ h.nodup, ?_, ?_⟩
    · obtain ⟨l, hl, atomic⟩ := h.atomic
      exact ⟨l, members ▸ hl, policy hl ▸ atomic⟩
    · intro l hl
      rw [members] at hl
      exact target hl ▸ h.foreign l hl
  · intro h
    refine ⟨members ▸ h.two_le, members ▸ h.nodup, ?_, ?_⟩
    · obtain ⟨l, hl, atomic⟩ := h.atomic
      rw [members] at hl
      exact ⟨l, hl, policy hl ▸ atomic⟩
    · intro l hl
      exact target hl ▸ h.foreign l (members ▸ hl)

end Population

end TangledGraph
