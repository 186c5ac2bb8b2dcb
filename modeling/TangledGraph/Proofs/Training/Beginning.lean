import TangledGraph.Proofs.Graph.Progress
import TangledGraph.Proofs.Machine.Variation
import TangledGraph.Proofs.Training.Founding

/-!
# A trainer can be started

With valid settings the first population can be made: every draw has a range
with an element, a new learner has a code for an action, and it is not on the
team that it enters. No loop of it waits for a change, so a start ends unless
one ranged draw refuses all the words that it may read.
-/
namespace TangledGraph

open Draw

/-- A learner with a new identity can enter the team that it is made for. -/
theorem Stock.Sound.recruits {p : Population} {c : Counters} (sound : Stock.Sound ⟨p, c⟩)
    {t : TeamId} (there : p.containsTeam t = true) (instructions : List Instruction)
    (code : Code) :
    ∃ q d r, p.createLearner (Program.create c instructions).2 (Program.create c instructions).1
        (.atomic code) 0 = .ok (⟨c.learner⟩, q, d) ∧
      q.addLearner t ⟨c.learner⟩ = .ok r ∧ Stock.Sound ⟨r, d⟩ ∧ r.containsTeam t = true := by
  have free : ∀ u, (Action.atomic code).target? = some u → p.containsTeam u = true := by simp
  obtain ⟨q, d, created⟩ : ∃ q d, p.createLearner (Program.create c instructions).2
      (Program.create c instructions).1 (.atomic code) 0 = .ok (⟨c.learner⟩, q, d) := by
    obtain ⟨q, created⟩ := Population.createLearner_ok (Program.create c instructions).2
      (Program.create c instructions).1 free 0
    exact ⟨q, _, created⟩
  have enlisted : Stock.Step {} (fun _ => True) ⟨p, c⟩ ⟨q, d⟩ :=
    .enlist instructions (.inl trivial) created
  have there' : q.containsTeam t = true := (congrFun enlisted.teams_eq t).trans there
  obtain ⟨-, -, -, eq⟩ := Population.createLearner_outline created
  have policy := congrFun (congrArg Outline.policy? eq) ⟨c.learner⟩
  rw [Outline.policy?_enlist] at policy
  obtain ⟨learner, found, -⟩ := Population.learner?_of_policy? (policy.trans (if_pos rfl))
  have new : ⟨c.learner⟩ ∉ q.members t := by
    intro hl
    have members : q.members t = p.members t := congrFun (congrArg Outline.members eq) t
    rw [members] at hl
    obtain ⟨-, learner', found'⟩ := Population.resolve_member sound.exact hl
    exact Nat.lt_irrefl _ (sound.below.learner (Population.policy?_of_learner? found'))
  obtain ⟨r, added⟩ := Population.addLearner_ok there' found new
  have joined : Stock.Step {} (fun _ => True) ⟨q, d⟩ ⟨r, d⟩ := .join (Nat.zero_le _) added
  exact ⟨q, d, r, created, added, Stock.Path.sound (.tail (.single enlisted) joined) sound,
    (congrFun joined.teams_eq t).trans there'⟩

/-- A team that is founded is there. -/
theorem Stock.Sound.founded {p : Population} {c : Counters} (sound : Stock.Sound ⟨p, c⟩)
    (generation : Nat) : (p.createTeam c generation).2.1.containsTeam ⟨c.team⟩ = true := by
  have teams := congrArg Outline.teams (Population.createTeam_new sound.absent generation)
  exact (congrFun teams _).trans (Function.update_self ..)

namespace Trainer

variable {stalls : Stream → Prop} {s : Settings}

section Draws

variable (stuck : ∀ s : Stream, s.Stuck → stalls s) (valid : s.Valid)
include stuck valid

theorem initialCodes_safe : Safe stalls (initialCodes s) fun _ => True := by
  unfold initialCodes
  extract_lets actions more
  have rest (first : List Code) : Safe stalls (more first) fun _ => True := by
    refine (between_safe stuck (Nat.zero_le _)).bind fun extra _ => ?_
    exact (Safe.mapM (fun _ => CodeSet.sample_safe stuck valid.some_code) _).bind
      fun _ _ => Safe.pure trivial
  split
  case isTrue two =>
    exact (distinctPair_safe stuck two).bind fun _ _ => (Safe.pure trivial).skip fun _ => rest _
  case isFalse =>
    refine (CodeSet.sample_safe stuck valid.some_code).bind fun _ _ => ?_
    refine (CodeSet.sample_safe stuck valid.some_code).bind fun _ _ => ?_
    exact (Safe.pure trivial).skip fun _ => rest _

theorem addInitialLearners_safe {t : TeamId} (codes : List Code) {stock : Stock}
    (sound : stock.Sound) (there : stock.population.containsTeam t = true) :
    Safe stalls (addInitialLearners s t codes stock) Stock.Sound := by
  induction codes generalizing stock with
  | nil => exact Safe.pure sound
  | cons code codes ih =>
    obtain ⟨p, c⟩ := stock
    refine (ProgramSettings.randomProgram_safe stuck valid c).bind fun made h => ?_
    obtain ⟨instructions, rfl⟩ := h
    obtain ⟨q, d, r, created, added, sound', there'⟩ := sound.recruits there instructions code
    exact Safe.lift_bind created (Safe.lift_bind added (ih sound' there'))

theorem initialTeams_safe (n : Nat) {stock : Stock} (sound : stock.Sound) :
    Safe stalls (initialTeams s n stock) fun _ => True := by
  induction n generalizing stock with
  | zero => exact Safe.pure trivial
  | succ n ih =>
    obtain ⟨p, c⟩ := stock
    refine (initialCodes_safe stuck valid).bind fun codes _ => ?_
    exact (addInitialLearners_safe stuck valid codes (sound.found 0) (sound.founded 0)).bind
      fun made sound' => ih sound'

end Draws

/-- Settings are refused, or a trainer starts, or a ranged draw never ends. -/
theorem start_cases (s : Settings) (stream : Stream) :
    (∃ problem, s.validate = .error problem ∧
        start s stream = .ok (.error (.configuration problem))) ∨
      s.validate = .ok () ∧
        ((∃ t, start s stream = .ok (.ok t)) ∨
          start s stream = .error .endless ∧ ∃ later, stream.Before later ∧ later.Stuck) := by
  cases validation : s.validate with
  | error problem => exact .inl ⟨problem, rfl, by simp only [start, validation]; rfl⟩
  | ok passed =>
    refine .inr ⟨rfl, ?_⟩
    have before : stream.Before (drawSeedBase s.trainer.seed stream).2 := by
      unfold drawSeedBase
      cases s.trainer.seed with
      | some seed => exact .refl
      | none => exact .single (.inl rfl)
    have teams := initialTeams_safe (fun _ => id) (Settings.valid_of_validate validation)
      s.trainer.teamPopSize Stock.sound_empty (drawSeedBase s.trainer.seed stream).2
    simp only [start, validation]
    obtain ⟨stock, rest, run, -, -⟩ | ⟨run, later, stalled, stuck⟩ := teams
    · exact .inl ⟨_, by rw [run]; rfl⟩
    · exact .inr ⟨by rw [run]; rfl, later, before.trans stalled, stuck⟩

end Trainer

end TangledGraph
