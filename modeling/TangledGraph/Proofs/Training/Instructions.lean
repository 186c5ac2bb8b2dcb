import TangledGraph.Proofs.Training.Passage

/-!
# Programs of a lineage

A program within bounds is varied without a fault, to other instructions within the
same bounds under the next identity. Its variation may go on for a while, but may
end with any of its rounds. Programs are drawn within bounds, so all programs of a
lineage are.
-/
namespace TangledGraph

open Draw Relation

variable {s : Settings}

/-- A varied program has other instructions, at least one and not too many, all of
them within their ranges, and takes the next identity. -/
structure Program.Varied (s : ProgramSettings) (p : Program) (c : Counters)
    (made : Program × Counters) : Prop where
  changed : made.1.instructions ≠ p.instructions
  least : made.1.instructions ≠ []
  most : made.1.instructions.length ≤ max s.maxProgramSize p.instructions.length
  within : ∀ i ∈ made.1.instructions, s.Within i
  id : made.1.id = ⟨c.program⟩
  counters : made.2 = { c with program := c.program + 1 }

theorem ProgramSettings.varyProgram_varied (valid : s.Valid) {p : Program}
    (some_code : p.instructions ≠ []) (within : ∀ i ∈ p.instructions, s.program.Within i)
    (c : Counters) :
    Faultless (s.mutation.varyProgram s.program p c) (p.Varied s.program c) := by
  have bounded : Bounded s.program.Within (max s.program.maxProgramSize p.instructions.length)
      p.instructions :=
    ⟨List.length_pos_iff.2 some_code, Nat.le_max_right _ _, within⟩
  have varied := MutationSettings.varyProgram_bounded (m := s.mutation)
    (randomInstruction_yields s.program) (fun _ => flipField_yields) (Nat.le_max_left _ _) bounded c
  refine ((s.mutation.varyProgram_faultless valid p c).and varied).mono fun made h => ?_
  obtain ⟨-, code, changed, bounded, rfl⟩ := h
  exact ⟨changed, List.length_pos_iff.1 bounded.least, bounded.most, bounded.each, rfl, rfl⟩

/-- What is within bounds when it is drawn stays within them. -/
theorem Stock.hereditary_bounded (sizes : s.program.initMaxProgramSize ≤ s.program.maxProgramSize) :
    Hereditary s (Bounded s.program.Within s.program.maxProgramSize) where
  drawn c := (randomProgram_yields (ProgramSettings.randomInstruction_yields s.program) c).mono
    fun _ bounded => ⟨bounded.least, bounded.most.trans sizes, bounded.each⟩
  varied _ c bounded :=
    (MutationSettings.varyProgram_bounded (ProgramSettings.randomInstruction_yields s.program)
      (fun _ => ProgramSettings.flipField_yields) le_rfl bounded c).mono
      fun _ ⟨code, _, bounded, eq⟩ => ⟨code, bounded, eq⟩

namespace Trainer

theorem Lineage.bounded {t : Trainer} (lineage : Lineage s t) :
    Stock.Programs (Bounded s.program.Within s.program.maxProgramSize) t.population :=
  lineage.programs (Stock.hereditary_bounded (Settings.sizes_of_validate lineage.valid))

/-- The variation of a program within bounds ends in another one within bounds, or
does not end; but whenever it begins a round, it may end. So all programs of a
lineage are within bounds. -/
theorem programs_within_bounds (valid : s.validate = .ok ()) :
    (∀ (p : Program) (c : Counters), p.instructions ≠ [] →
      (∀ i ∈ p.instructions, s.program.Within i) →
      (∀ stream, (∃ made rest,
          (s.mutation.varyProgram s.program p c).run stream = .ok (made, rest) ∧
            p.Varied s.program c made) ∨
          (s.mutation.varyProgram s.program p c).run stream = .error .endless) ∧
        ∀ now, ReflTransGen (s.mutation.Returns s.program p.instructions) p.instructions now →
          ∀ fuel, Allows (iterate (s.mutation.varyRound s.program p.instructions) (fuel + 1) now)
            fun _ => True) ∧
    ∀ t, Lineage s t → ∀ l learner, t.population.learner? l = some learner →
      1 ≤ learner.program.instructions.length ∧
        learner.program.instructions.length ≤ s.program.maxProgramSize ∧
        ∀ i ∈ learner.program.instructions, s.program.Within i := by
  have valid' := Settings.valid_of_validate valid
  refine ⟨fun p c some_code within => ⟨fun stream => ?varied, fun now returns fuel => ?ends⟩,
    fun t lineage l learner enlisted => ?lineage⟩
  case varied =>
    obtain ⟨made, rest, run, -, varied⟩ | ⟨run, -⟩ :=
      ProgramSettings.varyProgram_varied valid' some_code within c stream
    · exact .inl ⟨made, rest, run, varied⟩
    · exact .inr run
  case ends =>
    exact MutationSettings.varyRounds_allow valid'.probabilities
      (Settings.varies_of_validate valid).instructions some_code returns fuel
  case lineage =>
    have bounded := lineage.bounded l _ _ (Population.policy?_of_learner? enlisted)
    exact ⟨bounded.least, bounded.most, bounded.each⟩

/-- A program of one instruction is varied, and a trainer has gone through a
generation. -/
theorem programs_within_bounds_of_small :
    (∃ made rest, (small.mutation.varyProgram small.program ⟨⟨5⟩, [⟨.input, .half, 2, 1⟩]⟩
        ⟨3, 7, 6⟩).run (.ofScript [0, 0, 3]) = .ok (made, rest) ∧
      Program.Varied small.program ⟨⟨5⟩, [⟨.input, .half, 2, 1⟩]⟩ ⟨3, 7, 6⟩ made) ∧
    ∃ t, Lineage small t ∧ t.roots = [⟨1⟩, ⟨2⟩] ∧
      ∀ l learner, t.population.learner? l = some learner →
        1 ≤ learner.program.instructions.length ∧
          learner.program.instructions.length ≤ small.program.maxProgramSize := by
  have valid : small.validate = .ok () := ok_of_toOption (by decide +kernel)
  obtain ⟨vary, lineages⟩ := programs_within_bounds valid
  refine ⟨?_, ?_⟩
  · have ends : ((small.mutation.varyProgram small.program ⟨⟨5⟩, [⟨.input, .half, 2, 1⟩]⟩
        ⟨3, 7, 6⟩).run (.ofScript [0, 0, 3])).toOption.isSome = true := by decide +kernel
    obtain result | endless := (vary ⟨⟨5⟩, [⟨.input, .half, 2, 1⟩]⟩ ⟨3, 7, 6⟩ (by simp)
      (by simpa using ⟨by decide, by decide, by decide⟩)).1 (.ofScript [0, 0, 3])
    · exact result
    · rw [endless] at ends
      cases ends
  · obtain ⟨t₀, t₁, t₂, stream, summary, next, start, first, second, evolution, -, roots⟩ :=
      shortRun_calls
    have scored := ((Lineage.start start).report first).report second
    have lineage := (scored.call (.redraw stream)).call (.evolve _ _ evolution)
    exact ⟨next, lineage, roots, fun l learner enlisted =>
      (lineages next lineage l learner enlisted).imp_right And.left⟩

end Trainer

end TangledGraph
