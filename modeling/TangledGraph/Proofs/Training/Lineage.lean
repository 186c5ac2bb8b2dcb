import Mathlib.Logic.Relation
import TangledGraph.Proofs.Training.Stored

/-!
# Lineages

A lineage starts with a trainer and goes on by calls. One of them saves the
trainer and takes it up again from what was stored. Every trainer of a lineage
is sound, and what is not stored of it is what would be made again.
-/
namespace TangledGraph.Trainer

variable {s : Settings} {t next : Trainer}

/-- One call of a trainer, with any words to draw. Calls may end in errors. -/
inductive Call (t : Trainer) : Trainer → Prop
  /-- Any words may come next. -/
  | redraw (stream : Stream) : Call t { t with stream }
  /-- Agents may write the memory and name tasks at any time; the memory keeps its shape. -/
  | share (c : Commons) (kept : c.memory.map Memory.shape = t.memory.map Memory.shape) :
      Call t (t.withCommons c)
  | report {next : Trainer} (team : TeamId) (task : String) (value : Float)
      (run : t.reportOutcome team task value = .ok next) : Call t next
  | apply (reports : List Report) : Call t (applyReports reports t).2
  | evaluate {next : Trainer} (query : AgentQuery) (environment : Environment)
      {result : Except Error Nat}
      (run : t.evaluate query environment = .ok (result, next)) : Call t next
  | evolve {next : Trainer} (tasks : List String) (mode : Scoring.Mode)
      {result : Except Error Summary} (run : t.evolve tasks mode = .ok (result, next)) :
      Call t next
  /-- The trainer is taken up again from what is stored of it. -/
  | load {next : Trainer} (entropy : Stream)
      (run : Trainer.load t.saved entropy = .ok (.ok next)) : Call t next

/-- The trainers that come of settings by any number of calls. -/
def Lineage (s : Settings) (t : Trainer) : Prop :=
  ∃ first stream, start s stream = .ok (.ok first) ∧ Relation.ReflTransGen Call first t

theorem Lineage.start {stream : Stream} (run : Trainer.start s stream = .ok (.ok t)) :
    Lineage s t := ⟨t, stream, run, .refl⟩

theorem Lineage.call (lineage : Lineage s t) (call : t.Call next) : Lineage s next := by
  obtain ⟨first, stream, run, calls⟩ := lineage
  exact ⟨first, stream, run, calls.tail call⟩

theorem Lineage.report (lineage : Lineage s t) {team : TeamId} {task : String} {value : Float}
    (run : t.reportOutcome team task value = .ok next) : Lineage s next :=
  lineage.call (.report team task value run)

/-- What a start brings about and every call keeps holds of a whole lineage. -/
theorem Lineage.induction {I : Trainer → Prop} (lineage : Lineage s t)
    (start : ∀ {stream t}, Trainer.start s stream = .ok (.ok t) → I t)
    (keep : ∀ {t next}, Lineage s t → I t → t.Call next → I next) : I t := by
  obtain ⟨first, stream, run, calls⟩ := lineage
  induction calls with
  | refl => exact start run
  | tail calls call ih => exact keep ⟨first, stream, run, calls⟩ ih call

theorem Lineage.valid (lineage : Lineage s t) : s.validate = .ok () := by
  obtain ⟨first, stream, run, -⟩ := lineage
  exact (start_eq_ok run).1

/-- A memory comes back as it was, and none is made where there was none. -/
theorem Sound.memory_stored (sound : t.Sound s) :
    (t.memory.map Memory.stored <|> initialMemory t.settings) = t.memory := by
  cases memory : t.memory with
  | none =>
    have none := sound.memory
    rw [memory, Option.map_none, eq_comm, Option.map_eq_none_iff] at none
    simp [sound.settings, none]
  | some m => simp [Memory.stored, (sound.allocated memory).ofCells_cells]

theorem Sound.resumed (sound : t.Sound s) (entropy : Stream) : (t.resumed entropy).Sound s :=
  sound.congr t.population.outline_stored rfl rfl rfl rfl
    (congrArg (Option.map Memory.shape) sound.memory_stored)

theorem Sound.call (sound : t.Sound s) (valid : s.validate = .ok ()) (call : t.Call next) :
    next.Sound s := by
  cases call with
  | redraw stream => exact { sound with }
  | share c kept => exact sound.congr rfl rfl rfl rfl rfl kept
  | report team task value run => exact (reportOutcome_annotates run).sound sound
  | apply reports => exact (applyReports_annotates reports t).sound sound
  | evaluate query environment run => exact evaluate_sound sound run
  | evolve tasks mode run =>
    obtain ⟨-, rfl⟩ | ⟨-, selected, grown, stages⟩ := evolve_eq_ok sound run
    · exact sound
    · exact stages.sound sound
  | load entropy run =>
    obtain ⟨-, rfl⟩ := (sound.load_saved valid entropy).1 run
    exact sound.resumed entropy

theorem Lineage.sound (lineage : Lineage s t) : t.Sound s :=
  lineage.induction start_sound fun before sound call => sound.call before.valid call

/-- Only a generation that succeeds changes the outline of the population and the
counters. -/
theorem Lineage.call_cases (lineage : Lineage s t) (call : t.Call next) :
    next.population.outline = t.population.outline ∧ next.counters = t.counters ∨
      ∃ tasks mode summary, t.evolve tasks mode = .ok (.ok summary, next) := by
  have annotated {t next : Trainer} (annotates : t.Annotates next) :
      next.population.outline = t.population.outline ∧ next.counters = t.counters := by
    obtain ⟨p, tasks, outline, rfl⟩ := annotates
    exact ⟨outline, rfl⟩
  cases call with
  | redraw stream | share c kept => exact .inl ⟨rfl, rfl⟩
  | report team task value run => exact .inl (annotated (reportOutcome_annotates run))
  | apply reports => exact .inl (annotated (applyReports_annotates reports t))
  | evaluate query environment run =>
    obtain ⟨evaluated, c, -, annotates⟩ := evaluate_eq_ok run
    exact .inl (annotated (t := t.withCommons c) annotates)
  | evolve tasks mode run =>
    obtain ⟨-, rfl⟩ | ⟨⟨summary, rfl⟩, -⟩ := evolve_eq_ok lineage.sound run
    · exact .inl ⟨rfl, rfl⟩
    · exact .inr ⟨tasks, mode, summary, run⟩
  | load entropy run =>
    obtain ⟨-, rfl⟩ := (lineage.sound.load_saved lineage.valid entropy).1 run
    exact .inl ⟨t.population.outline_stored, rfl⟩

/-- What seeds agents is the seed that is configured, also after the trainer is taken up. -/
theorem Lineage.seedBase (lineage : Lineage s t) {seed : UInt64}
    (seeded : s.trainer.seed = some seed) : t.seedBase = seed := by
  refine lineage.induction (I := fun t => t.seedBase = seed) (fun {stream t} run => ?start)
    fun {t next} before same call => ?call
  case start =>
    obtain ⟨-, stock, rest, -, rfl⟩ := start_eq_ok run
    simp only [seeded, drawSeedBase]
  case call =>
    have annotated {t next : Trainer} (annotates : t.Annotates next) :
        next.seedBase = t.seedBase := by
      obtain ⟨p, tasks, -, rfl⟩ := annotates
      rfl
    cases call with
    | redraw stream | share c kept => exact same
    | report team task value run => exact (annotated (reportOutcome_annotates run)).trans same
    | apply reports => exact (annotated (applyReports_annotates reports t)).trans same
    | evaluate query environment run =>
      obtain ⟨evaluated, c, evaluation, annotates⟩ := evaluate_eq_ok run
      exact (annotated annotates).trans same
    | evolve tasks mode run =>
      obtain ⟨-, rfl⟩ | ⟨-, selected, grown, stages⟩ := evolve_eq_ok before.sound run
      · exact same
      · exact stages.seedBase.trans same
    | load entropy run =>
      obtain ⟨-, rfl⟩ := (before.sound.load_saved before.valid entropy).1 run
      simp only [resumed, before.sound.settings, seeded, drawSeedBase]

/-- There is no memory if no instruction may use one. -/
theorem Lineage.memoryless (lineage : Lineage s t)
    (unused : s.program.instructionSet.usesMemory = false) : t.memory = none := by
  have memory := lineage.sound.memory
  simpa [initialMemory, unused] using memory

end TangledGraph.Trainer
