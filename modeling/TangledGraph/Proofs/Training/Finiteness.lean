import TangledGraph.Proofs.Training.RoundTrip

/-!
# Floats that are not stored

Documents have no numerals for floats that are infinite or not numbers. A fitness
of this kind is forgotten. An outcome, a number of a code or a cell of the memory
of this kind is stored as well, but what is stored is not read back. So a trainer
comes back exactly if the latter are finite, and as it was exactly if all of its
floats are.
-/
namespace TangledGraph

open Json

theorem CodeSet.finite_of_fits {set : CodeSet} (fits : set.Fits) :
    ∀ code ∈ set.toList, code.IsFinite := by
  intro code listed
  cases set with
  | discrete values =>
    obtain ⟨n, -, rfl⟩ := List.mem_map.1 listed
    trivial
  | real values =>
    obtain ⟨xs, there, rfl⟩ := List.mem_map.1 listed
    exact fits xs there

/-- Nothing is forgotten of a team exactly if its fitness is finite. -/
theorem Team.fitness_stored_eq_iff (team : Team) :
    team.stored.fitness = team.fitness ↔ ∀ x ∈ team.fitness, x.isFinite = true := by
  cases value : team.fitness with
  | none => simp [Team.stored, value]
  | some x => by_cases finite : x.isFinite = true <;> simp [Team.stored, value, finite]

namespace Population

theorem mem_teamList_stored {p : Population} {entry : TeamId × Team}
    (listed : entry ∈ p.stored.teamList) :
    ∃ team, (entry.1, team) ∈ p.teamList ∧ entry.2 = team.stored := by
  obtain ⟨id, stored⟩ := entry
  have found := mem_teamList.1 listed
  rw [team?_stored] at found
  obtain ⟨team, there, rfl⟩ := Option.map_eq_some_iff.1 found
  exact ⟨team, mem_teamList.2 there, rfl⟩

end Population

namespace Trainer

variable {s : Settings} {t : Trainer}

/-- Every float is finite but for fitness, which is read back in any case. -/
structure IsReadable (t : Trainer) : Prop where
  outcomes : ∀ entry ∈ t.population.teamList, ∀ outcome ∈ entry.2.outcomes.toList,
    outcome.2.isFinite = true
  codes : ∀ code ∈ t.settings.trainer.actions.toList, code.IsFinite
  memory : ∀ m ∈ t.memory, ∀ x ∈ m.cells.toList, x.isFinite = true

instance (t : Trainer) : Decidable t.IsReadable :=
  decidable_of_iff (_ ∧ _ ∧ _) ⟨fun ⟨a, b, c⟩ => ⟨a, b, c⟩, fun ⟨a, b, c⟩ => ⟨a, b, c⟩⟩

theorem isFinite_iff : t.IsFinite ↔
    t.IsReadable ∧ ∀ entry ∈ t.population.teamList, ∀ x ∈ entry.2.fitness, x.isFinite = true := by
  constructor
  · intro finite
    exact ⟨⟨finite.outcomes, finite.codes, finite.memory⟩, finite.fitness⟩
  · rintro ⟨readable, fitness⟩
    exact ⟨readable.outcomes, fitness, readable.codes, readable.memory⟩

/-- Without fitness that is not finite, a readable trainer has only finite floats. -/
theorem IsReadable.isFinite_stored (readable : t.IsReadable) :
    IsFinite { t with population := t.population.stored } where
  outcomes entry listed := by
    obtain ⟨team, there, eq⟩ := Population.mem_teamList_stored listed
    rw [eq]
    exact readable.outcomes _ there
  fitness entry listed x value := by
    obtain ⟨team, -, eq⟩ := Population.mem_teamList_stored listed
    rw [eq] at value
    exact (Option.filter_eq_some_iff.1 value).2
  codes := readable.codes
  memory := readable.memory

theorem IsSized.stored (sized : t.IsSized) :
    IsSized { t with population := t.population.stored } where
  teamPopSize := sized.teamPopSize
  codes := sized.codes
  program := sized.program
  mutation := sized.mutation
  generation := sized.generation
  counters := sized.counters
  teams entry listed := by
    obtain ⟨team, there, eq⟩ := Population.mem_teamList_stored listed
    rw [eq]
    exact sized.teams _ there
  learners := sized.learners
  memory := sized.memory

/-- Documents have a place for a trainer exactly if it is readable. Its fitness
does not matter, so there may as well be only the part of it that is finite. -/
theorem Sound.checkpoint_fits_iff (sound : t.Sound s) (valid : s.Valid) (sized : t.IsSized) :
    t.checkpoint.Fits ↔ t.IsReadable := by
  constructor
  · intro fits
    refine ⟨fun entry listed outcome recorded => ?_, ?_, ?_⟩
    · have found := Std.ExtTreeMap.mem_toList_iff_getElem?_eq_some.1 recorded
      exact (fits.teams entry listed).outcomes outcome.1 outcome.2 found
    · exact CodeSet.finite_of_fits fits.settings.trainer.actions
    · exact fun m remembered => (fits.memory m remembered).cells
  · intro readable
    have sound' : Sound { t with population := t.population.stored } s :=
      sound.congr t.population.outline_stored rfl rfl rfl rfl rfl
    have fits := sound'.checkpoint_fits valid sized.stored readable.isFinite_stored
    refine { fits with teams := fun (id, team) listed => ?_ }
    have there : (id, team.stored) ∈ t.population.stored.teamList := by
      rw [Population.mem_teamList, Population.team?_stored, Population.mem_teamList.1 listed]
      rfl
    exact { fits.teams _ there with }

/-- What came of the floats of a trainer that was stored and taken up again. -/
structure ReadsBack (t : Trainer) (entropy : Stream) : Prop where
  /-- It comes back with all outcomes and fitness only if every float is finite. -/
  whole : (∃ again, load t.saved entropy = .ok (.ok again) ∧
      ∀ id, (again.population.team? id).map (fun team => (team.outcomes, team.fitness)) =
        (t.population.team? id).map fun team => (team.outcomes, team.fitness)) ↔ t.IsFinite
  /-- It comes back with all outcomes but without fitness that is not finite. -/
  readable : t.IsReadable → ∃ again, load t.saved entropy = .ok (.ok again) ∧
    ∀ id, (again.population.team? id).map (fun team => (team.outcomes, team.fitness)) =
      (t.population.team? id).map fun team =>
        (team.outcomes, team.fitness.filter Float.isFinite)
  /-- It does not come back at all. -/
  unreadable : ¬t.IsReadable → load t.saved entropy = .ok (.error .document)
  text : Json.parse t.savedText = some t.saved →
    loadText t.savedText entropy = load t.saved entropy

theorem saved_eq_unread (unfit : ¬t.checkpoint.Fits) (entropy : Stream) :
    load t.saved entropy = .ok (.error .document) := by
  have document : t.saved = t.checkpoint.toJson.written := rfl
  rw [load, document]
  cases read : Checkpoint.ofJson? t.checkpoint.toJson.written with
  | none => rfl
  | some c => exact absurd (Checkpoint.stores.eq_some.1 read).1 unfit

/-- The records of teams come back as they are stored. -/
theorem records_resumed (t : Trainer) (entropy : Stream) (id : TeamId) :
    ((t.resumed entropy).population.team? id).map (fun team => (team.outcomes, team.fitness)) =
      (t.population.team? id).map fun team =>
        (team.outcomes, team.fitness.filter Float.isFinite) := by
  have population : (t.resumed entropy).population = t.population.stored := rfl
  rw [population, Population.team?_stored, Option.map_map]
  rfl

/-- What is stored of a trainer is taken up again as far as its floats are finite. -/
theorem Lineage.reads_back (lineage : Lineage s t) (sized : t.IsSized) (entropy : Stream) :
    t.ReadsBack entropy := by
  have fits := lineage.sound.checkpoint_fits_iff (Settings.valid_of_validate lineage.valid) sized
  have loaded (next : Trainer) : load t.saved entropy = .ok (.ok next) ↔
      t.checkpoint.Fits ∧ t.resumed entropy = next :=
    lineage.sound.load_saved lineage.valid entropy
  constructor
  case whole =>
    rw [isFinite_iff]
    constructor
    · rintro ⟨again, run, same⟩
      obtain ⟨fit, rfl⟩ := (loaded again).1 run
      refine ⟨fits.1 fit, fun (id, team) listed => team.fitness_stored_eq_iff.1 ?_⟩
      have here := same id
      rw [records_resumed, Population.mem_teamList.1 listed] at here
      exact (Prod.mk.inj (Option.some.inj here)).2
    · rintro ⟨readable, fitness⟩
      refine ⟨_, (loaded _).2 ⟨fits.2 readable, rfl⟩, fun id => ?_⟩
      rw [records_resumed]
      cases found : t.population.team? id with
      | none => rfl
      | some team =>
        have kept := team.fitness_stored_eq_iff.2
          (fitness (id, team) (Population.mem_teamList.2 found))
        exact congrArg (fun x => some (team.outcomes, x)) kept
  case readable =>
    intro readable
    exact ⟨_, (loaded _).2 ⟨fits.2 readable, rfl⟩, records_resumed t entropy⟩
  case unreadable => exact fun unreadable => saved_eq_unread (mt fits.1 unreadable) entropy
  case text =>
    intro read
    rw [loadText, read]

/-- Two teams with outcomes, the better of which is not finite, and what a
generation makes of them. -/
def boundlessRun : Option (Trainer × Trainer) := do
  let t ← (← (start small (Stream.ofScript [])).toOption).toOption
  let t ← (t.reportOutcome ⟨0⟩ "task" 1.0).toOption
  let t ← (t.reportOutcome ⟨1⟩ "task" infinity).toOption
  let high : UInt64 := 0xFFFFFFFFFFFFFFFF
  let words := [0, high, high, 0, 0, 0, high, high, 0, high, high, high, high]
  let t := { t with stream := Stream.ofScript words }
  let (_, next) ← (t.evolve ["task"] .single).toOption
  pure (t, next)

theorem boundlessRun_calls : ∃ t next, Lineage small t ∧ Lineage small next ∧
    (t.IsSized ∧ ¬t.IsReadable) ∧ next.IsSized ∧ next.IsReadable ∧ ¬next.IsFinite := by
  have run : boundlessRun.map (fun (t, next) => (decide t.IsSized, decide t.IsReadable,
      decide next.IsSized, decide next.IsReadable, decide next.IsFinite)) =
        some (true, false, true, true, false) := by
    simp only [boundlessRun, evolve, advance]
    rw [Selection.run_eq]
    decide +kernel
  simp only [boundlessRun, Option.map_eq_some_iff, Option.bind_eq_bind, Option.bind_eq_some_iff,
    Option.pure_def, Option.some.injEq, Prod.mk.injEq, decide_eq_true_eq,
    decide_eq_false_iff_not] at run
  obtain ⟨_, ⟨started, run, t₀, start, t₁, first, t₂, second, ⟨result, next⟩, evolution, rfl⟩,
    sized, unreadable, sized', readable, infinite⟩ := run
  obtain rfl := ok_of_toOption start
  have lineage : Lineage small t₂ :=
    ((Lineage.start (ok_of_toOption run)).call (.report _ _ _ (ok_of_toOption first))).call
      (.report _ _ _ (ok_of_toOption second))
  exact ⟨_, next, lineage.call (.redraw _),
    (lineage.call (.redraw _)).call (.evolve _ _ (ok_of_toOption evolution)),
    ⟨sized, unreadable⟩, sized', readable, infinite⟩

/-- A fitness that is not finite is gone when the trainer comes back. -/
theorem boundless_comes_back : ∃ t, Lineage small t ∧ t.IsReadable ∧ ¬t.IsFinite ∧
    t.ReadsBack (Stream.ofScript []) := by
  obtain ⟨-, next, -, lineage, -, sized, readable, infinite⟩ := boundlessRun_calls
  exact ⟨next, lineage, readable, infinite, lineage.reads_back sized (Stream.ofScript [])⟩

/-- A trainer with an infinite outcome is stored, but not read back. -/
theorem boundless_refused : ∃ t, Lineage small t ∧
    load t.saved (Stream.ofScript []) = .ok (.error .document) := by
  obtain ⟨t, -, lineage, -, ⟨sized, unreadable⟩, -⟩ := boundlessRun_calls
  have valid := Settings.valid_of_validate lineage.valid
  exact ⟨t, lineage, saved_eq_unread
    (mt (lineage.sound.checkpoint_fits_iff valid sized).1 unreadable) _⟩

end Trainer

end TangledGraph
