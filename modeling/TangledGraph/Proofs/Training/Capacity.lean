import TangledGraph.Proofs.Machine.Alteration
import TangledGraph.Proofs.Training.Beginning
import TangledGraph.Proofs.Training.Descent

/-!
# How large teams get

The first teams have no more learners than teams may start with, and variation adds
learners below the limit only. So a team has more learners than the limit allows just
where it may start with more of them.
-/
namespace TangledGraph

open Draw

namespace Brood

variable {s : Settings} {generation bound : Nat} {breeders : Breeders}
variable (limited : 0 < s.mutation.maxTeamSize) (within : s.mutation.maxTeamSize ≤ bound)
include limited within

/-- A child has as many learners as its parent before it is varied. -/
theorem birth_size {stock : Stock} (sized : stock.population.Sized bound) (parent : TeamId) :
    Yields (birth s generation breeders parent stock) fun born =>
      (born.population.members ⟨stock.counters.team⟩).length ≤ bound := by
  have founded := sized.createTeam stock.counters generation
  refine Yields.lift_bind fun team found => Yields.lift_bind fun p joined => ?_
  refine Stock.varyTeam_size limited within ?_
  have empty := Population.members_createTeam_self stock.population stock.counters generation
  have learners : (stock.population.createTeam stock.counters generation).2.1.members parent =
      team.learners := Population.members_of_team? (Population.getTeam_eq_ok.1 found)
  have size : team.learners.length ≤ bound := learners ▸ founded parent
  have copied : (p.members ⟨stock.counters.team⟩).length =
      ((stock.population.createTeam stock.counters generation).2.1.members
        ⟨stock.counters.team⟩).length + team.learners.length :=
    Population.length_members_joinAll joined
  rw [empty, List.length_nil, Nat.zero_add] at copied
  exact copied.trans_le size

theorem birth_sized {stock : Stock} (sound : stock.Sound)
    (sized : stock.population.Sized bound) (parent : TeamId) :
    Yields (birth s generation breeders parent stock) fun born =>
      born.Sound ∧ born.population.Sized bound := by
  refine ((birth_grows parent stock).and (birth_size limited within sized parent)).mono
    fun born ⟨grown, child⟩ => ?_
  exact ⟨grown.sound (sound.found generation), grown.sized_of_found sound sized child⟩

theorem fill_sized {stock : Stock} (sound : stock.Sound) (sized : stock.population.Sized bound) :
    Yields (fill s generation breeders stock) fun brood =>
      brood.stock.Sound ∧ brood.stock.population.Sized bound :=
  fill_keeps (I := fun reached => reached.Sound ∧ reached.population.Sized bound)
    (fun _ parent ⟨sound, sized⟩ => birth_sized limited within sound sized parent) ⟨sound, sized⟩

end Brood

namespace Trainer

variable {s : Settings} {t next : Trainer} {bound : Nat}

theorem initialTeams_sized (within : 2 + (s.mutation.initMaxTeamSize - 2) ≤ bound) (n : Nat)
    {stock : Stock} (sound : stock.Sound) (sized : stock.population.Sized bound) :
    Yields (initialTeams s n stock) fun made => made.population.Sized bound := by
  induction n generalizing stock with
  | zero => exact Yields.pure sized
  | succ n ih =>
    obtain ⟨p, c⟩ := stock
    have empty := p.members_createTeam_self c 0
    refine (initialCodes_yields s).bind fun codes ⟨_, _, few, _⟩ => ?_
    have path : Yields (addInitialLearners s ⟨c.team⟩ codes
          ⟨(p.createTeam c 0).2.1, (p.createTeam c 0).2.2⟩)
        (Stock.Path c (fun _ => True) ⟨(p.createTeam c 0).2.1, (p.createTeam c 0).2.2⟩) :=
      addInitialLearners_path le_rfl (fun _ _ => trivial) _
    refine (path.and (addInitialLearners_length _ codes _)).bind fun made ⟨grown, length⟩ => ?_
    have child : (made.population.members ⟨c.team⟩).length ≤ bound := by
      rw [length, empty, List.length_nil]
      omega
    exact ih (grown.sound (sound.found 0)) (grown.sized_of_found sound sized child)

theorem Sound.evolve_sized (sound : t.Sound s) (limited : 0 < s.mutation.maxTeamSize)
    (within : s.mutation.maxTeamSize ≤ bound) (sized : t.population.Sized bound)
    {tasks : List String} {mode : Scoring.Mode} {summary : Summary}
    (run : t.evolve tasks mode = .ok (.ok summary, next)) : next.population.Sized bound := by
  obtain ⟨elites, selection, brood, _, _, pruned, ended, selects, filled, pruning, rfl, -⟩ :=
    evolve_parts run
  rw [← sound.settings] at limited within
  have leaves := selects.leaves sound
  obtain ⟨grown, sized'⟩ := Brood.fill_sized limited within (leaves.stock sound)
    (sized.of_partOf leaves.part) _ _ _ filled
  obtain ⟨-, part, -⟩ := nextGeneration_outline grown.exact pruning
  exact sized'.of_partOf part

theorem Lineage.sized (lineage : Lineage s t) (limited : 0 < s.mutation.maxTeamSize) :
    t.population.Sized (max s.mutation.maxTeamSize s.mutation.initMaxTeamSize) := by
  have two := (Settings.valid_of_validate lineage.valid).two_learners
  refine lineage.population_induction (fun same h => h.congr same) (fun {stream t} run => ?start)
    fun {t next tasks mode summary} before h run => ?evolve
  case start =>
    obtain ⟨-, stock, rest, made, rfl⟩ := start_eq_ok run
    exact initialTeams_sized (by omega) s.trainer.teamPopSize Stock.sound_empty
      (Population.sized_empty _) _ _ _ made
  case evolve => exact before.sound.evolve_sized limited (Nat.le_max_left _ _) h run

section Largest

variable (valid : s.Valid)
include valid

theorem initialCodes_allows (word : s.mutation.initMaxTeamSize < 2 ^ 64) :
    Allows (initialCodes s) fun codes => codes.length = s.mutation.initMaxTeamSize := by
  have two := valid.two_learners
  unfold initialCodes
  extract_lets actions more
  have sample : Allows actions.sample fun _ => True := CodeSet.sample_allows valid.some_code
  have rest (first : List Code) (length : first.length = 2) : Allows (more first) fun codes =>
      codes.length = s.mutation.initMaxTeamSize := by
    refine (between_allows (Nat.zero_le _) le_rfl (by omega)).bind fun extra eq => ?_
    refine ((Allows.mapM (fun _ => sample) _).and
      (Yields.mapM (fun _ => Yields.trivial _) _)).bind fun drawn ⟨_, count, _⟩ => Allows.pure ?_
    rw [List.length_replicate] at count
    rw [List.length_append, length, count]
    omega
  split
  case isTrue two =>
    refine ((distinctPair_allows two).and (distinctPair_yields _)).bind
      fun ⟨i, j⟩ ⟨_, hi, hj, _⟩ => ?_
    obtain ⟨code, -, found⟩ := CodeSet.get?_of_lt hi
    obtain ⟨code', -, found'⟩ := CodeSet.get?_of_lt hj
    simp only [pure_bind, List.filterMap_cons, found, found', List.filterMap_nil]
    exact rest _ rfl
  case isFalse =>
    refine sample.bind fun code _ => sample.bind fun code' _ => ?_
    rw [pure_bind]
    exact rest _ rfl

theorem addInitialLearners_allows {id : TeamId} (codes : List Code) {stock : Stock}
    (sound : stock.Sound) (there : stock.population.containsTeam id = true) :
    Allows (addInitialLearners s id codes stock) Stock.Sound := by
  induction codes generalizing stock with
  | nil => exact Allows.pure sound
  | cons code codes ih =>
    obtain ⟨p, c⟩ := stock
    refine (ProgramSettings.randomProgram_allows valid c).bind fun made h => ?_
    obtain ⟨instructions, rfl⟩ := h
    obtain ⟨q, d, r, created, added, sound', there'⟩ := sound.recruits there instructions code
    exact Allows.lift_bind created (Allows.lift_bind added (ih sound' there'))

/-- Some words make the last team as large as a team may start. -/
theorem initialTeams_allows (word : s.mutation.initMaxTeamSize < 2 ^ 64) (n : Nat) {stock : Stock}
    (sound : stock.Sound) : Allows (initialTeams s (n + 1) stock) fun made =>
      ∃ id, (made.population.members id).length = s.mutation.initMaxTeamSize := by
  induction n generalizing stock with
  | zero =>
    obtain ⟨p, c⟩ := stock
    have empty := p.members_createTeam_self c 0
    refine (initialCodes_allows valid word).bind fun codes largest => ?_
    refine ((addInitialLearners_allows valid codes (sound.found 0) (sound.founded 0)).and
      (addInitialLearners_length _ codes _)).bind fun made ⟨_, length⟩ => Allows.pure ?_
    rw [empty, List.length_nil, Nat.zero_add] at length
    exact ⟨⟨c.team⟩, length.trans largest⟩
  | succ n ih =>
    obtain ⟨p, c⟩ := stock
    refine (initialCodes_allows valid word).bind fun codes _ => ?_
    exact (addInitialLearners_allows valid codes (sound.found 0) (sound.founded 0)).bind
      fun made sound' => ih sound'

end Largest

/-- Some trainer starts with a team as large as a team may start. -/
theorem exists_largest (valid : s.validate = .ok ())
    (word : s.mutation.initMaxTeamSize < 2 ^ 64) :
    ∃ t id team, Lineage s t ∧ t.population.team? id = some team ∧
      team.learners.length = s.mutation.initMaxTeamSize := by
  have promises := Settings.valid_of_validate valid
  obtain ⟨n, some_team⟩ := Nat.exists_eq_add_one.2 promises.some_team
  obtain ⟨words, stock, ⟨id, size⟩, run⟩ :=
    initialTeams_allows promises word n Stock.sound_empty
  rw [← some_team] at run
  obtain ⟨stream, drawn⟩ : ∃ stream,
      (drawSeedBase s.trainer.seed stream).2 = .scripted (words ++ []) 0 := by
    cases s.trainer.seed with
    | none => exact ⟨.scripted (0 :: (words ++ [])) 0, rfl⟩
    | some seed => exact ⟨_, rfl⟩
  have started : ∃ t, start s stream = .ok (.ok t) ∧ t.population = stock.population := by
    unfold start
    rw [valid]
    dsimp only
    rw [drawn, run]
    exact ⟨_, rfl, rfl⟩
  obtain ⟨t, started, same⟩ := started
  have positive : (t.population.members id).length ≠ 0 := by
    have := promises.two_learners
    rw [same, size]
    omega
  cases found : t.population.team? id with
  | none => simp [Population.members, found] at positive
  | some team =>
    refine ⟨t, id, team, .start started, found, ?_⟩
    rw [← Population.members_of_team? found, same, size]

/-- Whatever is called and drawn, no team has more learners than the limit and the
size of the first teams allow. So all teams keep to the limit exactly if teams may not
start with more learners. -/
theorem within_limit_iff (valid : s.validate = .ok ()) (limited : 0 < s.mutation.maxTeamSize)
    (word : s.mutation.initMaxTeamSize < 2 ^ 64) :
    (∀ t, Lineage s t → ∀ id team, t.population.team? id = some team →
        team.learners.length ≤ max s.mutation.maxTeamSize s.mutation.initMaxTeamSize) ∧
      ((∀ t, Lineage s t → ∀ id team, t.population.team? id = some team →
          team.learners.length ≤ s.mutation.maxTeamSize) ↔
        s.mutation.initMaxTeamSize ≤ s.mutation.maxTeamSize) := by
  have sized : ∀ t, Lineage s t → ∀ id team, t.population.team? id = some team →
      team.learners.length ≤ max s.mutation.maxTeamSize s.mutation.initMaxTeamSize := by
    intro t lineage id team found
    rw [← Population.members_of_team? found]
    exact lineage.sized limited id
  refine ⟨sized, fun keeps => ?_, fun ordered t lineage id team found => ?_⟩
  · obtain ⟨t, id, team, lineage, found, largest⟩ := exists_largest valid word
    exact largest ▸ keeps t lineage id team found
  · exact (sized t lineage id team found).trans (max_le le_rfl ordered)

/-- Teams that may start with as many learners as the limit allows. -/
def snug : Settings where
  mutation := { maxTeamSize := 3, initMaxTeamSize := 3 }

theorem snug_within_limit : snug.validate = .ok () ∧ 0 < snug.mutation.maxTeamSize ∧
    snug.mutation.initMaxTeamSize < 2 ^ 64 ∧
    ∀ t, Lineage snug t → ∀ id team, t.population.team? id = some team →
      team.learners.length ≤ 3 := by
  have valid : snug.validate = .ok () := ok_of_toOption (by decide +kernel)
  have limited : 0 < snug.mutation.maxTeamSize := by decide
  have word : snug.mutation.initMaxTeamSize < 2 ^ 64 := by decide
  exact ⟨valid, limited, word, (within_limit_iff valid limited word).2.2 (by decide)⟩

/-- A team that may start with five learners, with a limit of two. -/
def crowded : Settings where
  trainer := { teamPopSize := 1 }
  mutation := { maxTeamSize := 2 }

/-- Valid settings may have teams beyond the limit from the start on: the limit is not
checked against the size that the first teams may have. -/
theorem crowded_beyond_limit : crowded.validate = .ok () ∧ 0 < crowded.mutation.maxTeamSize ∧
    ∃ t team, create crowded (Stream.ofScript [0, 0, 0, 0xC000000000000000]) = .ok (.ok t) ∧
      Lineage crowded t ∧ t.population.team? ⟨0⟩ = some team ∧
      team.learners.length = 5 ∧ crowded.mutation.maxTeamSize = 2 := by
  have run : ((create crowded (Stream.ofScript [0, 0, 0, 0xC000000000000000])).toOption.bind
      (·.toOption)).bind (fun t => (t.population.team? ⟨0⟩).map fun team =>
        team.learners.length) = some 5 := by
    decide +kernel
  obtain ⟨t, created, size⟩ := Option.bind_eq_some_iff.1 run
  obtain ⟨outcome, created, started⟩ := Option.bind_eq_some_iff.1 created
  obtain rfl := ok_of_toOption started
  obtain ⟨team, found, size⟩ := Option.map_eq_some_iff.1 size
  have lineage : Lineage crowded t := .start (ok_of_toOption created)
  exact ⟨lineage.valid, by decide, t, team, ok_of_toOption created, lineage, found, size, rfl⟩

end Trainer

end TangledGraph
