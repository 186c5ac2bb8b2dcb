import TangledGraph.Proofs.Settings.Valid
import TangledGraph.Proofs.Training.Lineage

/-!
# A trainer comes back as it was saved

Everything that a checkpoint holds has a place in documents if whole numbers
are machine words and floats are finite, and what it does not hold is made
again. So a seeded trainer that is taken up from its checkpoint is the trainer
that was saved, but for its stream, which the seed and the generation give.
-/
namespace TangledGraph

open Json

namespace Code

/-- The code is a whole number, or all its numbers are finite. -/
def IsFinite : Code → Prop
  | discrete _ => True
  | real xs => ∀ x ∈ xs, x.isFinite = true

/-- The code is a machine word if it is a whole number. -/
def IsSized : Code → Prop
  | discrete n => IsSignedWord n
  | real _ => True

instance : DecidablePred IsFinite
  | discrete _ => isTrue trivial
  | real xs => inferInstanceAs (Decidable (∀ x ∈ xs, x.isFinite = true))

instance : DecidablePred IsSized
  | discrete n => inferInstanceAs (Decidable (IsSignedWord n))
  | real _ => isTrue trivial

theorem fits_of_sized {code : Code} (sized : code.IsSized) (finite : code.IsFinite) :
    code.Fits := by
  cases code with
  | discrete n => exact sized
  | real xs => exact finite

end Code

theorem CodeSet.fits_of_codes {set : CodeSet} (codes : ∀ code ∈ set.toList, code.Fits) :
    set.Fits := by
  cases set with
  | discrete values => exact fun n listed => codes _ (List.mem_map_of_mem listed)
  | real values => exact fun xs listed => codes _ (List.mem_map_of_mem listed)

namespace Population

variable {p : Population}

/-- If all fitness is finite, nothing is lost. -/
theorem stored_of_finite (finite : ∀ entry ∈ p.teamList, ∀ x ∈ entry.2.fitness,
    x.isFinite = true) : p.stored = p := by
  have same (id : TeamId) : p.stored.team? id = p.team? id := by
    rw [team?_stored]
    cases found : p.team? id with
    | none => rfl
    | some team =>
      have fitness : team.fitness.filter Float.isFinite = team.fitness := by
        cases value : team.fitness with
        | none => rfl
        | some x => exact Option.filter_some_pos (finite (id, team) (mem_teamList.2 found) x value)
      rw [Option.map_some, Team.stored, fitness]
  obtain ⟨teams, learners⟩ := p
  have teams_eq : (stored ⟨teams, learners⟩).teams = teams := Std.ExtTreeMap.ext_getElem? same
  exact congrArg (Population.mk · learners) teams_eq

end Population

namespace Trainer

variable {s : Settings} {t : Trainer}

/-- Every stored float is finite. -/
structure IsFinite (t : Trainer) : Prop where
  outcomes : ∀ entry ∈ t.population.teamList, ∀ outcome ∈ entry.2.outcomes.toList,
    outcome.2.isFinite = true
  fitness : ∀ entry ∈ t.population.teamList, ∀ x ∈ entry.2.fitness, x.isFinite = true
  codes : ∀ code ∈ t.settings.trainer.actions.toList, code.IsFinite
  memory : ∀ m ∈ t.memory, ∀ x ∈ m.cells.toList, x.isFinite = true

/-- Every stored whole number is a machine word. Identities are not among them,
being below the counters, nor are actions, whose codes are codes of the settings. -/
structure IsSized (t : Trainer) : Prop where
  teamPopSize : IsWord t.settings.trainer.teamPopSize
  codes : ∀ code ∈ t.settings.trainer.actions.toList, code.IsSized
  program : t.settings.program.Fits
  mutation : t.settings.mutation.Sized
  generation : IsWord t.generation
  counters : t.counters.Fits
  teams : ∀ entry ∈ t.population.teamList, IsWord entry.2.generation
  learners : ∀ entry ∈ t.population.learnerList, IsWord entry.2.generation ∧ entry.2.program.Fits
  memory : ∀ m ∈ t.memory, IsWord m.rows ∧ IsWord m.cols

instance (t : Trainer) : Decidable t.IsFinite :=
  decidable_of_iff (_ ∧ _ ∧ _ ∧ _)
    ⟨fun ⟨a, b, c, d⟩ => ⟨a, b, c, d⟩, fun ⟨a, b, c, d⟩ => ⟨a, b, c, d⟩⟩

instance (t : Trainer) : Decidable t.IsSized :=
  decidable_of_iff (_ ∧ _ ∧ _ ∧ _ ∧ _ ∧ _ ∧ _ ∧ _ ∧ _)
    ⟨fun ⟨a, b, c, d, e, f, g, h, i⟩ => ⟨a, b, c, d, e, f, g, h, i⟩,
      fun ⟨a, b, c, d, e, f, g, h, i⟩ => ⟨a, b, c, d, e, f, g, h, i⟩⟩

section Fits

variable (sound : t.Sound s) (valid : s.Valid) (sized : t.IsSized) (finite : t.IsFinite)

include sized finite in
theorem codes_fit : ∀ code ∈ t.settings.trainer.actions.toList, code.Fits :=
  fun code listed => Code.fits_of_sized (sized.codes code listed) (finite.codes code listed)

include sound sized in
theorem Sound.isWord_team {id : TeamId} (there : t.population.containsTeam id = true) :
    IsWord id.val :=
  (sound.steady.sound.below.team there).trans sized.counters.team

include sound sized in
theorem Sound.isWord_learner {l : LearnerId} {policy : Program × Action}
    (enlisted : t.population.policy? l = some policy) : IsWord l.val :=
  (sound.steady.sound.below.learner enlisted).trans sized.counters.learner

include sound sized finite in
theorem Sound.team_fits {id : TeamId} {team : Team} (found : t.population.team? id = some team) :
    team.Fits id where
  id := sound.isWord_team sized (Population.containsTeam_of_team? found)
  learners l hl := by
    rw [← Population.members_of_team? found] at hl
    obtain ⟨-, learner, enlisted⟩ := Population.resolve_member sound.steady.sound.exact hl
    exact sound.isWord_learner sized (Population.policy?_of_learner? enlisted)
  outcomes task x recorded :=
    finite.outcomes (id, team) (Population.mem_teamList.2 found) (task, x)
      (Std.ExtTreeMap.mem_toList_iff_getElem?_eq_some.2 recorded)
  generation := sized.teams (id, team) (Population.mem_teamList.2 found)
  inLearners l hl := by
    rw [← Population.references_of_team? found] at hl
    obtain ⟨policy, enlisted, -⟩ :=
      Option.bind_eq_some_iff.1 (sound.steady.sound.exact.reference_iff.1 hl)
    exact sound.isWord_learner sized enlisted

include sound sized finite in
theorem Sound.learner_fits {l : LearnerId} {learner : Learner}
    (enlisted : t.population.learner? l = some learner) : learner.Fits l where
  id := sound.isWord_learner sized (Population.policy?_of_learner? enlisted)
  program := (sized.learners (l, learner) (Population.mem_learnerList.2 enlisted)).2
  action := by
    have among := sound.steady.allowed (Population.policy?_of_learner? enlisted)
    cases action : learner.action with
    | atomic code =>
      rw [action] at among
      exact codes_fit sized finite code among
    | team u =>
      have leads : t.population.target? l = some u := by
        rw [Population.target?_of_learner? enlisted, action, Action.target?_team]
      exact sound.isWord_team sized (Population.resolve_target sound.steady.sound.exact leads)
  generation := (sized.learners (l, learner) (Population.mem_learnerList.2 enlisted)).1
  inTeams id listed := by
    rw [← Population.teamsOf_of_learner? enlisted] at listed
    have member := sound.steady.sound.exact.member_iff.2 listed
    exact sound.isWord_team sized (Population.containsTeam_of_mem_members member)

include sound valid sized finite in
theorem Sound.settings_fit : t.settings.Fits where
  trainer := ⟨sized.teamPopSize, sound.settings ▸ isFinite_of_isProbability valid.gap,
    CodeSet.fits_of_codes (codes_fit sized finite)⟩
  program := sized.program
  mutation := ⟨fun pair listed =>
    isFinite_of_isProbability (valid.probabilities pair (sound.settings ▸ listed)), sized.mutation⟩

include sound valid sized finite in
theorem Sound.checkpoint_fits : t.checkpoint.Fits where
  settings := sound.settings_fit valid sized finite
  generation := sized.generation
  counters := sized.counters
  teams := fun (_, _) listed => sound.team_fits sized finite (Population.mem_teamList.1 listed)
  learners := fun (_, _) listed =>
    sound.learner_fits sized finite (Population.mem_learnerList.1 listed)
  roots _ root := sound.isWord_team sized (sound.unreferred root).1
  elites id elite := sound.isWord_team sized (sound.unreferred (sound.elites id elite)).1
  memory m remembered :=
    ⟨(sized.memory m remembered).1, (sized.memory m remembered).2, finite.memory m remembered⟩

end Fits

/-- A seeded trainer is taken up as it was, with a stream from the seed and the
generation. -/
theorem Lineage.resumed_eq (lineage : Lineage s t) (finite : t.IsFinite) {seed : UInt64}
    (seeded : t.settings.trainer.seed = some seed) (entropy : Stream) :
    t.resumed entropy = { t with stream := Stream.ofSeed (seed + UInt64.ofNat t.generation) } := by
  have sound := lineage.sound
  have population : t.population.stored = t.population :=
    Population.stored_of_finite finite.fitness
  have seedBase : t.seedBase = seed := lineage.seedBase (sound.settings ▸ seeded)
  simp only [Trainer.resumed, seeded, drawSeedBase, streamFor, population, sound.memory_stored,
    seedBase]

/-- The codes and errors of agents that are called in any order, each by its
place; they share what they share. -/
def answers (p : Population) : List (Nat × Array Float) → List Agent → Commons →
    Except Fault (List (Except Error Code))
  | [], _, _ => pure []
  | (i, input) :: calls, agents, c =>
    match agents[i]? with
    | none => answers p calls agents c
    | some a => do
      let (result, a, c) ← a.act p input c
      let later ← answers p calls (agents.set i a) c
      pure (result :: later)

/-- A seeded trainer with finite floats comes back from its checkpoint equal in
all but the stream, with the same agents, which act the same. -/
theorem Lineage.round_trip (lineage : Lineage s t) {seed : UInt64}
    (seeded : s.trainer.seed = some seed) (sized : t.IsSized) (finite : t.IsFinite)
    (entropy : Stream) :
    ∃ again, load t.saved entropy = .ok (.ok again) ∧
      (Json.parse t.savedText = some t.saved → loadText t.savedText entropy = .ok (.ok again)) ∧
      again = { t with stream := Stream.ofSeed (seed + UInt64.ofNat t.generation) } ∧
      ∀ query, again.agents query = t.agents query ∧ ∀ calls,
        answers again.population calls (again.agents query) again.commons =
          answers t.population calls (t.agents query) t.commons := by
  have sound := lineage.sound
  have fits : t.checkpoint.Fits :=
    sound.checkpoint_fits (Settings.valid_of_validate lineage.valid) sized finite
  have resumed := lineage.resumed_eq finite (sound.settings ▸ seeded) entropy
  have loaded : load t.saved entropy =
      .ok (.ok { t with stream := Stream.ofSeed (seed + UInt64.ofNat t.generation) }) :=
    (sound.load_saved lineage.valid entropy).2 ⟨fits, resumed⟩
  refine ⟨_, loaded, fun read => ?_, rfl, fun query => ⟨rfl, fun calls => rfl⟩⟩
  rw [loadText, read]
  exact loaded

/-- Two teams with real codes and a memory, from a seed. -/
def seeded : Settings where
  trainer := { teamPopSize := 2, seed := some 7, actions := .real [[0.5], [1.5]] }
  program :=
    { instructionSet := .memory, initMaxProgramSize := 1, memoryRows := 2, memoryCols := 1 }
  mutation := { initMaxTeamSize := 2 }

/-- A seeded trainer with an outcome of its first team. -/
def scored : Option Trainer := do
  let t ← (← (start seeded (Stream.ofScript [])).toOption).toOption
  (t.reportOutcome ⟨0⟩ "task" 2.5).toOption

theorem scored_comes_back : ∃ t again, Lineage seeded t ∧ t.memory.isSome = true ∧
    t.tasks.toList = ["task"] ∧ load t.saved (Stream.ofScript []) = .ok (.ok again) ∧
    again = { t with stream := Stream.ofSeed (7 + UInt64.ofNat t.generation) } := by
  have run : scored.map (fun t => (decide t.IsSized, decide t.IsFinite, t.memory.isSome,
      t.tasks.toList)) = some (true, true, true, ["task"]) := by
    decide +kernel
  simp only [scored, Option.map_eq_some_iff, Option.bind_eq_bind, Option.bind_eq_some_iff,
    Prod.mk.injEq, decide_eq_true_eq] at run
  obtain ⟨t, ⟨⟨_, started, first, start, report⟩, sized, finite, memory, tasks⟩⟩ := run
  obtain rfl := ok_of_toOption start
  have lineage : Lineage seeded t :=
    .call (.start (ok_of_toOption started)) (.report _ _ _ (ok_of_toOption report))
  have configured : seeded.trainer.seed = some 7 := rfl
  obtain ⟨again, loaded, -, eq, -⟩ :=
    lineage.round_trip configured sized finite (Stream.ofScript [])
  exact ⟨t, again, lineage, memory, tasks, loaded, eq⟩

end Trainer

end TangledGraph
