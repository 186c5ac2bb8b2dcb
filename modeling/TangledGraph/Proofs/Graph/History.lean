import TangledGraph.Proofs.Graph.Variation

/-!
# Histories of a population

Every call that changes the graph, in any order, with any settings, pools and
random words. A call that is no fault keeps the records exact, and so does any
history of such calls that starts from nothing. Exact records agree entry by
entry, which is more than an audit looks at.
-/
namespace TangledGraph

namespace Stock

/-- A call that changes the graph. The draws of variation come with settings of
their own. -/
inductive Call
  | createTeam (generation : Nat)
  | createLearner (program : Program) (action : Action) (generation : Nat)
  | cloneLearner (source : LearnerId) (generation : Nat)
  | addLearner (t : TeamId) (l : LearnerId)
  | dropLearner (t : TeamId) (l : LearnerId)
  | setAction (l : LearnerId) (action : Action)
  | deleteLearner (l : LearnerId)
  | deleteTeam (t : TeamId)
  | pruneOrphans
  | varyLearner (s : Settings) (l : LearnerId) (parent : TeamId) (pool : List TeamId)
      (forceAtomic : Bool)
  | varyTeam (s : Settings) (generation : Nat) (t : TeamId) (learnerPool : List LearnerId)
      (teamPool : List TeamId)
  /-- Identities are taken for something else. -/
  | reserve (teams learners programs : Nat)

/-- What a call makes of a stock; what it gives besides is left out. -/
def Call.run (stock : Stock) : Call → Draw Stock
  | createTeam generation =>
    let (_, p, c) := stock.population.createTeam stock.counters generation
    pure ⟨p, c⟩
  | createLearner program action generation => do
    let (_, p, c) ← stock.population.createLearner stock.counters program action generation
    pure ⟨p, c⟩
  | cloneLearner source generation => do
    let (_, p, c) ← stock.population.cloneLearner stock.counters source generation
    pure ⟨p, c⟩
  | addLearner t l => return { stock with population := ← stock.population.addLearner t l }
  | dropLearner t l => return { stock with population := ← stock.population.dropLearner t l }
  | setAction l action => return { stock with population := ← stock.population.setAction l action }
  | deleteLearner l => do
    let (_, p) ← stock.population.deleteLearner l
    pure { stock with population := p }
  | deleteTeam t => do
    let (_, p) ← stock.population.deleteTeam t
    pure { stock with population := p }
  | pruneOrphans => do
    let (_, p) ← stock.population.pruneOrphans
    pure { stock with population := p }
  | varyLearner s l parent pool forceAtomic => Stock.varyLearner s stock l parent pool forceAtomic
  | varyTeam s generation t learnerPool teamPool =>
    Stock.varyTeam s generation stock t learnerPool teamPool
  | reserve teams learners programs =>
    pure { stock with
      counters := ⟨stock.counters.team + teams, stock.counters.learner + learners,
        stock.counters.program + programs⟩ }

/-- Calls in order, each on a random stream of its own. -/
def perform (stock : Stock) (calls : List (Call × Stream)) : Except Fault Stock :=
  calls.foldlM (fun stock (call, stream) => Prod.fst <$> (call.run stock).run stream) stock

theorem Sound.createLearner {stock : Stock} (sound : stock.Sound) {program : Program}
    {action : Action} {generation : Nat} {l : LearnerId} {p : Population} {c d : Counters}
    (le : stock.counters ≤ c)
    (run : stock.population.createLearner c program action generation = .ok (l, p, d)) :
    Sound ⟨p, d⟩ := by
  have new : stock.population.policy? ⟨c.learner⟩ = none := by
    by_contra there
    obtain ⟨policy, found⟩ := Option.ne_none_iff_exists'.1 there
    exact lt_irrefl _ ((sound.below.learner found).trans_le le.2.1)
  have exact := Population.exact_createLearner sound.exact new run
  obtain ⟨rfl, rfl, -, eq⟩ := Population.createLearner_outline run
  have below : p.outline.Below { c with learner := c.learner + 1 } := by
    rw [eq]
    constructor
    · intro t ht
      exact (sound.below.team ht).trans_le le.1
    · intro k policy hk
      rw [Outline.policy?_enlist] at hk
      by_cases same : k = ⟨c.learner⟩
      · exact same ▸ Nat.lt_succ_self _
      · rw [if_neg same] at hk
        exact Nat.lt_succ_of_lt ((sound.below.learner hk).trans_le le.2.1)
  exact ⟨exact, below⟩

/-- No call breaks the records. -/
theorem Call.run_sound {stock : Stock} (sound : stock.Sound) (call : Call) :
    Draw.Yields (call.run stock) Sound := by
  have le : ({} : Counters) ≤ stock.counters := Counters.zero_le _
  cases call with
  | createTeam generation => exact Draw.Yields.pure (sound.found generation)
  | createLearner program action generation =>
    exact Draw.Yields.lift_bind fun _ run => Draw.Yields.pure (sound.createLearner le_rfl run)
  | cloneLearner source generation =>
    refine Draw.Yields.lift_bind fun _ run => Draw.Yields.pure ?_
    simp only [Population.cloneLearner, Program.duplicate, bind_eq_ok] at run
    obtain ⟨learner, -, run⟩ := run
    refine sound.createLearner ?_ run
    simp [Program.create, Counters.newProgram, Counters.le_def]
  | addLearner t l =>
    refine Draw.Yields.lift_bind fun p run => Draw.Yields.pure ?_
    have path : Path {} (fun _ => True) stock ⟨p, stock.counters⟩ :=
      .single (.join (Nat.zero_le _) run)
    exact path.sound sound
  | dropLearner t l =>
    refine Draw.Yields.lift_bind fun p run => Draw.Yields.pure ?_
    have path : Path {} (fun _ => True) stock ⟨p, stock.counters⟩ :=
      .single (.leave (Nat.zero_le _) run)
    exact path.sound sound
  | setAction l action =>
    refine Draw.Yields.lift_bind fun p run => Draw.Yields.pure ?_
    have path : Path {} (fun _ => True) stock ⟨p, stock.counters⟩ :=
      .single (.aim (Nat.zero_le _) trivial run)
    exact path.sound sound
  | deleteLearner l =>
    refine Draw.Yields.lift_bind fun deleted run => Draw.Yields.pure ?_
    refine sound.of_partOf (Population.exact_deleteLearner sound.exact run) ?_
    exact Population.deleteLearner_partOf run
  | deleteTeam t =>
    refine Draw.Yields.lift_bind fun _ run => Draw.Yields.pure ?_
    obtain ⟨-, exact, -, part⟩ := Population.deleteTeam_outline sound.exact run
    exact sound.of_partOf exact part
  | pruneOrphans =>
    refine Draw.Yields.lift_bind fun _ run => Draw.Yields.pure ?_
    exact sound.of_partOf (Population.pruneOrphans_outline sound.exact run).1
      (Population.pruneOrphans_partOf sound.exact run)
  | varyLearner s l parent pool forceAtomic =>
    have varied : Draw.Yields (Stock.varyLearner s stock l parent pool forceAtomic)
        (Path {} (fun _ => True) stock) :=
      varyLearner_path (Nat.zero_le _) (fun _ _ => trivial) (fun _ _ => trivial) stock
    exact varied.mono fun _ path => path.sound sound
  | varyTeam s generation t learnerPool teamPool =>
    have varied : Draw.Yields (Stock.varyTeam s generation stock t learnerPool teamPool)
        fun varied => Path {} (fun _ => True) stock varied ∧
          varied.population.assertWellFormed t = .ok () :=
      varyTeam_path (Nat.zero_le _) (fun _ _ => trivial) (fun _ _ => trivial) le
    exact varied.mono fun _ path => path.1.sound sound
  | reserve teams learners programs =>
    refine Draw.Yields.pure ⟨sound.exact, sound.below.mono ?_⟩
    exact ⟨Nat.le_add_right _ _, Nat.le_add_right _ _, Nat.le_add_right _ _⟩

theorem perform_sound {stock next : Stock} (sound : stock.Sound) {calls : List (Call × Stream)}
    (run : stock.perform calls = .ok next) : next.Sound := by
  refine foldlM_induction Sound (fun call _ reached next sound run => ?_) sound run
  simp only [map_eq_ok] at run
  obtain ⟨⟨_, rest⟩, run, rfl⟩ := run
  exact call.1.run_sound sound _ _ _ run

end Stock

namespace Population

/-- Every entry at one end of an edge is matched by one at the other end, and
every identity on record is there. -/
structure Mirrored (p : Population) : Prop where
  members : ∀ t team l learner, p.team? t = some team → p.learner? l = some learner →
    team.learners.count l = if learner.inTeams.count t = 1 then 1 else 0
  teams : ∀ l learner t, p.learner? l = some learner → learner.inTeams.count t ≤ 1
  references : ∀ t team l, p.team? t = some team →
    team.inLearners.count l = if p.target? l = some t then 1 else 0
  learners_there : ∀ t team, p.team? t = some team →
    ∀ l ∈ team.learners ++ team.inLearners, ∃ learner, p.learner? l = some learner
  teams_there : ∀ l learner, p.learner? l = some learner →
    ∀ t ∈ learner.inTeams ++ learner.target?.toList, ∃ team, p.team? t = some team

theorem mirrored_of_exact {p : Population} (exact : p.outline.Exact) : p.Mirrored where
  members t team l learner found enlisted := by
    have listed := exact.member_iff (t := t) (l := l)
    have nodup := exact.nodup_members t
    have nodup' := exact.nodup_teamsOf l
    simp only [outline_members, outline_teamsOf, members_of_team? found,
      teamsOf_of_learner? enlisted] at listed nodup nodup'
    rw [nodup.count, nodup'.count]
    simp [listed]
  teams l learner t enlisted := by
    have nodup := exact.nodup_teamsOf l
    simp only [outline_teamsOf, teamsOf_of_learner? enlisted] at nodup
    exact List.nodup_iff_count_le_one.1 nodup t
  references t team l found := by
    have listed := exact.reference_iff (t := t) (l := l)
    have nodup := exact.nodup_references t
    simp only [outline_references, references_of_team? found, ← target?_eq] at listed nodup
    rw [nodup.count]
    simp [listed]
  learners_there t team found l there := by
    obtain member | reference := List.mem_append.1 there
    · exact (resolve_member exact (members_of_team? found ▸ member)).2
    · have target := exact.reference_iff.1 (references_of_team? found ▸ reference)
      obtain ⟨policy, enlisted, -⟩ := Option.bind_eq_some_iff.1 target
      obtain ⟨learner, enlisted, -⟩ := learner?_of_policy? enlisted
      exact ⟨learner, enlisted⟩
  teams_there l learner enlisted t there := by
    obtain listed | target := List.mem_append.1 there
    · rw [← teamsOf_of_learner? enlisted] at listed
      exact containsTeam_iff.1 (resolve_member exact (exact.member_iff.2 listed)).1
    · rw [Option.mem_toList] at target
      exact containsTeam_iff.1 (resolve_target exact
        ((target?_of_learner? enlisted).trans target))

end Population

/-- Whatever is done to an empty population, both ends of every edge agree,
each edge is on record once, and every identity on record is there. -/
theorem mirrored_of_perform {calls : List (Stock.Call × Stream)} {stock : Stock}
    (run : Stock.perform ⟨.empty, {}⟩ calls = .ok stock) : stock.population.Mirrored :=
  Population.mirrored_of_exact (Stock.perform_sound Stock.sound_empty run).exact

/-- Two teams share a learner, one of them is the target of another learner,
and a copy of that one is aimed elsewhere and pruned. -/
def sharing : List (Stock.Call × Stream) :=
  [.createTeam 0, .createTeam 0, .createLearner ⟨⟨0⟩, []⟩ (.atomic (.discrete 0)) 0,
    .createLearner ⟨⟨1⟩, []⟩ (.team ⟨0⟩) 0, .addLearner ⟨0⟩ ⟨0⟩, .addLearner ⟨1⟩ ⟨0⟩,
    .addLearner ⟨1⟩ ⟨1⟩, .cloneLearner ⟨1⟩ 0, .setAction ⟨2⟩ (.atomic (.discrete 1)),
    .dropLearner ⟨0⟩ ⟨0⟩, .pruneOrphans].map fun call => (call, Stream.ofScript [])

theorem mirrored_of_sharing : ∃ stock, Stock.perform ⟨.empty, {}⟩ sharing = .ok stock ∧
    stock.population.learnerCount = 2 ∧ stock.population.Mirrored := by
  have run : (fun stock : Stock => stock.population.learnerCount) <$>
      Stock.perform ⟨.empty, {}⟩ sharing = .ok 2 := by
    decide +kernel
  obtain ⟨stock, run, count⟩ := map_eq_ok.1 run
  exact ⟨stock, run, count, mirrored_of_perform run⟩

end TangledGraph
