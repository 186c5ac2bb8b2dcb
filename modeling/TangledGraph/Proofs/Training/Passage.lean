import TangledGraph.Proofs.Graph.History
import TangledGraph.Proofs.Graph.Liveness
import TangledGraph.Proofs.Machine.Bounds
import TangledGraph.Proofs.Training.Descent

/-!
# Variation between generations

Every stock that a generation passes through comes of the stock of the trainer
by calls of a few kinds. What the programs of a start have and no variation takes
away, all programs of a lineage have. One such thing is an instruction. So whenever
a learner is varied, its variation may end, unless the learner is dead from the
start.
-/
namespace TangledGraph

open Draw

namespace Stock

variable {s : Settings} {generation : Nat} {stock next : Stock} {p : Population}

/-- Evolution changes stocks by nothing but these calls. Learners are varied
with given settings. -/
def Call.Evolves (s : Settings) : Call → Prop
  | createTeam _ | cloneLearner .. | addLearner .. | dropLearner .. | deleteTeam _ => True
  | pruneOrphans => True
  | varyLearner s' .. => s' = s
  | _ => False

/-- A stock comes of another one by calls of evolution. -/
def Passes (s : Settings) (stock next : Stock) : Prop :=
  ∃ calls, (∀ call ∈ calls, call.1.Evolves s) ∧ stock.perform calls = .ok next

theorem Passes.refl (s : Settings) (stock : Stock) : Passes s stock stock :=
  ⟨[], by simp, rfl⟩

theorem Passes.trans {last : Stock} (h : Passes s stock next) (h' : Passes s next last) :
    Passes s stock last := by
  obtain ⟨calls, evolves, run⟩ := h
  obtain ⟨calls', evolves', run'⟩ := h'
  refine ⟨calls ++ calls', fun call listed => ?_, ?_⟩
  · exact (List.mem_append.1 listed).elim (evolves call) (evolves' call)
  · rw [perform, List.foldlM_append]
    exact bind_eq_ok.2 ⟨next, run, run'⟩

theorem Passes.call (call : Call) (evolves : call.Evolves s) {stream rest : Stream}
    (run : (call.run stock).run stream = .ok (next, rest)) : Passes s stock next := by
  refine ⟨[(call, stream)], by simpa using evolves, ?_⟩
  simp only [perform, List.foldlM_cons, List.foldlM_nil, run]
  rfl

/-- A call that draws nothing. -/
theorem Passes.edit (call : Call) (evolves : call.Evolves s) (run : call.run stock = pure next) :
    Passes s stock next :=
  Passes.call call evolves (congrFun run (Stream.ofScript []))

theorem Passes.sound (h : Passes s stock next) (sound : stock.Sound) : next.Sound := by
  obtain ⟨calls, -, run⟩ := h
  exact perform_sound sound run

/-- What every program that is drawn has, and no variation of one takes away. -/
structure Hereditary (s : Settings) (P : List Instruction → Prop) : Prop where
  drawn : ∀ c, Yields (s.program.randomProgram c) fun made => P made.1.instructions
  varied : ∀ program c, P program.instructions →
    Yields (s.mutation.varyProgram s.program program c) fun made =>
      ∃ code, P code ∧ made = Program.create c code

/-- Every program has the property. -/
def Programs (P : List Instruction → Prop) (p : Population) : Prop :=
  ∀ l program action, p.policy? l = some (program, action) → P program.instructions

section Programs

variable {P : List Instruction → Prop}

theorem Programs.of_policy {q : Population} (h : Programs P p)
    (same : ∀ l policy, q.policy? l = some policy → p.policy? l = some policy) : Programs P q :=
  fun l _ _ hl => h l _ _ (same l _ hl)

theorem Programs.of_outline {q : Population} (h : Programs P p)
    (same : q.outline.policy? = p.outline.policy?) : Programs P q :=
  h.of_policy fun l _ hl => (congrFun same l).symm.trans hl

theorem Programs.congr {q : Population} (h : Programs P p) (same : q.outline = p.outline) :
    Programs P q :=
  h.of_outline (by rw [same])

theorem Programs.found (h : Programs P p) {c : Counters} :
    Programs P (p.createTeam c generation).2.1 := by
  refine h.of_outline ?_
  rw [Population.createTeam_outline]
  rfl

theorem Programs.teach (h : Programs P p) {l : LearnerId} {learner : Learner}
    (enlisted : p.learner? l = some learner) {program : Program} (taught : P program.instructions) :
    Programs P (p.setLearner l { learner with program }) := by
  intro k program' action hk
  rw [← Population.outline_policy?, Population.setProgram_outline enlisted,
    Outline.policy?_teach] at hk
  split at hk
  · obtain ⟨eq, -⟩ := Prod.mk.inj (Option.some.inj hk)
    exact eq ▸ taught
  · exact h k _ _ hk

theorem Programs.enlist (h : Programs P p) {c d : Counters} {l : LearnerId} {program : Program}
    {action : Action} {q : Population} (taught : P program.instructions)
    (run : p.createLearner c program action generation = .ok (l, q, d)) : Programs P q := by
  obtain ⟨-, -, -, eq⟩ := Population.createLearner_outline run
  intro k program' action' hk
  rw [← Population.outline_policy?, eq, Outline.policy?_enlist] at hk
  split at hk
  · obtain ⟨same, -⟩ := Prod.mk.inj (Option.some.inj hk)
    exact same ▸ taught
  · exact h k _ _ hk

variable {l : LearnerId} {parent : TeamId} {pool : List TeamId} {forceAtomic : Bool}

theorem varyProgramOf_programs (hereditary : Hereditary s P) (h : Programs P stock.population) :
    Yields (stock.varyProgramOf s l) fun next => Programs P next.population := by
  refine Yields.lift_bind fun learner enlisted => ?_
  rw [Population.getLearner_eq_ok] at enlisted
  have before := Population.policy?_of_learner? enlisted
  refine (hereditary.varied learner.program _ (h l _ _ before)).bind fun made kept => ?_
  obtain ⟨code, taught, rfl⟩ := kept
  exact Yields.pure (h.teach enlisted taught)

theorem varyAction_programs (h : Programs P stock.population) :
    Yields (varyAction s stock l parent pool forceAtomic) fun varied =>
      Programs P varied.2.population := by
  refine Yields.lift_bind fun learner _ => Yields.skip fun drawn => ?_
  cases drawn with
  | none => exact Yields.pure h
  | some action =>
    dsimp only
    split
    · exact Yields.pure h
    · refine Yields.lift_bind fun q run => Yields.pure fun k program action' hk => ?_
      obtain ⟨taught, old, before, -, eq⟩ := Population.setAction_outline run
      rw [← Population.outline_policy?, eq, Outline.policy?_aim] at hk
      split at hk
      · obtain ⟨rfl, -⟩ := Prod.mk.inj (Option.some.inj hk)
        exact h l _ _ before
      · exact h k _ _ hk

theorem varyLearner_programs (hereditary : Hereditary s P) (h : Programs P stock.population) :
    Yields (varyLearner s stock l parent pool forceAtomic) fun varied =>
      Programs P varied.population := by
  refine Yields.iterate (fun reached => Programs P reached.population) (fun reached h => ?_) _ h
  refine Yields.skip fun program => ?_
  refine Yields.either (Q := fun taught : Stock => Programs P taught.population)
    (fun _ => varyProgramOf_programs hereditary h) (fun _ => Yields.pure h) fun taught h => ?_
  refine Yields.skip fun act => ?_
  refine Yields.either (Q := fun varied : Bool × Stock => Programs P varied.2.population)
    (fun _ => varyAction_programs h) (fun _ => Yields.pure h) fun varied h => Yields.pure ?_
  split
  all_goals exact h

/-- No call of evolution takes from a program what is hereditary. -/
theorem Call.run_programs (hereditary : Hereditary s P) (sound : stock.Sound)
    (h : Programs P stock.population) {call : Call} (evolves : call.Evolves s) :
    Yields (call.run stock) fun next => Programs P next.population := by
  cases call with
  | createTeam generation =>
    exact Yields.pure h.found
  | createLearner | setAction | deleteLearner | varyTeam | reserve => exact evolves.elim
  | cloneLearner source generation =>
    refine Yields.lift_bind fun ⟨copy, q, c⟩ run => Yields.pure ?_
    obtain ⟨learner, enlisted, run⟩ := Population.cloneLearner_eq_ok.1 run
    have taught : P (learner.program.duplicate stock.counters).1.instructions :=
      h source learner.program learner.action (Population.policy?_of_learner? enlisted)
    exact h.enlist taught run
  | addLearner t l =>
    refine Yields.lift_bind fun q run => Yields.pure (h.of_outline ?_)
    rw [(Population.addLearner_outline run).2.2]
    rfl
  | dropLearner t l =>
    refine Yields.lift_bind fun q run => Yields.pure (h.of_outline ?_)
    rw [(Population.dropLearner_outline run).2]
    rfl
  | deleteTeam t =>
    refine Yields.lift_bind fun _ run => Yields.pure (h.of_policy fun k policy hk => ?_)
    exact (Population.deleteTeam_outline sound.exact run).2.2.2.policy hk
  | pruneOrphans =>
    refine Yields.lift_bind fun _ run => Yields.pure (h.of_policy fun k policy hk => ?_)
    exact (Population.pruneOrphans_partOf sound.exact run).policy hk
  | varyLearner s' l parent pool forceAtomic =>
    obtain rfl : s' = s := evolves
    exact varyLearner_programs hereditary h

theorem Passes.programs (hereditary : Hereditary s P) (h : Passes s stock next)
    (sound : stock.Sound) (programs : Programs P stock.population) :
    Programs P next.population := by
  obtain ⟨calls, evolves, run⟩ := h
  refine (foldlM_induction (fun reached : Stock => reached.Sound ∧ Programs P reached.population)
    (fun call listed reached next ⟨sound, programs⟩ run => ?_) ⟨sound, programs⟩ run).2
  simp only [map_eq_ok] at run
  obtain ⟨⟨_, rest⟩, run, rfl⟩ := run
  exact ⟨call.1.run_sound sound _ _ _ run,
    Call.run_programs hereditary sound programs (evolves call listed) _ _ _ run⟩

end Programs

/-- Every program has an instruction. -/
def Written (p : Population) : Prop :=
  ∀ l program action, p.policy? l = some (program, action) → program.instructions ≠ []

theorem Written.congr {q : Population} (h : Written p) (same : q.outline = p.outline) : Written q :=
  Programs.congr (P := (· ≠ [])) h same

/-- Programs are drawn with an instruction, and variation never takes the last one. -/
theorem hereditary_written (s : Settings) : Hereditary s (· ≠ []) where
  drawn c := (randomProgram_yields (Yields.trivial _) c).mono fun made bounded =>
    List.length_pos_iff.1 bounded.least
  varied program c some_code := by
    have bounded : Bounded (fun _ => True)
        (max s.program.maxProgramSize program.instructions.length) program.instructions :=
      ⟨List.length_pos_iff.2 some_code, Nat.le_max_right _ _, fun _ _ => trivial⟩
    refine (MutationSettings.varyProgram_bounded (Yields.trivial _) (fun _ _ => Yields.trivial _)
      (Nat.le_max_left _ _) bounded c).mono fun made ⟨code, _, bounded, eq⟩ => ?_
    exact ⟨code, List.length_pos_iff.1 bounded.least, eq⟩

theorem Passes.written (h : Passes s stock next) (sound : stock.Sound)
    (written : Written stock.population) : Written next.population :=
  h.programs (hereditary_written s) sound written

theorem Passes.join {q : Population} {c : Counters} {t : TeamId} {l : LearnerId}
    (run : p.addLearner t l = .ok q) : Passes s ⟨p, c⟩ ⟨q, c⟩ :=
  Passes.edit (.addLearner t l) trivial (by simp only [Call.run, run]; rfl)

/-- The variation of a team is made of such calls. -/
theorem tracks_passes (s : Settings) (t : TeamId) (pool : List TeamId) :
    Tracks s t pool (Passes s) where
  refl := Passes.refl s
  trans := Passes.trans
  join := Passes.join
  leave {p q c l} run := Passes.edit (.dropLearner t l) trivial (by simp only [Call.run, run]; rfl)
  copy {p q c d member copy generation} forceAtomic cloned := by
    have made : Passes s ⟨p, c⟩ ⟨q, d⟩ :=
      Passes.edit (.cloneLearner member generation) trivial (by simp only [Call.run, cloned]; rfl)
    intro stream varied rest run
    exact made.trans (Passes.call (.varyLearner s copy t pool forceAtomic) rfl run)

end Stock

theorem Selection.cull_passes {s : Settings} {p : Population} {c : Counters}
    {order : List (TeamId × Float)} {gap : Float} {elites : List TeamId} {selection : Selection}
    (run : cull order p gap elites = .ok selection) :
    Stock.Passes s ⟨p, c⟩ ⟨selection.population, c⟩ := by
  refine foldlM_induction (fun selection : Selection =>
    Stock.Passes s ⟨p, c⟩ ⟨selection.population, c⟩) (fun t _ before after h deletion => ?_)
    (b := ⟨p, 0, 0⟩) (Stock.Passes.refl s _) run
  simp only [delete, bind_eq_ok, pure_eq_ok] at deletion
  obtain ⟨⟨learners, q⟩, deletion, rfl⟩ := deletion
  exact h.trans (Stock.Passes.edit (.deleteTeam t) trivial
    (by simp only [Stock.Call.run, deletion]; rfl))

namespace Brood

variable {s : Settings} {generation : Nat} {breeders : Breeders}

theorem birth_passes (parent : TeamId) (stock : Stock) :
    Yields (birth s generation breeders parent stock) (Stock.Passes s stock) := by
  have founded : Stock.Passes s stock
      ⟨(stock.population.createTeam stock.counters generation).2.1,
        (stock.population.createTeam stock.counters generation).2.2⟩ :=
    Stock.Passes.edit (.createTeam generation) trivial rfl
  refine Yields.lift_bind fun team _ => Yields.lift_bind fun p joined => ?_
  have joined := foldlM_induction (fun q => Stock.Passes s stock
    ⟨q, (stock.population.createTeam stock.counters generation).2.2⟩)
    (fun _ _ _ _ before added => before.trans (Stock.Passes.join added)) founded joined
  exact ((Stock.tracks_passes s _ _).varyTeam _).mono fun born varied => joined.trans varied.1

theorem fill_passes (stock : Stock) :
    Yields (fill s generation breeders stock) fun brood => Stock.Passes s stock brood.stock :=
  fill_keeps (I := Stock.Passes s stock)
    (fun reached parent before => (birth_passes parent reached).mono fun _ => before.trans)
    (Stock.Passes.refl s stock)

end Brood

namespace Trainer

variable {s : Settings} {t : Trainer}

section Programs

variable {P : List Instruction → Prop} (hereditary : Stock.Hereditary s P)
include hereditary

theorem addInitialLearners_programs (id : TeamId) (codes : List Code) {stock : Stock}
    (h : Stock.Programs P stock.population) :
    Yields (addInitialLearners s id codes stock) fun made =>
      Stock.Programs P made.population := by
  induction codes generalizing stock with
  | nil => exact Yields.pure h
  | cons code codes ih =>
    refine (hereditary.drawn _).bind fun (program, c) taught => ?_
    refine Yields.lift_bind fun (l, p, d) created => Yields.lift_bind fun q added => ih ?_
    refine (h.enlist taught created).of_outline ?_
    rw [(Population.addLearner_outline added).2.2]
    rfl

/-- All programs of the first teams are drawn. -/
theorem initialTeams_programs (n : Nat) {stock : Stock} (h : Stock.Programs P stock.population) :
    Yields (initialTeams s n stock) fun made => Stock.Programs P made.population := by
  induction n generalizing stock with
  | zero => exact Yields.pure h
  | succ n ih =>
    refine Yields.skip fun codes => ?_
    refine (addInitialLearners_programs hereditary _ codes ?_).bind fun made h => ih h
    exact h.found

end Programs

/-- Whatever is recorded of its teams, the stock of a trainer is sound. -/
theorem Sound.stock (sound : t.Sound s) {p : Population}
    (recorded : p.outline = t.population.outline) : Stock.Sound ⟨p, t.counters⟩ :=
  ⟨recorded ▸ sound.steady.sound.exact, recorded ▸ sound.steady.sound.below⟩

/-- Whatever a lineage did, all programs have what is hereditary. -/
theorem Lineage.programs {P : List Instruction → Prop} (hereditary : Stock.Hereditary s P)
    (lineage : Lineage s t) : Stock.Programs P t.population := by
  refine lineage.population_induction (fun same h => h.congr same) (fun {stream t} run => ?start)
    fun {t next tasks mode summary} before h run => ?evolve
  case start =>
    obtain ⟨-, stock, rest, made, rfl⟩ := start_eq_ok run
    refine initialTeams_programs hereditary s.trainer.teamPopSize ?_ _ _ _ made
    intro l program action hl
    have nowhere : l.val < 0 := Stock.sound_empty.below.learner hl
    exact absurd nowhere (Nat.not_lt_zero l.val)
  case evolve =>
    have sound := before.sound
    obtain ⟨elites, selection, brood, _, _, pruned, ended, selects, filled, pruning, rfl, -⟩ :=
      evolve_parts run
    obtain ⟨outcomes, _, fitness, _, p, -, -, written, -, selected⟩ := selects
    have recorded := setFitnesses_outline written
    have passes : Stock.Passes t.settings ⟨p, t.counters⟩ brood.stock :=
      (Selection.cull_passes selected).trans (Brood.fill_passes _ _ _ _ filled)
    have grown := passes.programs (sound.settings.symm ▸ hereditary) (sound.stock recorded)
      (h.congr recorded)
    have exact := (passes.sound (sound.stock recorded)).exact
    obtain ⟨-, part, -⟩ := nextGeneration_outline exact pruning
    exact grown.of_policy fun l _ hl => part.policy hl

theorem Lineage.written (lineage : Lineage s t) : Stock.Written t.population :=
  lineage.programs (Stock.hereditary_written s)

/-- The variation of a copy of a learner may end, whenever it has not ended yet, or
it can never end, and that if the copy is dead. -/
theorem Lineage.variation_may_end_iff (lineage : Lineage s t) {p q r : Population}
    {stock now : Stock} {team : TeamId} {member copy : LearnerId} {generation : Nat}
    {counters : Counters} {pool : List TeamId} {forceAtomic : Bool}
    (recorded : p.outline = t.population.outline) (passes : Stock.Passes s ⟨p, t.counters⟩ stock)
    (dropped : stock.population.dropLearner team member = .ok q)
    (cloned : q.cloneLearner stock.counters member generation = .ok (copy, r, counters))
    (turns : Relation.ReflTransGen (Stock.Turns s copy team pool forceAtomic) ⟨r, counters⟩ now)
    (fuel : Nat) :
    (Allows (iterate (Stock.learnerRound s copy team pool forceAtomic) (fuel + 1) now)
        (fun _ => True) ↔ ¬Stock.Dead s r copy team pool forceAtomic) ∧
      (Stock.Dead s r copy team pool forceAtomic → ∀ stream,
        (iterate (Stock.learnerRound s copy team pool forceAtomic) (fuel + 1) now).run stream =
          .error .endless) := by
  have passes' : Stock.Passes s ⟨p, t.counters⟩ ⟨r, counters⟩ :=
    (passes.trans ((Stock.tracks_passes s team pool).leave dropped)).trans
      (Stock.Passes.edit (.cloneLearner member generation) trivial
        (by simp only [Stock.Call.run, cloned]; rfl))
  have sound := lineage.sound.stock recorded
  have exact := (passes'.sound sound).exact
  have written := passes'.written sound (lineage.written.congr recorded)
  obtain ⟨original, enlisted⟩ : ∃ original, q.learner? member = some original := by
    obtain ⟨original, enlisted, -⟩ := Population.cloneLearner_eq_ok.1 cloned
    exact ⟨original, enlisted⟩
  obtain ⟨-, program, eq⟩ := Population.cloneLearner_outline enlisted cloned
  have own : r.policy? copy = some (program, original.action) := by
    refine (congrFun (congrArg Outline.policy? eq) copy).trans ?_
    rw [Outline.policy?_enlist, if_pos rfl]
  have alone : r.teamsOf copy = [] := by
    refine (congrFun (congrArg Outline.teamsOf eq) copy).trans ?_
    simp [Outline.enlist]
  obtain ⟨learner, enlisted, same⟩ := Population.learner?_of_policy? own
  have some_code : learner.program.instructions ≠ [] :=
    written copy _ _ (Population.policy?_of_learner? enlisted)
  exact Stock.variation_ends_iff (Settings.valid_of_validate lineage.valid)
    (Settings.varies_of_validate lineage.valid) exact enlisted alone some_code turns fuel

/-- The first of two teams goes, the other one has a child, and the first learner
of the child gives way to a copy. -/
def copied (s : Settings) :
    Option (Trainer × Stock × Population × LearnerId × Population × Counters) := do
  let t ← (← (start s (Stream.ofScript [])).toOption).toOption
  let calls := [.deleteTeam ⟨0⟩, .createTeam 0, .addLearner ⟨2⟩ ⟨2⟩, .addLearner ⟨2⟩ ⟨3⟩].map
    fun call => (call, Stream.ofScript [])
  let stock ← (Stock.perform ⟨t.population, t.counters⟩ calls).toOption
  let q ← (stock.population.dropLearner ⟨2⟩ ⟨2⟩).toOption
  let (copy, r, counters) ← (q.cloneLearner stock.counters ⟨2⟩ 0).toOption
  pure (t, stock, q, copy, r, counters)

theorem copied_calls {stock : Stock} {q r : Population} {copy : LearnerId} {counters : Counters}
    (run : copied s = some (t, stock, q, copy, r, counters)) :
    Lineage s t ∧ Stock.Passes s ⟨t.population, t.counters⟩ stock ∧
      stock.population.dropLearner ⟨2⟩ ⟨2⟩ = .ok q ∧
      q.cloneLearner stock.counters ⟨2⟩ 0 = .ok (copy, r, counters) := by
  simp only [copied, Option.bind_eq_bind, Option.bind_eq_some_iff, Option.pure_def,
    Option.some.injEq, Prod.mk.injEq, Prod.exists] at run
  obtain ⟨started, run, _, start, _, performed, _, dropped, _, _, _, cloned, rfl, rfl, rfl, rfl,
    rfl, rfl⟩ := run
  obtain rfl := ok_of_toOption start
  refine ⟨.start (ok_of_toOption run), ⟨_, ?_, ok_of_toOption performed⟩, ok_of_toOption dropped,
    ok_of_toOption cloned⟩
  simp [Stock.Call.Evolves]

/-- With programs that change, any copy may have changed. -/
theorem copied_may_end : ∃ t stock q copy r counters, Lineage small t ∧
    Stock.Passes small ⟨t.population, t.counters⟩ stock ∧
    stock.population.dropLearner ⟨2⟩ ⟨2⟩ = .ok q ∧
    q.cloneLearner stock.counters ⟨2⟩ 0 = .ok (copy, r, counters) ∧
    Allows (iterate (Stock.learnerRound small copy ⟨2⟩ [] false) roundLimit ⟨r, counters⟩)
      fun _ => True := by
  have run : (copied small).isSome = true := by decide +kernel
  obtain ⟨⟨t, stock, q, copy, r, counters⟩, run⟩ := Option.isSome_iff_exists.1 run
  obtain ⟨lineage, passes, dropped, cloned⟩ := copied_calls run
  have some_round : roundLimit = roundLimit - 1 + 1 := by decide
  refine ⟨t, stock, q, copy, r, counters, lineage, passes, dropped, cloned, ?_⟩
  rw [some_round]
  refine (lineage.variation_may_end_iff rfl passes dropped cloned .refl _).1.2 fun dead => ?_
  have unchanging := dead.programs
  revert unchanging
  decide +kernel

/-- Two teams of learners that can do nothing but one thing, which is listed twice;
the champion of a task is no target. -/
def twins : Settings where
  trainer := { teamPopSize := 2, actions := .discrete [3, 3], elitist := true }
  program := { initMaxProgramSize := 1 }
  mutation := { initMaxTeamSize := 2, pProgramMutate := 0.0, pActionMutate := 0.5 }

/-- Whether the action of a learner is the only code there is. -/
def hasOnlyCode (s : Settings) (p : Population) (l : LearnerId) : Bool :=
  match p.policy? l with
  | some (_, .atomic code) => s.trainer.actions.toList.all fun other => !(other != code)
  | _ => false

theorem codes_of_hasOnlyCode {p : Population} {l : LearnerId} (only : hasOnlyCode s p l = true) :
    ∃ program code, p.policy? l = some (program, .atomic code) ∧
      ∀ other ∈ s.trainer.actions.toList, (other != code) = false := by
  unfold hasOnlyCode at only
  split at only
  case h_1 program code policy => exact ⟨program, code, policy, by simpa using only⟩
  case h_2 => cases only

/-- Valid settings may have learners whose variation never ends: a code that is
listed twice is counted as two. -/
theorem twins_never_end : twins.validate = .ok () ∧ ∃ t stock q copy r counters,
    Lineage twins t ∧ Stock.Passes twins ⟨t.population, t.counters⟩ stock ∧
    stock.population.dropLearner ⟨2⟩ ⟨2⟩ = .ok q ∧
    q.cloneLearner stock.counters ⟨2⟩ 0 = .ok (copy, r, counters) ∧
    ∀ fuel stream, (iterate (Stock.learnerRound twins copy ⟨2⟩ [] false) fuel
      ⟨r, counters⟩).run stream = .error .endless := by
  have run : (copied twins).map
      (fun made => hasOnlyCode twins made.2.2.2.2.1 made.2.2.2.1) = some true := by
    decide +kernel
  obtain ⟨⟨t, stock, q, copy, r, counters⟩, run, only⟩ := Option.map_eq_some_iff.1 run
  obtain ⟨lineage, passes, dropped, cloned⟩ := copied_calls run
  have dead : Stock.Dead twins r copy ⟨2⟩ [] false :=
    ⟨by decide +kernel, codes_of_hasOnlyCode only, .inr (by simp)⟩
  exact ⟨lineage.valid, t, stock, q, copy, r, counters, lineage, passes, dropped, cloned,
    endless_of_gives (Stock.learnerRound_dead (Settings.valid_of_validate lineage.valid) dead)⟩

end Trainer

end TangledGraph
