import TangledGraph.Proofs.Graph.Roots
import TangledGraph.Proofs.Machine.Totality
import TangledGraph.Proofs.Training.Reproduction

/-!
# One generation

A generation goes through three stages. Selection leaves a part of the
population with all the elites; reproduction lets that part grow, and no new
action leads to an elite; in the end the learners on no team are gone. A sound
trainer is sound again after that.
-/
namespace TangledGraph

open Draw

/-- Along any order deletion leaves a part of the population with every team in it that
is not doomed. -/
theorem Selection.cull_outline {p : Population} {order : List (TeamId × Float)} {gap : Float}
    {elites : List TeamId} {selection : Selection} (exact : p.outline.Exact)
    (run : cull order p gap elites = .ok selection) :
    selection.population.outline.Exact ∧ selection.population.outline.PartOf p.outline ∧
      ∀ u, u ∉ doomed order gap elites → p.containsTeam u = true →
        selection.population.containsTeam u = true := by
  refine foldlM_induction (fun selection : Selection =>
    selection.population.outline.Exact ∧ selection.population.outline.PartOf p.outline ∧
      ∀ u, u ∉ doomed order gap elites → p.containsTeam u = true →
        selection.population.containsTeam u = true)
    (fun t deleted before after h deletion => ?_)
    (b := ⟨p, 0, 0⟩) ⟨exact, .refl _, fun _ _ => id⟩ run
  obtain ⟨exact', part, kept⟩ := h
  simp only [delete, bind_eq_ok, pure_eq_ok] at deletion
  obtain ⟨⟨learners, q⟩, deletion, rfl⟩ := deletion
  obtain ⟨-, exact'', teams, part'⟩ := Population.deleteTeam_outline exact' deletion
  have kept' : ∀ u, u ∉ doomed order gap elites → p.containsTeam u = true →
      q.containsTeam u = true := by
    intro u spared there
    have other : u ≠ t := fun same => spared (same ▸ deleted)
    rw [teams, Function.update_of_ne other]
    exact kept u spared there
  exact ⟨exact'', part'.trans part, kept'⟩

/-- Elites are not deleted. -/
theorem Selection.not_mem_doomed {order : List (TeamId × Float)} {gap : Float}
    {elites : List TeamId} : ∀ e ∈ elites, e ∉ doomed order gap elites := by
  intro e elite deleted
  simpa [elite] using List.of_mem_filter deleted

namespace Trainer

theorem setFitnesses_outline {p q : Population} {scores : List (TeamId × Float)}
    (run : setFitnesses p scores = .ok q) : q.outline = p.outline :=
  foldlM_induction (fun q => q.outline = p.outline)
    (fun _ _ _ _ before written => (Population.outline_setFitness written).trans before) rfl run

theorem mem_roots_of_mem_elites {t : Trainer} {outcomes : Scoring.Matrix} {elites : List TeamId}
    (run : t.chooseElites outcomes = .ok elites) : ∀ e ∈ elites, e ∈ t.roots := by
  unfold chooseElites at run
  split at run
  · simp only [bind_eq_ok, pure_eq_ok] at run
    obtain ⟨places, -, rfl⟩ := run
    intro e he
    obtain ⟨i, -, found⟩ := List.mem_filterMap.1 he
    exact List.mem_of_getElem? found
  · simp only [pure_eq_ok] at run
    simp [← run]

/-- What holds of a trainer with given settings between calls: its stock is
steady, its roots are those of the population, its elites are among them, and
its memory has the shape that the settings call for. -/
structure Sound (t : Trainer) (s : Settings) : Prop where
  settings : t.settings = s
  steady : Stock.Steady (Action.Among t.settings.trainer.actions fun _ => True)
    ⟨t.population, t.counters⟩
  roots : t.roots = t.population.roots
  elites : ∀ e ∈ t.elites, e ∈ t.roots
  memory : t.memory.map Memory.shape = (initialMemory s).map Memory.shape

/-- The stages of a generation between two trainers. -/
structure Stages (t next : Trainer) (selected : Population) (grown : Stock) : Prop where
  /-- Selection leaves a part. -/
  selected_exact : selected.outline.Exact
  selected_part : selected.outline.PartOf t.population.outline
  elites_roots : ∀ e ∈ next.elites, e ∈ t.roots
  elites_kept : ∀ e ∈ next.elites, selected.containsTeam e = true
  /-- Reproduction lets the part grow. -/
  growth : Stock.Extends (Action.Among t.settings.trainer.actions (· ∉ next.elites))
    ⟨selected, t.counters⟩ grown
  wellFormed : ∀ {u}, grown.population.containsTeam u = true → grown.population.WellFormed u
  /-- No action leads to a team that was made in this generation. -/
  older : ∀ {l u}, grown.population.target? l = some u → u.val < t.counters.team
  /-- The learners on no team go. -/
  next_exact : next.population.outline.Exact
  next_part : next.population.outline.PartOf grown.population.outline
  next_teams : next.population.containsTeam = grown.population.containsTeam
  employed : ∀ {l policy}, next.population.policy? l = some policy →
    next.population.teamsOf l ≠ []
  counters : next.counters = grown.counters
  roots : next.roots = next.population.roots
  settings : next.settings = t.settings
  memory : next.memory = t.memory
  seedBase : next.seedBase = t.seedBase

/-- The end of a generation deletes the learners on no team, records the roots
and leaves everything else. -/
theorem nextGeneration_outline {t next : Trainer} {pruned : Nat}
    (exact : t.population.outline.Exact) (run : t.nextGeneration = .ok (pruned, next)) :
    next.population.outline.Exact ∧ next.population.outline.PartOf t.population.outline ∧
      next.population.containsTeam = t.population.containsTeam ∧
      (∀ {l policy}, next.population.policy? l = some policy →
        next.population.teamsOf l ≠ []) ∧
      next = { t with
        population := next.population, roots := next.population.roots, tasks := {},
        generation := t.generation + 1 } := by
  simp only [nextGeneration, bind_eq_ok, pure_eq_ok, Prod.mk.injEq] at run
  obtain ⟨⟨orphans, p⟩, pruning, -, rfl⟩ := run
  have same := p.outline_retainOutcomes t.settings.trainer.retainedTasks
  obtain ⟨exact', teams, -, teamsOf, policy⟩ := Population.pruneOrphans_outline exact pruning
  have part := Population.pruneOrphans_partOf exact pruning
  have employed {l x} (hl : p.policy? l = some x) : p.teamsOf l ≠ [] := by
    intro alone
    rw [policy] at hl
    rw [teamsOf] at alone
    simp [alone] at hl
  have teams' := (congrArg Outline.teams same).trans teams
  refine ⟨same ▸ exact', same ▸ part, teams', ?_, rfl⟩
  intro l x hl
  have before : p.policy? l = some x := (congrFun (congrArg Outline.policy? same) l).symm.trans hl
  exact (congrFun (congrArg Outline.teamsOf same) l).trans_ne (employed before)

/-- No action leads to a root. -/
theorem Sound.unreferred {s : Settings} {t : Trainer} (sound : t.Sound s) {id : TeamId}
    (root : id ∈ t.roots) :
    t.population.containsTeam id = true ∧ t.population.references id = [] := by
  rw [sound.roots] at root
  exact Population.mem_roots.1 root

theorem Sound.nodup_roots {s : Settings} {t : Trainer} (sound : t.Sound s) : t.roots.Nodup := by
  rw [sound.roots]
  exact t.population.nodup_roots

/-- In a part of the population of a trainer, actions are codes of the settings
or teams that were made before, other than elites that are chosen from the roots. -/
theorem Sound.allowed_of_partOf {s : Settings} {t : Trainer} (sound : t.Sound s)
    {p : Population} (part : p.outline.PartOf t.population.outline) {elites : List TeamId}
    (fromRoots : ∀ e ∈ elites, e ∈ t.roots) {l : LearnerId} {program : Program}
    {action : Action} (hl : p.policy? l = some (program, action)) :
    action.Among t.settings.trainer.actions fun u => u ∉ elites ∧ u.val < t.counters.team := by
  have before : t.population.policy? l = some (program, action) := part.policy hl
  cases action with
  | atomic code => exact sound.steady.allowed before
  | team e =>
    have leads : t.population.outline.target? l = some e :=
      Outline.target?_of_policy? (o := t.population.outline) before
    constructor
    · intro elite
      have reference : l ∈ t.population.references e :=
        sound.steady.sound.exact.reference_iff.2 leads
      rw [(sound.unreferred (fromRoots e elite)).2] at reference
      simp at reference
    · exact sound.steady.sound.below.team
        (Population.resolve_target sound.steady.sound.exact
          ((Population.target?_eq ..).trans leads))

/-- What selection leaves: a part of the population with the elites in it, which
are some of the roots. -/
structure Leaves (t : Trainer) (elites : List TeamId) (p : Population) : Prop where
  exact : p.outline.Exact
  part : p.outline.PartOf t.population.outline
  fromRoots : ∀ e ∈ elites, e ∈ t.roots
  stays : ∀ e ∈ elites, p.containsTeam e = true

theorem Sound.leaves {s : Settings} {t : Trainer} (sound : t.Sound s) {outcomes : Scoring.Matrix}
    {scores : List (TeamId × Float)} {gap : Float} {p : Population} {elites : List TeamId}
    {selection : Selection} (scored : setFitnesses t.population scores = .ok p)
    (chosen : t.chooseElites outcomes = .ok elites)
    (selected : Selection.run p scores gap elites = .ok selection) :
    t.Leaves elites selection.population := by
  have outline := setFitnesses_outline scored
  have exact : p.outline.Exact := outline ▸ sound.steady.sound.exact
  obtain ⟨exact', part, kept⟩ := Selection.cull_outline exact selected
  have fromRoots := mem_roots_of_mem_elites chosen
  refine ⟨exact', outline ▸ part, fromRoots, fun e elite => ?_⟩
  have teams : p.containsTeam = t.population.containsTeam := congrArg Outline.teams outline
  exact kept e (Selection.not_mem_doomed e elite)
    ((congrFun teams e).trans (sound.unreferred (fromRoots e elite)).1)

section Leaves

variable {s : Settings} {t : Trainer} {elites : List TeamId} {p : Population}
variable (sound : t.Sound s) (leaves : t.Leaves elites p)
include sound leaves

theorem Leaves.stock : Stock.Sound ⟨p, t.counters⟩ :=
  sound.steady.sound.of_partOf leaves.exact leaves.part

/-- Targets are teams that are left, but for the elites. -/
theorem Leaves.pool (roots : List TeamId) :
    ∀ u ∈ (Breeders.of p roots elites).teamPool, u ∉ elites ∧ u.val < t.counters.team := by
  intro u hu
  obtain ⟨listed, other⟩ := List.mem_filter.1 hu
  exact ⟨by simpa using other, (leaves.stock sound).below.team (Population.mem_teamIds.1 listed)⟩

theorem Leaves.wellFormed {u : TeamId} (there : p.containsTeam u = true) : p.WellFormed u :=
  (Population.wellFormed_iff leaves.exact leaves.part there).2
    (sound.steady.wellFormed (leaves.part.teams there))

end Leaves

/-- A sound trainer goes through the stages, whatever is drawn. -/
theorem advance_yields {s : Settings} {t : Trainer} (sound : t.Sound s)
    (outcomes : Scoring.Matrix) (mode : Scoring.Mode) :
    Yields (t.advance outcomes mode) fun ended =>
      ∃ selected grown, Stages t ended.2 selected grown := by
  refine Yields.skip fun fitness => ?_
  refine Yields.lift_bind fun p scored => Yields.lift_bind fun elites chosen => ?_
  refine Yields.lift_bind fun selection selected => ?_
  have leaves := sound.leaves scored chosen selected
  refine (Brood.fill_yields (leaves.pool sound _) (leaves.stock sound)
    (sound.allowed_of_partOf leaves.part leaves.fromRoots) (leaves.wellFormed sound)).bind
    fun brood ⟨growth, wellFormed⟩ => ?_
  -- The learners that are on no team in the end go.
  refine Yields.lift_bind fun ⟨pruned, next⟩ run => Yields.pure ?_
  obtain ⟨exactNext, partNext, teams, employed, eq⟩ :=
    nextGeneration_outline growth.sound.exact run
  have elitesNext : next.elites = elites := congrArg Trainer.elites eq
  have settingsNext : next.settings = t.settings := by rw [eq]
  have memoryNext : next.memory = t.memory := by rw [eq]
  have seedBaseNext : next.seedBase = t.seedBase := by rw [eq]
  exact ⟨selection.population, brood.stock, {
    selected_exact := leaves.exact
    selected_part := leaves.part
    elites_roots := elitesNext ▸ leaves.fromRoots
    elites_kept := elitesNext ▸ leaves.stays
    growth := elitesNext ▸ growth.mono fun _ allowed => allowed.mono fun _ => And.left
    wellFormed := wellFormed
    older := fun leads => (Action.Among.target growth.allowed leads).2
    next_exact := exactNext
    next_part := partNext
    next_teams := teams
    employed := employed
    counters := congrArg Trainer.counters eq
    roots := congrArg Trainer.roots eq
    settings := settingsNext
    memory := memoryNext
    seedBase := seedBaseNext }⟩

/-- Sound trainers follow sound trainers. -/
theorem Stages.sound {s : Settings} {t next : Trainer} {selected : Population} {grown : Stock}
    (h : Stages t next selected grown) (sound : t.Sound s) : next.Sound s where
  settings := h.settings.trans sound.settings
  steady := {
    sound := by
      rw [h.counters]
      exact h.growth.sound.of_partOf h.next_exact h.next_part
    allowed := by
      intro l program action hl
      have allowed := h.growth.allowed (h.next_part.policy hl)
      rw [h.settings]
      exact allowed.mono fun _ _ => trivial
    wellFormed := by
      intro u hu
      have grownWell := h.wellFormed (h.next_part.teams hu)
      exact (Population.wellFormed_iff h.next_exact h.next_part hu).2 grownWell
    employed := h.employed }
  roots := h.roots
  elites := by
    intro e elite
    have there : grown.population.containsTeam e = true :=
      h.growth.part.teams (h.elites_kept e elite)
    rw [h.roots, Population.mem_roots]
    constructor
    · exact (congrFun h.next_teams e).trans there
    -- A reference would be an action that leads to an elite.
    · refine List.eq_nil_iff_forall_not_mem.2 fun l reference => ?_
      obtain ⟨⟨program, action⟩, enlisted, leads⟩ :=
        Option.bind_eq_some_iff.1 (h.next_exact.reference_iff.1 reference)
      have allowed := h.growth.allowed (h.next_part.policy enlisted)
      cases action with
      | atomic code => simp at leads
      | team u =>
        obtain rfl := Option.some.inj leads
        exact allowed elite
  memory := h.memory ▸ sound.memory

/-- A successful evolution is a generation, and a refused one changes nothing. -/
theorem evolve_eq_ok {s : Settings} {t next : Trainer} {tasks : List String} {mode : Scoring.Mode}
    {result : Except Error Summary} (sound : t.Sound s)
    (run : t.evolve tasks mode = .ok (result, next)) :
    (∃ e, result = .error e) ∧ next = t ∨
      (∃ summary, result = .ok summary) ∧ ∃ selected grown, Stages t next selected grown := by
  unfold evolve at run
  cases matrix : t.outcomeMatrix tasks with
  | error e =>
    simp only [matrix, pure_eq_ok, Prod.mk.injEq] at run
    exact .inl ⟨⟨e, run.1.symm⟩, run.2.symm⟩
  | ok outcomes =>
    simp only [matrix, bind_eq_ok, pure_eq_ok, Prod.mk.injEq] at run
    obtain ⟨⟨⟨summary, ended⟩, rest⟩, run, rfl, rfl⟩ := run
    obtain ⟨selected, grown, stages⟩ := advance_yields sound outcomes mode _ _ _ run
    exact .inr ⟨⟨summary, rfl⟩, selected, grown, { stages with }⟩

end Trainer

end TangledGraph
