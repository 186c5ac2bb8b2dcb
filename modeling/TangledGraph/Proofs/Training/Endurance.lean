import TangledGraph.Proofs.Graph.Imitation
import TangledGraph.Proofs.Graph.Restoration
import TangledGraph.Proofs.Training.Refusal

/-!
# Generations in spite of loose records

A trainer that is taken up may have loose records. It goes through a generation all
the same if its roots are different and are roots in spite of all references: next to
it goes a trainer with tidy records, which does not go wrong and changes nothing but
what is new.
-/
namespace TangledGraph

open Draw

namespace Stock

/-- A stock with tidy records and well-formed teams for one with loose records. -/
structure Tidies (tidy stock : Stock) : Prop where
  loose : stock.Loosens tidy
  sound : tidy.Sound
  wellFormed : ∀ {t}, tidy.population.containsTeam t = true → tidy.population.WellFormed t

/-- What is left of a tidy stock is tidy. -/
theorem Tidies.of_partOf {tidy stock : Stock} {p q : Population} (tidies : tidy.Tidies stock)
    (exact : q.outline.Exact) (part : q.outline.PartOf tidy.population.outline)
    (loose : p.Loosens q) : Tidies ⟨q, tidy.counters⟩ ⟨p, stock.counters⟩ where
  loose := ⟨loose, tidies.loose.counters⟩
  sound := tidies.sound.of_partOf exact part
  wellFormed there :=
    (Population.wellFormed_iff exact part there).2 (tidies.wellFormed (part.teams there))

end Stock

namespace Population

variable {p q : Population} {t u : TeamId}

theorem Loosens.below_iff (h : p.Loosens q) {c : Counters} :
    p.outline.Below c ↔ q.outline.Below c := by
  constructor
  all_goals
    rintro ⟨teams, learners⟩
    constructor
    · simpa [h.containsTeam_eq] using @teams
    · simpa [h.policy?_eq] using @learners

/-- A team without references gets none while learners go. -/
theorem releaseMembers_root {ls deleted : List LearnerId}
    (run : releaseMembers t ls p = .ok (deleted, q)) (root : p.references u = []) :
    q.references u = [] := by
  induction ls generalizing p deleted with
  | nil =>
    exact (releaseMembers_nil_eq_ok.1 run).2 ▸ root
  | cons l rest ih =>
    obtain ⟨r, learner, dropped, -, runs⟩ := releaseMembers_cons_eq_ok.1 run
    have left : r.references u = [] :=
      (congrFun (congrArg Outline.references (dropLearner_outline dropped).2) u).trans root
    obtain ⟨-, run⟩ | ⟨-, removed, r', deleted', removal, run, -⟩ := runs
    · exact ih run left
    · refine ih run ?_
      rw [← outline_references, (deleteLearner_outline removal).2.2]
      simp [Outline.discharge, Outline.unrefer, left]

theorem deleteTeam_root {deleted : List LearnerId} (run : p.deleteTeam t = .ok (deleted, q))
    (root : p.references u = []) : q.references u = [] := by
  obtain ⟨team, r, -, -, released, rfl⟩ := deleteTeam_eq_ok.1 run
  rw [← outline_references, outline_eraseTeam]
  simp [Outline.disband, Function.update_apply, releaseMembers_root released root]

end Population

namespace Selection

/-- Different roots are deleted one after the other, as they are from the tidy
population. -/
theorem deleteAll_loose {ls : List TeamId} (nodup : ls.Nodup) {selection tidy : Selection}
    (loose : selection.population.Loosens tidy.population)
    (exact : tidy.population.outline.Exact)
    (roots : ∀ t ∈ ls, selection.population.containsTeam t = true ∧
      selection.population.references t = []) :
    ∃ after after', ls.foldlM delete selection = .ok after ∧
      ls.foldlM delete tidy = .ok after' ∧ after.population.Loosens after'.population := by
  induction ls generalizing selection tidy with
  | nil => exact ⟨selection, tidy, rfl, rfl, loose⟩
  | cons t rest ih =>
    obtain ⟨apart, nodup⟩ := List.nodup_cons.1 nodup
    obtain ⟨⟨there, root⟩, others⟩ := List.forall_mem_cons.1 roots
    obtain ⟨deleted, q, run⟩ := Population.deleteTeam_ok exact
      (loose.containsTeam_eq ▸ there) (loose.references_eq_nil root)
    obtain ⟨⟨deleted', p⟩, run', -, loose'⟩ := (loose.deleteTeam root).result _ run
    obtain ⟨-, exact', teams, -⟩ := Population.deleteTeam_outline exact run
    have others' : ∀ u ∈ rest, p.containsTeam u = true ∧ p.references u = [] := by
      intro u hu
      obtain ⟨there', root'⟩ := others u hu
      refine ⟨?_, Population.deleteTeam_root run' root'⟩
      rw [loose'.containsTeam_eq, teams, Function.update_of_ne (ne_of_mem_of_not_mem hu apart),
        ← loose.containsTeam_eq]
      exact there'
    obtain ⟨after, after', rest', rest'', loose''⟩ := @ih nodup
      ⟨p, selection.deletedTeams + 1, selection.removedLearners + deleted'.length⟩
      ⟨q, tidy.deletedTeams + 1, tidy.removedLearners + deleted.length⟩ loose' exact' others'
    refine ⟨after, after', ?_, ?_, loose''⟩
    · rw [List.foldlM_cons, delete, run']
      exact rest'
    · rw [List.foldlM_cons, delete, run]
      exact rest''

end Selection

namespace Brood

variable {s : Settings} {generation : Nat} {breeders : Breeders} {stock tidy : Stock}

theorem birth_follows (loose : stock.Loosens tidy) (parent : TeamId) :
    Follows Stock.Loosens (birth s generation breeders parent stock)
      (birth s generation breeders parent tidy) := by
  unfold birth
  rw [loose.counters]
  have founded := loose.population.createTeam tidy.counters generation
  refine Follows.lift_bind (founded.getTeam parent) fun c d alike => ?_
  dsimp only
  rw [alike.learners]
  have joined := Mimics.foldlM (fun _ _ l h => h.addLearner ⟨tidy.counters.team⟩ l) d.learners
    founded
  exact Follows.lift_bind joined fun p q loose => Stock.Loosens.varyTeam ⟨loose, rfl⟩

/-- Children are made in spite of loose records, and nothing else changes. -/
theorem fill_tidies (valid : s.Valid) (tidies : tidy.Tidies stock)
    (parents : ∀ t ∈ breeders.parents, stock.population.containsTeam t = true) :
    Faultless (fill s generation breeders stock) fun brood => ∃ grown : Stock,
      grown.Tidies brood.stock ∧ Stock.Extends (fun _ => True) tidy grown := by
  refine Faultless.iterate (fun brood => ∃ grown : Stock,
      grown.Tidies brood.stock ∧ Stock.Extends (fun _ => True) tidy grown)
    (fun brood ⟨grown, tidies', growth⟩ => ?_) _
    ⟨tidy, tidies, Stock.Extends.refl tidies.sound fun _ => trivial⟩
  unfold round
  split
  case isFalse => exact Safe.pure ⟨grown, tidies', growth⟩
  refine (choose_safe stalls_anywhere _).bind fun parent chosen => ?_
  cases parent with
  | none => exact Safe.pure ⟨grown, tidies', growth⟩
  | some parent =>
    have there := parents parent (chosen.1 parent rfl)
    rw [tidies.loose.population.containsTeam_eq] at there
    have there' := growth.part.teams there
    have born : Faultless (birth s generation breeders parent grown) fun _ => True :=
      birth_faultless valid tidies'.sound there' (tidies'.wellFormed there')
    have made := born.and (birth_extends (fun _ _ => trivial) (fun _ _ => trivial)
      tidies'.sound growth.allowed parent)
    refine (Faultless.follow made (birth_follows tidies'.loose parent)).bind ?_
    rintro after ⟨born, loose, -, grows, checked⟩
    refine Safe.pure ⟨born, ⟨loose, grows.sound, fun {t} ht => ?_⟩, growth.trans grows⟩
    obtain before | new := checked ht
    · exact (Population.wellFormed_iff tidies'.sound.exact grows.part before).1
        (tidies'.wellFormed before)
    · exact new

end Brood

namespace Trainer

variable {t next : Trainer}

/-- A generation spares what is there: every team of the next population has the
learners that it had, or is new, and every learner has the program and the action
that it had, or is new. -/
structure Spares (t next : Trainer) : Prop where
  teams : ∀ id, next.population.containsTeam id = true →
    t.population.containsTeam id = true ∧ next.population.members id = t.population.members id ∨
      t.population.containsTeam id = false ∧ t.counters.team ≤ id.val
  learners : ∀ l policy, next.population.policy? l = some policy →
    t.population.policy? l = some policy ∨
      t.population.policy? l = none ∧ t.counters.learner ≤ l.val

/-- What makes generations go on: valid settings, a stock that has a tidy one, and
different roots that are there and have no references. -/
structure Endures (t : Trainer) : Prop where
  valid : t.settings.validate = .ok ()
  tidies : ∃ tidy : Stock, tidy.Tidies ⟨t.population, t.counters⟩
  nodup : t.roots.Nodup
  roots : ∀ id ∈ t.roots, t.population.containsTeam id = true ∧ t.population.references id = []

/-- What is deleted, grown and pruned next to each other spares what is there. -/
theorem spares_of_stages {tidy grown : Stock} {selected pruned : Population}
    (tidies : tidy.Tidies ⟨t.population, t.counters⟩)
    (deleted : selected.outline.PartOf tidy.population.outline)
    (growth : Stock.Extends (fun _ => True) ⟨selected, tidy.counters⟩ grown)
    (left : pruned.outline.PartOf grown.population.outline)
    (loose : next.population.Loosens pruned) : t.Spares next := by
  have counters : t.counters = tidy.counters := tidies.loose.counters
  have loose' : t.population.Loosens tidy.population := tidies.loose.population
  constructor
  · intro id there
    rw [loose.containsTeam_eq] at there
    rw [loose.members_eq, loose'.containsTeam_eq, loose'.members_eq, counters]
    obtain old | new := growth.team_new (left.teams there)
    · refine .inl ⟨deleted.teams old, ?_⟩
      calc pruned.members id = grown.population.members id := (left.members there).symm
        _ = selected.members id := growth.part.members old
        _ = tidy.population.members id := (deleted.members old).symm
    · refine .inr ⟨?_, new⟩
      by_contra before
      exact absurd (tidies.sound.below.team (Bool.not_eq_false _ ▸ before)) (Nat.not_lt.2 new)
  · intro l policy enlisted
    rw [loose.policy?_eq] at enlisted
    rw [loose'.policy?_eq, counters]
    have kept : grown.population.policy? l = some policy := left.policy enlisted
    obtain ⟨before, there⟩ | new := growth.learner_new kept
    · have same : some policy = some before := kept.symm.trans (growth.part.policy there)
      exact .inl (deleted.policy (same ▸ there))
    · refine .inr ⟨Option.eq_none_iff_forall_not_mem.2 fun policy before => ?_, new⟩
      exact absurd (tidies.sound.below.learner before) (Nat.not_lt.2 new)

/-- Whatever the scores of roots are, and in whatever order they are put, the last ones
can be deleted. -/
theorem Endures.selects (endures : t.Endures) {tidy : Stock}
    (tidies : tidy.Tidies ⟨t.population, t.counters⟩) {scores : List (TeamId × Float)}
    (scored : (scores.map Prod.fst).Sublist t.roots) {order : List (TeamId × Float)}
    (perm : order.Perm scores) {p : Population} (recorded : p.outline = t.population.outline)
    (gap : Float) (elites : List TeamId) :
    ∃ selection selected, Selection.cull order p gap elites = .ok selection ∧
      Stock.Tidies ⟨selected, tidy.counters⟩ ⟨selection.population, t.counters⟩ ∧
      selected.outline.PartOf tidy.population.outline := by
  have teams : (order.map Prod.fst).Perm (scores.map Prod.fst) := perm.map Prod.fst
  have last := Selection.doomed_sublist order gap elites
  have doomed : ∀ id ∈ Selection.doomed order gap elites,
      p.containsTeam id = true ∧ p.references id = [] := by
    intro id late
    obtain ⟨there, root⟩ := endures.roots id (scored.subset (teams.subset (last.subset late)))
    exact ⟨(congrFun (congrArg Outline.teams recorded) id).trans there,
      (congrFun (congrArg Outline.references recorded) id).trans root⟩
  have loose : Population.Loosens (Selection.mk p 0 0).population
      (Selection.mk tidy.population 0 0).population := tidies.loose.population.congr recorded
  obtain ⟨selection, selected, run, run', loose⟩ :=
    Selection.deleteAll_loose (last.nodup (teams.nodup_iff.2 (scored.nodup endures.nodup)))
      loose tidies.sound.exact doomed
  obtain ⟨exact, part, -⟩ := Selection.cull_outline tidies.sound.exact run'
  exact ⟨selection, selected.population, run, tidies.of_partOf exact part loose, part⟩

/-- The end of a generation leaves an enduring trainer. -/
theorem nextGeneration_endures (valid : t.settings.validate = .ok ()) {tidy : Stock}
    (tidies : tidy.Tidies ⟨t.population, t.counters⟩) :
    ∃ pruned next left, t.nextGeneration = .ok (pruned, next) ∧ next.Endures ∧
      left.outline.PartOf tidy.population.outline ∧ next.population.Loosens left := by
  have exact := tidies.sound.exact
  obtain ⟨orphans, q, pruning⟩ := Population.pruneOrphans_ok exact
  obtain ⟨⟨orphans', r⟩, pruning', -, loose⟩ :=
    tidies.loose.population.pruneOrphans.result _ pruning
  have exact' := (Population.pruneOrphans_outline exact pruning).1
  have part := Population.pruneOrphans_partOf exact pruning
  have retained := loose.congr (r.outline_retainOutcomes t.settings.trainer.retainedTasks)
  refine ⟨_, _, q, bind_eq_ok.2 ⟨_, pruning', rfl⟩, ?_, part, retained⟩
  exact ⟨valid, ⟨_, tidies.of_partOf exact' part retained⟩, Population.nodup_roots _,
    fun id => Population.mem_roots.1⟩

/-- Outcomes for as many tasks as there are take an enduring trainer through a
generation, and it endures. -/
theorem Endures.advance (endures : t.Endures) {outcomes : Scoring.Matrix} {n : Nat}
    (rows : ∀ row ∈ outcomes, row.length = n) (mode : Scoring.Mode) :
    Faultless (t.advance outcomes mode) fun ended =>
      ended.2.Endures ∧ t.Spares ended.2 := by
  obtain ⟨tidy, tidies⟩ := endures.tidies
  refine (Scoring.score_safe stalls_anywhere rows mode).bind fun fitness _ => ?_
  have scored := scored_sublist t.roots fitness
  obtain ⟨p, written⟩ : ∃ p, setFitnesses t.population (t.roots.zip fitness) = .ok p :=
    setFitnesses_ok fun score there =>
      (endures.roots _ (scored.subset (List.mem_map_of_mem there))).1
  obtain ⟨elites, chosen⟩ := chooseElites_ok (t := t) rows
  obtain ⟨selection, selected, run, left, deleted⟩ :=
    endures.selects tidies scored (Selection.ranked_perm _) (setFitnesses_outline written)
      t.settings.trainer.gap elites
  refine Safe.lift_bind written (Safe.lift_bind chosen (Safe.lift_bind run ?_))
  have survivors : ∀ u ∈ (Breeders.of selection.population
      (t.roots.filter selection.population.containsTeam) elites).parents,
      selection.population.containsTeam u = true := fun u hu => List.of_mem_filter hu
  refine (Brood.fill_tidies (Settings.valid_of_validate endures.valid) left survivors).bind ?_
  rintro brood ⟨grown, tidies', growth⟩
  obtain ⟨pruned, next, rest, ended, endures', part, loose⟩ := nextGeneration_endures (t := { t with
    population := brood.stock.population, counters := brood.stock.counters, elites })
    endures.valid tidies'
  exact Safe.lift_bind ended
    (Safe.pure ⟨endures', spares_of_stages tidies deleted growth part loose⟩)

theorem Endures.responds (endures : t.Endures) (tasks : List String) (mode : Scoring.Mode) :
    t.Responds tasks mode :=
  responds_of_faultless (fun id root => (endures.roots id root).1)
    (Settings.valid_of_validate endures.valid).gap
    fun _ _ rows => (endures.advance rows mode).mono fun _ _ => trivial

/-- A generation of an enduring trainer is refused, and then nothing changes, or
leaves an enduring trainer and spares what is there. -/
theorem Endures.evolve_eq_ok (endures : t.Endures) {tasks : List String} {mode : Scoring.Mode}
    {result : Except Error Summary} (run : t.evolve tasks mode = .ok (result, next)) :
    (∃ e, result = .error e) ∧ next = t ∨
      (∃ summary, result = .ok summary) ∧ next.Endures ∧ t.Spares next := by
  have cases := outcomeMatrix_cases (fun id root => (endures.roots id root).1) tasks
  have refused {e : Error} (matrix : t.outcomeMatrix tasks = .error e) :
      (∃ e, result = .error e) ∧ next = t := by
    simp only [evolve, matrix, pure_eq_ok, Prod.mk.injEq] at run
    exact ⟨⟨e, run.1.symm⟩, run.2.symm⟩
  obtain ⟨-, matrix⟩ | ⟨-, ⟨_, _, -, matrix⟩ | ⟨-, outcomes, matrix, -, rows⟩⟩ := cases
  · exact .inl (refused matrix)
  · exact .inl (refused matrix)
  · simp only [evolve, matrix, bind_eq_ok, pure_eq_ok, Prod.mk.injEq] at run
    obtain ⟨⟨⟨summary, ended⟩, rest⟩, run, rfl, rfl⟩ := run
    obtain ⟨goes, spares⟩ := (endures.advance rows mode).yields _ _ _ run
    exact .inr ⟨⟨summary, rfl⟩, { goes with }, { spares with }⟩

end Trainer

end TangledGraph
