import TangledGraph.Proofs.Graph.Reshaping
import TangledGraph.Proofs.Scoring.Matrix
import TangledGraph.Proofs.Training.Generation
import TangledGraph.Proofs.Training.Outcomes

/-!
# A generation does not go wrong

In a sound trainer with valid settings no step of a generation is a fault. The
outcomes make a full matrix; selection deletes different roots, which stay
roots while others go; a child takes the learners of a parent that is there,
none of which leads to it; and learners on no team can be deleted. Only draws
that wait for a change may go on for ever.
-/
namespace TangledGraph

open Draw

namespace Population

variable {p q : Population} {t : TeamId}

/-- Different learners that are not on a team can enter it one after the other. -/
theorem joinAll_ok {ls : List LearnerId} (nodup : ls.Nodup) (there : p.containsTeam t = true)
    (enlisted : ∀ l ∈ ls, ∃ learner, p.learner? l = some learner)
    (new : ∀ l ∈ ls, l ∉ p.members t) :
    ∃ q, ls.foldlM (fun p l => p.addLearner t l) p = .ok q ∧
      q.members t = p.members t ++ ls ∧ q.policy? = p.policy? := by
  induction ls generalizing p with
  | nil => exact ⟨p, rfl, by simp, rfl⟩
  | cons l rest ih =>
    obtain ⟨fresh, nodup⟩ := List.nodup_cons.1 nodup
    obtain ⟨⟨learner, found⟩, others⟩ := List.forall_mem_cons.1 enlisted
    obtain ⟨newFirst, newRest⟩ := List.forall_mem_cons.1 new
    obtain ⟨r, added⟩ := addLearner_ok there found newFirst
    have eq := (addLearner_outline added).2.2
    have policy : r.policy? = p.policy? := congrArg Outline.policy? eq
    have members : r.members t = p.members t ++ [l] := by
      have := congrFun (congrArg Outline.members eq) t
      simpa [Outline.join] using this
    have others' : ∀ k ∈ rest, ∃ learner, r.learner? k = some learner := by
      intro k hk
      obtain ⟨learner', found'⟩ := others k hk
      obtain ⟨learner'', found'', -⟩ :=
        learner?_of_policy? ((congrFun policy k).trans (policy?_of_learner? found'))
      exact ⟨learner'', found''⟩
    have newRest' : ∀ k ∈ rest, k ∉ r.members t := by
      intro k hk
      rw [members, List.mem_append, List.mem_singleton]
      rintro (old | rfl)
      · exact newRest k hk old
      · exact fresh hk
    obtain ⟨q, run, membersq, policyq⟩ :=
      ih nodup ((congrFun (congrArg Outline.teams eq) t).trans there) others' newRest'
    refine ⟨q, ?_, ?_, policyq.trans policy⟩
    · rw [List.foldlM_cons, added]
      exact run
    · rw [membersq, members, List.append_assoc]
      rfl

/-- The learners of a team can all enter a new one. -/
theorem inheritAll_ok (exact : p.outline.Exact) {c : Counters}
    (absent : p.containsTeam ⟨c.team⟩ = false) (there : p.containsTeam t = true)
    (nodup : (p.members t).Nodup) (generation : Nat) :
    ∃ team r, (p.createTeam c generation).2.1.team? t = some team ∧
      team.learners.foldlM (fun p l => p.addLearner ⟨c.team⟩ l)
        (p.createTeam c generation).2.1 = .ok r ∧
      r.members ⟨c.team⟩ = p.members t ∧ r.policy? = p.policy? := by
  have eq := createTeam_new absent generation
  generalize (p.createTeam c generation).2.1 = q at eq
  have teams : q.containsTeam = Function.update p.containsTeam ⟨c.team⟩ true :=
    congrArg Outline.teams eq
  have members : q.members = p.members := congrArg Outline.members eq
  have policy : q.policy? = p.policy? := congrArg Outline.policy? eq
  have parent : q.containsTeam t = true := by
    rw [teams, Function.update_apply]
    split
    · rfl
    · exact there
  have child : q.containsTeam ⟨c.team⟩ = true := by rw [teams, Function.update_self]
  obtain ⟨team, found⟩ := containsTeam_iff.1 parent
  have listed : team.learners = p.members t :=
    (members_of_team? found).symm.trans (congrFun members t)
  have empty : q.members ⟨c.team⟩ = [] := (congrFun members _).trans (members_eq_nil absent)
  have enlisted : ∀ l ∈ team.learners, ∃ learner, q.learner? l = some learner := by
    intro l hl
    obtain ⟨-, learner, before⟩ := resolve_member exact (listed ▸ hl)
    obtain ⟨learner', after, -⟩ :=
      learner?_of_policy? ((congrFun policy l).trans (policy?_of_learner? before))
    exact ⟨learner', after⟩
  obtain ⟨r, run, members', policy'⟩ :=
    joinAll_ok (listed ▸ nodup) child enlisted (by simp [empty])
  refine ⟨team, r, found, run, ?_, policy'.trans policy⟩
  rw [members', empty, List.nil_append, listed]

/-- The learners of a well formed team make a new team well formed: none of them leads to
it, because it was not there. -/
theorem WellFormed.inherit {u : TeamId} (wellFormed : p.WellFormed t) (exact : p.outline.Exact)
    (exact' : q.outline.Exact) (absent : p.containsTeam u = false)
    (members : q.members u = p.members t) (policy : q.policy? = p.policy?) : q.WellFormed u := by
  refine ⟨?_, exact'.nodup_members _, ?_, fun l hl leads => ?_⟩
  · exact members ▸ wellFormed.two_le
  · exact members ▸ policy ▸ wellFormed.atomic
  · rw [target?_congr (congrFun policy l)] at leads
    have := resolve_target exact leads
    simp [absent] at this

end Population

namespace Selection

/-- Roots that are different can be deleted one after the other. -/
theorem deleteAll_ok {ls : List TeamId} (nodup : ls.Nodup) {selection : Selection}
    (exact : selection.population.outline.Exact)
    (roots : ∀ t ∈ ls, selection.population.containsTeam t = true ∧
      selection.population.references t = []) :
    ∃ after, ls.foldlM delete selection = .ok after := by
  induction ls generalizing selection with
  | nil => exact ⟨selection, rfl⟩
  | cons t rest ih =>
    obtain ⟨apart, nodup⟩ := List.nodup_cons.1 nodup
    obtain ⟨⟨there, root⟩, others⟩ := List.forall_mem_cons.1 roots
    obtain ⟨deleted, q, run⟩ := Population.deleteTeam_ok exact there root
    obtain ⟨-, exact', teams, part⟩ := Population.deleteTeam_outline exact run
    have others' : ∀ u ∈ rest, q.containsTeam u = true ∧ q.references u = [] := by
      intro u hu
      obtain ⟨there', root'⟩ := others u hu
      have spared : u ≠ t := ne_of_mem_of_not_mem hu apart
      refine ⟨?_, Population.references_eq_nil_of_partOf exact exact' part root'⟩
      rw [teams, Function.update_of_ne spared]
      exact there'
    obtain ⟨after, rest'⟩ := @ih nodup
      ⟨q, selection.deletedTeams + 1, selection.removedLearners + deleted.length⟩ exact' others'
    refine ⟨after, ?_⟩
    rw [List.foldlM_cons, delete, run]
    exact rest'

theorem ranked_perm (scores : List (TeamId × Float)) : (ranked scores).Perm scores :=
  List.mergeSort_perm ..

/-- Whatever order scores are put in, it is their last teams that are doomed. -/
theorem doomed_sublist (order : List (TeamId × Float)) (gap : Float) (elites : List TeamId) :
    (doomed order gap elites).Sublist (order.map Prod.fst) :=
  List.filter_sublist.trans ((List.drop_sublist ..).map Prod.fst)

end Selection

namespace Brood

variable {s : Settings} {generation : Nat} {breeders : Breeders}

/-- A child has the learners of its parent before it is varied. -/
theorem birth_faultless (valid : s.Valid) {stock : Stock} (sound : stock.Sound) {parent : TeamId}
    (there : stock.population.containsTeam parent = true)
    (wellFormed : stock.population.WellFormed parent) :
    Faultless (birth s generation breeders parent stock) fun _ => True := by
  obtain ⟨p, c⟩ := stock
  have founded := sound.found generation
  obtain ⟨team, r, found, run, members, policy⟩ :=
    Population.inheritAll_ok sound.exact sound.absent there wellFormed.nodup generation
  unfold birth
  generalize made : p.createTeam c generation = created at founded found run
  obtain ⟨child, q, d⟩ := created
  obtain rfl : child = ⟨c.team⟩ := by
    simp only [Population.createTeam, Counters.newTeam, Prod.mk.injEq] at made
    exact made.1.symm
  have teams : q.containsTeam = Function.update p.containsTeam ⟨c.team⟩ true := by
    have eq := congrArg Outline.teams (Population.createTeam_new sound.absent generation)
    rwa [made] at eq
  have path : Stock.Path {} (fun _ => True) ⟨q, d⟩ ⟨r, d⟩ := Stock.joinAll_path (Nat.zero_le _) run
  have sound' := path.sound founded
  have holds : Stock.Holds ⟨c.team⟩ ⟨r, d⟩ := by
    refine ⟨sound', (congrFun path.teams_eq _).trans ?_,
      wellFormed.inherit sound.exact sound'.exact sound.absent members policy⟩
    rw [teams, Function.update_self]
  dsimp only
  refine Safe.lift_bind (Population.getTeam_eq_ok.2 found) (Safe.lift_bind run ?_)
  exact (Stock.varyTeam_safe (fun _ _ => trivial) valid stalls_anywhere holds).mono
    fun _ _ => trivial

/-- Every parent stays there while children are made. -/
theorem fill_faultless (valid : s.Valid) {stock : Stock} (sound : stock.Sound)
    (allowed : ∀ {l program action}, stock.population.policy? l = some (program, action) →
      action.Among s.trainer.actions fun _ => True)
    (wellFormed : ∀ {t}, stock.population.containsTeam t = true → stock.population.WellFormed t)
    (parents : ∀ t ∈ breeders.parents, stock.population.containsTeam t = true) :
    Faultless (fill s generation breeders stock) fun _ => True := by
  refine Faultless.iterate (fun brood =>
    Stock.Extends (Action.Among s.trainer.actions fun _ => True) stock brood.stock ∧
      ∀ {t}, brood.stock.population.containsTeam t = true →
        brood.stock.population.WellFormed t) (fun brood ⟨grown, whole⟩ => ?_) _
      ⟨Stock.Extends.refl sound allowed, wellFormed⟩
  unfold round
  split
  case isFalse => exact Safe.pure trivial
  refine (choose_safe stalls_anywhere _).bind fun parent chosen => ?_
  cases parent with
  | none => exact Safe.pure trivial
  | some parent =>
    have there := grown.part.teams (parents parent (chosen.1 parent rfl))
    have born : Faultless (birth s generation breeders parent brood.stock) fun _ => True :=
      birth_faultless valid grown.sound there (whole there)
    refine (born.and (birth_yields (fun _ _ => trivial) grown.sound grown.allowed parent)).bind
      fun born ⟨_, made, checked⟩ => Safe.pure ⟨grown.trans made, fun {t} ht => ?_⟩
    obtain before | new := checked ht
    · exact (Population.wellFormed_iff grown.sound.exact made.part before).1 (whole before)
    · exact new

end Brood

namespace Trainer

variable {s : Settings} {t : Trainer}

theorem setFitnesses_ok {p : Population} {scores : List (TeamId × Float)}
    (there : ∀ score ∈ scores, p.containsTeam score.1 = true) :
    ∃ q, setFitnesses p scores = .ok q := by
  induction scores generalizing p with
  | nil => exact ⟨p, rfl⟩
  | cons score scores ih =>
    obtain ⟨id, fitness⟩ := score
    obtain ⟨first, others⟩ := List.forall_mem_cons.1 there
    obtain ⟨team, found⟩ := Population.containsTeam_iff.1 first
    have written : p.setFitness id fitness =
        .ok (p.setTeam id { team with fitness := some fitness }) :=
      bind_eq_ok.2 ⟨team, Population.getTeam_eq_ok.2 found, rfl⟩
    have teams := congrArg Outline.teams (Population.outline_setFitness written)
    obtain ⟨q, rest⟩ := ih fun score' later =>
      (congrFun teams score'.1).trans (others score' later)
    refine ⟨q, ?_⟩
    rw [setFitnesses, List.foldlM_cons]
    dsimp only
    rw [written]
    exact rest

theorem chooseElites_ok {outcomes : Scoring.Matrix} {n : Nat}
    (rows : ∀ row ∈ outcomes, row.length = n) :
    ∃ elites, t.chooseElites outcomes = .ok elites := by
  unfold chooseElites
  split
  · exact ⟨_, bind_eq_ok.2 ⟨_, Scoring.ifFull_ok rows _, rfl⟩⟩
  · exact ⟨[], rfl⟩

theorem nextGeneration_ok (exact : t.population.outline.Exact) :
    ∃ pruned next, t.nextGeneration = .ok (pruned, next) := by
  obtain ⟨deleted, q, pruning⟩ := Population.pruneOrphans_ok exact
  exact ⟨_, _, bind_eq_ok.2 ⟨_, pruning, rfl⟩⟩

/-- Scores are of different roots, as many as there are. -/
theorem scored_sublist (roots : List TeamId) (fitness : List Float) :
    ((roots.zip fitness).map Prod.fst).Sublist roots := by
  rw [List.zip_eq_zip_take_min, List.map_fst_zip (by simp)]
  exact List.take_sublist _ _

/-- However its roots are scored, and in whatever order those scores are put, a sound
trainer can select: they are all there, and roots stay roots while others go. -/
theorem Sound.selection_ok (sound : t.Sound s) (fitness : List Float) (gap : Float)
    (elites : List TeamId) :
    ∃ scored, setFitnesses t.population (t.roots.zip fitness) = .ok scored ∧
      ∀ order : List (TeamId × Float), order.Perm (t.roots.zip fitness) →
        ∃ selection, Selection.cull order scored gap elites = .ok selection := by
  have sublist := scored_sublist t.roots fitness
  have listed {id} (there : id ∈ (t.roots.zip fitness).map Prod.fst) :=
    sound.unreferred (sublist.subset there)
  obtain ⟨scored, written⟩ :
      ∃ scored, setFitnesses t.population (t.roots.zip fitness) = .ok scored :=
    setFitnesses_ok fun score there => (listed (List.mem_map_of_mem there)).1
  have outline := setFitnesses_outline written
  have exact : scored.outline.Exact := outline ▸ sound.steady.sound.exact
  refine ⟨scored, written, fun order perm => ?_⟩
  have teams : (order.map Prod.fst).Perm ((t.roots.zip fitness).map Prod.fst) :=
    perm.map Prod.fst
  have part := Selection.doomed_sublist order gap elites
  have roots : ∀ id ∈ Selection.doomed order gap elites,
      scored.containsTeam id = true ∧ scored.references id = [] := by
    intro id late
    obtain ⟨there, root⟩ := listed (teams.subset (part.subset late))
    exact ⟨(congrFun (congrArg Outline.teams outline) id).trans there,
      (congrFun (congrArg Outline.references outline) id).trans root⟩
  exact Selection.deleteAll_ok
    (part.nodup (teams.nodup_iff.2 (sublist.nodup sound.nodup_roots))) exact roots

/-- A sound trainer with valid settings goes through a generation with outcomes
for as many tasks as there are. -/
theorem advance_faultless (sound : t.Sound s) (valid : s.Valid) {outcomes : Scoring.Matrix}
    {n : Nat} (rows : ∀ row ∈ outcomes, row.length = n) (mode : Scoring.Mode) :
    Faultless (t.advance outcomes mode) fun _ => True := by
  have valid' : t.settings.Valid := sound.settings ▸ valid
  refine (Scoring.score_safe stalls_anywhere rows mode).bind fun fitness _ => ?_
  obtain ⟨elites, chosen⟩ := chooseElites_ok (t := t) rows
  obtain ⟨p, written, selects⟩ := sound.selection_ok fitness t.settings.trainer.gap elites
  obtain ⟨selection, selected⟩ := selects _ (Selection.ranked_perm _)
  have outline := setFitnesses_outline written
  have exact : p.outline.Exact := outline ▸ sound.steady.sound.exact
  refine Safe.lift_bind written (Safe.lift_bind chosen (Safe.lift_bind selected ?_))
  obtain ⟨exact', part, -⟩ := Selection.cull_outline exact selected
  rw [outline] at part
  have stock : Stock.Sound ⟨selection.population, t.counters⟩ :=
    sound.steady.sound.of_partOf exact' part
  have allowed {l program action} (hl : selection.population.policy? l = some (program, action)) :
      action.Among t.settings.trainer.actions fun _ => True :=
    sound.steady.allowed (part.policy hl)
  have whole {u : TeamId} (hu : selection.population.containsTeam u = true) :
      selection.population.WellFormed u :=
    (Population.wellFormed_iff exact' part hu).2 (sound.steady.wellFormed (part.teams hu))
  have survivors : ∀ u ∈ (Breeders.of selection.population
      (t.roots.filter selection.population.containsTeam) elites).parents,
      selection.population.containsTeam u = true := fun u hu => List.of_mem_filter hu
  refine ((Brood.fill_faultless valid' stock allowed whole survivors).and
    (Brood.fill_yields (fun _ _ => trivial) stock allowed whole)).bind
      fun brood ⟨_, growth, _⟩ => ?_
  obtain ⟨pruned, next, ended⟩ := nextGeneration_ok (t := { t with
    population := brood.stock.population, counters := brood.stock.counters, elites })
    growth.sound.exact
  exact Safe.lift_bind ended (Safe.pure trivial)

end Trainer

end TangledGraph
