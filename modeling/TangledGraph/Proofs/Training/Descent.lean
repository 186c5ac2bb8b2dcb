import TangledGraph.Proofs.Graph.Descent
import TangledGraph.Proofs.Training.Lineage
import TangledGraph.Proofs.Training.Replenishment

/-!
# Teams lead to older teams

A new action leads to a team of the generation before, and a new team has a
greater identity than those. So identities get smaller along actions in all
trainers of a lineage, and since selection leaves a root, there is always one.
-/
namespace TangledGraph.Trainer

open Draw Relation

variable {s : Settings} {t next : Trainer}

theorem addInitialLearners_teams (id : TeamId) (codes : List Code) (stock : Stock) :
    Yields (addInitialLearners s id codes stock) fun made =>
      made.population.containsTeam = stock.population.containsTeam :=
  (addInitialLearners_grows id codes stock).mono fun _ grown => grown.teams_eq

/-- The teams that are there stay, and if any are to be made, there is one. -/
theorem initialTeams_teams (n : Nat) (stock : Stock) :
    Yields (initialTeams s n stock) fun made =>
      (∀ id, stock.population.containsTeam id = true → made.population.containsTeam id = true) ∧
        (0 < n → ∃ id, made.population.containsTeam id = true) := by
  induction n generalizing stock with
  | zero => exact Yields.pure ⟨fun _ => id, fun positive => absurd positive (lt_irrefl 0)⟩
  | succ n ih =>
    obtain ⟨p, c⟩ := stock
    have founded : (p.createTeam c 0).2.1.containsTeam =
        Function.update p.containsTeam ⟨c.team⟩ true :=
      congrArg Outline.teams (Population.createTeam_outline p c 0)
    refine Yields.skip fun codes => (addInitialLearners_teams _ codes _).bind fun made same => ?_
    have teams : made.population.containsTeam = Function.update p.containsTeam ⟨c.team⟩ true :=
      same.trans founded
    refine (ih made).mono fun all ⟨stay, _⟩ => ⟨fun id there => ?_, fun _ => ⟨⟨c.team⟩, ?_⟩⟩
    · refine stay id ?_
      rw [teams, Function.update_apply]
      split
      · rfl
      · exact there
    · refine stay _ ?_
      rw [teams, Function.update_self]

/-- What an outline decides holds in a lineage if a start brings it about and every
generation that succeeds keeps it: no other call changes the outline. -/
theorem Lineage.population_induction {I : Population → Prop} (lineage : Lineage s t)
    (congr : ∀ {p q : Population}, q.outline = p.outline → I p → I q)
    (start : ∀ {stream t}, Trainer.start s stream = .ok (.ok t) → I t.population)
    (evolve : ∀ {t next tasks mode summary}, Lineage s t → I t.population →
      t.evolve tasks mode = .ok (.ok summary, next) → I next.population) : I t.population := by
  refine lineage.induction (I := fun t => I t.population) start fun {t next} before h call => ?_
  obtain ⟨same, -⟩ | ⟨tasks, mode, summary, run⟩ := before.call_cases call
  · exact congr same h
  · exact evolve before h run

/-- What a generation keeps is as before; what is new leads to what is not. -/
theorem Stages.descends {selected : Population} {grown : Stock}
    (stages : Stages t next selected grown) (h : t.population.Descends) :
    next.population.Descends := by
  rintro id u ⟨l, hl, leads⟩
  have after := Population.containsTeam_of_mem_members hl
  have there := stages.next_part.teams after
  obtain ⟨policy, enlisted, aims⟩ :=
    Option.bind_eq_some_iff.1 (Population.target?_eq next.population l ▸ leads)
  have kept : grown.population.policy? l = some policy := stages.next_part.policy enlisted
  obtain old | new := stages.growth.team_new there
  · have members : selected.members id = next.population.members id :=
      (stages.growth.part.members old).symm.trans (stages.next_part.members after)
    have member : l ∈ selected.members id := members ▸ hl
    obtain ⟨-, learner, enlisted'⟩ := Population.resolve_member stages.selected_exact member
    have policy' := Population.policy?_of_learner? enlisted'
    obtain rfl : policy = (learner.program, learner.action) :=
      Option.some.inj (kept.symm.trans (stages.growth.part.policy policy'))
    have before : t.population.policy? l = some (learner.program, learner.action) :=
      stages.selected_part.policy policy'
    have leads' : t.population.target? l = some u :=
      (Population.target?_eq ..).trans (Option.bind_eq_some_iff.2 ⟨_, before, aims⟩)
    have same : t.population.members id = selected.members id := stages.selected_part.members old
    exact h id u ⟨l, same.symm ▸ member, leads'⟩
  · have leads' : grown.population.target? l = some u :=
      (Population.target?_eq ..).trans (Option.bind_eq_some_iff.2 ⟨policy, kept, aims⟩)
    exact (stages.older leads').trans_le new

/-- A generation that succeeds leaves a team if there was a root. -/
theorem Sound.some_team_of_evolve (sound : t.Sound s) (valid : s.Valid) {tasks : List String}
    {mode : Scoring.Mode} {summary : Summary} (some_root : t.roots ≠ [])
    (run : t.evolve tasks mode = .ok (.ok summary, next)) :
    ∃ id, next.population.containsTeam id = true := by
  obtain ⟨elites, selection, brood, stream, rest, pruned, ended, selects, reproduced, last, rfl,
    -⟩ := evolve_parts run
  have some_parent := selects.survivors_ne_nil sound valid some_root
  obtain ⟨⟨children, grown⟩, -⟩ :=
    selects.reproduction_full sound some_parent stream brood rest reproduced
  obtain ⟨-, -, teams, -, -⟩ := nextGeneration_outline grown.growth.sound.exact last
  obtain ⟨id, survivor⟩ := List.exists_mem_of_ne_nil _ some_parent
  have there := (List.mem_filter.1 survivor).2
  exact ⟨id, (congrFun teams id).trans (grown.growth.part.teams there)⟩

theorem Lineage.descends (lineage : Lineage s t) : t.population.Descends := by
  refine lineage.population_induction (fun same h => h.congr same) (fun {stream t} run => ?start)
    fun {t next tasks mode summary} before h run => ?evolve
  case start =>
    obtain ⟨-, stock, rest, made, rfl⟩ := start_eq_ok run
    have steady := initialTeams_yields s.trainer.teamPopSize (Stock.steady_empty _) _ _ _ made
    rintro id u ⟨l, -, leads⟩
    exact (Action.Among.target steady.allowed leads).elim
  case evolve =>
    obtain ⟨⟨e, failed⟩, -⟩ | ⟨-, selected, grown, stages⟩ := evolve_eq_ok before.sound run
    · simp at failed
    · exact stages.descends h

/-- Where there is a team, there is a root. -/
theorem Lineage.rooted (lineage : Lineage s t) {id : TeamId}
    (there : t.population.containsTeam id = true) :
    ∃ r ∈ t.roots, ReflTransGen t.population.Leads r id := by
  have steady := lineage.sound.steady
  rw [lineage.sound.roots]
  exact lineage.descends.rooted steady.sound.exact steady.employed steady.sound.below.team there

theorem Lineage.some_team (lineage : Lineage s t) :
    ∃ id, t.population.containsTeam id = true := by
  have valid := Settings.valid_of_validate lineage.valid
  refine lineage.population_induction (I := fun p => ∃ id, p.containsTeam id = true)
    (fun same ⟨id, there⟩ => ⟨id, (congrFun (congrArg Outline.teams same) id).trans there⟩)
    (fun {stream t} run => ?start) fun {t next tasks mode summary} before h run => ?evolve
  case start =>
    obtain ⟨-, stock, rest, made, rfl⟩ := start_eq_ok run
    exact (initialTeams_teams _ _ _ _ _ made).2 valid.some_team
  case evolve =>
    obtain ⟨id, there⟩ := h
    obtain ⟨r, root, -⟩ := before.rooted there
    exact before.sound.some_team_of_evolve valid (List.ne_nil_of_mem root) run

theorem Lineage.roots_ne_nil (lineage : Lineage s t) : t.roots ≠ [] := by
  obtain ⟨id, there⟩ := lineage.some_team
  obtain ⟨r, root, -⟩ := lineage.rooted there
  exact List.ne_nil_of_mem root

/-- What the order of teams amounts to: learners lead to older teams only, so there
is no cycle; there are roots, and they lead to all teams; and wherever a decision
comes to, no learner is left out of the bidding. -/
structure Ordered (t : Trainer) : Prop where
  older : ∀ id team, t.population.team? id = some team → ∀ l ∈ team.learners, ∀ learner,
    t.population.learner? l = some learner → ∀ u, learner.target? = some u → u.val < id.val
  acyclic : ∀ id, ¬TransGen t.population.Leads id id
  some_root : t.roots ≠ []
  rooted : ∀ id, t.population.containsTeam id = true →
    ∃ r ∈ t.roots, ReflTransGen t.population.Leads r id
  decides : ∀ id, t.population.containsTeam id = true → ∀ (input : Array Float) (m : Mind),
    m.Full → ∃ code m' last, t.population.act id input m = .ok (.ok code, m') ∧
      ReflTransGen (t.population.Hops input)
        (id, ⟨[], { m with context := m.context.beginFrame }⟩) last ∧
      t.population.Ends input last code m'
  unskipped : ∀ (input : Array Float) (id : TeamId) (m : Mind) (u : TeamId) (w : Walk),
    ReflTransGen (t.population.Hops input) (id, ⟨[], m⟩) (u, w) →
      u ∉ w.visited ∧ ∀ l ∈ t.population.members u, ∀ learner,
        t.population.learner? l = some learner → learner.isEligible (w.visited ++ [u]) = true

/-- However often a trainer evolves and is taken up again, its teams are ordered. -/
theorem Lineage.ordered (lineage : Lineage s t) : t.Ordered where
  older id team found l hl learner enlisted u leads := by
    rw [← Population.members_of_team? found] at hl
    exact lineage.descends id u ⟨l, hl, (Population.target?_of_learner? enlisted).trans leads⟩
  acyclic := lineage.descends.acyclic
  some_root := by
    obtain ⟨id, there⟩ := lineage.some_team
    obtain ⟨r, root, -⟩ := lineage.rooted there
    exact List.ne_nil_of_mem root
  rooted _ := lineage.rooted
  decides _ there input _ full :=
    Population.act_hops lineage.sound.steady.complete there full input
  unskipped _ _ _ _ _ := lineage.descends.unskipped rfl

theorem ordered_after_shortRun : ∃ t, Lineage small t ∧ t.roots = [⟨1⟩, ⟨2⟩] ∧ t.Ordered := by
  obtain ⟨t₀, t₁, t₂, stream, summary, next, start, first, second, evolution, -, roots⟩ :=
    shortRun_calls
  have scored : Lineage small t₂ :=
    .call (.call (.start start) (.report _ _ _ first)) (.report _ _ _ second)
  have evolved : Lineage small next := (scored.call (.redraw stream)).call (.evolve _ _ evolution)
  exact ⟨next, evolved, roots, evolved.ordered⟩

end TangledGraph.Trainer
