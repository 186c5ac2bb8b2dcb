import TangledGraph.Proofs.Graph.Renewal
import TangledGraph.Proofs.Training.Descent

/-!
# Identities are never used again

Deletion takes identities out of use, and what is made afterwards is named anew.
So between any two moments of a lineage an identity means one thing: it stands
for the same team, the same policy, the same instructions, or for nothing.
-/
namespace TangledGraph

open Draw Relation

variable {s : Settings}

/-- Children and their learners have new identities. -/
theorem Brood.birth_renews {generation : Nat} {breeders : Breeders} {stock : Stock}
    (sound : stock.Sound) (named : stock.Named) (parent : TeamId) :
    Yields (birth s generation breeders parent stock) fun born =>
      born.Sound ∧ born.Named ∧ stock.Renews born := by
  exact (birth_grows parent stock).mono fun born grown => ⟨grown.sound (sound.found generation),
    (named.found generation).path grown,
    ((Stock.Renews.refl stock).found generation).path sound.below grown⟩

theorem Brood.fill_renews {generation : Nat} {breeders : Breeders} {stock : Stock}
    (sound : stock.Sound) (named : stock.Named) :
    Yields (fill s generation breeders stock) fun brood =>
      brood.stock.Sound ∧ brood.stock.Named ∧ stock.Renews brood.stock := by
  refine fill_keeps (I := fun reached => reached.Sound ∧ reached.Named ∧ stock.Renews reached)
    (fun reached parent ⟨sound, named, before⟩ => ?_) ⟨sound, named, .refl stock⟩
  exact (birth_renews sound named parent).mono fun born => And.imp_right
    (And.imp_right before.trans)

namespace Trainer

variable {t next last : Trainer}

/-- What a trainer draws its teams and learners from. -/
def stock (t : Trainer) : Stock := ⟨t.population, t.counters⟩

theorem initialTeams_named (n : Nat) {stock : Stock} (named : stock.Named) :
    Yields (initialTeams s n stock) Stock.Named := by
  induction n generalizing stock with
  | zero => exact Yields.pure named
  | succ n ih =>
    refine Yields.skip fun codes => ?_
    exact (addInitialLearners_grows _ codes _).bind fun made grown =>
      ih ((named.found 0).path grown)

/-- A generation that succeeds names everything anew that it makes. -/
theorem Sound.evolve_renews (sound : t.Sound s) (named : t.stock.Named) {tasks : List String}
    {mode : Scoring.Mode} {summary : Summary}
    (run : t.evolve tasks mode = .ok (.ok summary, next)) :
    next.stock.Named ∧ t.stock.Renews next.stock := by
  obtain ⟨elites, selection, brood, _, _, pruned, ended, selects, filled, pruning, rfl, -⟩ :=
    evolve_parts run
  have leaves := selects.leaves sound
  have selected : t.stock.Renews ⟨selection.population, t.counters⟩ := .of_partOf leaves.part le_rfl
  obtain ⟨grown, named', renews⟩ := Brood.fill_renews (leaves.stock sound)
    (named.of_policy leaves.part.policy le_rfl) _ _ _ filled
  obtain ⟨-, part, -, -, eq⟩ := nextGeneration_outline grown.exact pruning
  have counters : ended.counters = brood.stock.counters := by rw [eq]
  have pruned : brood.stock.Renews ended.stock := .of_partOf part counters.ge
  exact ⟨named'.of_policy part.policy counters.ge, (selected.trans renews).trans pruned⟩

theorem Lineage.named (lineage : Lineage s t) : t.stock.Named := by
  refine lineage.induction (I := fun t => t.stock.Named) (fun {stream t} run => ?start)
    fun {t next} before named call => ?call
  case start =>
    obtain ⟨-, stock, rest, made, rfl⟩ := start_eq_ok run
    exact initialTeams_named s.trainer.teamPopSize Stock.named_empty _ _ _ made
  case call =>
    obtain ⟨same, counters⟩ | ⟨tasks, mode, summary, run⟩ := before.call_cases call
    · have policy := congrArg Outline.policy? same
      exact named.of_policy (fun hl => (congrFun policy _).symm.trans hl) counters.ge
    · exact (before.sound.evolve_renews named run).1

theorem Lineage.calls (lineage : Lineage s t) (later : ReflTransGen Call t next) :
    Lineage s next := by
  induction later with
  | refl => exact lineage
  | tail _ call ih => exact ih.call call

/-- Whatever is called, all that is new has new identities. -/
theorem Lineage.renews (lineage : Lineage s t) (later : ReflTransGen Call t next) :
    t.stock.Renews next.stock := by
  induction later with
  | refl => exact .refl _
  | @tail middle next calls call ih =>
    have before := lineage.calls calls
    refine ih.trans ?_
    obtain ⟨same, counters⟩ | ⟨tasks, mode, summary, run⟩ := before.call_cases call
    · have part : next.stock.population.outline.PartOf middle.stock.population.outline := by
        rw [stock, same]
        exact .refl _
      exact .of_partOf part counters.ge
    · exact (before.sound.evolve_renews before.named run).2

/-- All identities in use were handed out, and no two learners have programs of one
identity. -/
structure Identified (t : Trainer) : Prop where
  teams : ∀ id, t.population.containsTeam id = true → id.val < t.counters.team
  learners : ∀ l learner, t.population.learner? l = some learner →
    l.val < t.counters.learner ∧ learner.program.id.val < t.counters.program
  programs : ∀ l k learner learner', t.population.learner? l = some learner →
    t.population.learner? k = some learner' → learner.program.id = learner'.program.id → l = k

/-- What identities stand for at a moment and at a later one. What is there later and
was not before has identities that were not handed out before; what is there at both
moments is the same. -/
structure Precedes (t next : Trainer) : Prop where
  counters : t.counters ≤ next.counters
  teams : ∀ id, next.population.containsTeam id = true →
    t.population.containsTeam id = true ∨ t.counters.team ≤ id.val
  learners : ∀ l learner, next.population.learner? l = some learner →
    t.population.containsLearner l = true ∨
      t.counters.learner ≤ l.val ∧ t.counters.program ≤ learner.program.id.val
  policies : ∀ l learner learner', t.population.learner? l = some learner →
    next.population.learner? l = some learner' →
      learner'.program = learner.program ∧ learner'.action = learner.action
  instructions : ∀ l k learner learner', t.population.learner? l = some learner →
    next.population.learner? k = some learner' → learner'.program.id = learner.program.id →
      learner'.program.instructions = learner.program.instructions

theorem Lineage.identified (lineage : Lineage s t) : t.Identified where
  teams _ there := lineage.sound.steady.sound.below.team there
  learners _ _ enlisted :=
    have policy := Population.policy?_of_learner? enlisted
    ⟨lineage.sound.steady.sound.below.learner policy, lineage.named.below policy⟩
  programs _ _ _ _ enlisted enlisted' same := lineage.named.own
    (Population.policy?_of_learner? enlisted) (Population.policy?_of_learner? enlisted') same

theorem Lineage.precedes (lineage : Lineage s t) (later : ReflTransGen Call t next) :
    t.Precedes next := by
  have renews := lineage.renews later
  have identified := lineage.identified
  -- A learner of the later moment is a learner of the earlier one, or new like its program.
  have origin {l learner} (enlisted : next.population.learner? l = some learner) :
      (∃ before, t.population.learner? l = some before ∧
          learner.program = before.program ∧ learner.action = before.action) ∨
        t.counters.learner ≤ l.val ∧ t.counters.program ≤ learner.program.id.val := by
    obtain old | new := renews.policy (Population.policy?_of_learner? enlisted)
    · obtain ⟨before, there, same⟩ := Population.learner?_of_policy? old
      exact .inl ⟨before, there, Prod.mk.inj same.symm⟩
    · exact .inr new
  refine ⟨renews.counters_le, fun id => renews.team, fun l learner enlisted => ?_,
    fun l learner learner' enlisted enlisted' => ?_,
    fun l k learner learner' enlisted enlisted' same => ?_⟩
  · exact (origin enlisted).imp_left fun ⟨before, there, _⟩ =>
      Population.containsLearner_iff.2 ⟨before, there⟩
  · obtain ⟨before, there, kept⟩ | ⟨new, -⟩ := origin enlisted'
    · obtain rfl := Option.some.inj (there.symm.trans enlisted)
      exact kept
    · exact absurd (identified.learners l learner enlisted).1 (Nat.not_lt.2 new)
  · obtain ⟨before, there, program, -⟩ | ⟨-, new⟩ := origin enlisted'
    -- The program has kept its learner, so it is the same one.
    · have owner : l = k := identified.programs l k learner before enlisted there
        (same.symm.trans (congrArg Program.id program))
      subst owner
      obtain rfl := Option.some.inj (there.symm.trans enlisted)
      exact congrArg Program.instructions program
    · rw [same] at new
      exact absurd (identified.learners l learner enlisted).2 (Nat.not_lt.2 new)

/-- However often a trainer evolves and is taken up again, an identity stands for
one thing, and never for anything again once that is gone. -/
theorem Lineage.never_reused (lineage : Lineage s t) (later : ReflTransGen Call t next)
    (latest : ReflTransGen Call next last) :
    t.Identified ∧ t.Precedes next ∧
      (∀ id, t.population.containsTeam id = true → next.population.containsTeam id = false →
        last.population.containsTeam id = false) ∧
      ∀ l, t.population.containsLearner l = true → next.population.containsLearner l = false →
        last.population.containsLearner l = false := by
  have precedes := lineage.precedes later
  have precedes' := (lineage.calls later).precedes latest
  refine ⟨lineage.identified, precedes, fun id before gone => ?_, fun l before gone => ?_⟩
  · by_contra again
    obtain there | new := precedes'.teams id (Bool.not_eq_false _ ▸ again)
    · simp [there] at gone
    · have old := lineage.identified.teams id before
      have := precedes.counters.1
      omega
  · by_contra again
    have back : last.population.containsLearner l = true := Bool.not_eq_false _ ▸ again
    obtain ⟨learner, enlisted⟩ := Population.containsLearner_iff.1 back
    obtain ⟨learner', enlisted'⟩ := Population.containsLearner_iff.1 before
    obtain there | ⟨new, -⟩ := precedes'.learners l learner enlisted
    · simp [there] at gone
    · have old := (lineage.identified.learners l learner' enlisted').1
      have := precedes.counters.2.1
      omega

/-- The team that a generation deletes stays away when a new one is scored. -/
theorem never_reused_in_shortRun : ∃ t next last, Lineage small t ∧ ReflTransGen Call t next ∧
    ReflTransGen Call next last ∧ t.population.containsTeam ⟨0⟩ = true ∧
    next.population.containsTeam ⟨0⟩ = false ∧ next.population.containsTeam ⟨2⟩ = true ∧
    t.Identified ∧ t.Precedes next ∧ last.population.containsTeam ⟨0⟩ = false := by
  obtain ⟨t₀, t₁, t₂, stream, summary, next, start, first, second, evolution, before, -, teams⟩ :=
    shortRun_teams
  have scored := ((Lineage.start start).report first).report second
  have evolved : ReflTransGen Call t₂ next :=
    .tail (.single (.redraw stream)) (.evolve _ _ evolution)
  have scores : ReflTransGen Call next (applyReports [⟨⟨2⟩, {}⟩] next).2 := .single (.apply _)
  have there : t₂.population.containsTeam ⟨0⟩ = true :=
    (scored.sound.unreferred (before ▸ List.mem_cons_self)).1
  have gone : next.population.containsTeam ⟨0⟩ = false := by
    rw [← Bool.not_eq_true, ← Population.mem_teamIds, teams]
    decide
  have child : next.population.containsTeam ⟨2⟩ = true := by
    rw [← Population.mem_teamIds, teams]
    decide
  obtain ⟨identified, precedes, stays, -⟩ := scored.never_reused evolved scores
  exact ⟨t₂, next, _, scored, evolved, scores, there, gone, child, identified, precedes,
    stays ⟨0⟩ there gone⟩

end Trainer

end TangledGraph
