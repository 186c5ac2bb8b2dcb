import TangledGraph.Proofs.Training.Founding
import TangledGraph.Training.Generation

/-!
# Reproduction

A child is a new team that first has the learners of its parent and then is
varied. All of its making is growth after the last child, so children that were
made before stay well formed, and so do the teams that selection left.
-/
namespace TangledGraph

open Draw

/-- All listed learners enter one new team. -/
theorem Stock.joinAll_path {base c : Counters} {allowed : Action → Prop} {t : TeamId}
    (new : base.team ≤ t.val) {ls : List LearnerId} {p q : Population}
    (run : ls.foldlM (fun p l => p.addLearner t l) p = .ok q) :
    Stock.Path base allowed ⟨p, c⟩ ⟨q, c⟩ :=
  foldlM_induction (fun q => Stock.Path base allowed ⟨p, c⟩ ⟨q, c⟩)
    (fun _ _ _ _ before added => before.tail (.join new added)) .refl run

namespace Brood

variable {s : Settings} {generation : Nat} {breeders : Breeders} {targets : TeamId → Prop}

/-- A child is founded, and all that follows is growth after that. -/
theorem birth_path {allowed : Action → Prop}
    (codes : ∀ code ∈ s.trainer.actions.toList, allowed (.atomic code))
    (pool : ∀ t ∈ breeders.teamPool, allowed (.team t)) (parent : TeamId) (stock : Stock) :
    Yields (birth s generation breeders parent stock) fun born =>
      Stock.Path stock.counters allowed
          ⟨(stock.population.createTeam stock.counters generation).2.1,
            (stock.population.createTeam stock.counters generation).2.2⟩ born ∧
        born.population.assertWellFormed ⟨stock.counters.team⟩ = .ok () := by
  have le : stock.counters ≤ (stock.population.createTeam stock.counters generation).2.2 := by
    simp [Population.createTeam, Counters.newTeam, Counters.le_def]
  refine Yields.lift_bind fun team _ => Yields.lift_bind fun p joined => ?_
  have joined : Stock.Path stock.counters allowed
      ⟨(stock.population.createTeam stock.counters generation).2.1,
        (stock.population.createTeam stock.counters generation).2.2⟩
      ⟨p, (stock.population.createTeam stock.counters generation).2.2⟩ :=
    Stock.joinAll_path le_rfl joined
  exact (Stock.varyTeam_path le_rfl codes pool le).mono fun born => And.imp_left joined.trans

/-- All that follows the founding of a child is growth, whatever its actions are. -/
theorem birth_grows (parent : TeamId) (stock : Stock) :
    Yields (birth s generation breeders parent stock) (Stock.Path stock.counters (fun _ => True)
      ⟨(stock.population.createTeam stock.counters generation).2.1,
        (stock.population.createTeam stock.counters generation).2.2⟩) :=
  (birth_path (fun _ _ => trivial) (fun _ _ => trivial) parent stock).mono fun _ => And.left

/-- A child is well formed and leaves everything else as it is. Its learners have
actions that are allowed if codes, targets and the actions so far are. -/
theorem birth_extends {allowed : Action → Prop} {stock : Stock}
    (codes : ∀ code ∈ s.trainer.actions.toList, allowed (.atomic code))
    (pool : ∀ t ∈ breeders.teamPool, allowed (.team t)) (sound : stock.Sound)
    (known : ∀ {l program action}, stock.population.policy? l = some (program, action) →
      allowed action) (parent : TeamId) :
    Yields (birth s generation breeders parent stock) fun born =>
      Stock.Extends allowed stock born ∧
        ∀ {t}, born.population.containsTeam t = true →
          stock.population.containsTeam t = true ∨ born.population.WellFormed t := by
  have founded := (Stock.Extends.refl sound known).found generation
  refine (birth_path codes pool parent stock).mono fun born ⟨path, asserted⟩ =>
    ⟨founded.path le_rfl path, fun {t} ht => ?_⟩
  obtain rfl | before := path.team_of_found sound ht
  · exact .inr (Population.wellFormed_of_assert asserted)
  · exact .inl before

/-- The actions of a child are codes of the settings and targets. -/
theorem birth_yields {stock : Stock} (pool : ∀ t ∈ breeders.teamPool, targets t)
    (sound : stock.Sound)
    (allowed : ∀ {l program action}, stock.population.policy? l = some (program, action) →
      action.Among s.trainer.actions targets) (parent : TeamId) :
    Yields (birth s generation breeders parent stock) fun born =>
      Stock.Extends (Action.Among s.trainer.actions targets) stock born ∧
        ∀ {t}, born.population.containsTeam t = true →
          stock.population.containsTeam t = true ∨ born.population.WellFormed t :=
  birth_extends (fun _ => id) pool sound allowed parent

/-- Reproduction keeps what the making of every child keeps. -/
theorem fill_keeps {I : Stock → Prop}
    (keep : ∀ stock parent, I stock → Yields (birth s generation breeders parent stock) I)
    {stock : Stock} (start : I stock) :
    Yields (fill s generation breeders stock) fun brood => I brood.stock := by
  refine Yields.iterate (fun brood => I brood.stock) (fun brood before => ?_) _ start
  unfold round
  split
  case isFalse => exact Yields.pure before
  refine Yields.skip fun parent => ?_
  cases parent with
  | none => exact Yields.pure before
  | some parent => exact (keep brood.stock parent before).bind fun born after => Yields.pure after

/-- Reproduction makes well-formed teams and leaves everything else as it is. -/
theorem fill_yields {stock : Stock} (pool : ∀ t ∈ breeders.teamPool, targets t)
    (sound : stock.Sound)
    (allowed : ∀ {l program action}, stock.population.policy? l = some (program, action) →
      action.Among s.trainer.actions targets)
    (wellFormed : ∀ {t}, stock.population.containsTeam t = true → stock.population.WellFormed t) :
    Yields (fill s generation breeders stock) fun brood =>
      Stock.Extends (Action.Among s.trainer.actions targets) stock brood.stock ∧
        ∀ {t}, brood.stock.population.containsTeam t = true →
          brood.stock.population.WellFormed t := by
  refine fill_keeps (I := fun reached =>
    Stock.Extends (Action.Among s.trainer.actions targets) stock reached ∧
      ∀ {t}, reached.population.containsTeam t = true → reached.population.WellFormed t)
    (fun reached parent ⟨grown, whole⟩ => ?_) ⟨Stock.Extends.refl sound allowed, wellFormed⟩
  refine (birth_yields pool grown.sound grown.allowed parent).mono
    fun born ⟨made, checked⟩ => ⟨grown.trans made, fun {t} ht => ?_⟩
  obtain before | new := checked ht
  · exact (Population.wellFormed_iff grown.sound.exact made.part before).1 (whole before)
  · exact new

end Brood

end TangledGraph
