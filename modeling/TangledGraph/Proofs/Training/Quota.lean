import TangledGraph.Proofs.Graph.Roots
import TangledGraph.Proofs.Random.Safety
import TangledGraph.Proofs.Training.Reproduction

/-!
# Reproduction meets its quota

Every birth adds one team, and no action ever leads to a child. So the children
are roots, and the old teams that become targets only make roots fewer: a birth
adds at most one root, and there are never fewer roots than children. This bounds
the number of births, and the quota is met exactly when they end.
-/
namespace TangledGraph

open Draw

/-- The teams of a stock that growth came from are roots only if they were. -/
theorem Stock.Extends.mem_roots_old {allowed : Action → Prop} {base grown : Stock}
    (exact : base.population.outline.Exact) (h : Stock.Extends allowed base grown) {t : TeamId}
    (root : t ∈ grown.population.roots) (old : base.population.containsTeam t = true) :
    t ∈ base.population.roots := by
  have unreferred := (Population.mem_roots.1 root).2
  refine Population.mem_roots.2 ⟨old, ?_⟩
  exact Population.references_eq_nil_of_partOf h.sound.exact exact h.part unreferred

namespace Brood

variable {s : Settings} {generation : Nat} {breeders : Breeders} {targets : TeamId → Prop}
variable {base : Stock}

/-- A birth adds one team, the next one. -/
theorem birth_founds {stock : Stock} (sound : stock.Sound) (parent : TeamId) :
    Yields (birth s generation breeders parent stock) fun born =>
      born.population.containsTeam =
        Function.update stock.population.containsTeam ⟨stock.counters.team⟩ true := by
  have founded : (stock.population.createTeam stock.counters generation).2.1.containsTeam =
      Function.update stock.population.containsTeam ⟨stock.counters.team⟩ true :=
    congrArg Outline.teams (Population.createTeam_new sound.absent generation)
  refine Yields.lift_bind fun team _ => Yields.lift_bind fun p joined => ?_
  have joined : Stock.Path stock.counters (fun _ => True)
      ⟨(stock.population.createTeam stock.counters generation).2.1,
        (stock.population.createTeam stock.counters generation).2.2⟩
      ⟨p, (stock.population.createTeam stock.counters generation).2.2⟩ :=
    Stock.joinAll_path le_rfl joined
  have le : stock.counters ≤ (stock.population.createTeam stock.counters generation).2.2 := by
    simp [Population.createTeam, Counters.newTeam, Counters.le_def]
  refine Yields.mono (Q := fun born => Stock.Path stock.counters (fun _ => True)
    ⟨p, (stock.population.createTeam stock.counters generation).2.2⟩ born ∧
      born.population.assertWellFormed ⟨stock.counters.team⟩ = .ok ())
    (Stock.varyTeam_path le_rfl (fun _ _ => trivial) (fun _ _ => trivial) le)
    fun born varied => ?_
  exact (Stock.Path.teams_eq (joined.trans varied.1)).trans founded

/-- What reproduction has made so far: growth, with the children as the only new
teams. -/
structure Grown (s : Settings) (targets : TeamId → Prop) (base : Stock) (children : List TeamId)
    (b : Brood) : Prop where
  growth : Stock.Extends (Action.Among s.trainer.actions targets) base b.stock
  created : b.created = children.length
  nodup : (children ++ base.population.teamIds).Nodup
  teams : ∀ t, t ∈ children ++ base.population.teamIds ↔ b.stock.population.containsTeam t = true
  new : ∀ t ∈ children, base.counters.team ≤ t.val

namespace Grown

variable {children : List TeamId} {b : Brood}

theorem refl (sound : base.Sound)
    (allowed : ∀ {l program action}, base.population.policy? l = some (program, action) →
      action.Among s.trainer.actions targets) : Grown s targets base [] ⟨0, base⟩ where
  growth := .refl sound allowed
  created := rfl
  nodup := Std.ExtTreeMap.nodup_keys
  teams _ := Population.mem_teamIds
  new := by simp

theorem teamCount_eq (h : Grown s targets base children b) :
    b.stock.population.teamCount = base.population.teamCount + b.created := by
  have ids : base.population.teamCount = base.population.teamIds.length :=
    Std.ExtTreeMap.length_keys.symm
  rw [Population.teamCount_eq_length h.nodup h.teams, List.length_append, h.created, ids,
    Nat.add_comm]

/-- A birth makes one more child. -/
theorem birth {born : Stock} (h : Grown s targets base children b)
    (growth : Stock.Extends (Action.Among s.trainer.actions targets) b.stock born)
    (teams : born.population.containsTeam =
      Function.update b.stock.population.containsTeam ⟨b.stock.counters.team⟩ true) :
    Grown s targets base (⟨b.stock.counters.team⟩ :: children) ⟨b.created + 1, born⟩ where
  growth := h.growth.trans growth
  created := congrArg (· + 1) h.created
  nodup := by
    refine List.nodup_cons.2 ⟨fun there => ?_, h.nodup⟩
    have absent := h.growth.sound.absent
    rw [(h.teams _).1 there] at absent
    cases absent
  teams t := by
    rw [List.cons_append, List.mem_cons, h.teams, teams, Function.update_apply]
    by_cases same : t = ⟨b.stock.counters.team⟩ <;> simp [same]
  new t child := by
    obtain rfl | child := List.mem_cons.1 child
    · exact h.growth.counters_le.1
    · exact h.new t child

/-- No action leads to a child. -/
theorem mem_roots (older : ∀ u, targets u → u.val < base.counters.team)
    (h : Grown s targets base children b) : ∀ t ∈ children, t ∈ b.stock.population.roots := by
  intro t child
  refine Population.mem_roots.2 ⟨(h.teams t).1 (List.mem_append_left _ child), ?_⟩
  refine List.eq_nil_iff_forall_not_mem.2 fun l reference => ?_
  have leads := (Population.target?_eq ..).trans (h.growth.sound.exact.reference_iff.1 reference)
  have below := older t (Action.Among.target h.growth.allowed leads)
  have := h.new t child
  omega

end Grown

/-- What the quota is for: the roots, or the teams. -/
def filled (s : Settings) (p : Population) : Nat :=
  if s.trainer.rootBasedPopulation then p.rootCount else p.teamCount

theorem isBelowQuota_iff {p : Population} :
    isBelowQuota s p = true ↔ filled s p < s.trainer.teamPopSize := by
  unfold isBelowQuota filled
  split <;> exact decide_eq_true_iff

/-- A birth adds one root at most. -/
theorem rootCount_birth {stock born : Stock} {allowed : Action → Prop} (sound : stock.Sound)
    (growth : Stock.Extends allowed stock born)
    (teams : born.population.containsTeam =
      Function.update stock.population.containsTeam ⟨stock.counters.team⟩ true) :
    born.population.rootCount ≤ stock.population.rootCount + 1 := by
  have nodup := born.population.nodup_roots
  have sub : born.population.roots ⊆ ⟨stock.counters.team⟩ :: stock.population.roots := by
    intro t root
    have there := (Population.mem_roots.1 root).1
    rw [teams, Function.update_apply] at there
    by_cases same : t = ⟨stock.counters.team⟩
    · exact same ▸ List.mem_cons_self
    · rw [if_neg same] at there
      exact List.mem_cons_of_mem _ (growth.mem_roots_old sound.exact root there)
  exact (List.subperm_of_subset nodup sub).length_le

/-- One round: another child, which fills the quota by one at most, or the end
because the quota is met or there is no parent. -/
theorem round_yields (pool : ∀ t ∈ breeders.teamPool, targets t) {children : List TeamId}
    {b : Brood} (h : Grown s targets base children b) :
    Yields (round s generation breeders b) (Sum.elim
      (fun next => filled s b.stock.population < s.trainer.teamPopSize ∧
        next.created = b.created + 1 ∧
        filled s next.stock.population ≤ filled s b.stock.population + 1 ∧
        ∃ child, Grown s targets base (child :: children) next)
      fun ended => ended = b ∧ (s.trainer.teamPopSize ≤ filled s b.stock.population ∨
        breeders.parents = [])) := by
  unfold round
  split
  case isFalse met =>
    rw [isBelowQuota_iff, not_lt] at met
    exact Yields.pure ⟨rfl, .inl met⟩
  case isTrue below =>
  rw [isBelowQuota_iff] at below
  refine (choose_safe stalls_anywhere _).yields.bind fun chosen ⟨_, without⟩ => ?_
  cases chosen with
  | none => exact Yields.pure ⟨rfl, .inr (without rfl)⟩
  | some parent =>
    have sound := h.growth.sound
    refine ((birth_yields pool sound h.growth.allowed parent).and (birth_founds sound parent)).bind
      fun born ⟨⟨growth, _⟩, teams⟩ => Yields.pure ?_
    have grown := h.birth growth teams
    refine ⟨below, rfl, ?_, _, grown⟩
    unfold filled
    split
    · exact rootCount_birth sound growth teams
    · have before := h.teamCount_eq
      have after : born.population.teamCount = base.population.teamCount + (b.created + 1) :=
        grown.teamCount_eq
      exact (after.trans (by omega)).le

/-- Reproduction ends with the quota met, or at once if there is no parent. -/
structure Full (s : Settings) (targets : TeamId → Prop) (base : Stock) (b : Brood) : Prop where
  grown : ∃ children, Grown s targets base children b
  least : s.trainer.teamPopSize ≤ filled s b.stock.population
  most : filled s base.population < s.trainer.teamPopSize →
    filled s b.stock.population = s.trainer.teamPopSize
  none : s.trainer.teamPopSize ≤ filled s base.population → b = ⟨0, base⟩

theorem fill_full (pool : ∀ t ∈ breeders.teamPool, targets t) (some_parent : breeders.parents ≠ [])
    (sound : base.Sound)
    (allowed : ∀ {l program action}, base.population.policy? l = some (program, action) →
      action.Among s.trainer.actions targets) :
    Yields (fill s generation breeders base) (Full s targets base) := by
  refine Yields.iterate (fun b => (∃ children, Grown s targets base children b) ∧
    (b = ⟨0, base⟩ ∨ filled s base.population < s.trainer.teamPopSize ∧
      filled s b.stock.population ≤ s.trainer.teamPopSize)) (fun b ⟨⟨children, grown⟩, met⟩ => ?_) _
    ⟨⟨[], .refl sound allowed⟩, .inl rfl⟩
  refine (round_yields pool grown).mono fun outcome h => ?_
  cases outcome with
  | inl next =>
    obtain ⟨below, -, one, child, grown'⟩ := h
    refine ⟨⟨_, grown'⟩, .inr ⟨?_, Nat.le_trans one below⟩⟩
    obtain rfl | ⟨before, -⟩ := met
    · exact below
    · exact before
  | inr ended =>
    obtain ⟨rfl, enough | no_parent⟩ := h
    · refine ⟨⟨_, grown⟩, enough, fun below => ?_, fun enough => ?_⟩
      · obtain rfl | ⟨-, most⟩ := met
        · exact absurd below (Nat.not_lt.2 enough)
        · exact Nat.le_antisymm most enough
      · obtain rfl | ⟨below, -⟩ := met
        · rfl
        · exact absurd below (Nat.not_lt.2 enough)
    · exact absurd no_parent some_parent

end Brood

end TangledGraph
