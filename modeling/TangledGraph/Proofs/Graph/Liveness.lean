import TangledGraph.Proofs.Graph.Maintenance
import TangledGraph.Proofs.Machine.Alteration

/-!
# Learners that can change

The variation of a learner goes round until something changes, so it may go on
for ever if nothing can. A round that changes nothing leaves all as it was, so
either no round can end the variation or any round may.
-/
namespace TangledGraph.Stock

open Draw Population

variable {s : Settings} {p : Population} {stock : Stock} {l : LearnerId} {learner : Learner}
  {action : Action} {parent : TeamId} {pool : List TeamId} {forceAtomic : Bool}

/-- Nothing of a learner can change: not its program, and not its action, which is
the only code there is, since there is no team that it may lead to. -/
structure Dead (s : Settings) (p : Population) (l : LearnerId) (parent : TeamId)
    (pool : List TeamId) (forceAtomic : Bool) : Prop where
  programs : (s.mutation.pProgramMutate == 0.0) = true
  codes : ∃ program code, p.policy? l = some (program, .atomic code) ∧
    ∀ other ∈ s.trainer.actions.toList, (other != code) = false
  targets : forceAtomic = true ∨ ∀ t ∈ pool, t ≠ parent → p.containsTeam t = false

/-- A round of the variation of a learner goes on with another stock. -/
def Turns (s : Settings) (l : LearnerId) (parent : TeamId) (pool : List TeamId)
    (forceAtomic : Bool) (stock next : Stock) : Prop :=
  ∃ stream rest, (learnerRound s l parent pool forceAtomic stock).run stream = .ok (.inl next, rest)

/-- The teams that an action may lead to instead. -/
abbrev options (p : Population) (current : Action) (parent : TeamId) (pool : List TeamId) :
    List TeamId :=
  pool.filter fun t => t != parent && some t != current.target? && p.containsTeam t

theorem mem_options {current : Action} {t : TeamId} (listed : t ∈ options p current parent pool) :
    t ≠ parent ∧ some t ≠ current.target? ∧ p.containsTeam t = true := by
  simpa [and_assoc] using (List.mem_filter.1 listed).2

theorem beq_of_target {a b : Action} (apart : a.target? ≠ b.target?) : (a == b) = false := by
  cases a <;> cases b <;> simp_all [BEq.beq, instBEqAction.beq]

theorem varyAction_yields : Yields (varyAction s stock l parent pool forceAtomic)
    fun (changed, stock') => changed = false → stock' = stock := by
  refine Yields.lift_bind fun learner _ => Yields.skip fun drawn => ?_
  cases drawn with
  | none => exact Yields.pure fun _ => rfl
  | some action =>
    dsimp only
    split
    · exact Yields.pure fun _ => rfl
    · exact Yields.lift_bind fun q _ => Yields.pure nofun

theorem learnerRound_yields : Yields (learnerRound s l parent pool forceAtomic stock)
    (Sum.elim (· = stock) fun _ => True) := by
  refine Yields.skip fun program => ?_
  cases program with
  | true =>
    refine Yields.skip fun taught => Yields.skip fun act => ?_
    split
    all_goals exact Yields.skip fun _ => Yields.pure trivial
  | false =>
    rw [if_neg Bool.false_ne_true, pure_bind]
    refine Yields.skip fun act => ?_
    refine Yields.either (Q := fun (varied : Bool × Stock) => varied.1 = false → varied.2 = stock)
      (fun _ => varyAction_yields) (fun _ => Yields.pure fun _ => rfl) fun varied same =>
        Yields.pure ?_
    obtain ⟨changed, next⟩ := varied
    cases changed with
    | false => exact same rfl
    | true => exact trivial

/-- As long as the variation goes on, nothing has changed. -/
theorem eq_of_turns {now : Stock}
    (turns : Relation.ReflTransGen (Turns s l parent pool forceAtomic) stock now) :
    now = stock := by
  induction turns with
  | refl => rfl
  | tail _ turn ih =>
    subst ih
    obtain ⟨stream, rest, run⟩ := turn
    exact learnerRound_yields _ _ _ run

theorem drawAction_dead {code : Code}
    (only : ∀ other ∈ s.trainer.actions.toList, (other != code) = false)
    (targets : forceAtomic = true ∨ ∀ t ∈ pool, t ≠ parent → p.containsTeam t = false) :
    Gives (drawAction s p (.atomic code) parent pool forceAtomic) (· = none) := by
  have others : s.trainer.actions.toList.filter (· != code) = [] :=
    List.filter_eq_nil_iff.2 fun other listed => by simp [only other listed]
  have no_code : Gives (do return (← s.trainer.actions.sampleOther code).map Action.atomic)
      (· = none) := by
    rw [CodeSet.sampleOther, others]
    exact Gives.pure rfl
  refine Gives.either (Q := fun atomic => forceAtomic = true → atomic = true)
    (fun _ => Gives.pure fun _ => rfl) (fun free => ?_) fun atomic forced => ?_
  · exact (chance_gives _).mono fun _ _ force => absurd force free
  refine Gives.either (Q := (· = none)) (fun _ => Gives.pure rfl) (fun team => ?_)
    fun target eq => ?_
  · have no_team : options p (.atomic code) parent pool = [] := by
      refine List.filter_eq_nil_iff.2 fun t listed free => ?_
      have absent := targets.resolve_left (fun force => team (forced force)) t listed
      simp_all
    show Gives (choose (options p (.atomic code) parent pool)) (· = none)
    rw [no_team]
    exact Gives.pure rfl
  · subst eq
    exact no_code

/-- A dead learner stays as it is in every round. -/
theorem learnerRound_dead (valid : s.Valid)
    (dead : Dead s stock.population l parent pool forceAtomic) :
    Gives (learnerRound s l parent pool forceAtomic stock) (· = .inl stock) := by
  have probability := valid.probabilities ("p_program_mutate", s.mutation.pProgramMutate)
    (by simp [MutationSettings.probabilities])
  have idle : Gives (varyAction s stock l parent pool forceAtomic) (· = (false, stock)) := by
    obtain ⟨program, code, policy, only⟩ := dead.codes
    obtain ⟨learner, enlisted, eq⟩ := learner?_of_policy? policy
    refine (Gives.lift (Q := (· = learner)) (getLearner_eq_ok.2 enlisted) rfl).bind fun _ same => ?_
    rw [same, (Prod.mk.inj eq).2]
    exact (drawAction_dead only dead.targets).bind fun drawn none => none ▸ Gives.pure rfl
  refine (chance_of_zero probability dead.programs).bind fun program eq => ?_
  subst eq
  refine Gives.either (Q := (· = stock)) (absurd · Bool.false_ne_true) (fun _ => Gives.pure rfl)
    fun taught eq => ?_
  subst eq
  refine (chance_gives _).bind fun act _ => ?_
  refine Gives.either (Q := (· = (false, taught))) (fun _ => idle) (fun _ => Gives.pure rfl)
    fun varied eq => ?_
  subst eq
  exact Gives.pure rfl

/-- What is not dead and keeps its program has another action, or a team to lead to. -/
theorem other_of_not_dead (enlisted : stock.population.learner? l = some learner)
    (never : (s.mutation.pProgramMutate == 0.0) = true)
    (alive : ¬Dead s stock.population l parent pool forceAtomic) :
    ∀ code, learner.action = .atomic code →
      (∃ other ∈ s.trainer.actions.toList, (other != code) = true) ∨
        forceAtomic = false ∧ options stock.population learner.action parent pool ≠ [] := by
  intro code action
  by_contra none
  obtain ⟨same, no_team⟩ := not_or.1 none
  refine alive ⟨never, ⟨learner.program, code, ?_, fun other listed => ?_⟩, ?_⟩
  · rw [policy?_of_learner? enlisted, action]
  · by_contra apart
    exact same ⟨other, listed, by simpa using apart⟩
  · refine or_iff_not_imp_left.2 fun free t listed apart => ?_
    by_contra there
    refine no_team ⟨by simpa using free, List.ne_nil_of_mem (a := t) (List.mem_filter.2 ?_)⟩
    exact ⟨listed, by simp_all⟩

section Alive

variable (valid : s.Valid)
include valid

/-- Another action is drawn if there is one. -/
theorem drawAction_allows (alive : ∀ code, action = .atomic code →
    (∃ other ∈ s.trainer.actions.toList, (other != code) = true) ∨
      forceAtomic = false ∧ options p action parent pool ≠ []) :
    Allows (drawAction s p action parent pool forceAtomic) fun drawn =>
      ∃ new, drawn = some new ∧ (new == action) = false ∧
        ∀ u, new.target? = some u → p.containsTeam u = true := by
  have probability := valid.probabilities ("p_action_atomic", s.mutation.pActionAtomic)
    (by simp [MutationSettings.probabilities])
  refine Allows.either (Q := (· = forceAtomic)) (fun force => Allows.pure force.symm)
    (fun free => ?_) fun atomic eq => ?_
  · rw [Bool.not_eq_true] at free
    exact free ▸ chance_allows_false probability
  subst eq
  refine Allows.either (Q := fun target =>
      target = none ∧ ¬(atomic = false ∧ options p action parent pool ≠ []) ∨
        ∃ t ∈ options p action parent pool, target = some t)
    (fun force => ?_) (fun free => ?_) fun target drawn => ?_
  · exact Allows.pure (.inl ⟨rfl, by simp [force]⟩)
  · by_cases no_team : options p action parent pool = []
    · show Allows (choose (options p action parent pool)) _
      rw [no_team]
      exact Allows.pure (.inl ⟨rfl, by simp⟩)
    · exact (choose_allows no_team).mono fun _ => .inr
  obtain ⟨rfl, no_team⟩ | ⟨t, listed, rfl⟩ := drawn
  · cases action with
    | team u =>
      refine (CodeSet.sample_allows valid.some_code).bind fun code _ => ?_
      exact Allows.pure ⟨.atomic code, rfl, rfl, by simp [Action.target?]⟩
    | atomic code =>
      obtain ⟨other, listed, apart⟩ := (alive code rfl).resolve_right no_team
      have some_code : s.trainer.actions.toList.filter (· != code) ≠ [] :=
        List.ne_nil_of_mem (List.mem_filter.2 ⟨listed, apart⟩)
      refine (choose_allows some_code).bind fun drawn chosen => ?_
      obtain ⟨new, listed, rfl⟩ := chosen
      have changes : (new == code) = false := by
        simpa [bne] using (List.mem_filter.1 listed).2
      exact Allows.pure ⟨.atomic new, rfl, changes, by simp [Action.target?]⟩
  · obtain ⟨-, other, there⟩ := mem_options listed
    refine Allows.pure ⟨.team t, rfl, beq_of_target other, ?_⟩
    rintro u ⟨⟩
    exact there

theorem varyAction_allows (exact : stock.population.outline.Exact)
    (enlisted : stock.population.learner? l = some learner)
    (alone : stock.population.teamsOf l = [])
    (alive : ∀ code, learner.action = .atomic code →
      (∃ other ∈ s.trainer.actions.toList, (other != code) = true) ∨
        forceAtomic = false ∧ options stock.population learner.action parent pool ≠ []) :
    Allows (varyAction s stock l parent pool forceAtomic) fun varied => varied.1 = true := by
  refine Allows.lift_bind (getLearner_eq_ok.2 enlisted) ?_
  refine (drawAction_allows valid alive).bind fun drawn ⟨new, eq, changes, there⟩ => ?_
  subst eq
  have free : ∀ u, new.target? = some u →
      stock.population.containsTeam u = true ∧ u ∉ stock.population.teamsOf l :=
    fun u leads => ⟨there u leads, by simp [alone]⟩
  obtain ⟨q, run⟩ := setAction_ok exact enlisted free
  dsimp only
  rw [if_neg (by simp [changes])]
  exact Allows.lift_bind run (Allows.pure rfl)

/-- What is not dead may end its variation in the next round. -/
theorem learnerRound_allows (varies : s.Varies) (exact : stock.population.outline.Exact)
    (enlisted : stock.population.learner? l = some learner)
    (alone : stock.population.teamsOf l = []) (written : learner.program.instructions ≠ [])
    (alive : ¬Dead s stock.population l parent pool forceAtomic) :
    Allows (learnerRound s l parent pool forceAtomic stock)
      fun outcome => ∃ varied, outcome = .inr varied ∧ True := by
  have programs := valid.probabilities ("p_program_mutate", s.mutation.pProgramMutate)
    (by simp [MutationSettings.probabilities])
  have actions := valid.probabilities ("p_action_mutate", s.mutation.pActionMutate)
    (by simp [MutationSettings.probabilities])
  cases positive : s.mutation.pProgramMutate == 0.0 with
  | false =>
    refine (chance_allows_true programs positive).bind fun program eq => ?_
    subst eq
    have taught : Allows (stock.varyProgramOf s l) fun _ => True :=
      Allows.lift_bind (getLearner_eq_ok.2 enlisted)
        ((MutationSettings.varyProgram_allows valid.probabilities varies.instructions written
          _).bind fun _ _ => Allows.pure trivial)
    refine taught.bind fun taught _ => (chance_allows_false actions).bind fun act eq => ?_
    subst eq
    exact Allows.pure ⟨taught, rfl, trivial⟩
  | true =>
    have positive' : (s.mutation.pActionMutate == 0.0) = false :=
      varies.learners.resolve_left (by simp [positive])
    have other := other_of_not_dead enlisted positive alive
    refine (chance_allows_false programs).bind fun program eq => ?_
    subst eq
    refine Allows.either (Q := (· = stock)) (absurd · Bool.false_ne_true)
      (fun _ => Allows.pure rfl) fun taught eq => ?_
    subst eq
    refine (chance_allows_true actions positive').bind fun act eq => ?_
    subst eq
    refine (varyAction_allows valid exact enlisted alone other).bind fun varied changes => ?_
    obtain ⟨changed, next⟩ := varied
    obtain rfl : changed = true := changes
    exact Allows.pure ⟨next, rfl, trivial⟩

end Alive

/-- The variation of a learner that is on no team may end, whenever it has not
ended yet, or it can never end, and that if the learner is dead. -/
theorem variation_ends_iff (valid : s.Valid) (varies : s.Varies)
    (exact : stock.population.outline.Exact) (enlisted : stock.population.learner? l = some learner)
    (alone : stock.population.teamsOf l = []) (written : learner.program.instructions ≠ [])
    {now : Stock} (turns : Relation.ReflTransGen (Turns s l parent pool forceAtomic) stock now)
    (fuel : Nat) :
    (Allows (iterate (learnerRound s l parent pool forceAtomic) (fuel + 1) now) (fun _ => True) ↔
      ¬Dead s stock.population l parent pool forceAtomic) ∧
      (Dead s stock.population l parent pool forceAtomic → ∀ stream,
        (iterate (learnerRound s l parent pool forceAtomic) (fuel + 1) now).run stream =
          .error .endless) := by
  obtain rfl := eq_of_turns turns
  have endless (dead : Dead s now.population l parent pool forceAtomic) :=
    endless_of_gives (learnerRound_dead valid dead) (fuel + 1)
  refine ⟨⟨fun ends dead => ?_, fun alive => ?_⟩, endless⟩
  · exact not_allows_of_endless (endless dead) ends
  · exact Allows.iterate (learnerRound_allows valid varies exact enlisted alone written alive) fuel

end TangledGraph.Stock
