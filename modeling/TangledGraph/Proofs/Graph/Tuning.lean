import TangledGraph.Proofs.Graph.History
import TangledGraph.Proofs.Graph.Records
import TangledGraph.Proofs.Machine.Bounds
import TangledGraph.Proofs.Machine.Variation
import TangledGraph.Proofs.Number.Order

/-!
# What the variation of a learner changes

A learner is varied until its program or its action is another one. A program that is
varied has other instructions under another identity. An action gives way to another
code, or to another team of the pool that is there; if there is none, it is left alone,
with its reference. So one reference moves at most, and no other record changes.
-/
namespace TangledGraph

open Draw

/-- A code whose floats are numbers. -/
def Code.IsNumeric : Code → Prop
  | discrete _ => True
  | real values => ∀ x ∈ values, x.isNaN = false

/-- Codes are equal to themselves, unless a float is not. -/
theorem Code.beq_self {code : Code} (numeric : code.IsNumeric) : (code == code) = true := by
  cases code with
  | discrete n => exact beq_self_eq_true n
  | real values =>
    have same : (values == values) = true := by
      induction values with
      | nil => rfl
      | cons x values ih =>
        obtain ⟨first, others⟩ := List.forall_mem_cons.1 numeric
        rw [List.cons_beq_cons, Rounding.beq_self first, ih others]
        rfl
    exact same

namespace Stock

variable {s : Settings} {l : LearnerId} {learner learner' : Learner} {parent : TeamId}
  {pool : List TeamId} {forceAtomic : Bool} {stock next : Stock}

/-- An action to take in place of another: another code of the set, or a team of the
pool that is there, is not the parent and is not the target already. -/
structure Offers (s : Settings) (p : Population) (current : Action) (parent : TeamId)
    (pool : List TeamId) (forceAtomic : Bool) (action : Action) : Prop where
  other : (action == current) = false
  origin : (∃ code ∈ s.trainer.actions.toList, action = .atomic code) ∨
    ∃ t ∈ pool, p.containsTeam t = true ∧ t ≠ parent ∧ current.target? ≠ some t ∧ action = .team t
  forced : forceAtomic = true → action.isAtomic = true

theorem Offers.congr {p q : Population} {current action : Action}
    (h : Offers s p current parent pool forceAtomic action)
    (teams : ∀ t, q.containsTeam t = p.containsTeam t) :
    Offers s q current parent pool forceAtomic action := by
  refine ⟨h.other, h.origin.imp_right fun ⟨t, inPool, there, fits⟩ => ?_, h.forced⟩
  exact ⟨t, inPool, (teams t).trans there, fits⟩

theorem Offers.there {p : Population} {current action : Action} {u : TeamId}
    (h : Offers s p current parent pool forceAtomic action) (leads : action.target? = some u) :
    p.containsTeam u = true := by
  obtain ⟨code, -, rfl⟩ | ⟨t, -, there, -, -, rfl⟩ := h.origin
  · cases leads
  · exact Option.some.inj leads ▸ there

theorem Offers.foreign {p : Population} {current action : Action}
    (h : Offers s p current parent pool forceAtomic action) : action.target? ≠ some parent := by
  obtain ⟨code, -, rfl⟩ | ⟨t, -, -, apart, -, rfl⟩ := h.origin
  · nofun
  · exact fun leads => apart (Option.some.inj leads)

/-- Another team is another target. -/
theorem target?_ne_of_other {old new : Action} (other : (new == old) = false) {t : TeamId}
    (target : old.target? = some t) : new.target? ≠ some t := by
  intro leads
  cases old with
  | atomic code => cases target
  | team u =>
    cases new with
    | atomic code => cases leads
    | team v =>
      obtain rfl : v = u := Option.some.inj (leads.trans target.symm)
      have same : (Action.team v == Action.team v) = true := beq_self_eq_true v
      rw [same] at other
      cases other

/-- With numeric codes another action is a different one. -/
theorem Offers.ne {p : Population} {current action : Action}
    (numeric : ∀ code ∈ s.trainer.actions.toList, code.IsNumeric)
    (offers : Offers s p current parent pool forceAtomic action) : action ≠ current := by
  rintro rfl
  have other := offers.other
  obtain ⟨code, listed, rfl⟩ | ⟨t, -, -, -, target, rfl⟩ := offers.origin
  · have same : (Action.atomic code == Action.atomic code) = true :=
      Code.beq_self (numeric code listed)
    rw [same] at other
    cases other
  · exact target rfl

/-- A new action leads to a team that is there and is not the parent, if to any;
it is atomic if it has to be. -/
theorem drawAction_faultless (valid : s.Valid) (p : Population) (current : Action) :
    Faultless (drawAction s p current parent pool forceAtomic) fun drawn =>
      ∀ action ∈ drawn,
        (∀ u, action.target? = some u → p.containsTeam u = true ∧ u ≠ parent) ∧
          (forceAtomic = true → action.isAtomic = true) := by
  refine Safe.either (Q := fun atomic => forceAtomic = true → atomic = true)
    (fun _ => Safe.pure fun _ => rfl) (fun free => ?_) fun atomic forced => ?_
  · exact (chance_safe _).mono fun _ _ force => absurd force free
  refine Safe.either (Q := fun target => ∀ t ∈ target,
      (p.containsTeam t = true ∧ t ≠ parent) ∧ atomic = false)
    (fun _ => Safe.pure (by simp)) (fun team => ?_) fun target found => ?_
  · refine (choose_safe stalls_anywhere _).mono fun target chosen t ht => ?_
    have listed := List.of_mem_filter (chosen.1 t ht)
    simp only [Bool.and_eq_true, bne_iff_ne, ne_eq] at listed
    exact ⟨⟨listed.2, listed.1.1⟩, by simpa using team⟩
  cases target with
  | some t =>
    apply Safe.pure
    rintro action ⟨⟩
    obtain ⟨free, chosen⟩ := found t rfl
    refine ⟨?_, fun force => ?_⟩
    · rintro u ⟨⟩
      exact free
    · simp [forced force] at chosen
  | none =>
    cases current with
    | atomic code =>
      refine (choose_safe stalls_anywhere _).bind fun drawn _ => Safe.pure ?_
      intro action there
      obtain ⟨code', -, rfl⟩ := Option.map_eq_some_iff.1 there
      simp
    | team t =>
      refine (CodeSet.sample_safe stalls_anywhere valid.some_code).bind fun code _ => Safe.pure ?_
      simp

theorem drawAction_offers (valid : s.Valid) (p : Population) (current : Action) :
    Faultless (drawAction s p current parent pool forceAtomic) fun drawn =>
      ∀ action ∈ drawn, (action == current) = false →
        Offers s p current parent pool forceAtomic action := by
  have listed : Yields (drawAction s p current parent pool forceAtomic) fun drawn =>
      ∀ action ∈ drawn, (∃ code ∈ s.trainer.actions.toList, action = .atomic code) ∨
        ∃ t ∈ pool, action = .team t :=
    drawAction_yields (fun code there => .inl ⟨code, there, rfl⟩)
      (fun t there => .inr ⟨t, there, rfl⟩) p current parent forceAtomic
  refine ((drawAction_faultless valid p current).and listed).mono fun drawn h action there other => ?_
  obtain ⟨leads, forced⟩ := h.1 action there
  refine ⟨other, (h.2 action there).imp_right fun ⟨t, inPool, eq⟩ => ?_, forced⟩
  subst eq
  exact ⟨t, inPool, (leads t rfl).1, (leads t rfl).2,
    fun target => target?_ne_of_other other target rfl, rfl⟩

/-- The references of a team after an action has taken the place of another. -/
def referencesAfter (l : LearnerId) (old new : Action) (t : TeamId) (references : List LearnerId) :
    List LearnerId :=
  if old.target? = new.target? then references
  else if old.target? = some t then references.erase l
  else if new.target? = some t then references ++ [l]
  else references

/-- It loses its record at the old target and has a new one, at the end, at the new
target. -/
theorem referencesAfter_of_other {old new : Action} (other : (new == old) = false) (t : TeamId)
    (references : List LearnerId) : referencesAfter l old new t references =
      (if old.target? = some t then references.erase l else references) ++
        if new.target? = some t then [l] else [] := by
  unfold referencesAfter
  by_cases target : old.target? = some t
  · have elsewhere : new.target? ≠ some t := target?_ne_of_other other target
    have apart : old.target? ≠ new.target? := fun same => elsewhere (same ▸ target)
    rw [if_neg apart, if_pos target, if_neg elsewhere, if_pos target, List.append_nil]
  · by_cases leads : new.target? = some t
    · have apart : old.target? ≠ new.target? := fun same => target (same.trans leads)
      rw [if_neg apart, if_neg target, if_pos leads, if_neg target, if_pos leads]
    · simp [target, leads]

/-- What comes of a stock when a learner takes another program, another action or
both. -/
structure Adjusted (s : Settings) (l : LearnerId) (parent : TeamId) (pool : List TeamId)
    (forceAtomic : Bool) (stock : Stock) (learner : Learner) (next : Stock) (learner' : Learner) :
    Prop where
  program : learner'.program = learner.program ∧ next.counters = stock.counters ∨
    learner'.program.instructions ≠ learner.program.instructions ∧
      learner'.program.id = ⟨stock.counters.program⟩ ∧
      next.counters = { stock.counters with program := stock.counters.program + 1 }
  action : learner'.action = learner.action ∨
    Offers s stock.population learner.action parent pool forceAtomic learner'.action
  rest : learner'.generation = learner.generation ∧ learner'.inTeams = learner.inTeams
  learners : ∀ k, next.population.learner? k =
    if k = l then some learner' else stock.population.learner? k
  teams : ∀ t, next.population.team? t = (stock.population.team? t).map fun team => { team with
    inLearners := referencesAfter l learner.action learner'.action t team.inLearners }
  exact : next.population.outline.Exact

theorem Adjusted.refl (exact : stock.population.outline.Exact)
    (enlisted : stock.population.learner? l = some learner) :
    Adjusted s l parent pool forceAtomic stock learner stock learner where
  program := .inl ⟨rfl, rfl⟩
  action := .inl rfl
  rest := ⟨rfl, rfl⟩
  learners k := by
    split
    case isTrue same => exact same ▸ enlisted
    case isFalse => rfl
  teams t := by simp [referencesAfter]
  exact := exact

theorem Adjusted.enlisted (h : Adjusted s l parent pool forceAtomic stock learner next learner') :
    next.population.learner? l = some learner' := by
  rw [h.learners, if_pos rfl]

theorem Adjusted.containsTeam
    (h : Adjusted s l parent pool forceAtomic stock learner next learner') (t : TeamId) :
    next.population.containsTeam t = stock.population.containsTeam t := by
  rw [Population.containsTeam_eq, Population.containsTeam_eq, h.teams, Option.isSome_map]

/-- A learner takes another program. -/
theorem varyProgramOf_adjusts (valid : s.Valid) (exact : stock.population.outline.Exact)
    (enlisted : stock.population.learner? l = some learner) (parent : TeamId)
    (pool : List TeamId) (forceAtomic : Bool) :
    Faultless (stock.varyProgramOf s l) fun taught => ∃ learner',
      Adjusted s l parent pool forceAtomic stock learner taught learner' ∧
        learner'.program.instructions ≠ learner.program.instructions ∧
        learner'.action = learner.action := by
  refine Safe.lift_bind (Population.getLearner_eq_ok.2 enlisted) ?_
  have changed : Yields (s.mutation.varyProgram s.program learner.program stock.counters) _ :=
    MutationSettings.varyProgram_keeps (I := fun _ => True)
      (fun _ _ => Yields.trivial _) trivial stock.counters
  refine ((s.mutation.varyProgram_faultless valid _ _).and changed).bind fun made h => ?_
  obtain ⟨-, code, other, -, rfl⟩ := h
  refine Safe.pure ⟨{ learner with program := ⟨⟨stock.counters.program⟩, code⟩ }, ?_, other, rfl⟩
  exact {
    program := .inr ⟨other, rfl, rfl⟩
    action := .inl rfl
    rest := ⟨rfl, rfl⟩
    learners := fun k => Population.learner?_setLearner ..
    teams := fun t => by simp [referencesAfter]
    exact := Population.exact_setProgram exact enlisted _ }

/-- A learner on no team takes another action, or all stays as it is. -/
theorem varyAction_adjusts (valid : s.Valid) {taught : Stock}
    (adjusted : Adjusted s l parent pool forceAtomic stock learner taught learner')
    (alone : learner.inTeams = []) (same : learner'.action = learner.action) :
    Faultless (taught.varyAction s l parent pool forceAtomic) fun varied =>
      varied.1 = false ∧ varied.2 = taught ∨ varied.1 = true ∧ ∃ action,
        Offers s stock.population learner.action parent pool forceAtomic action ∧
        Adjusted s l parent pool forceAtomic stock learner varied.2 { learner' with action } := by
  have enlisted := adjusted.enlisted
  refine Safe.lift_bind (Population.getLearner_eq_ok.2 enlisted) ?_
  refine (drawAction_offers valid _ _).bind fun drawn offers => ?_
  cases drawn with
  | none => exact Safe.pure (.inl ⟨rfl, rfl⟩)
  | some action =>
    dsimp only
    split
    case isTrue => exact Safe.pure (.inl ⟨rfl, rfl⟩)
    case isFalse other =>
      have offers := offers action rfl (by simpa using other)
      have free : ∀ u, action.target? = some u → taught.population.containsTeam u = true ∧
          u ∉ taught.population.teamsOf l := by
        intro u leads
        rw [Population.teamsOf_of_learner? enlisted, adjusted.rest.2, alone]
        exact ⟨offers.there leads, List.not_mem_nil⟩
      obtain ⟨q, run⟩ := Population.setAction_ok adjusted.exact enlisted free
      obtain ⟨records, learners⟩ := Population.setAction_records enlisted run
      have offers' := same ▸ offers.congr fun t => (adjusted.containsTeam t).symm
      refine Safe.lift_bind run (Safe.pure (.inr ⟨rfl, action, offers', ?_⟩))
      exact {
        program := adjusted.program
        action := .inr offers'
        rest := adjusted.rest
        learners := fun k => by
          rw [learners, adjusted.learners]
          split <;> rfl
        teams := fun t => by
          rw [records, adjusted.teams, Option.map_map]
          congr 1
          funext team
          simp only [Function.comp_apply, same, referencesAfter_of_other offers'.other]
          simp [referencesAfter]
        exact := Population.exact_setAction adjusted.exact run }

/-- A round that changes nothing leaves the stock as it was. -/
theorem learnerRound_adjusts (valid : s.Valid) (exact : stock.population.outline.Exact)
    (enlisted : stock.population.learner? l = some learner) (alone : learner.inTeams = []) :
    Faultless (learnerRound s l parent pool forceAtomic stock) (Sum.elim (· = stock) fun next =>
      ∃ learner', Adjusted s l parent pool forceAtomic stock learner next learner' ∧
        (learner'.program.instructions ≠ learner.program.instructions ∨
          Offers s stock.population learner.action parent pool forceAtomic learner'.action)) := by
  refine (chance_safe _).skip fun program => ?_
  refine Safe.either (Q := fun taught => ∃ learner',
      Adjusted s l parent pool forceAtomic stock learner taught learner' ∧
        learner'.action = learner.action ∧
        (program = true → learner'.program.instructions ≠ learner.program.instructions) ∧
        (program = false → taught = stock))
    (fun teaches => ?_) (fun idle => ?_) fun taught ⟨learner₁, adjusted, same, other, idle⟩ => ?_
  · refine (varyProgramOf_adjusts valid exact enlisted parent pool forceAtomic).mono
      fun taught h => ?_
    obtain ⟨learner', adjusted, other, same⟩ := h
    exact ⟨learner', adjusted, same, fun _ => other, fun none => by simp [teaches] at none⟩
  · exact Safe.pure ⟨learner, .refl exact enlisted, rfl, fun some => absurd some idle, fun _ => rfl⟩
  refine (chance_safe _).skip fun act => ?_
  refine Safe.either (Q := fun varied : Bool × Stock => ∃ learner',
      Adjusted s l parent pool forceAtomic stock learner varied.2 learner' ∧
        (program = true → learner'.program.instructions ≠ learner.program.instructions) ∧
        (varied.1 = true →
          Offers s stock.population learner.action parent pool forceAtomic learner'.action) ∧
        (program = false → varied.1 = false → varied.2 = stock))
    (fun _ => ?_) (fun _ => ?_) fun varied ⟨learner₂, adjusted, other, offers, idle⟩ =>
      Safe.pure ?_
  · refine (varyAction_adjusts valid adjusted alone same).mono fun varied h => ?_
    obtain ⟨none, eq⟩ | ⟨some, action, offers, adjusted'⟩ := h
    · exact ⟨learner₁, eq ▸ adjusted, other, fun some => by simp [none] at some,
        fun none _ => eq.trans (idle none)⟩
    · exact ⟨_, adjusted', other, fun _ => offers,
        fun _ none => by simp [none] at some⟩
  · exact Safe.pure ⟨learner₁, adjusted, other, nofun, fun none _ => idle none⟩
  · obtain ⟨changed, next⟩ := varied
    cases program with
    | true => exact ⟨learner₂, adjusted, .inl (other rfl)⟩
    | false =>
      cases changed with
      | true => exact ⟨learner₂, adjusted, .inr (offers rfl)⟩
      | false => exact idle rfl rfl

section Flag

variable (s l parent pool forceAtomic)

/-- A round on a learner, and whether it changed anything. -/
def tellingRound (stock : Stock) : Draw (Bool × Stock) := do
  let program ← chance s.mutation.pProgramMutate
  let stock ← if program then stock.varyProgramOf s l else pure stock
  let (action, stock) ←
    if ← chance s.mutation.pActionMutate then stock.varyAction s l parent pool forceAtomic
    else pure (false, stock)
  pure (program || action, stock)

/-- Goes on while nothing has changed, and gives the flag with the stock. -/
def whileUnchanged : Nat → Bool × Stock → Draw (Bool × Stock)
  | _, (true, stock) => pure (true, stock)
  | 0, (false, _) => throw .endless
  | fuel + 1, (false, stock) => do
    whileUnchanged fuel (← tellingRound s l parent pool forceAtomic stock)

theorem learnerRound_eq (stock : Stock) : learnerRound s l parent pool forceAtomic stock =
    tellingRound s l parent pool forceAtomic stock >>= fun told =>
      pure (if told.1 then .inr told.2 else .inl told.2) := by
  have through {α β : Type} (c : Prop) [Decidable c] (x y : Draw α) (f : α → Draw β) :
      (if c then x else y) >>= f = if c then x >>= f else y >>= f := apply_ite (· >>= f) c x y
  simp only [learnerRound, tellingRound, bind_assoc, through, pure_bind]

/-- The flag is up at the end, and the stock is that of the loop without it. -/
theorem whileUnchanged_eq (fuel : Nat) (stock : Stock) :
    whileUnchanged s l parent pool forceAtomic fuel (false, stock) =
      (true, ·) <$> iterate (learnerRound s l parent pool forceAtomic) fuel stock := by
  induction fuel generalizing stock with
  | zero => rfl
  | succ fuel ih =>
    rw [whileUnchanged, iterate, learnerRound_eq, map_bind, bind_assoc]
    congr 1
    funext told
    obtain ⟨changed, next⟩ := told
    cases changed with
    | true =>
      rw [pure_bind, if_pos rfl, map_pure]
      cases fuel <;> rfl
    | false =>
      rw [pure_bind, if_neg Bool.false_ne_true]
      exact ih next

end Flag

/-- What comes of a stock when the variation of a learner ends: its instructions or its
action have changed, and nothing that is not its own. -/
structure Tuned (s : Settings) (l : LearnerId) (parent : TeamId) (pool : List TeamId)
    (forceAtomic : Bool) (stock : Stock) (learner : Learner) (next : Stock) (learner' : Learner) :
    Prop extends Adjusted s l parent pool forceAtomic stock learner next learner' where
  changed : learner'.program.instructions ≠ learner.program.instructions ∨
    learner'.action ≠ learner.action
  renamed : learner'.program.id ≠ learner.program.id ↔
    learner'.program.instructions ≠ learner.program.instructions
  atomic : forceAtomic = true → learner.isAtomic = true → learner'.isAtomic = true

theorem Adjusted.tuned (numeric : ∀ code ∈ s.trainer.actions.toList, code.IsNumeric)
    (below : learner.program.id.val < stock.counters.program)
    (h : Adjusted s l parent pool forceAtomic stock learner next learner')
    (ended : learner'.program.instructions ≠ learner.program.instructions ∨
      Offers s stock.population learner.action parent pool forceAtomic learner'.action) :
    Tuned s l parent pool forceAtomic stock learner next learner' where
  toAdjusted := h
  changed := ended.imp_right fun offers => offers.ne numeric
  renamed := by
    obtain ⟨same, -⟩ | ⟨other, fresh, -⟩ := h.program
    · simp [same]
    · have new : learner'.program.id ≠ learner.program.id := by
        intro same
        rw [← same, fresh] at below
        exact Nat.lt_irrefl _ below
      exact ⟨fun _ => other, fun _ => new⟩
  atomic force atomic := by
    obtain same | offers := h.action
    · rw [Learner.isAtomic, same]
      exact atomic
    · exact offers.forced force

theorem varyLearner_adjusts (valid : s.Valid) (exact : stock.population.outline.Exact)
    (enlisted : stock.population.learner? l = some learner) (alone : learner.inTeams = []) :
    Faultless (varyLearner s stock l parent pool forceAtomic) fun next =>
      ∃ learner', Adjusted s l parent pool forceAtomic stock learner next learner' ∧
        (learner'.program.instructions ≠ learner.program.instructions ∨
          Offers s stock.population learner.action parent pool forceAtomic learner'.action) := by
  refine Faultless.iterate (· = stock) (fun reached same => ?_) roundLimit rfl
  subst same
  exact learnerRound_adjusts valid exact enlisted alone

/-- The variation of a learner on no team tells that it has changed and has changed
it, and nothing else, or does not end. -/
theorem learner_tuned (valid : s.validate = .ok ())
    (numeric : ∀ code ∈ s.trainer.actions.toList, code.IsNumeric)
    (exact : stock.population.outline.Exact)
    (below : ∀ k other, stock.population.learner? k = some other →
      other.program.id.val < stock.counters.program)
    (enlisted : stock.population.learner? l = some learner) (alone : learner.inTeams = [])
    (parent : TeamId) (pool : List TeamId) (forceAtomic : Bool) (stream : Stream) :
    (∃ next learner' rest,
      (whileUnchanged s l parent pool forceAtomic roundLimit (false, stock)).run stream =
        .ok ((true, next), rest) ∧
      (varyLearner s stock l parent pool forceAtomic).run stream = .ok (next, rest) ∧
      Tuned s l parent pool forceAtomic stock learner next learner') ∨
    (whileUnchanged s l parent pool forceAtomic roundLimit (false, stock)).run stream =
        .error .endless ∧
      (varyLearner s stock l parent pool forceAtomic).run stream = .error .endless := by
  have flagged : (whileUnchanged s l parent pool forceAtomic roundLimit (false, stock)).run stream =
      (fun drawn => ((true, drawn.1), drawn.2)) <$>
        (varyLearner s stock l parent pool forceAtomic).run stream := by
    rw [whileUnchanged_eq, StateT.run_map]
    rfl
  obtain ⟨next, rest, run, -, learner', adjusted, ended⟩ | ⟨run, -⟩ :=
    varyLearner_adjusts (Settings.valid_of_validate valid) exact enlisted alone stream
  · exact .inl ⟨next, learner', rest, by rw [flagged, run]; rfl, run,
      adjusted.tuned numeric (below l learner enlisted) ended⟩
  · exact .inr ⟨by rw [flagged, run]; rfl, run⟩

/-- Three teams and two learners on none of them that lead to the first team. -/
def strays : List (Call × Stream) :=
  [.createTeam 0, .createTeam 0, .createTeam 0, .createLearner ⟨⟨0⟩, []⟩ (.team ⟨0⟩) 0,
    .createLearner ⟨⟨1⟩, []⟩ (.team ⟨0⟩) 0, .reserve 0 0 2].map
      fun call => (call, Stream.ofScript [])

/-- The action of the first learner gives way to the only other team of the pool that is
there and is not the parent. -/
def strayTuned (stock : Stock) : Except Fault ((Bool × Stock) × Stream) :=
  (whileUnchanged {} ⟨0⟩ ⟨2⟩ [⟨2⟩, ⟨0⟩, ⟨7⟩, ⟨1⟩] false roundLimit (false, stock)).run
    (.ofScript [0xFFFFFFFFFFFFFFFF, 0, 0xFFFFFFFFFFFFFFFF, 0])

theorem strays_tuned : ∃ stock next learner learner' rest,
    perform ⟨.empty, {}⟩ strays = .ok stock ∧ stock.population.learner? ⟨0⟩ = some learner ∧
    strayTuned stock = .ok ((true, next), rest) ∧
    next.population.references ⟨0⟩ = [⟨1⟩] ∧ next.population.references ⟨1⟩ = [⟨0⟩] ∧
    Tuned {} ⟨0⟩ ⟨2⟩ [⟨2⟩, ⟨0⟩, ⟨7⟩, ⟨1⟩] false stock learner next learner' := by
  have run : (do
      let stock ← perform ⟨.empty, {}⟩ strays
      let _ ← stock.population.getLearner ⟨0⟩
      let tuned ← strayTuned stock
      pure (stock.population.learnerList.all fun entry =>
          entry.2.inTeams.isEmpty && entry.2.program.id.val < stock.counters.program,
        tuned.1.2.population.references ⟨0⟩, tuned.1.2.population.references ⟨1⟩)) =
      .ok (true, [⟨1⟩], [⟨0⟩]) := by
    decide +kernel
  simp only [bind_eq_ok, pure_eq_ok, Prod.mk.injEq] at run
  obtain ⟨stock, made, learner, enlisted, ⟨⟨flag, next⟩, rest⟩, tuned, fits, left, moved⟩ := run
  rw [Population.getLearner_eq_ok] at enlisted
  have each {k} {other : Learner} (enlisted : stock.population.learner? k = some other) :
      other.inTeams = [] ∧ other.program.id.val < stock.counters.program := by
    simpa using List.all_eq_true.1 fits (k, other) (Population.mem_learnerList.2 enlisted)
  have exact := (perform_sound sound_empty made).exact
  have valid : Settings.validate {} = .ok () := ok_of_toOption (by decide +kernel)
  have numeric : ∀ code ∈ ({} : Settings).trainer.actions.toList, code.IsNumeric := by
    intro code listed
    obtain ⟨n, -, rfl⟩ := List.mem_map.1 listed
    trivial
  obtain ⟨next', learner', rest', result, -, holds⟩ | ⟨endless, -⟩ :=
    learner_tuned valid numeric exact (fun k other there => (each there).2) enlisted
      (each enlisted).1 ⟨2⟩ [⟨2⟩, ⟨0⟩, ⟨7⟩, ⟨1⟩] false
      (.ofScript [0xFFFFFFFFFFFFFFFF, 0, 0xFFFFFFFFFFFFFFFF, 0])
  · obtain ⟨same, -⟩ := Prod.mk.inj (Except.ok.inj (tuned.symm.trans result))
    obtain ⟨rfl, rfl⟩ := Prod.mk.inj same
    exact ⟨stock, next, learner, learner', rest, made, enlisted, tuned, left, moved, holds⟩
  · cases endless.symm.trans tuned

end Stock

end TangledGraph
