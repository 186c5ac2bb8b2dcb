import TangledGraph.Proofs.Graph.Reshaping
import TangledGraph.Proofs.Random.Within

/-!
# The loops that shrink and enlarge a team

Deletion and addition go on by chance, each with a probability that falls from
round to round, but it is not the chance that ends them. A round of deletion takes
a learner off a team of three or more, and a round of addition takes a learner out
of those that may still enter. So in a population with exact records both loops
end after a bounded number of draws, whatever is drawn: deletion leaves two
learners and an atomic one, and addition appends candidates, each at most once.
The team may lack whatever else makes it well formed.
-/
namespace TangledGraph

open Draw

namespace Population

variable {p q r : Population} {t : TeamId} {l : LearnerId}

/-- The learners of a pool that may enter a team: they are there, they are not on it,
and they do not lead to it. -/
def candidates (p : Population) (t : TeamId) (pool : List LearnerId) : Finset LearnerId :=
  pool.toFinset.filter fun l =>
    l ∉ p.members t ∧ p.containsLearner l = true ∧ p.target? l ≠ some t

theorem mem_candidates {pool : List LearnerId} : l ∈ p.candidates t pool ↔
    l ∈ pool ∧ l ∉ p.members t ∧ p.containsLearner l = true ∧ p.target? l ≠ some t := by
  rw [candidates, Finset.mem_filter, List.mem_toFinset]

/-- The rounds that a pass allows to addition are enough. -/
theorem card_candidates_le (p : Population) (t : TeamId) (pool : List LearnerId) :
    (p.candidates t pool).card ≤ pool.length :=
  (Finset.card_filter_le _ _).trans (List.toFinset_card_le pool)

/-- Only a learner that enters stops to be a candidate. -/
theorem candidates_addLearner {pool : List LearnerId} (run : p.addLearner t l = .ok q) :
    q.candidates t pool = (p.candidates t pool).erase l := by
  have policy : q.policy? = p.policy? := congrArg Outline.policy? (addLearner_outline run).2.2
  ext k
  rw [Finset.mem_erase, mem_candidates, mem_candidates, members_addLearner run,
    Function.update_self, target?_congr (congrFun policy k),
    containsLearner_congr policy, List.mem_append, List.mem_singleton, not_or]
  tauto

/-- A team after learners were taken off it. -/
structure Thinned (t : TeamId) (p q : Population) : Prop where
  exact : q.outline.Exact
  /-- Those that stay are in their order. -/
  sublist : (q.members t).Sublist (p.members t)
  removed : (p.members t).length - (q.members t).length ≤ (p.members t).length - 2
  small : (p.members t).length ≤ 2 → q = p
  atomic : 0 < (p.members t).countP p.isAtomicAt → 0 < (q.members t).countP q.isAtomicAt
  others : ∀ u, u ≠ t → q.members u = p.members u
  teams : q.containsTeam = p.containsTeam
  policy : q.policy? = p.policy?

theorem Thinned.refl (exact : p.outline.Exact) : Thinned t p p where
  exact := exact
  sublist := .refl _
  removed := by omega
  small _ := rfl
  atomic pos := pos
  others _ _ := rfl
  teams := rfl
  policy := rfl

/-- One more learner was taken off before, and the team can do without it. -/
theorem Thinned.of_dropLearner (run : p.dropLearner t l = .ok q)
    (large : 2 < (p.members t).length)
    (spare : p.isAtomicAt l = true → (p.members t).countP p.isAtomicAt ≠ 1)
    (rest : Thinned t q r) : Thinned t p r := by
  have left := (dropLearner_outline run).2
  have policy : q.policy? = p.policy? := congrArg Outline.policy? left
  have members := members_dropLearner run
  have listed : q.members t = (p.members t).erase l := by rw [members, Function.update_self]
  have length := length_members_dropLearner run
  refine ⟨rest.exact, ?_, ?_, fun small => absurd small (Nat.not_le.2 large), fun pos => ?_,
    fun u other => ?_, rest.teams.trans (congrArg Outline.teams left), rest.policy.trans policy⟩
  · exact rest.sublist.trans (listed ▸ List.erase_sublist)
  · have removed := rest.removed
    have shorter := rest.sublist.length_le
    by_cases two : (q.members t).length ≤ 2
    · rw [rest.small two]
      omega
    · omega
  · apply rest.atomic
    have atomics : q.isAtomicAt = p.isAtomicAt :=
      funext fun k => isAtomicAt_congr (congrFun policy k)
    rw [listed, atomics]
    exact atomics_left pos spare
  · exact (rest.others u other).trans
      ((congrFun members u).trans (Function.update_of_ne other ..))

/-- A team after learners of a pool entered it. -/
structure Enlarged (s : Settings) (t : TeamId) (pool : List LearnerId) (p q : Population) :
    Prop where
  exact : q.outline.Exact
  /-- Those that entered come after the others, each once, and were candidates. -/
  appended : ∃ added, q.members t = p.members t ++ added ∧ added.Nodup ∧
    (∀ l ∈ added, l ∈ p.candidates t pool) ∧ added.length ≤ (p.candidates t pool).card
  limit : 0 < s.mutation.maxTeamSize →
    (q.members t).length ≤ max s.mutation.maxTeamSize (p.members t).length
  others : ∀ u, u ≠ t → q.members u = p.members u
  teams : q.containsTeam = p.containsTeam
  policy : q.policy? = p.policy?

variable {s : Settings} {pool : List LearnerId}

theorem Enlarged.refl (exact : p.outline.Exact) : Enlarged s t pool p p where
  exact := exact
  appended := ⟨[], by simp⟩
  limit _ := Nat.le_max_right _ _
  others _ _ := rfl
  teams := rfl
  policy := rfl

/-- One more candidate entered before, and the team had room for it. -/
theorem Enlarged.of_addLearner (run : p.addLearner t l = .ok q)
    (candidate : l ∈ p.candidates t pool)
    (room : 0 < s.mutation.maxTeamSize → (p.members t).length < s.mutation.maxTeamSize)
    (rest : Enlarged s t pool q r) : Enlarged s t pool p r := by
  have joined := (addLearner_outline run).2.2
  have members := members_addLearner run
  have listed : q.members t = p.members t ++ [l] := by rw [members, Function.update_self]
  obtain ⟨added, after, nodup, from_pool, few⟩ := rest.appended
  simp only [candidates_addLearner run, Finset.mem_erase] at from_pool
  refine ⟨rest.exact, ⟨l :: added, ?_, ?_, ?_, ?_⟩, fun limited => ?_, fun u other => ?_,
    rest.teams.trans (congrArg Outline.teams joined),
    rest.policy.trans (congrArg Outline.policy? joined)⟩
  · rw [after, listed, List.append_assoc, List.singleton_append]
  · exact List.nodup_cons.2 ⟨fun again => (from_pool l again).1 rfl, nodup⟩
  · exact List.forall_mem_cons.2 ⟨candidate, fun k hk => (from_pool k hk).2⟩
  · rw [candidates_addLearner run] at few
    have fewer := Finset.card_erase_add_one candidate
    rw [List.length_cons]
    omega
  · have fits := rest.limit limited
    have length := length_members_addLearner run
    have free := room limited
    omega
  · exact (rest.others u other).trans
      ((congrFun members u).trans (Function.update_of_ne other ..))

end Population

namespace Stock

open Population

variable {s : Settings} {p : Population} {t : TeamId} {pool : List LearnerId}

/-- What the loop chooses from. -/
theorem mem_recruits {l : LearnerId} :
    l ∈ recruits p t (p.members t) pool ↔ l ∈ p.candidates t pool := by
  rw [mem_candidates, recruits, List.mem_filter, Bool.and_eq_true, Bool.not_eq_true',
    List.contains_eq_mem, decide_eq_false_iff_not, containsLearner_eq]
  cases enlisted : p.learner? l with
  | none => simp [policy?, enlisted]
  | some learner =>
    simp [policy?_of_learner? enlisted, target?_of_learner? enlisted, Learner.target?]

/-- A round of deletion takes at most two draws and a learner off the team, as long as
there are three. -/
theorem deleteLearners_within (fuel : Nat) (probability : Float) (exact : p.outline.Exact)
    (there : p.containsTeam t = true) (enough : (p.members t).length - 2 < fuel) :
    Within (2 * ((p.members t).length - 2) + 1) (deleteLearners s t fuel probability p)
      (Thinned t p) := by
  induction fuel generalizing probability p with
  | zero => omega
  | succ fuel ih =>
    rw [Nat.add_comm]
    refine (chance_within probability).bind fun again _ => ?_
    split
    · exact Within.pure (.refl exact)
    obtain ⟨team, found⟩ := containsTeam_iff.1 there
    refine Within.lift_bind (getTeam_eq_ok.2 found) ?_
    rw [← members_of_team? found]
    split
    · exact Within.pure (.refl exact)
    case isFalse large =>
    obtain ⟨removables, run, spare⟩ := removable_ok exact there
    refine Within.lift_bind run ?_
    have choice : Within 1 (choose removables) fun chosen => ∀ l ∈ chosen, l ∈ removables :=
      (choose_within removables).mono (Nat.le_refl 1) fun _ => And.left
    refine (choice.bind (k := 2 * ((p.members t).length - 3) + 1) fun victim chosen => ?_).mono
      (by omega) fun _ => id
    cases victim with
    | none => exact Within.pure (.refl exact)
    | some victim =>
      obtain ⟨member, atomic⟩ := spare victim (chosen victim rfl)
      obtain ⟨q, dropped⟩ := dropLearner_ok exact member
      have length := length_members_dropLearner dropped
      have teams : q.containsTeam = p.containsTeam :=
        congrArg Outline.teams (dropLearner_outline dropped).2
      have rest := ih (probability * s.mutation.pLearnerDelete) (exact_dropLearner exact dropped)
        ((congrFun teams t).trans there) (by omega)
      refine Within.lift_bind dropped (rest.mono (by omega) fun r thinned => ?_)
      exact thinned.of_dropLearner dropped (Nat.lt_of_not_le large) atomic

/-- A round of addition takes at most two draws and a learner out of the candidates, as
long as there are any. -/
theorem addLearners_within (fuel : Nat) (probability : Float) (exact : p.outline.Exact)
    (there : p.containsTeam t = true) (enough : (p.candidates t pool).card < fuel) :
    Within (2 * (p.candidates t pool).card + 1) (addLearners s t pool fuel probability p)
      (Enlarged s t pool p) := by
  induction fuel generalizing probability p with
  | zero => omega
  | succ fuel ih =>
    rw [Nat.add_comm]
    refine (chance_within probability).bind fun again _ => ?_
    split
    · exact Within.pure (.refl exact)
    obtain ⟨team, found⟩ := containsTeam_iff.1 there
    refine Within.lift_bind (getTeam_eq_ok.2 found) ?_
    rw [← members_of_team? found]
    dsimp only
    split
    · exact Within.pure (.refl exact)
    case isFalse room =>
    have free : 0 < s.mutation.maxTeamSize → (p.members t).length < s.mutation.maxTeamSize := by
      simpa using room
    by_cases none_left : recruits p t (p.members t) pool = []
    · rw [none_left]
      exact Within.pure (.refl exact)
    have some_left : 0 < (p.candidates t pool).card := by
      obtain ⟨l, listed⟩ := List.exists_mem_of_ne_nil _ none_left
      exact Finset.card_pos.2 ⟨l, mem_recruits.1 listed⟩
    refine ((choose_within _).bind (k := 2 * ((p.candidates t pool).card - 1) + 1)
      fun recruit chosen => ?_).mono (by omega) fun _ => id
    cases recruit with
    | none => exact absurd (chosen.2 rfl) none_left
    | some recruit =>
      have candidate := mem_recruits.1 (chosen.1 recruit rfl)
      obtain ⟨-, new, enlisted, -⟩ := mem_candidates.1 candidate
      obtain ⟨learner, enlisted⟩ := containsLearner_iff.1 enlisted
      obtain ⟨q, added⟩ := addLearner_ok there enlisted new
      have teams : q.containsTeam = p.containsTeam :=
        congrArg Outline.teams (addLearner_outline added).2.2
      have fewer := Finset.card_erase_of_mem candidate
      rw [← candidates_addLearner added] at fewer
      have rest := ih (probability * s.mutation.pLearnerAdd) (exact_addLearner exact added)
        ((congrFun teams t).trans there) (by omega)
      refine Within.lift_bind added (rest.mono (by omega) fun r enlarged => ?_)
      exact enlarged.of_addLearner added candidate free

/-- With more rounds allowed than learners may come or go, both loops end: whatever is
drawn, after a bounded number of draws, and so in particular where every word is zero. -/
theorem loops_end (exact : p.outline.Exact) (there : p.containsTeam t = true) (s : Settings)
    (pool : List LearnerId) (fuel : Nat) (probability : Float) :
    ((p.members t).length - 2 < fuel →
      Within (2 * ((p.members t).length - 2) + 1) (deleteLearners s t fuel probability p)
          (Thinned t p) ∧
        ∀ later state, ∃ q rest, (deleteLearners s t fuel probability p).run
            (.zeros (2 * ((p.members t).length - 2) + 1) later state) = .ok (q, rest) ∧
          Thinned t p q) ∧
    ((p.candidates t pool).card < fuel →
      Within (2 * (p.candidates t pool).card + 1) (addLearners s t pool fuel probability p)
          (Enlarged s t pool p) ∧
        ∀ later state, ∃ q rest, (addLearners s t pool fuel probability p).run
            (.zeros (2 * (p.candidates t pool).card + 1) later state) = .ok (q, rest) ∧
          Enlarged s t pool p q) := by
  refine ⟨fun enough => ?_, fun enough => ?_⟩
  · have ends := deleteLearners_within (s := s) fuel probability exact there enough
    exact ⟨ends, ends.ok_of_zeros⟩
  · have ends := addLearners_within (s := s) fuel probability exact there enough
    exact ⟨ends, ends.ok_of_zeros⟩

/-- A team of four with one atomic learner, a learner that leads to it, and one that
may enter it. -/
def foursome : List (Call × Stream) :=
  [.createTeam 0, .createTeam 0, .createLearner ⟨⟨0⟩, []⟩ (.team ⟨1⟩) 0,
    .createLearner ⟨⟨1⟩, []⟩ (.team ⟨1⟩) 0, .createLearner ⟨⟨2⟩, []⟩ (.atomic (.discrete 0)) 0,
    .createLearner ⟨⟨3⟩, []⟩ (.team ⟨1⟩) 0, .createLearner ⟨⟨4⟩, []⟩ (.team ⟨0⟩) 0,
    .createLearner ⟨⟨5⟩, []⟩ (.atomic (.discrete 1)) 0, .addLearner ⟨0⟩ ⟨0⟩,
    .addLearner ⟨0⟩ ⟨1⟩, .addLearner ⟨0⟩ ⟨2⟩, .addLearner ⟨0⟩ ⟨3⟩].map
      fun call => (call, Stream.ofScript [])

/-- Two of the four may leave, and of a pool with repetitions one learner may enter. -/
theorem loops_end_of_foursome : ∃ stock, perform ⟨.empty, {}⟩ foursome = .ok stock ∧
    (stock.population.members ⟨0⟩).length = 4 ∧
    (stock.population.candidates ⟨0⟩ [⟨5⟩, ⟨4⟩, ⟨9⟩, ⟨5⟩, ⟨2⟩]).card = 1 ∧
    Within 5 (deleteLearners {} ⟨0⟩ 5 1.0 stock.population) (Thinned ⟨0⟩ stock.population) ∧
    (∃ q rest, (deleteLearners {} ⟨0⟩ 5 1.0 stock.population).run (.zeros 5 [] 0) =
      .ok (q, rest) ∧ Thinned ⟨0⟩ stock.population q) ∧
    Within 3 (addLearners {} ⟨0⟩ [⟨5⟩, ⟨4⟩, ⟨9⟩, ⟨5⟩, ⟨2⟩] 6 1.0 stock.population)
      (Enlarged {} ⟨0⟩ [⟨5⟩, ⟨4⟩, ⟨9⟩, ⟨5⟩, ⟨2⟩] stock.population) := by
  have run : (do
      let stock ← perform ⟨.empty, {}⟩ foursome
      pure ((stock.population.members ⟨0⟩).length, stock.population.containsTeam ⟨0⟩,
        (stock.population.candidates ⟨0⟩ [⟨5⟩, ⟨4⟩, ⟨9⟩, ⟨5⟩, ⟨2⟩]).card)) =
      .ok (4, true, 1) := by
    decide +kernel
  simp only [bind_eq_ok, pure_eq_ok, Prod.mk.injEq] at run
  obtain ⟨stock, made, four, there, one⟩ := run
  have exact := (perform_sound sound_empty made).exact
  have deletion := (loops_end exact there {} [] 5 1.0).1 (by omega)
  have addition := (loops_end exact there {} [⟨5⟩, ⟨4⟩, ⟨9⟩, ⟨5⟩, ⟨2⟩] 6 1.0).2
    (Nat.lt_succ_of_le (card_candidates_le ..))
  rw [four] at deletion
  rw [one] at addition
  exact ⟨stock, made, four, one, deletion.1, deletion.2 [] 0, addition.1⟩

end Stock

end TangledGraph
