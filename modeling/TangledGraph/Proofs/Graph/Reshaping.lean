import TangledGraph.Proofs.Graph.Capacity
import TangledGraph.Proofs.Graph.History
import TangledGraph.Proofs.Graph.Maintenance

/-!
# Variation of a team

The three loops over a team leave it well formed after every step: deletion
stops at two learners and spares the only atomic one, addition takes learners
that do not lead to the team, and a changed copy leads elsewhere and is atomic
if it has to be. So with valid settings no edit fails, no loop runs out of
rounds for want of an end, and the assertion after the last pass holds. Of the
rest of the population nothing changes but that there are new learners.
-/
namespace TangledGraph

open Draw

namespace Population

variable {p q : Population} {t : TeamId} {l : LearnerId}

/-- The members without one that is not the only atomic learner. -/
theorem atomics_left (pos : 0 < (p.members t).countP p.isAtomicAt)
    (spare : p.isAtomicAt l = true → (p.members t).countP p.isAtomicAt ≠ 1) :
    0 < ((p.members t).erase l).countP p.isAtomicAt := by
  rw [List.countP_erase]
  by_cases atomic : p.isAtomicAt l = true
  · have several := spare atomic
    split <;> omega
  · rw [if_neg (fun both => atomic both.2)]
    exact pos

theorem WellFormed.atomic_left (h : p.WellFormed t)
    (spare : p.isAtomicAt l = true → (p.members t).countP p.isAtomicAt ≠ 1) :
    0 < ((p.members t).erase l).countP p.isAtomicAt :=
  atomics_left h.atomic_pos spare

/-- A team of three or more can do without any learner but the only atomic one. -/
theorem WellFormed.leave (h : p.WellFormed t) (exact : p.outline.Exact)
    (run : p.dropLearner t l = .ok q) (large : 2 < (p.members t).length)
    (spare : p.isAtomicAt l = true → (p.members t).countP p.isAtomicAt ≠ 1) :
    q.WellFormed t := by
  obtain ⟨member, eq⟩ := dropLearner_outline run
  have members : q.members t = (p.members t).erase l := by
    rw [members_dropLearner run, Function.update_self]
  have policy : q.policy? = p.policy? := congrArg Outline.policy? eq
  have atomics : q.isAtomicAt = p.isAtomicAt := by
    funext k
    exact isAtomicAt_congr (congrFun policy k)
  refine ⟨?_, (exact_dropLearner exact run).nodup_members t, ?_, ?_⟩
  · rw [members, List.length_erase_of_mem member]
    omega
  · apply exists_atomic_of_pos
    rw [members, atomics]
    exact h.atomic_left spare
  · intro k hk
    rw [members] at hk
    rw [target?_congr (congrFun policy k)]
    exact h.foreign k (List.mem_of_mem_erase hk)

/-- A learner that does not lead to a team may enter it. -/
theorem WellFormed.join (h : p.WellFormed t) (exact : p.outline.Exact)
    (run : p.addLearner t l = .ok q) (foreign : p.target? l ≠ some t) : q.WellFormed t := by
  have policy : q.policy? = p.policy? := congrArg Outline.policy? (addLearner_outline run).2.2
  have members : q.members t = p.members t ++ [l] := by
    rw [members_addLearner run, Function.update_self]
  refine ⟨?_, (exact_addLearner exact run).nodup_members t, ?_, ?_⟩
  · rw [members, List.length_append]
    have := h.two_le
    omega
  · obtain ⟨k, hk, atomic⟩ := h.atomic
    refine ⟨k, ?_, policy ▸ atomic⟩
    rw [members]
    exact List.mem_append_left _ hk
  · intro k hk
    rw [target?_congr (congrFun policy k)]
    rw [members, List.mem_append, List.mem_singleton] at hk
    obtain old | rfl := hk
    · exact h.foreign k old
    · exact foreign

/-- Another learner may take the place of a member if it does not lead to the team,
and is atomic if no one else is. -/
theorem WellFormed.replace {copy : LearnerId} (h : p.WellFormed t) (member : l ∈ p.members t)
    (members : q.members t = (p.members t).erase l ++ [copy]) (nodup : (q.members t).Nodup)
    (kept : ∀ k ∈ p.members t, q.policy? k = p.policy? k) (foreign : q.target? copy ≠ some t)
    (forced : (p.members t).countP p.isAtomicAt = 1 → p.isAtomicAt l = true →
      q.isAtomicAt copy = true) : q.WellFormed t := by
  refine ⟨?_, nodup, ?_, ?_⟩
  · rw [members, List.length_append, List.length_erase_of_mem member, List.length_singleton]
    have := h.two_le
    omega
  · by_cases sole : (p.members t).countP p.isAtomicAt = 1 ∧ p.isAtomicAt l = true
    · apply exists_atomic_of_pos
      simp [members, List.countP_append, forced sole.1 sole.2]
    · have left := h.atomic_left fun atomic once => sole ⟨once, atomic⟩
      obtain ⟨k, hk, program, code, policy⟩ := exists_atomic_of_pos left
      refine ⟨k, members ▸ List.mem_append_left _ hk, program, code, ?_⟩
      exact (kept k (List.mem_of_mem_erase hk)).trans policy
  · intro k hk
    rw [members, List.mem_append, List.mem_singleton] at hk
    obtain old | rfl := hk
    · have there := List.mem_of_mem_erase old
      exact target?_congr (kept k there) ▸ h.foreign k there
    · exact foreign

end Population

namespace Stock

variable {s : Settings} {generation : Nat}

section Teams

variable {t : TeamId} {learnerPool : List LearnerId} {pool : List TeamId}

/-- What a team that is being varied keeps from step to step. -/
structure Holds (t : TeamId) (stock : Stock) : Prop where
  sound : stock.Sound
  there : stock.population.containsTeam t = true
  wellFormed : stock.population.WellFormed t

/-- A team in the course of its variation, next to the stock that it began with. Its
learners were on it then, or come from the pool, or are new. Other lists and old
learners are as they were, and no new learner leads to the team. -/
structure Reshaped (t : TeamId) (learnerPool : List LearnerId) (old now : Stock) : Prop
    extends Holds t now where
  counters_le : old.counters ≤ now.counters
  teams : now.population.containsTeam = old.population.containsTeam
  others : ∀ u, u ≠ t → now.population.members u = old.population.members u
  kept : ∀ l, l.val < old.counters.learner → now.population.policy? l = old.population.policy? l
  foreign : ∀ l, old.counters.learner ≤ l.val → now.population.target? l ≠ some t
  origin : ∀ l ∈ now.population.members t,
    l ∈ old.population.members t ∨ l ∈ learnerPool ∨ old.counters.learner ≤ l.val

namespace Reshaped

variable {old stock : Stock} {p q : Population} {c : Counters} {l : LearnerId}

theorem refl (h : Holds t stock) : Reshaped t learnerPool stock stock where
  toHolds := h
  counters_le := le_rfl
  teams := rfl
  others _ _ := rfl
  kept _ _ := rfl
  foreign l new leads := by
    obtain ⟨learner, enlisted, -⟩ := Option.bind_eq_some_iff.1 leads
    have below := h.sound.below.learner (Population.policy?_of_learner? enlisted)
    exact absurd below (Nat.not_lt.2 new)
  origin _ hl := .inl hl

/-- A member leaves that the team can do without. -/
theorem leave (h : Reshaped t learnerPool old ⟨p, c⟩) (run : p.dropLearner t l = .ok q)
    (large : 2 < (p.members t).length)
    (spare : p.isAtomicAt l = true → (p.members t).countP p.isAtomicAt ≠ 1) :
    Reshaped t learnerPool old ⟨q, c⟩ := by
  have step : Step {} (fun _ => True) ⟨p, c⟩ ⟨q, c⟩ := .leave (Nat.zero_le _) run
  have members := Population.members_dropLearner run
  have policy : q.policy? = p.policy? :=
    congrArg Outline.policy? (Population.dropLearner_outline run).2
  refine ⟨⟨Path.sound (.single step) h.sound, (congrFun step.teams_eq t).trans h.there, ?_⟩,
    h.counters_le, step.teams_eq.trans h.teams, fun u other => ?_, fun k old => ?_,
    fun k new => ?_, fun k hk => ?_⟩
  · exact h.wellFormed.leave h.sound.exact run large spare
  · exact (congrFun members u).trans ((Function.update_of_ne other ..).trans (h.others u other))
  · exact (congrFun policy k).trans (h.kept k old)
  · exact Population.target?_congr (congrFun policy k) ▸ h.foreign k new
  · simp only [members, Function.update_self] at hk
    exact h.origin k (List.mem_of_mem_erase hk)

/-- A learner of the pool enters that does not lead to the team. -/
theorem join (h : Reshaped t learnerPool old ⟨p, c⟩) (run : p.addLearner t l = .ok q)
    (listed : l ∈ learnerPool) (leads : p.target? l ≠ some t) :
    Reshaped t learnerPool old ⟨q, c⟩ := by
  have step : Step {} (fun _ => True) ⟨p, c⟩ ⟨q, c⟩ := .join (Nat.zero_le _) run
  have members := Population.members_addLearner run
  have policy : q.policy? = p.policy? :=
    congrArg Outline.policy? (Population.addLearner_outline run).2.2
  refine ⟨⟨Path.sound (.single step) h.sound, (congrFun step.teams_eq t).trans h.there, ?_⟩,
    h.counters_le, step.teams_eq.trans h.teams, fun u other => ?_, fun k old => ?_,
    fun k new => ?_, fun k hk => ?_⟩
  · exact h.wellFormed.join h.sound.exact run leads
  · exact (congrFun members u).trans ((Function.update_of_ne other ..).trans (h.others u other))
  · exact (congrFun policy k).trans (h.kept k old)
  · exact Population.target?_congr (congrFun policy k) ▸ h.foreign k new
  · simp only [members, Function.update_self, List.mem_append, List.mem_singleton] at hk
    obtain before | rfl := hk
    · exact h.origin k before
    · exact .inr (.inl listed)

/-- The next new learner takes the place of a member. -/
theorem replace {made : Stock} (h : Reshaped t learnerPool old stock) (holds : Holds t made)
    (le : stock.counters ≤ made.counters)
    (teams : made.population.containsTeam = stock.population.containsTeam)
    (members : made.population.members = Function.update stock.population.members t
      ((stock.population.members t).erase l ++ [⟨stock.counters.learner⟩]))
    (policy : ∀ k, k ≠ ⟨stock.counters.learner⟩ →
      made.population.policy? k = stock.population.policy? k)
    (leads : made.population.target? ⟨stock.counters.learner⟩ ≠ some t) :
    Reshaped t learnerPool old made := by
  have later := h.counters_le.2.1
  refine ⟨holds, h.counters_le.trans le, teams.trans h.teams, fun u other => ?_, fun k old => ?_,
    fun k new => ?_, fun k hk => ?_⟩
  · exact (congrFun members u).trans ((Function.update_of_ne other ..).trans (h.others u other))
  · refine (policy k ?_).trans (h.kept k old)
    rintro rfl
    exact Nat.lt_irrefl _ (old.trans_le later)
  · by_cases same : k = ⟨stock.counters.learner⟩
    · exact same ▸ leads
    · exact Population.target?_congr (policy k same) ▸ h.foreign k new
  · simp only [members, Function.update_self, List.mem_append, List.mem_singleton] at hk
    obtain before | rfl := hk
    · exact h.origin k (List.mem_of_mem_erase before)
    · exact .inr (.inr later)

end Reshaped

/-- The learners that may go are members that the team can do without. -/
theorem removable_ok {p : Population} (exact : p.outline.Exact) (there : p.containsTeam t = true) :
    ∃ candidates, removable p t = .ok candidates ∧ ∀ l ∈ candidates, l ∈ p.members t ∧
      (p.isAtomicAt l = true → (p.members t).countP p.isAtomicAt ≠ 1) := by
  obtain ⟨team, found⟩ := Population.containsTeam_iff.1 there
  have listed := Population.members_of_team? found
  have run : removable p t = .ok ((p.members t).filter fun l =>
      !(decide ((p.members t).countP p.isAtomicAt = 1) && p.isAtomicAt l)) := by
    unfold removable
    rw [Population.getTeam_eq_ok.2 found, Population.atomicCount_ok exact there, listed]
    refine filterM_ok fun l hl => ?_
    rw [← listed] at hl
    obtain ⟨-, learner, enlisted⟩ := Population.resolve_member exact hl
    rw [Population.getLearner_eq_ok.2 enlisted, Population.isAtomicAt_of_learner? enlisted]
    rfl
  refine ⟨_, run, fun l hl => ?_⟩
  obtain ⟨member, kept⟩ := List.mem_filter.1 hl
  refine ⟨member, fun atomic => ?_⟩
  simpa [atomic] using kept

/-- The candidates of a team after one of them entered it. -/
theorem recruits_lt {p q : Population} {pool : List LearnerId} {recruit : LearnerId}
    (run : p.addLearner t recruit = .ok q) (candidate : recruit ∈ recruits p t (p.members t) pool) :
    (recruits q t (q.members t) pool).length < (recruits p t (p.members t) pool).length := by
  have members : q.members t = p.members t ++ [recruit] := by
    rw [Population.members_addLearner run, Function.update_self]
  have target (l : LearnerId) : ((q.learner? l).any fun learner => learner.target? != some t) =
      (p.learner? l).any fun learner => learner.target? != some t := by
    have policy : q.policy? l = p.policy? l :=
      congrFun (congrArg Outline.policy? (Population.addLearner_outline run).2.2) l
    have same : ∀ r : Population, ((r.learner? l).any fun learner => learner.target? != some t) =
        (r.policy? l).any fun policy => policy.2.target? != some t := by
      intro r
      unfold Population.policy?
      cases r.learner? l <;> rfl
    rw [same, same, policy]
  have fewer : recruits q t (q.members t) pool =
      (recruits p t (p.members t) pool).filter fun l => l != recruit := by
    unfold recruits
    rw [List.filter_filter]
    apply List.filter_congr
    intro l _
    rw [members, target]
    by_cases same : l = recruit
    · simp [same]
    · simp [same]
  rw [fewer]
  exact List.length_filter_lt_length_iff_exists.2 ⟨recruit, candidate, by simp⟩

/-- The copy of a member is ready to enter the team in its place, and no other learner
has another policy. -/
theorem ready_of_clone {p q r : Population} {c d : Counters} {member : LearnerId}
    {learner : Learner} (holds : Holds t ⟨p, c⟩) (listed : member ∈ p.members t)
    (enlisted : p.learner? member = some learner) (dropped : p.dropLearner t member = .ok q)
    (cloned : q.cloneLearner c member generation = .ok (⟨c.learner⟩, r, d)) :
    Ready ⟨c.learner⟩ t
        (decide ((p.members t).countP p.isAtomicAt = 1) && learner.isAtomic) r ∧
      r.containsTeam = p.containsTeam ∧
      r.members = Function.update p.members t ((p.members t).erase member) ∧
      ∀ k, k ≠ ⟨c.learner⟩ → r.policy? k = p.policy? k := by
  have sound := holds.sound
  have left := (Population.dropLearner_outline dropped).2
  have policy : q.policy? = p.policy? := congrArg Outline.policy? left
  obtain ⟨learner', enlisted', same⟩ := Population.learner?_of_policy?
    ((congrFun policy member).trans (Population.policy?_of_learner? enlisted))
  have action : learner'.action = learner.action := (Prod.mk.inj same).2
  obtain ⟨-, program, eq⟩ := Population.cloneLearner_outline enlisted' cloned
  have own : r.policy? ⟨c.learner⟩ = some (program, learner.action) := by
    refine (congrFun (congrArg Outline.policy? eq) _).trans ?_
    rw [Outline.policy?_enlist, if_pos rfl, action]
  have new : q.policy? ⟨c.learner⟩ = none := by
    refine Option.eq_none_iff_forall_ne_some.2 fun policy' there => ?_
    exact Nat.lt_irrefl _ (sound.below.learner ((congrFun policy _).symm.trans there))
  have exact : r.outline.Exact := by
    rw [eq]
    exact (Population.exact_dropLearner sound.exact dropped).enlist new
      (Population.teamsOf_eq_nil new) program learner'.action
  refine ⟨⟨exact, ?_, ?_, ?_, ?_⟩, ?_, ?_, fun k apart => ?_⟩
  · obtain ⟨copied, found, -⟩ := Population.learner?_of_policy? own
    exact ⟨copied, found⟩
  · have := congrFun (congrArg Outline.teamsOf eq) ⟨c.learner⟩
    simpa [Outline.enlist] using this
  · have foreign := holds.wellFormed.foreign member listed
    rw [Population.target?_of_learner? enlisted] at foreign
    rwa [Population.target?_eq, Outline.target?_of_policy? own]
  · intro force
    simp only [Bool.and_eq_true] at force
    simpa [Population.isAtomicAt, own, Learner.isAtomic] using force.2
  · exact (congrArg Outline.teams eq).trans (congrArg Outline.teams left)
  · exact (congrArg Outline.members eq).trans (Population.members_dropLearner dropped)
  · refine (congrFun (congrArg Outline.policy? eq) k).trans ?_
    rw [Outline.policy?_enlist, if_neg apart]
    exact congrFun policy k

/-- The copy enters the team in the place of the member, and the team is well formed again. -/
theorem copy_enters {p r : Population} {c : Counters} {member : LearnerId} {learner : Learner}
    (holds : Holds t ⟨p, c⟩) (listed : member ∈ p.members t)
    (enlisted : p.learner? member = some learner)
    (ready : Ready ⟨c.learner⟩ t
      (decide ((p.members t).countP p.isAtomicAt = 1) && learner.isAtomic) r)
    (teams : r.containsTeam = p.containsTeam)
    (members : r.members = Function.update p.members t ((p.members t).erase member))
    (policy : ∀ k, k ≠ ⟨c.learner⟩ → r.policy? k = p.policy? k) :
    ∃ q, r.addLearner t ⟨c.learner⟩ = .ok q ∧ q.WellFormed t ∧
      q.members =
        Function.update p.members t ((p.members t).erase member ++ [⟨c.learner⟩]) ∧
      (∀ k, k ≠ ⟨c.learner⟩ → q.policy? k = p.policy? k) ∧
      q.target? ⟨c.learner⟩ ≠ some t := by
  obtain ⟨copy, enlisted'⟩ := ready.enlisted
  have new : ⟨c.learner⟩ ∉ r.members t := by
    intro hl
    have := ready.exact.member_iff.1 hl
    rw [Population.outline_teamsOf, ready.alone] at this
    exact List.not_mem_nil this
  obtain ⟨q, added⟩ :=
    Population.addLearner_ok ((congrFun teams t).trans holds.there) enlisted' new
  have members' : q.members =
      Function.update p.members t ((p.members t).erase member ++ [⟨c.learner⟩]) := by
    rw [Population.members_addLearner added, members, Function.update_idem, Function.update_self]
  have policy' : q.policy? = r.policy? :=
    congrArg Outline.policy? (Population.addLearner_outline added).2.2
  have others : ∀ k, k ≠ ⟨c.learner⟩ → q.policy? k = p.policy? k := fun k apart =>
    (congrFun policy' k).trans (policy k apart)
  have foreign : q.target? ⟨c.learner⟩ ≠ some t := by
    rw [Population.target?_congr (congrFun policy' _)]
    exact ready.foreign
  refine ⟨q, added, ?_, members', others, foreign⟩
  refine holds.wellFormed.replace listed ?_
    ((Population.exact_addLearner ready.exact added).nodup_members t) (fun k hk => ?_) foreign
    fun once atomic => ?_
  · rw [members', Function.update_self]
  · obtain ⟨-, other, there⟩ := Population.resolve_member holds.sound.exact hk
    have below := holds.sound.below.learner (Population.policy?_of_learner? there)
    refine others k ?_
    rintro rfl
    exact Nat.lt_irrefl _ below
  · rw [Population.isAtomicAt_of_learner? enlisted] at atomic
    refine (Population.isAtomicAt_congr (congrFun policy' _)).trans (ready.atomic ?_)
    simp [once, atomic]

/-- From here no round changes a copy that is about to enter the team. -/
def Waits (s : Settings) (t : TeamId) (pool : List TeamId) (stream : Stream) : Prop :=
  ∃ stock copy forceAtomic, Ready copy t forceAtomic stock.population ∧
    (varyLearner s stock copy t pool forceAtomic).run stream = .error .endless

section Loops

variable {old stock : Stock} {stalls : Stream → Prop}

/-- Deletion stops while there are rounds left, because every round but the
last takes a learner off the team. -/
theorem deleteLearners_safe (stuck : ∀ stream : Stream, stream.Stuck → stalls stream) (fuel : Nat)
    (probability : Float) {p : Population} {c : Counters}
    (reshaped : Reshaped t learnerPool old ⟨p, c⟩) (enough : (p.members t).length < fuel) :
    Safe stalls (deleteLearners s t fuel probability p)
      fun q => Reshaped t learnerPool old ⟨q, c⟩ := by
  induction fuel generalizing probability p with
  | zero => omega
  | succ fuel ih =>
    have exact := reshaped.sound.exact
    refine (chance_safe _).skip fun again => ?_
    split
    · exact Safe.pure reshaped
    obtain ⟨team, found⟩ := Population.containsTeam_iff.1 reshaped.there
    have listed := Population.members_of_team? found
    refine Safe.lift_bind (Population.getTeam_eq_ok.2 found) ?_
    split
    · exact Safe.pure reshaped
    case isFalse large =>
    rw [← listed] at large
    obtain ⟨candidates, run, spare⟩ := removable_ok exact reshaped.there
    refine Safe.lift_bind run ((choose_safe stuck _).bind fun victim chosen => ?_)
    cases victim with
    | none => exact Safe.pure reshaped
    | some victim =>
      obtain ⟨member, atomic⟩ := spare victim (chosen.1 victim rfl)
      obtain ⟨q, dropped⟩ := Population.dropLearner_ok exact member
      have smaller : (q.members t).length + 1 = (p.members t).length :=
        Population.length_members_dropLearner dropped
      refine Safe.lift_bind dropped (ih _ (reshaped.leave dropped ?_ atomic) ?_)
      · exact Nat.lt_of_not_le large
      · omega

/-- Addition stops while there are rounds left, because every round but the
last takes a candidate away. -/
theorem addLearners_safe (stuck : ∀ stream : Stream, stream.Stuck → stalls stream) (fuel : Nat)
    (probability : Float) {p : Population} {c : Counters}
    (reshaped : Reshaped t learnerPool old ⟨p, c⟩)
    (enough : (recruits p t (p.members t) learnerPool).length < fuel) :
    Safe stalls (addLearners s t learnerPool fuel probability p)
      fun q => Reshaped t learnerPool old ⟨q, c⟩ := by
  induction fuel generalizing probability p with
  | zero => omega
  | succ fuel ih =>
    refine (chance_safe _).skip fun again => ?_
    split
    · exact Safe.pure reshaped
    obtain ⟨team, found⟩ := Population.containsTeam_iff.1 reshaped.there
    refine Safe.lift_bind (Population.getTeam_eq_ok.2 found) ?_
    rw [← Population.members_of_team? found]
    dsimp only
    split
    · exact Safe.pure reshaped
    refine (choose_safe stuck _).bind fun recruit chosen => ?_
    cases recruit with
    | none => exact Safe.pure reshaped
    | some recruit =>
      have candidate := chosen.1 recruit rfl
      obtain ⟨listed, fit⟩ := List.mem_filter.1 candidate
      simp only [Bool.and_eq_true, Bool.not_eq_true', List.contains_eq_mem,
        decide_eq_false_iff_not, Option.any_eq_true, bne_iff_ne, ne_eq] at fit
      obtain ⟨new, learner, enlisted, foreign⟩ := fit
      obtain ⟨q, added⟩ := Population.addLearner_ok reshaped.there enlisted new
      refine Safe.lift_bind added (ih _ (reshaped.join added listed ?_) ?_)
      · rw [Population.target?_of_learner? enlisted]
        exact foreign
      · exact (recruits_lt added candidate).trans_le (Nat.le_of_lt_succ enough)

variable (waits : ∀ stream : Stream, Waits s t pool stream → stalls stream)
variable (valid : s.Valid)
include waits valid

/-- A changed copy takes the place of a member, and the rest of the team stays. -/
theorem replaceLearner_safe {member : LearnerId} (reshaped : Reshaped t learnerPool old stock)
    (listed : member ∈ stock.population.members t) :
    Safe stalls (replaceLearner s generation t pool stock member) fun made =>
      Reshaped t learnerPool old made ∧ ∀ l ∈ stock.population.members t, l ≠ member →
        l ∈ made.population.members t := by
  obtain ⟨p, c⟩ := stock
  have holds := reshaped.toHolds
  have exact := holds.sound.exact
  obtain ⟨-, learner, enlisted⟩ := Population.resolve_member exact listed
  have path : Yields (replaceLearner s generation t pool ⟨p, c⟩ member)
      (Path {} (fun _ => True) ⟨p, c⟩) :=
    replaceLearner_path (Nat.zero_le _) (fun _ _ => trivial) (fun _ _ => trivial)
      (Counters.zero_le c) member
  have made : Safe stalls (replaceLearner s generation t pool ⟨p, c⟩ member) fun made =>
      made.population.WellFormed t ∧
        made.population.members =
          Function.update p.members t ((p.members t).erase member ++ [⟨c.learner⟩]) ∧
        (∀ k, k ≠ ⟨c.learner⟩ → made.population.policy? k = p.policy? k) ∧
        made.population.target? ⟨c.learner⟩ ≠ some t := by
    refine Safe.lift_bind (Population.atomicCount_ok exact holds.there) ?_
    refine Safe.lift_bind (Population.getLearner_eq_ok.2 enlisted) ?_
    obtain ⟨q, dropped⟩ := Population.dropLearner_ok exact listed
    refine Safe.lift_bind dropped ?_
    have policyq : q.policy? member = p.policy? member :=
      congrFun (congrArg Outline.policy? (Population.dropLearner_outline dropped).2) member
    rw [Population.policy?_of_learner? enlisted] at policyq
    obtain ⟨learner', enlisted', -⟩ := Population.learner?_of_policy? policyq
    obtain ⟨r, cloned⟩ := Population.cloneLearner_ok
      (Population.exact_dropLearner exact dropped) enlisted' c generation
    refine Safe.lift_bind cloned ?_
    obtain ⟨ready, teams, members, fresh⟩ :=
      ready_of_clone holds listed enlisted dropped cloned
    refine ((varyLearner_faultless valid ready).safe fun stream run =>
      waits stream ⟨⟨r, _⟩, _, _, ready, run⟩).bind fun varied ⟨ready', tuned⟩ => ?_
    obtain ⟨q', added, entered⟩ := copy_enters holds listed enlisted ready'
      (tuned.teams.trans teams) (tuned.members.trans members) fun k apart =>
        (tuned.policy k apart).trans (fresh k apart)
    exact Safe.lift_bind added (Safe.pure entered)
  refine (made.and path).mono fun made ⟨⟨whole, members, policy, foreign⟩, path⟩ => ?_
  have there := (congrFun path.teams_eq t).trans holds.there
  refine ⟨reshaped.replace ⟨path.sound holds.sound, there, whole⟩ path.counters_le path.teams_eq
    members policy foreign, fun l hl apart => ?_⟩
  rw [members, Function.update_self]
  exact List.mem_append_left _ ((List.mem_erase_of_ne apart).2 hl)

/-- The learners that are still to come stay on the team while others are replaced. -/
theorem replaceLearners_safe {ls : List LearnerId} (nodup : ls.Nodup)
    (reshaped : Reshaped t learnerPool old stock)
    (listed : ∀ l ∈ ls, l ∈ stock.population.members t) :
    Safe stalls (replaceLearners s generation t pool ls stock) (Reshaped t learnerPool old) := by
  induction ls generalizing stock with
  | nil => exact Safe.pure reshaped
  | cons l rest ih =>
    obtain ⟨apart, nodup⟩ := List.nodup_cons.1 nodup
    obtain ⟨first, others⟩ := List.forall_mem_cons.1 listed
    refine (chance_safe _).skip fun replaces => ?_
    split
    · refine (replaceLearner_safe waits valid reshaped first).bind
        fun made ⟨reshaped', stay⟩ => ?_
      refine ih nodup reshaped' fun k hk => ?_
      exact stay k (others k hk) (ne_of_mem_of_not_mem hk apart)
    · exact ih nodup reshaped others

variable (stuck : ∀ stream : Stream, stream.Stuck → stalls stream)
include stuck

theorem teamPass_safe (reshaped : Reshaped t learnerPool old stock) :
    Safe stalls (teamPass s generation t learnerPool pool stock)
      (Reshaped t learnerPool old) := by
  obtain ⟨team, found⟩ := Population.containsTeam_iff.1 reshaped.there
  refine Safe.lift_bind (Population.getTeam_eq_ok.2 found) ?_
  rw [← Population.members_of_team? found]
  refine (deleteLearners_safe stuck _ _ reshaped (Nat.lt_succ_self _)).bind fun p fewer => ?_
  have enough : (recruits p t (p.members t) learnerPool).length < learnerPool.length + 1 :=
    Nat.lt_succ_of_le (List.length_filter_le _ _)
  refine (addLearners_safe stuck _ _ fewer enough).bind fun q more => ?_
  obtain ⟨team', found'⟩ := Population.containsTeam_iff.1 more.there
  refine Safe.lift_bind (Population.getTeam_eq_ok.2 found') ?_
  rw [← Population.members_of_team? found']
  exact replaceLearners_safe waits valid more.wellFormed.nodup more fun _ => id

theorem teamPasses_safe (n : Nat) (reshaped : Reshaped t learnerPool old stock) :
    Safe stalls (teamPasses s generation t learnerPool pool n stock)
      (Reshaped t learnerPool old) := by
  induction n generalizing stock with
  | zero => exact Safe.pure reshaped
  | succ n ih => exact (teamPass_safe waits valid stuck reshaped).bind fun _ passed => ih passed

/-- A well-formed team passes the assertion after any number of passes. -/
theorem varyTeam_safe (holds : Holds t stock) :
    Safe stalls (varyTeam s generation stock t learnerPool pool)
      (Reshaped t learnerPool stock) := by
  have repetitions : Safe stalls (s.mutation.repetitions generation) fun _ => True := by
    unfold MutationSettings.repetitions
    split
    case isTrue rampant =>
      simp only [MutationSettings.isRampant, Bool.and_eq_true, decide_eq_true_eq] at rampant
      exact (between_safe stuck (valid.rampant rampant.1.1)).mono fun _ _ => trivial
    case isFalse => exact Safe.pure trivial
  refine repetitions.skip fun n => ?_
  refine (teamPasses_safe waits valid stuck n (.refl holds)).bind fun made passed => ?_
  have asserted := Population.assertWellFormed_ok passed.sound.exact passed.there passed.wellFormed
  exact Safe.lift_bind asserted (Safe.pure passed)

end Loops

/-- What the variation of a team makes of a stock. -/
structure Varied (s : Settings) (t : TeamId) (learnerPool : List LearnerId)
    (teamPool : List TeamId) (old new : Stock) : Prop where
  sound : new.Sound
  wellFormed : new.population.WellFormed t
  teams : new.population.containsTeam = old.population.containsTeam
  /-- No other team has another list of learners. -/
  others : ∀ u, u ≠ t → new.population.members u = old.population.members u
  /-- Every learner that was there is there, with its program and its action. -/
  kept : ∀ {l policy}, old.population.policy? l = some policy →
    new.population.policy? l = some policy
  origin : ∀ l ∈ new.population.members t,
    l ∈ old.population.members t ∨ l ∈ learnerPool ∨ old.population.policy? l = none
  /-- A new learner leads to no team but one of the pool, or one that some old learner
  leads to, and never to the team itself. -/
  target : ∀ {l u}, old.population.policy? l = none → new.population.target? l = some u →
    u ≠ t ∧ (u ∈ teamPool ∨ ∃ k, old.population.target? k = some u)
  size : 0 < s.mutation.maxTeamSize → (new.population.members t).length ≤
    max s.mutation.maxTeamSize (old.population.members t).length

/-- What a path of growth and the limit on teams add to a reshaped team. -/
theorem Reshaped.varied {old new : Stock} (sound : old.Sound)
    (reshaped : Reshaped t learnerPool old new)
    (path : Path {} (fun action => ∀ u, action.target? = some u →
      u ∈ pool ∨ ∃ k, old.population.target? k = some u) old new)
    (size : 0 < s.mutation.maxTeamSize → (new.population.members t).length ≤
      max s.mutation.maxTeamSize (old.population.members t).length) :
    Varied s t learnerPool pool old new where
  sound := reshaped.sound
  wellFormed := reshaped.wellFormed
  teams := reshaped.teams
  others := reshaped.others
  kept hl := (reshaped.kept _ (sound.below.learner hl)).trans hl
  origin l hl := by
    obtain member | listed | new := reshaped.origin l hl
    · exact .inl member
    · exact .inr (.inl listed)
    · refine .inr (.inr (Option.eq_none_iff_forall_ne_some.2 fun policy there => ?_))
      exact Nat.not_lt.2 new (sound.below.learner there)
  target {l u} absent leads := by
    have new : old.counters.learner ≤ l.val := by
      by_contra before
      have policy := (reshaped.kept l (Nat.lt_of_not_le before)).trans absent
      rw [Population.target?_eq, Outline.target?_of_none policy] at leads
      cases leads
    refine ⟨?_, ?_⟩
    · rintro rfl
      exact reshaped.foreign l new leads
    · obtain ⟨learner, enlisted, target⟩ := Option.bind_eq_some_iff.1 leads
      refine path.allowed_of (fun {k program action} hk u aimed => .inr ⟨k, ?_⟩)
        (Population.policy?_of_learner? enlisted) u target
      rw [Population.target?_eq, Outline.target?_of_policy? hk, aimed]
  size := size

/-- Whatever the pools are and whatever is drawn, the variation of a well-formed team
gives a stock in which only what has to has changed, or it does not end. It does
not end only where a ranged draw refuses every word, or where a copy waits for a
change that no round makes. -/
theorem varyTeam_varies (accepted : s.validate = .ok ()) {stock : Stock} (sound : stock.Sound)
    (wellFormed : stock.population.WellFormed t) (learnerPool : List LearnerId)
    (teamPool : List TeamId) (generation : Nat) (stream : Stream) :
    (∃ new rest, (varyTeam s generation stock t learnerPool teamPool).run stream =
        .ok (new, rest) ∧ Varied s t learnerPool teamPool stock new) ∨
      (varyTeam s generation stock t learnerPool teamPool).run stream = .error .endless ∧
        ∃ later, stream.Before later ∧ (later.Stuck ∨ Waits s t teamPool later) := by
  have there : stock.population.containsTeam t = true := by
    obtain ⟨l, member, -⟩ := wellFormed.atomic
    exact Population.containsTeam_of_mem_members member
  have safe : Safe (fun later => later.Stuck ∨ Waits s t teamPool later)
      (varyTeam s generation stock t learnerPool teamPool) (Reshaped t learnerPool stock) :=
    varyTeam_safe (fun _ => .inr) (Settings.valid_of_validate accepted) (fun _ => .inl)
      ⟨sound, there, wellFormed⟩
  have grown : Yields (varyTeam s generation stock t learnerPool teamPool) fun new =>
      Path {} (fun action => ∀ u, action.target? = some u →
        u ∈ teamPool ∨ ∃ k, stock.population.target? k = some u) stock new ∧
      new.population.assertWellFormed t = .ok () := by
    refine varyTeam_path (Nat.zero_le _) (fun _ _ => nofun) ?_ (Counters.zero_le _)
    rintro u listed _ ⟨⟩
    exact .inl listed
  obtain ⟨new, rest, run, -, reshaped⟩ | endless := safe stream
  · have path := (grown stream new rest run).1
    refine .inl ⟨new, rest, run, reshaped.varied sound path fun limited => ?_⟩
    exact varyTeam_size limited (Nat.le_max_left _ _) (Nat.le_max_right _ _) _ _ _ run
  · exact .inr endless

/-- Two teams share a learner, the other learner of the first leads to the second, and
a learner that is on no team leads to the first. -/
def neighbours : List (Call × Stream) :=
  [.createTeam 0, .createTeam 0, .createLearner ⟨⟨0⟩, []⟩ (.atomic (.discrete 0)) 0,
    .createLearner ⟨⟨1⟩, []⟩ (.team ⟨1⟩) 0, .createLearner ⟨⟨2⟩, []⟩ (.atomic (.discrete 1)) 0,
    .createLearner ⟨⟨3⟩, []⟩ (.team ⟨0⟩) 0, .addLearner ⟨0⟩ ⟨0⟩, .addLearner ⟨0⟩ ⟨1⟩,
    .addLearner ⟨1⟩ ⟨0⟩, .addLearner ⟨1⟩ ⟨2⟩, .reserve 2 4 4].map
      fun call => (call, Stream.ofScript [])

def capped : Settings where
  mutation := { maxTeamSize := 3 }

/-- A variation of the first team takes in one learner of the other, up to its limit, and
replaces the one that leads there by a copy. The pools have unknown identities,
repetitions, a member, a learner that leads to the team, and the team itself. -/
def neighboursMade (stock : Stock) : Except Fault (Stock × Stream) :=
  (varyTeam capped 0 stock ⟨0⟩
    [⟨3⟩, ⟨2⟩, ⟨9⟩, ⟨2⟩, ⟨0⟩] [⟨0⟩, ⟨1⟩, ⟨7⟩]).run
    (.ofScript [0xFFFFFFFFFFFFFFFF, 0, 0, 0xFFFFFFFFFFFFFFFF, 0xFFFFFFFFFFFFFFFF, 0, 0])

theorem neighbours_varied : ∃ stock new rest, perform ⟨.empty, {}⟩ neighbours = .ok stock ∧
    neighboursMade stock = .ok (new, rest) ∧
    stock.population.members ⟨0⟩ = [⟨0⟩, ⟨1⟩] ∧ new.population.members ⟨0⟩ = [⟨0⟩, ⟨2⟩, ⟨8⟩] ∧
    new.population.target? ⟨8⟩ = some ⟨1⟩ ∧
    Varied capped ⟨0⟩ [⟨3⟩, ⟨2⟩, ⟨9⟩, ⟨2⟩, ⟨0⟩] [⟨0⟩, ⟨1⟩, ⟨7⟩] stock new := by
  have run : (do
      let stock ← perform ⟨.empty, {}⟩ neighbours
      stock.population.assertWellFormed ⟨0⟩
      let made ← neighboursMade stock
      pure (stock.population.members ⟨0⟩, made.1.population.members ⟨0⟩,
        made.1.population.target? ⟨8⟩)) =
      .ok ([⟨0⟩, ⟨1⟩], [⟨0⟩, ⟨2⟩, ⟨8⟩], some ⟨1⟩) := by
    decide +kernel
  simp only [bind_eq_ok, pure_eq_ok, Prod.mk.injEq] at run
  obtain ⟨stock, made, ⟨⟩, whole, ⟨new, rest⟩, varied, before, after, aimed⟩ := run
  refine ⟨stock, new, rest, made, varied, before, after, aimed, ?_⟩
  have accepted : capped.validate = .ok () := ok_of_toOption (by decide +kernel)
  obtain ⟨new', rest', same, result⟩ | ⟨endless, -⟩ :=
    varyTeam_varies accepted (perform_sound sound_empty made)
      (Population.wellFormed_of_assert whole) [⟨3⟩, ⟨2⟩, ⟨9⟩, ⟨2⟩, ⟨0⟩] [⟨0⟩, ⟨1⟩, ⟨7⟩] 0
      (.ofScript [0xFFFFFFFFFFFFFFFF, 0, 0, 0xFFFFFFFFFFFFFFFF, 0xFFFFFFFFFFFFFFFF, 0, 0])
  · obtain ⟨rfl, -⟩ := Prod.mk.inj (Except.ok.inj (same.symm.trans varied))
    exact result
  · cases endless.symm.trans varied

end Teams

end Stock

end TangledGraph
