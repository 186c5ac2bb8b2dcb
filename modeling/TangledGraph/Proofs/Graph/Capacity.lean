import TangledGraph.Proofs.Graph.Variation

/-!
# Sizes of teams

Only the addition of learners looks at the limit on the size of a team. Deletion
makes a team smaller, and a replacement takes a learner off for every copy that it
adds. So a team that is varied ends within the limit, or no larger than it was.
-/
namespace TangledGraph

open Draw

namespace Population

variable {p q : Population} {t : TeamId} {l : LearnerId}

theorem members_createTeam_self (p : Population) (c : Counters) (generation : Nat) :
    (p.createTeam c generation).2.1.members ⟨c.team⟩ = [] :=
  (congrFun (congrArg Outline.members (createTeam_outline p c generation)) _).trans
    (Function.update_self ..)

theorem members_addLearner (run : p.addLearner t l = .ok q) :
    q.members = Function.update p.members t (p.members t ++ [l]) :=
  congrArg Outline.members (addLearner_outline run).2.2

theorem members_dropLearner (run : p.dropLearner t l = .ok q) :
    q.members = Function.update p.members t ((p.members t).erase l) :=
  congrArg Outline.members (dropLearner_outline run).2

theorem length_members_addLearner (run : p.addLearner t l = .ok q) :
    (q.members t).length = (p.members t).length + 1 := by
  rw [members_addLearner run, Function.update_self, List.length_append, List.length_singleton]

theorem length_members_dropLearner (run : p.dropLearner t l = .ok q) :
    (q.members t).length + 1 = (p.members t).length := by
  have member : l ∈ p.members t := (dropLearner_outline run).1
  rw [members_dropLearner run, Function.update_self, List.length_erase_add_one member]

/-- All listed learners enter the team. -/
theorem length_members_joinAll {ls : List LearnerId}
    (run : ls.foldlM (fun p l => p.addLearner t l) p = .ok q) :
    (q.members t).length = (p.members t).length + ls.length := by
  induction ls generalizing p with
  | nil =>
    simp only [List.foldlM_nil, pure_eq_ok] at run
    simp [run]
  | cons l ls ih =>
    simp only [List.foldlM_cons, bind_eq_ok] at run
    obtain ⟨r, added, run⟩ := run
    rw [ih run, length_members_addLearner added, List.length_cons]
    omega

/-- No team has more learners than the bound. -/
def Sized (bound : Nat) (p : Population) : Prop := ∀ t, (p.members t).length ≤ bound

variable {bound : Nat}

theorem sized_empty (bound : Nat) : Sized bound .empty := by
  intro t
  have nowhere : Population.empty.team? t = none := by simp [Population.empty, team?]
  simp [members, nowhere]

theorem Sized.congr (h : p.Sized bound) (same : q.outline = p.outline) : q.Sized bound := by
  intro t
  have members : q.members t = p.members t := congrFun (congrArg Outline.members same) t
  exact members ▸ h t

theorem Sized.of_partOf (h : p.Sized bound) (part : q.outline.PartOf p.outline) :
    q.Sized bound := by
  intro t
  by_cases there : q.containsTeam t = true
  · have same : p.members t = q.members t := part.members there
    exact same ▸ h t
  · have absent : q.members t = [] := members_eq_nil (by simpa using there)
    simp [absent]

theorem Sized.createTeam (h : p.Sized bound) (c : Counters) (generation : Nat) :
    (p.createTeam c generation).2.1.Sized bound := by
  intro t
  have members := congrFun (congrArg Outline.members (createTeam_outline p c generation)) t
  rw [outline_members] at members
  rw [members]
  simp only [Outline.found, Function.update_apply]
  split
  · exact Nat.zero_le bound
  · exact h t

end Population

namespace Stock

variable {s : Settings} {generation : Nat} {bound : Nat}

/-- A new team within the bound is the only one that may be beyond it. -/
theorem Path.sized_of_found {allowed : Action → Prop} {stock next : Stock} (sound : stock.Sound)
    (sized : stock.population.Sized bound)
    (path : Path stock.counters allowed
      ⟨(stock.population.createTeam stock.counters generation).2.1,
        (stock.population.createTeam stock.counters generation).2.2⟩ next)
    (child : (next.population.members ⟨stock.counters.team⟩).length ≤ bound) :
    next.population.Sized bound := by
  intro t
  by_cases there : next.population.containsTeam t = true
  · obtain rfl | old := path.team_of_found sound there
    · exact child
    · rw [path.members_eq (sound.below.team old)]
      exact sized.createTeam stock.counters generation t
  · have absent : next.population.members t = [] :=
      Population.members_eq_nil (by simpa using there)
    simp [absent]

section Teams

variable {t : TeamId} {pool : List TeamId} {learnerPool : List LearnerId}

theorem deleteLearners_size (fuel : Nat) (probability : Float) (p : Population) :
    Yields (deleteLearners s t fuel probability p) fun q =>
      (q.members t).length ≤ (p.members t).length := by
  refine deleteLearners_induction (fun q => (q.members t).length ≤ (p.members t).length)
    (fun {q r l} before run => ?_) fuel probability le_rfl
  have smaller := Population.length_members_dropLearner run
  omega

/-- Learners are added below the limit only. -/
theorem addLearners_size (limited : 0 < s.mutation.maxTeamSize)
    (within : s.mutation.maxTeamSize ≤ bound) (fuel : Nat) (probability : Float)
    {p : Population} (sized : (p.members t).length ≤ bound) :
    Yields (addLearners s t learnerPool fuel probability p) fun q =>
      (q.members t).length ≤ bound := by
  refine addLearners_induction (fun q => (q.members t).length ≤ bound)
    (fun {q r team l} before found below run => ?_) fuel probability sized
  have larger := Population.length_members_addLearner run
  have room : (q.members t).length < s.mutation.maxTeamSize := by
    rw [Population.members_of_team? found]
    exact Nat.lt_of_not_le fun full => below ⟨limited, full⟩
  omega

/-- The variation of a learner changes no list of learners. -/
theorem varyLearner_members {l : LearnerId} {parent : TeamId} {forceAtomic : Bool}
    (stock : Stock) (t : TeamId) :
    Yields (varyLearner s stock l parent pool forceAtomic) fun varied =>
      varied.population.members t = stock.population.members t := by
  have path : Yields (varyLearner s stock l parent pool forceAtomic)
      (Path ⟨t.val + 1, 0, 0⟩ (fun _ => True) stock) :=
    varyLearner_path (Nat.zero_le _) (fun _ _ => trivial) (fun _ _ => trivial) stock
  exact path.mono fun varied steps => steps.members_eq (Nat.lt_succ_self t.val)

/-- The copy takes the place of the learner. -/
theorem replaceLearner_size (stock : Stock) (member : LearnerId) :
    Yields (replaceLearner s generation t pool stock member) fun next =>
      (next.population.members t).length = (stock.population.members t).length := by
  refine Yields.lift_bind fun atomics _ => Yields.lift_bind fun _ _ => ?_
  refine Yields.lift_bind fun p dropped => Yields.lift_bind fun ⟨copy, q, counters⟩ cloned => ?_
  refine (varyLearner_members ⟨q, counters⟩ t).bind fun varied same => ?_
  refine Yields.lift_bind fun r added => Yields.pure ?_
  have smaller := Population.length_members_dropLearner dropped
  have larger := Population.length_members_addLearner added
  have copied : q.members t = p.members t := by
    obtain ⟨original, -, created⟩ := Population.cloneLearner_eq_ok.1 cloned
    exact congrFun (congrArg Outline.members (Population.createLearner_outline created).2.2.2) t
  rw [same, copied] at larger
  exact larger.trans smaller

theorem replaceLearners_size (ls : List LearnerId) (stock : Stock) :
    Yields (replaceLearners s generation t pool ls stock) fun next =>
      (next.population.members t).length = (stock.population.members t).length := by
  induction ls generalizing stock with
  | nil => exact Yields.pure rfl
  | cons l rest ih =>
    refine Yields.skip fun replaces => ?_
    split
    · refine (replaceLearner_size stock l).bind fun next first => ?_
      exact (ih next).mono fun _ others => others.trans first
    · exact ih stock

section Limit

variable (limited : 0 < s.mutation.maxTeamSize) (within : s.mutation.maxTeamSize ≤ bound)
include limited within

theorem teamPass_size {stock : Stock} (sized : (stock.population.members t).length ≤ bound) :
    Yields (teamPass s generation t learnerPool pool stock) fun next =>
      (next.population.members t).length ≤ bound := by
  refine Yields.lift_bind fun team _ => ?_
  refine (deleteLearners_size _ _ _).bind fun p fewer => ?_
  refine (addLearners_size limited within _ _ (fewer.trans sized)).bind fun q added => ?_
  refine Yields.lift_bind fun team _ => ?_
  exact (replaceLearners_size team.learners _).mono fun next same => same.trans_le added

theorem teamPasses_size (n : Nat) {stock : Stock}
    (sized : (stock.population.members t).length ≤ bound) :
    Yields (teamPasses s generation t learnerPool pool n stock) fun next =>
      (next.population.members t).length ≤ bound := by
  induction n generalizing stock with
  | zero => exact Yields.pure sized
  | succ n ih => exact (teamPass_size limited within sized).bind fun next => ih

theorem varyTeam_size {stock : Stock} (sized : (stock.population.members t).length ≤ bound) :
    Yields (varyTeam s generation stock t learnerPool pool) fun next =>
      (next.population.members t).length ≤ bound := by
  refine Yields.skip fun repetitions => ?_
  refine (teamPasses_size limited within repetitions sized).bind fun next within => ?_
  exact Yields.lift_bind fun _ _ => Yields.pure within

end Limit

end Teams

end Stock

end TangledGraph
