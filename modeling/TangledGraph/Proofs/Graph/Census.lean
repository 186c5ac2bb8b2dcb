import Mathlib.Data.List.Nodup
import TangledGraph.Proofs.Graph.Dissolution
import TangledGraph.Proofs.Graph.Growth

/-!
# How many teams and learners there are

A population is counted by its identities. A deletion takes away the team and the
learners that it names; growth adds a team or a learner for each identity that it
hands out, and nothing else. So the numbers after any edits follow from the counters
and from what was deleted, however learners are shared.
-/
namespace TangledGraph

namespace Population

variable {p q : Population} {t : TeamId} {l : LearnerId}

theorem mem_learnerIds : l ∈ p.learnerIds ↔ p.containsLearner l = true :=
  Std.ExtTreeMap.mem_keys

theorem teamCount_eq_length_teamIds (p : Population) : p.teamCount = p.teamIds.length :=
  Std.ExtTreeMap.length_keys.symm

theorem learnerCount_eq_length_learnerIds (p : Population) :
    p.learnerCount = p.learnerIds.length :=
  Std.ExtTreeMap.length_keys.symm

/-- A list of all learners, each once, is as long as there are learners. -/
theorem learnerCount_eq_length {ls : List LearnerId} (nodup : ls.Nodup)
    (all : ∀ l, l ∈ ls ↔ p.containsLearner l = true) : p.learnerCount = ls.length := by
  have perm : p.learnerIds.Perm ls :=
    (List.perm_ext_iff_of_nodup Std.ExtTreeMap.nodup_keys nodup).2 fun l =>
      mem_learnerIds.trans (all l).symm
  rw [← perm.length_eq, learnerCount_eq_length_learnerIds]

/-- The roots are the teams without references. -/
theorem rootCount_eq_length_filter (p : Population) :
    p.rootCount = (p.teamIds.filter fun t => p.references t = []).length := by
  have nodup : (p.teamIds.filter fun t => p.references t = []).Nodup :=
    Std.ExtTreeMap.nodup_keys.filter _
  refine ((List.perm_ext_iff_of_nodup p.nodup_roots nodup).2 fun t => ?_).length_eq
  rw [mem_roots, List.mem_filter, mem_teamIds, decide_eq_true_iff]

theorem teamCount_congr (same : q.containsTeam = p.containsTeam) : q.teamCount = p.teamCount := by
  rw [teamCount_eq_length_teamIds p]
  exact teamCount_eq_length Std.ExtTreeMap.nodup_keys fun t =>
    mem_teamIds.trans (by rw [same])

theorem learnerCount_congr (same : q.containsLearner = p.containsLearner) :
    q.learnerCount = p.learnerCount := by
  rw [learnerCount_eq_length_learnerIds p]
  exact learnerCount_eq_length Std.ExtTreeMap.nodup_keys fun l =>
    mem_learnerIds.trans (by rw [same])

/-- The teams that are left and those that are gone are all that there were. -/
theorem teamCount_eq_add (part : ∀ t, q.containsTeam t = true → p.containsTeam t = true) :
    p.teamCount = q.teamCount + (p.teamIds.filter fun t => !q.containsTeam t).length := by
  have left : q.teamCount = (p.teamIds.filter q.containsTeam).length :=
    teamCount_eq_length (Std.ExtTreeMap.nodup_keys.filter _) fun t => by
      rw [List.mem_filter, mem_teamIds]
      exact and_iff_right_of_imp (part t)
  rw [left, teamCount_eq_length_teamIds]
  exact List.length_eq_length_filter_add q.containsTeam

/-- The learners that are left and those that are gone are all that there were. -/
theorem learnerCount_eq_add
    (part : ∀ l, q.containsLearner l = true → p.containsLearner l = true) :
    p.learnerCount =
      q.learnerCount + (p.learnerIds.filter fun l => !q.containsLearner l).length := by
  have left : q.learnerCount = (p.learnerIds.filter q.containsLearner).length :=
    learnerCount_eq_length (Std.ExtTreeMap.nodup_keys.filter _) fun l => by
      rw [List.mem_filter, mem_learnerIds]
      exact and_iff_right_of_imp (part l)
  rw [left, learnerCount_eq_length_learnerIds]
  exact List.length_eq_length_filter_add q.containsLearner

/-- Without some listed learners there are as many fewer. -/
theorem learnerCount_of_gone {gone : List LearnerId} (nodup : gone.Nodup)
    (there : ∀ l ∈ gone, p.containsLearner l = true)
    (left : ∀ l, q.containsLearner l = true ↔ p.containsLearner l = true ∧ l ∉ gone) :
    p.learnerCount = q.learnerCount + gone.length := by
  rw [learnerCount_eq_length_learnerIds q, ← List.length_append]
  refine learnerCount_eq_length ?_ fun l => ?_
  · refine List.nodup_append.2 ⟨Std.ExtTreeMap.nodup_keys, nodup, fun l stays k goes same => ?_⟩
    exact ((left l).1 (mem_learnerIds.1 stays)).2 (same ▸ goes)
  · rw [List.mem_append, mem_learnerIds, left]
    by_cases goes : l ∈ gone
    · simp [goes, there l goes]
    · simp [goes]

theorem found_of_deleteTeam {deleted : List LearnerId} (run : p.deleteTeam t = .ok (deleted, q)) :
    ∃ team, p.team? t = some team := by
  obtain ⟨team, -, found, -⟩ := deleteTeam_eq_ok.1 run
  exact ⟨team, found⟩

/-- The deletion of a root takes away one team and the learners that it gives. -/
theorem deleteTeam_census {deleted : List LearnerId} (exact : p.outline.Exact)
    (run : p.deleteTeam t = .ok (deleted, q)) :
    p.teamCount = q.teamCount + 1 ∧ p.learnerCount = q.learnerCount + deleted.length := by
  obtain ⟨-, -, teams, -⟩ := deleteTeam_outline exact run
  obtain ⟨team, found⟩ := found_of_deleteTeam run
  obtain ⟨rfl, dissolved⟩ := deleteTeam_records exact found run
  have there : ∀ l ∈ team.learners, p.containsLearner l = true := by
    intro l member
    rw [← members_of_team? found] at member
    exact containsLearner_iff.2 (resolve_member exact member).2
  constructor
  · rw [teamCount_eq_length_teamIds q]
    refine @teamCount_eq_length p (t :: q.teamIds) ?_ fun u => ?_
    · refine List.nodup_cons.2 ⟨fun stays => ?_, Std.ExtTreeMap.nodup_keys⟩
      rw [mem_teamIds, teams, Function.update_self] at stays
      cases stays
    · rw [List.mem_cons, mem_teamIds, teams, Function.update_apply]
      by_cases same : u = t
      · simp [same, containsTeam_of_team? found]
      · simp [same]
  · have nodup : team.learners.Nodup := members_of_team? found ▸ exact.nodup_members t
    refine learnerCount_of_gone (nodup.filter _)
      (fun l goes => there l (List.mem_of_mem_filter goes)) fun l => ?_
    rw [containsLearner_iff, containsLearner_iff, dissolved.learners]
    split
    case isTrue goes => simp [goes]
    case isFalse stays => simp [stays]

/-- Pruning takes away the learners that it gives, and no team. -/
theorem pruneOrphans_census {orphans : List LearnerId} (exact : p.outline.Exact)
    (run : p.pruneOrphans = .ok (orphans, q)) :
    q.teamCount = p.teamCount ∧ p.learnerCount = q.learnerCount + orphans.length := by
  obtain ⟨-, teams, -, -, policy⟩ := pruneOrphans_outline exact run
  obtain rfl : p.orphans = orphans := by
    simp only [pruneOrphans, bind_eq_ok, pure_eq_ok, Prod.mk.injEq] at run
    obtain ⟨_, -, eq, -⟩ := run
    exact eq
  have there : ∀ l ∈ p.orphans, p.containsLearner l = true := by
    intro l orphan
    obtain ⟨⟨program, action, enlisted⟩, -⟩ := mem_orphans.1 orphan
    rw [containsLearner_eq, enlisted, Option.isSome_some]
  refine ⟨teamCount_congr teams, learnerCount_of_gone ?_ there fun l => ?_⟩
  · have ids : (p.learnerList.map Prod.fst).Nodup := by
      rw [learnerList, Std.ExtTreeMap.map_fst_toList_eq_keys]
      exact Std.ExtTreeMap.nodup_keys
    exact (List.filter_sublist.map Prod.fst).nodup ids
  · rw [containsLearner_eq, containsLearner_eq, policy]
    split
    case isTrue alone =>
      simp only [Option.isSome_none, Bool.false_eq_true, false_iff, not_and, not_not]
      intro enlisted
      obtain ⟨⟨program, action⟩, enlisted⟩ := Option.isSome_iff_exists.1 enlisted
      exact mem_orphans.2 ⟨⟨program, action, enlisted⟩, alone⟩
    case isFalse employed =>
      exact (and_iff_left fun orphan => employed (mem_orphans.1 orphan).2).symm

/-- A learner that gets a policy is there. -/
theorem containsLearner_of_policy? {policy : Program × Action}
    (eq : q.policy? = Function.update p.policy? l (some policy)) :
    q.containsLearner = Function.update p.containsLearner l true := by
  funext k
  rw [containsLearner_eq, eq, Function.update_apply, Function.update_apply, containsLearner_eq]
  split <;> rfl

/-- If it was there before, no other learner is. -/
theorem containsLearner_of_policy?_of_mem {policy : Program × Action}
    (there : p.containsLearner l = true)
    (eq : q.policy? = Function.update p.policy? l (some policy)) :
    q.containsLearner = p.containsLearner := by
  rw [containsLearner_of_policy? eq, ← there, Function.update_eq_self]

theorem containsLearner_createLearner {c d : Counters} {program : Program} {action : Action}
    {generation : Nat} (run : p.createLearner c program action generation = .ok (l, q, d)) :
    q.containsLearner = Function.update p.containsLearner l true := by
  obtain ⟨-, -, -, eq⟩ := createLearner_outline run
  exact containsLearner_of_policy? (congrArg Outline.policy? eq)

theorem containsLearner_setProgram {learner : Learner} (enlisted : p.learner? l = some learner)
    (program : Program) :
    (p.setLearner l { learner with program }).containsLearner = p.containsLearner :=
  containsLearner_of_policy?_of_mem (containsLearner_iff.2 ⟨learner, enlisted⟩)
    (congrArg Outline.policy? (setProgram_outline enlisted program))

theorem containsLearner_setAction {action : Action} (run : p.setAction l action = .ok q) :
    q.containsLearner = p.containsLearner := by
  obtain ⟨program, old, enlisted, -, eq⟩ := setAction_outline run
  have there : p.containsLearner l = true := by
    rw [containsLearner_eq, enlisted, Option.isSome_some]
  exact containsLearner_of_policy?_of_mem there (congrArg Outline.policy? eq)

end Population

/-- Identities that were handed out one after another are as many as their range. -/
theorem length_of_handed {α : Type} {before now : List α} {first last : Nat} (rank : α → Nat)
    (mk : Nat → α) (rank_mk : ∀ n, rank (mk n) = n) (mk_rank : ∀ a, mk (rank a) = a)
    (nodup : before.Nodup) (nodup' : now.Nodup) (old : ∀ a ∈ before, rank a < first)
    (all : ∀ a, a ∈ now ↔ a ∈ before ∨ first ≤ rank a ∧ rank a < last) :
    now.length = before.length + (last - first) := by
  have mem_new {a : α} : a ∈ (List.range' first (last - first)).map mk ↔
      first ≤ rank a ∧ rank a < last := by
    rw [List.mem_map]
    constructor
    · rintro ⟨n, range, rfl⟩
      have := List.mem_range'_1.1 range
      rw [rank_mk]
      omega
    · exact fun range => ⟨rank a, List.mem_range'_1.2 (by omega), mk_rank a⟩
  have nodup'' : (before ++ (List.range' first (last - first)).map mk).Nodup := by
    refine List.nodup_append.2 ⟨nodup, ?_, fun a there b new same => ?_⟩
    · refine List.Nodup.map (fun m n same => ?_) List.nodup_range'
      rw [← rank_mk m, same, rank_mk]
    · exact absurd (old a there) (Nat.not_lt.2 (same ▸ (mem_new.1 new).1))
  have perm : now.Perm (before ++ (List.range' first (last - first)).map mk) :=
    (List.perm_ext_iff_of_nodup nodup' nodup'').2 fun a => by
      rw [all, List.mem_append, mem_new]
  rw [perm.length_eq, List.length_append, List.length_map, List.length_range']

namespace Stock

variable {base : Counters} {allowed : Action → Prop} {old now next : Stock}

/-- The teams and learners of a stock are those of an earlier one and those whose
identities were handed out since. -/
structure Adds (old now : Stock) : Prop where
  counters_le : old.counters ≤ now.counters
  team : ∀ t, now.population.containsTeam t = true ↔
    old.population.containsTeam t = true ∨
      old.counters.team ≤ t.val ∧ t.val < now.counters.team
  learner : ∀ l, now.population.containsLearner l = true ↔
    old.population.containsLearner l = true ∨
      old.counters.learner ≤ l.val ∧ l.val < now.counters.learner

namespace Adds

theorem refl (s : Stock) : Adds s s := by
  refine ⟨le_rfl, fun t => ?_, fun l => ?_⟩ <;>
    exact (or_iff_left fun range => absurd (range.1.trans_lt range.2) (lt_irrefl _)).symm

theorem trans (h : Adds old now) (h' : Adds now next) : Adds old next := by
  have le := h.counters_le
  have le' := h'.counters_le
  rw [Counters.le_def] at le le'
  refine ⟨h.counters_le.trans h'.counters_le, fun t => ?_, fun l => ?_⟩
  · rw [h'.team, h.team, or_assoc]
    exact or_congr_right (by omega)
  · rw [h'.learner, h.learner, or_assoc]
    exact or_congr_right (by omega)

/-- Nothing is added where no identity is handed out. -/
theorem of_same (le : now.counters ≤ next.counters)
    (team : next.counters.team = now.counters.team)
    (learner : next.counters.learner = now.counters.learner)
    (teams : next.population.containsTeam = now.population.containsTeam)
    (learners : next.population.containsLearner = now.population.containsLearner) :
    Adds now next := by
  refine ⟨le, fun t => ?_, fun l => ?_⟩
  · rw [teams, team]
    exact (or_iff_left (by omega)).symm
  · rw [learners, learner]
    exact (or_iff_left (by omega)).symm

/-- A step of variation makes a learner at most, which has the next identity. -/
theorem of_step (h : Step base allowed now next) : Adds now next := by
  have le := h.counters_le
  have teams := h.teams_eq
  cases h with
  | enlist code known run =>
    have learners := Population.containsLearner_createLearner run
    obtain ⟨rfl, rfl, -⟩ := Population.createLearner_outline run
    refine ⟨le, fun t => ?_, fun k => ?_⟩
    · rw [teams]
      simp only [Program.create, Counters.newProgram]
      exact (or_iff_left (by omega)).symm
    · rw [learners, Function.update_apply]
      split
      case isTrue same => simp [same, Program.create, Counters.newProgram]
      case isFalse other =>
        refine (or_iff_left fun range => other ?_).symm
        exact congrArg LearnerId.mk (Nat.le_antisymm (Nat.lt_succ_iff.1 range.2) range.1)
  | join new run =>
    have eq := (Population.addLearner_outline run).2.2
    exact of_same le rfl rfl teams (Population.containsLearner_congr (congrArg Outline.policy? eq))
  | leave new run =>
    have eq := (Population.dropLearner_outline run).2
    exact of_same le rfl rfl teams (Population.containsLearner_congr (congrArg Outline.policy? eq))
  | teach new enlisted code =>
    exact of_same le rfl rfl teams (Population.containsLearner_setProgram enlisted _)
  | aim new ok run => exact of_same le rfl rfl teams (Population.containsLearner_setAction run)

theorem of_path (h : Path base allowed now next) : Adds now next := by
  induction h with
  | refl => exact refl _
  | tail _ step ih => exact ih.trans (of_step step)

/-- A new team has the next identity. -/
theorem of_found (s : Stock) (generation : Nat) :
    Adds s ⟨(s.population.createTeam s.counters generation).2.1,
      (s.population.createTeam s.counters generation).2.2⟩ := by
  have eq := Population.createTeam_outline s.population s.counters generation
  have teams : (s.population.createTeam s.counters generation).2.1.containsTeam =
      Function.update s.population.containsTeam ⟨s.counters.team⟩ true :=
    congrArg Outline.teams eq
  have learners := Population.containsLearner_congr (congrArg Outline.policy? eq)
  refine ⟨by simp [Population.createTeam, Counters.newTeam, Counters.le_def], fun t => ?_,
    fun l => ?_⟩
  · rw [teams, Function.update_apply]
    simp only [Population.createTeam, Counters.newTeam]
    split
    case isTrue same => simp [same]
    case isFalse other =>
      refine (or_iff_left fun range => other ?_).symm
      exact congrArg TeamId.mk (Nat.le_antisymm (Nat.lt_succ_iff.1 range.2) range.1)
  · rw [learners]
    exact (or_iff_left (by simp [Population.createTeam, Counters.newTeam])).symm

section Counts

variable (h : Adds old now) (below : old.population.outline.Below old.counters)
include h below

theorem teamCount : now.population.teamCount =
    old.population.teamCount + (now.counters.team - old.counters.team) := by
  rw [Population.teamCount_eq_length_teamIds, Population.teamCount_eq_length_teamIds]
  refine length_of_handed TeamId.val TeamId.mk (fun _ => rfl) (fun _ => rfl)
    Std.ExtTreeMap.nodup_keys Std.ExtTreeMap.nodup_keys (fun t before => ?_) fun t => ?_
  · exact below.team (Population.mem_teamIds.1 before)
  · exact (Population.mem_teamIds.trans (h.team t)).trans
      (or_congr_left Population.mem_teamIds.symm)

theorem learnerCount : now.population.learnerCount =
    old.population.learnerCount + (now.counters.learner - old.counters.learner) := by
  rw [Population.learnerCount_eq_length_learnerIds, Population.learnerCount_eq_length_learnerIds]
  refine length_of_handed LearnerId.val LearnerId.mk (fun _ => rfl) (fun _ => rfl)
    Std.ExtTreeMap.nodup_keys Std.ExtTreeMap.nodup_keys (fun l before => ?_) fun l => ?_
  · rw [Population.mem_learnerIds, Population.containsLearner_eq] at before
    obtain ⟨policy, enlisted⟩ := Option.isSome_iff_exists.1 before
    exact below.learner enlisted
  · exact (Population.mem_learnerIds.trans (h.learner l)).trans
      (or_congr_left Population.mem_learnerIds.symm)

end Counts

end Adds

end Stock

end TangledGraph
