import TangledGraph.Proofs.Graph.History
import TangledGraph.Proofs.Graph.Progress
import TangledGraph.Proofs.Graph.Roots

/-!
# Populations that are restored

What is restored was audited, and an audit looks at whether something is on
record, not at how often. So nothing is lost and every record counts once exactly
if nothing was repeated: of teams or learners with one identity only the last is
left, and of a reference that is on record twice one outlives the action.
-/
namespace TangledGraph

open Std

section Maps

variable {α β : Type} [Ord α] [TransOrd α] [LawfulEqOrd α]

/-- What is found in a map was listed. -/
theorem mem_of_ofList_getElem? {pairs : List (α × β)} {k : α} {v : β}
    (found : (ExtTreeMap.ofList pairs compare)[k]? = some v) : (k, v) ∈ pairs := by
  have listed (m : ExtTreeMap α β) :
      (pairs.foldl (fun m pair => m.insert pair.1 pair.2) m)[k]? = some v →
        (k, v) ∈ pairs ∨ m[k]? = some v := by
    clear found
    induction pairs generalizing m with
    | nil => exact .inr
    | cons pair pairs ih =>
      intro found
      obtain listed | before := ih _ found
      · exact .inl (List.mem_cons_of_mem pair listed)
      · rw [ExtTreeMap.getElem?_insert] at before
        split at before
        case isTrue same =>
          obtain rfl := LawfulEqCmp.compare_eq_iff_eq.1 same
          exact .inl (Option.some.inj before ▸ List.mem_cons_self)
        case isFalse => exact .inr before
  rw [ExtTreeMap.ofList_eq_foldl] at found
  exact (listed {} found).resolve_right (by simp)

theorem ofList_getElem?_of_mem {pairs : List (α × β)} (nodup : (pairs.map Prod.fst).Nodup)
    {k : α} {v : β} (listed : (k, v) ∈ pairs) :
    (ExtTreeMap.ofList pairs compare)[k]? = some v := by
  refine ExtTreeMap.getElem?_ofList_of_mem ReflCmp.compare_self ?_ listed
  refine (List.pairwise_map.1 nodup).imp fun {a b} apart same => ?_
  exact apart (LawfulEqCmp.compare_eq_iff_eq.1 same)

/-- A map has all that was listed exactly if no key was listed twice. -/
theorem toList_ofList_perm_iff [DecidableEq α] {pairs : List (α × β)} :
    (ExtTreeMap.ofList pairs compare).toList.Perm pairs ↔ (pairs.map Prod.fst).Nodup := by
  have distinct (m : ExtTreeMap α β) : (m.toList.map Prod.fst).Nodup := by
    rw [ExtTreeMap.map_fst_toList_eq_keys]
    exact ExtTreeMap.nodup_keys
  constructor
  · intro perm
    exact (perm.map Prod.fst).nodup_iff.1 (distinct _)
  · intro nodup
    refine (List.perm_ext_iff_of_nodup (distinct _).of_map nodup.of_map).2 fun (k, v) => ?_
    rw [ExtTreeMap.mem_toList_iff_getElem?_eq_some]
    exact ⟨mem_of_ofList_getElem?, ofList_getElem?_of_mem nodup⟩

end Maps

/-- If nothing comes of a list, nothing comes of any of its elements. -/
theorem mapM_eq_nil {α β : Type} {f : α → Except Fault (List β)} {xs : List α}
    {results : List (List β)} (run : xs.mapM f = .ok results) (none : results.flatten = []) :
    ∀ a ∈ xs, f a = .ok [] := by
  induction xs generalizing results with
  | nil => simp
  | cons a xs ih =>
    simp only [List.mapM_cons, bind_eq_ok, pure_eq_ok] at run
    obtain ⟨first, here, others, rest, rfl⟩ := run
    obtain ⟨rfl, none⟩ := List.append_eq_nil_iff.1 none
    exact List.forall_mem_cons.2 ⟨here, ih rest none⟩

namespace Population

variable {teams : List (TeamId × Team)} {learners : List (LearnerId × Learner)}
  {p : Population} {t : TeamId} {l : LearnerId}

theorem wellFormed_of_problems (run : p.teamProblems t = .ok []) : p.WellFormed t := by
  refine wellFormed_of_assert ?_
  simp only [assertWellFormed, bind_eq_ok]
  exact ⟨[], run, rfl⟩

theorem wellFormed_of_allTeamProblems (run : p.allTeamProblems = .ok [])
    (there : p.containsTeam t = true) : p.WellFormed t := by
  simp only [allTeamProblems, bind_eq_ok, pure_eq_ok] at run
  obtain ⟨results, run, none⟩ := run
  exact wellFormed_of_problems (mapM_eq_nil run none t (mem_teamIds.2 there))

/-- What is restored has passed the audit, and its teams keep all rules. -/
theorem restore_eq_ok (run : restore teams learners = .ok (.ok p)) :
    ofLists teams learners = p ∧ p.audit = [] ∧
      ∀ {t}, p.containsTeam t = true → p.WellFormed t := by
  simp only [restore] at run
  split at run
  case h_2 => simp at run
  case h_1 audited =>
    obtain ⟨problems, checked, run⟩ := bind_eq_ok.1 run
    split at run
    case h_2 => simp at run
    case h_1 =>
      simp only [pure_eq_ok, Except.ok.injEq] at run
      subst run
      exact ⟨rfl, audited, wellFormed_of_allTeamProblems checked⟩

theorem ofLists_eq (teams : List (TeamId × Team)) (learners : List (LearnerId × Learner)) :
    ofLists teams learners =
      ⟨ExtTreeMap.ofList teams compare, ExtTreeMap.ofList learners compare⟩ := by
  rw [ofLists, ExtTreeMap.ofList_eq_foldl, ExtTreeMap.ofList_eq_foldl]

theorem mem_of_ofLists_team? {team : Team}
    (found : (ofLists teams learners).team? t = some team) : (t, team) ∈ teams := by
  rw [ofLists_eq] at found
  exact mem_of_ofList_getElem? found

theorem mem_of_ofLists_learner? {learner : Learner}
    (enlisted : (ofLists teams learners).learner? l = some learner) :
    (l, learner) ∈ learners := by
  rw [ofLists_eq] at enlisted
  exact mem_of_ofList_getElem? enlisted

theorem teamList_perm_iff :
    (ofLists teams learners).teamList.Perm teams ↔ (teams.map Prod.fst).Nodup := by
  rw [ofLists_eq]
  exact toList_ofList_perm_iff

theorem learnerList_perm_iff :
    (ofLists teams learners).learnerList.Perm learners ↔ (learners.map Prod.fst).Nodup := by
  rw [ofLists_eq]
  exact toList_ofList_perm_iff

end Population

/-- Nothing that is to be restored is listed twice. -/
structure Unrepeated (teams : List (TeamId × Team)) (learners : List (LearnerId × Learner)) :
    Prop where
  teamIds : (teams.map Prod.fst).Nodup
  learnerIds : (learners.map Prod.fst).Nodup
  references : ∀ entry ∈ teams, entry.2.inLearners.Nodup
  memberships : ∀ entry ∈ learners, entry.2.inTeams.Nodup

namespace Population

variable {teams : List (TeamId × Team)} {learners : List (LearnerId × Learner)}
  {p : Population} {t : TeamId} {l : LearnerId}

/-- The population is what was given, every record counts once, and whatever is
done to it, as long as no identity is taken again, audits find nothing. -/
structure Restores (p : Population) (teams : List (TeamId × Team))
    (learners : List (LearnerId × Learner)) : Prop where
  teams : p.teamList.Perm teams
  learners : p.learnerList.Perm learners
  references : ∀ l t, p.target? l = some t → (p.references t).count l = 1
  memberships : ∀ t l, l ∈ p.members t → (p.teamsOf l).count t = 1
  audits : ∀ counters calls next, p.outline.Below counters →
    Stock.perform ⟨p, counters⟩ calls = .ok next → next.population.audit = []

theorem exact_of_unrepeated (run : restore teams learners = .ok (.ok p))
    (once : Unrepeated teams learners) : p.outline.Exact := by
  obtain ⟨rfl, audited, rules⟩ := restore_eq_ok run
  obtain ⟨member, reference⟩ := audit_eq_nil_iff.1 audited
  refine ⟨member _ _, ?_, fun t => ?_, fun t => ?_, fun l => ?_⟩
  · intro t l
    exact target?_eq _ l ▸ reference t l
  · rw [outline_members]
    cases there : (ofLists teams learners).containsTeam t with
    | true => exact (rules there).nodup
    | false =>
      rw [members_eq_nil there]
      exact List.nodup_nil
  · cases found : (ofLists teams learners).team? t with
    | none => simp [references, found]
    | some team =>
      rw [outline_references, references_of_team? found]
      exact once.references _ (mem_of_ofLists_team? found)
  · cases enlisted : (ofLists teams learners).learner? l with
    | none => simp [teamsOf, enlisted]
    | some learner =>
      rw [outline_teamsOf, teamsOf_of_learner? enlisted]
      exact once.memberships _ (mem_of_ofLists_learner? enlisted)

theorem restores_of_unrepeated (run : restore teams learners = .ok (.ok p))
    (once : Unrepeated teams learners) : p.Restores teams learners := by
  have exact := exact_of_unrepeated run once
  obtain ⟨rfl, -, -⟩ := restore_eq_ok run
  constructor
  case teams => exact teamList_perm_iff.2 once.teamIds
  case learners => exact learnerList_perm_iff.2 once.learnerIds
  case references =>
    intro l t leads
    have listed := exact.reference_iff.2 (target?_eq _ l ▸ leads)
    exact List.count_eq_one_of_mem (exact.nodup_references t) listed
  case memberships =>
    intro t l member
    exact List.count_eq_one_of_mem (exact.nodup_teamsOf l) (exact.member_iff.1 member)
  case audits =>
    intro counters calls next below performed
    exact audit_eq_nil (Stock.perform_sound ⟨exact, below⟩ performed).exact

theorem unrepeated_of_restores (run : restore teams learners = .ok (.ok p))
    (restores : p.Restores teams learners) : Unrepeated teams learners := by
  obtain ⟨rfl, audited, -⟩ := restore_eq_ok run
  obtain ⟨member, reference⟩ := audit_eq_nil_iff.1 audited
  constructor
  case teamIds => exact teamList_perm_iff.1 restores.teams
  case learnerIds => exact learnerList_perm_iff.1 restores.learners
  case references =>
    rintro ⟨t, team⟩ listed
    have found : (ofLists teams learners).team? t = some team :=
      mem_teamList.1 (restores.teams.mem_iff.2 listed)
    refine List.nodup_iff_count_le_one.2 fun l => ?_
    by_cases there : l ∈ team.inLearners
    · rw [← references_of_team? found] at there ⊢
      exact (restores.references l t ((reference t l).1 there)).le
    · exact (List.count_eq_zero.2 there).trans_le (Nat.zero_le 1)
  case memberships =>
    rintro ⟨l, learner⟩ listed
    have enlisted : (ofLists teams learners).learner? l = some learner :=
      mem_learnerList.1 (restores.learners.mem_iff.2 listed)
    refine List.nodup_iff_count_le_one.2 fun t => ?_
    by_cases there : t ∈ learner.inTeams
    · rw [← teamsOf_of_learner? enlisted] at there ⊢
      exact (restores.memberships t l ((member t l).2 there)).le
    · exact (List.count_eq_zero.2 there).trans_le (Nat.zero_le 1)

/-- One of two references of one learner is dropped with the action, the other
one is stale. -/
theorem audit_of_repeated (audited : p.audit = []) (twice : 1 < (p.references t).count l)
    (counters : Counters) (code : Code) (stream : Stream) :
    ∃ next, Stock.perform ⟨p, counters⟩ [(.setAction l (.atomic code), stream)] = .ok next ∧
      next.population.audit ≠ [] := by
  have held : l ∈ p.references t := List.count_pos_iff.1 (by omega)
  have leads := ((audit_eq_nil_iff.1 audited).2 t l).1 held
  obtain ⟨learner, enlisted, target⟩ := Option.bind_eq_some_iff.1 leads
  have aimed : learner.action.target? = some t := target
  obtain ⟨q, dropped⟩ : ∃ q, (p.setLearner l { learner with action := .atomic code }).dropTarget
      learner.action l = .ok q := by
    refine dropTarget_ok fun u hu => ?_
    obtain rfl := Option.some.inj (hu.symm.trans aimed)
    exact held
  have run : p.setAction l (.atomic code) = .ok q := by
    simp only [setAction, Action.target?_atomic, addTarget]
    exact bind_eq_ok.2 ⟨learner, getLearner_eq_ok.2 enlisted, bind_eq_ok.2 ⟨q, dropped, rfl⟩⟩
  have performed : Stock.perform ⟨p, counters⟩ [(.setAction l (.atomic code), stream)] =
      .ok ⟨q, counters⟩ := by
    simp only [Stock.perform, List.foldlM_cons, List.foldlM_nil, Stock.Call.run, run]
    rfl
  refine ⟨_, performed, fun silent => ?_⟩
  obtain ⟨program, old, policy, -, eq⟩ := setAction_outline run
  have same := (policy?_of_learner? enlisted).symm.trans policy
  obtain ⟨rfl, rfl⟩ := Prod.mk.inj (Option.some.inj same)
  have stale : l ∈ q.references t := by
    rw [← outline_references, eq]
    have left : 0 < ((p.references t).erase l).count l := by
      rw [List.count_erase_self]
      omega
    simpa [Outline.aim, Outline.refer, Outline.unrefer, aimed] using List.count_pos_iff.1 left
  have idle : q.target? l = none := by
    rw [target?_eq, eq, Outline.target?_aim, if_pos rfl, Action.target?_atomic]
  have confirmed := ((audit_eq_nil_iff.1 silent).2 t l).1 stale
  rw [idle] at confirmed
  cases confirmed

/-- An accepted population is all that was given, for good, exactly if nothing
was repeated. A reference that was repeated goes stale. -/
theorem restores_iff (run : restore teams learners = .ok (.ok p)) :
    (p.Restores teams learners ↔ Unrepeated teams learners) ∧
      ∀ t l, 1 < (p.references t).count l → ∀ counters code stream,
        ∃ next, Stock.perform ⟨p, counters⟩ [(.setAction l (.atomic code), stream)] = .ok next ∧
          next.population.audit ≠ [] :=
  ⟨⟨unrepeated_of_restores run, restores_of_unrepeated run⟩,
    fun _ _ twice => audit_of_repeated (restore_eq_ok run).2.1 twice⟩

/-- Two teams, of which the first has the given references. -/
def twoTeams (references : List LearnerId) : List (TeamId × Team) :=
  [(⟨0⟩, { learners := [⟨0⟩, ⟨1⟩], generation := 0, inLearners := references }),
    (⟨1⟩, { learners := [⟨2⟩, ⟨3⟩], generation := 0 })]

/-- The learners of two teams, the third of which leads to the first team. -/
def fourLearners : List (LearnerId × Learner) :=
  let learner (l : Nat) (t : TeamId) (action : Action) : LearnerId × Learner :=
    (⟨l⟩, { program := ⟨⟨l⟩, []⟩, action, generation := 0, inTeams := [t] })
  [learner 0 ⟨0⟩ (.atomic (.discrete 0)), learner 1 ⟨0⟩ (.atomic (.discrete 1)),
    learner 2 ⟨1⟩ (.team ⟨0⟩), learner 3 ⟨1⟩ (.atomic (.discrete 0))]

theorem restored_count (references : List LearnerId) {n : Nat}
    (count : (fun result => result.toOption.map fun p : Population =>
      (p.references ⟨0⟩).count ⟨2⟩) <$> restore (twoTeams references) fourLearners =
        .ok (some n)) :
    ∃ p, restore (twoTeams references) fourLearners = .ok (.ok p) ∧
      (p.references ⟨0⟩).count ⟨2⟩ = n := by
  obtain ⟨result, run, count⟩ := map_eq_ok.1 count
  cases result with
  | error problem => cases count
  | ok p => exact ⟨p, run, Option.some.inj count⟩

theorem twoTeams_restored : ∃ p, restore (twoTeams [⟨2⟩]) fourLearners = .ok (.ok p) ∧
    p.Restores (twoTeams [⟨2⟩]) fourLearners := by
  obtain ⟨p, run, -⟩ := restored_count [⟨2⟩] (n := 1) (by decide +kernel)
  exact ⟨p, run, (restores_iff run).1.2 ⟨by decide, by decide, by decide, by decide⟩⟩

/-- A team with one reference twice is accepted, but no population for good. -/
theorem repeated_reference_accepted :
    ∃ p, restore (twoTeams [⟨2⟩, ⟨2⟩]) fourLearners = .ok (.ok p) ∧
      (p.references ⟨0⟩).count ⟨2⟩ = 2 ∧
      ∃ next, Stock.perform ⟨p, ⟨2, 4, 4⟩⟩
        [(.setAction ⟨2⟩ (.atomic (.discrete 0)), Stream.ofScript [])] = .ok next ∧
        next.population.audit ≠ [] := by
  obtain ⟨p, run, twice⟩ := restored_count [⟨2⟩, ⟨2⟩] (n := 2) (by decide +kernel)
  exact ⟨p, run, twice, audit_of_repeated (restore_eq_ok run).2.1 (t := ⟨0⟩) (by omega) _ _ _⟩

end Population

end TangledGraph
