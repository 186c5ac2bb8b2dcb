import TangledGraph.Proofs.Graph.History
import TangledGraph.Proofs.Graph.Records
import TangledGraph.Proofs.Graph.Roots

/-!
# The deletion of a root

A root is deleted while its list of learners is gone through: a learner that no
other team has goes with its reference. However teams share learners and learners
share targets, nothing else happens. So the only new roots are the teams that no
action leads to any more. A team that is no root is left alone.
-/
namespace TangledGraph.Population

variable {p q : Population} {t : TeamId} {l : LearnerId}

/-- Of one population, the other is what remains without the members of a team. Some
of them are gone, and so are their references; the others are no longer on it. -/
structure Released (t : TeamId) (gone : List LearnerId) (p q : Population) : Prop where
  teams : ∀ u, q.team? u = (p.team? u).map fun team => { team with
    learners := if u = t then [] else team.learners
    inLearners := team.inLearners.filter (· ∉ gone) }
  learners : ∀ k, q.learner? k = if k ∈ gone then none else
    (p.learner? k).map fun learner => { learner with inTeams := learner.inTeams.filter (· != t) }

/-- Without members there is nothing to release. -/
theorem Released.refl (exact : p.outline.Exact) (emptied : p.members t = []) :
    Released t [] p p where
  teams u := by
    have same : ∀ team, p.team? u = some team →
        (if u = t then [] else team.learners) = team.learners := by
      intro team found
      split
      case isTrue eq => rw [← members_of_team? found, eq, emptied]
      case isFalse => rfl
    cases found : p.team? u with
    | none => rfl
    | some team => simp [same team found]
  learners k := by
    cases enlisted : p.learner? k with
    | none => simp
    | some learner =>
      have elsewhere : ∀ u ∈ learner.inTeams, (u != t) = true := by
        intro u hu
        rw [← teamsOf_of_learner? enlisted] at hu
        have member : k ∈ p.members u := exact.member_iff.2 hu
        exact bne_iff_ne.2 fun same => by simp [same, emptied] at member
      simp [List.filter_eq_self.2 elsewhere]

/-- A member that was taken off is released with those after it. -/
theorem Released.drop {r : Population} {gone : List LearnerId}
    (dropped : p.dropLearner t l = .ok r) (h : Released t gone r q) : Released t gone p q := by
  obtain ⟨teams, learners⟩ := dropLearner_records dropped
  refine ⟨fun u => ?_, fun k => ?_⟩
  · rw [h.teams, teams, Option.map_map]
    congr 1
    funext team
    by_cases same : u = t <;> simp [same]
  · rw [h.learners, learners, Option.map_map]
    congr 2
    funext learner
    by_cases same : k = l <;> simp [same]

theorem Released.delete {gone : List LearnerId} (exact : p.outline.Exact) {learner : Learner}
    {r : Population} (removed : p.deleteLearner l = .ok (learner, r)) (h : Released t gone r q) :
    Released t (l :: gone) p q := by
  obtain ⟨teams, learners⟩ := deleteLearner_records exact removed
  refine ⟨fun u => ?_, fun k => ?_⟩
  · rw [h.teams, teams, Option.map_map]
    congr 1
    funext team
    simp only [Function.comp_apply, List.filter_filter, List.mem_cons, not_or, Bool.decide_and,
      Bool.and_comm, bne, beq_eq_decide, decide_not]
  · rw [h.learners, learners]
    by_cases same : k = l <;> simp [same]

theorem filter_ne_eq_nil_iff {ts : List TeamId} (nodup : ts.Nodup) (listed : t ∈ ts) :
    ts.filter (· != t) = [] ↔ ts = [t] := by
  rw [← nodup.erase_eq_filter, List.erase_eq_nil_iff]
  exact or_iff_right (List.ne_nil_of_mem listed)

/-- The members that are gone are those that no other team has, in the order of the
list. -/
theorem releaseMembers_records {ls deleted : List LearnerId} (exact : p.outline.Exact)
    (listed : p.members t = ls) (run : releaseMembers t ls p = .ok (deleted, q)) :
    deleted = ls.filter (fun l => p.teamsOf l = [t]) ∧ Released t deleted p q := by
  induction ls generalizing p deleted with
  | nil =>
    obtain ⟨rfl, rfl⟩ := releaseMembers_nil_eq_ok.1 run
    exact ⟨rfl, .refl exact listed⟩
  | cons l rest ih =>
    obtain ⟨r, learner, dropped, enlisted, runs⟩ := releaseMembers_cons_eq_ok.1 run
    obtain ⟨member, eq⟩ := dropLearner_outline dropped
    have exact' := exact_dropLearner exact dropped
    have emptied : r.members t = rest := by
      have := congrFun (congrArg Outline.members eq) t
      simpa [Outline.leave, listed] using this
    have fresh : l ∉ rest := (List.nodup_cons.1 (listed ▸ exact.nodup_members t)).1
    have teamsOf : r.teamsOf = Function.update p.teamsOf l ((p.teamsOf l).filter (· != t)) :=
      congrArg Outline.teamsOf eq
    -- The rest of the list is looked up after the learner is off the team.
    have others : rest.filter (fun k => r.teamsOf k = [t]) =
        rest.filter (fun k => p.teamsOf k = [t]) := by
      refine List.filter_congr fun k hk => ?_
      rw [teamsOf, Function.update_of_ne (ne_of_mem_of_not_mem hk fresh)]
    have alone : learner.inTeams = [] ↔ p.teamsOf l = [t] := by
      rw [← teamsOf_of_learner? enlisted, teamsOf, Function.update_self]
      exact filter_ne_eq_nil_iff (exact.nodup_teamsOf l) (exact.member_iff.1 member)
    obtain ⟨shared, run⟩ | ⟨only, removed, r', deleted', removal, later, rfl⟩ := runs
    · have stays : p.teamsOf l ≠ [t] := mt alone.2 shared
      obtain ⟨rfl, released⟩ := ih exact' emptied run
      rw [others] at released ⊢
      rw [List.filter_cons_of_neg (by simpa using stays)]
      exact ⟨rfl, released.drop dropped⟩
    · have goes : p.teamsOf l = [t] := alone.1 only
      obtain ⟨-, free, eq'⟩ := deleteLearner_outline removal
      have teamsOf' : r'.teamsOf = r.teamsOf :=
        (congrArg Outline.teamsOf eq').trans (Function.update_eq_self_iff.2 free.symm)
      have members' : r'.members = r.members := congrArg Outline.members eq'
      obtain ⟨rfl, released⟩ :=
        ih (exact_deleteLearner exact' removal) (by rw [members', emptied]) later
      rw [teamsOf', others] at released ⊢
      rw [List.filter_cons_of_pos (by simpa using goes)]
      exact ⟨rfl, (released.delete exact' removal).drop dropped⟩

/-- Of one population, the other is what remains without a team and some learners.
Teams lose references and learners lose a team, and nothing else is different; so
the roots are the other roots, and the teams that have lost all their references. -/
structure Dissolved (t : TeamId) (gone : List LearnerId) (p q : Population) : Prop where
  teams : ∀ u, q.team? u = if u = t then none else
    (p.team? u).map fun team => { team with inLearners := team.inLearners.filter (· ∉ gone) }
  learners : ∀ k, q.learner? k = if k ∈ gone then none else
    (p.learner? k).map fun learner => { learner with inTeams := learner.inTeams.filter (· != t) }
  roots : ∀ u, u ∈ q.roots ↔ u ∈ p.roots ∧ u ≠ t ∨
    p.containsTeam u = true ∧ p.references u ≠ [] ∧ ∀ l ∈ p.references u, l ∈ gone
  exact : q.outline.Exact

theorem Released.disband {gone : List LearnerId} (h : Released t gone p q) (u : TeamId) :
    Population.team? { q with teams := q.teams.erase t } u = if u = t then none else
      (p.team? u).map fun team =>
        { team with inLearners := team.inLearners.filter (· ∉ gone) } := by
  rw [team?_eraseTeam, h.teams]
  by_cases same : u = t <;> simp [same]

/-- The roots that are left, from what is left of the teams. -/
theorem mem_roots_of_teams {gone : List LearnerId} (root : p.references t = [])
    (teams : ∀ u, q.team? u = if u = t then none else
      (p.team? u).map fun team => { team with inLearners := team.inLearners.filter (· ∉ gone) })
    (u : TeamId) : u ∈ q.roots ↔ u ∈ p.roots ∧ u ≠ t ∨
      p.containsTeam u = true ∧ p.references u ≠ [] ∧ ∀ l ∈ p.references u, l ∈ gone := by
  have there : q.containsTeam u = true ↔ p.containsTeam u = true ∧ u ≠ t := by
    rw [containsTeam_eq, containsTeam_eq, teams]
    by_cases same : u = t <;> simp [same]
  have references : u ≠ t → q.references u = (p.references u).filter (· ∉ gone) := by
    intro other
    rw [Population.references, Population.references, teams, if_neg other]
    cases p.team? u <;> rfl
  rw [mem_roots, mem_roots, there]
  constructor
  · rintro ⟨⟨before, other⟩, unreferred⟩
    rw [references other, List.filter_eq_nil_iff] at unreferred
    by_cases free : p.references u = []
    · exact .inl ⟨⟨before, free⟩, other⟩
    · exact .inr ⟨before, free, fun l hl => by simpa using unreferred l hl⟩
  · rintro (⟨⟨before, free⟩, other⟩ | ⟨before, some_reference, all⟩)
    · exact ⟨⟨before, other⟩, by rw [references other, free, List.filter_nil]⟩
    · have other : u ≠ t := fun same => some_reference (same ▸ root)
      refine ⟨⟨before, other⟩, ?_⟩
      rw [references other, List.filter_eq_nil_iff]
      exact fun l hl => by simpa using all l hl

theorem deleteTeam_records {team : Team} {deleted : List LearnerId} (exact : p.outline.Exact)
    (found : p.team? t = some team) (run : p.deleteTeam t = .ok (deleted, q)) :
    deleted = team.learners.filter (fun l => p.teamsOf l = [t]) ∧ Dissolved t deleted p q := by
  obtain ⟨root, exact', -, -⟩ := deleteTeam_outline exact run
  obtain ⟨team', r, found', -, released, rfl⟩ := deleteTeam_eq_ok.1 run
  obtain rfl : team = team' := Option.some.inj (found.symm.trans found')
  obtain ⟨eq, released⟩ := releaseMembers_records exact (members_of_team? found) released
  exact ⟨eq, released.disband, released.learners, mem_roots_of_teams root released.disband, exact'⟩

/-- Edits of one population, one after another. A fault leaves it as the edits before
have made it. -/
abbrev InPlace := EStateM Fault Population

/-- One edit, which is made or is a fault. -/
def InPlace.edit {α : Type} (f : Population → Except Fault (α × Population)) : InPlace α := fun p =>
  match f p with
  | .ok (a, q) => .ok a q
  | .error fault => .error fault p

namespace InPlace

/-- Looks up a record that has to be there. -/
def look {α : Type} (f : Population → Except Fault α) : InPlace α := edit fun p => (·, p) <$> f p

def releaseMembers (t : TeamId) : List LearnerId → InPlace (List LearnerId)
  | [] => pure []
  | l :: rest => do
    edit fun p => ((), ·) <$> p.dropLearner t l
    if (← look (·.getLearner l)).inTeams.isEmpty then
      let _ ← edit (·.deleteLearner l)
      return l :: (← releaseMembers t rest)
    else releaseMembers t rest

/-- The deletion of a root, edit by edit. -/
def deleteTeam (t : TeamId) : InPlace (List LearnerId) := do
  let team ← look (·.getTeam t)
  if !team.inLearners.isEmpty then throw (.violation (.deletedWhileTargeted t team.inLearners))
  let deleted ← releaseMembers t team.learners
  edit fun p => pure ((), { p with teams := p.teams.erase t })
  return deleted

section Runs

variable {α β : Type} {a : α} {g : α → InPlace β}

theorem edit_bind {f : Population → Except Fault (α × Population)} (made : f p = .ok (a, q)) :
    (edit f >>= g).run p = (g a).run q := by
  simp only [bind, EStateM.bind, EStateM.run, edit, made]

theorem look_bind {f : Population → Except Fault α} (found : f p = .ok a) :
    (look f >>= g).run p = (g a).run p :=
  edit_bind (map_eq_ok.2 ⟨a, found, rfl⟩)

theorem look_bind_error {f : Population → Except Fault α} {fault : Fault}
    (missing : f p = .error fault) : (look f >>= g).run p = .error fault p := by
  simp only [bind, EStateM.bind, EStateM.run, look, edit, missing, Functor.map, Except.map]

end Runs

theorem releaseMembers_run {ls deleted : List LearnerId}
    (run : Population.releaseMembers t ls p = .ok (deleted, q)) :
    (releaseMembers t ls).run p = .ok deleted q := by
  induction ls generalizing p deleted with
  | nil =>
    obtain ⟨rfl, rfl⟩ := releaseMembers_nil_eq_ok.1 run
    rfl
  | cons l rest ih =>
    obtain ⟨r, learner, dropped, enlisted, runs⟩ := releaseMembers_cons_eq_ok.1 run
    rw [releaseMembers, edit_bind (map_eq_ok.2 ⟨r, dropped, rfl⟩),
      look_bind (getLearner_eq_ok.2 enlisted)]
    obtain ⟨stays, run⟩ | ⟨goes, removed, r', deleted', removal, later, rfl⟩ := runs
    · rw [if_neg (by simpa using stays)]
      exact ih run
    · rw [if_pos (by simp [goes]), edit_bind removal]
      simp only [EStateM.run_bind, ih later]
      rfl

/-- A deletion in place comes to the same. -/
theorem deleteTeam_run {deleted : List LearnerId} (run : p.deleteTeam t = .ok (deleted, q)) :
    (deleteTeam t).run p = .ok deleted q := by
  obtain ⟨team, r, found, root, released, rfl⟩ := deleteTeam_eq_ok.1 run
  rw [deleteTeam, look_bind (getTeam_eq_ok.2 found), if_neg (by simp [root])]
  simp only [EStateM.run_bind, releaseMembers_run released]
  rfl

end InPlace

/-- A root is deleted in full, edit by edit, and a team that is not there or that an
action leads to is not touched. -/
theorem deleteTeam_dissolves (exact : p.outline.Exact) (t : TeamId) :
    (∀ team, p.team? t = some team → team.inLearners = [] →
      ∃ deleted q, p.deleteTeam t = .ok (deleted, q) ∧
        (InPlace.deleteTeam t).run p = .ok deleted q ∧
        deleted = team.learners.filter (fun l => p.teamsOf l = [t]) ∧ Dissolved t deleted p q) ∧
    (p.team? t = none → p.deleteTeam t = .error (.violation (.unknownTeam t)) ∧
      (InPlace.deleteTeam t).run p = .error (.violation (.unknownTeam t)) p) ∧
    ∀ team, p.team? t = some team → team.inLearners ≠ [] →
      p.deleteTeam t = .error (.violation (.deletedWhileTargeted t team.inLearners)) ∧
        (InPlace.deleteTeam t).run p =
          .error (.violation (.deletedWhileTargeted t team.inLearners)) p := by
  refine ⟨fun team found root => ?root, fun absent => ?absent, fun team found referred => ?referred⟩
  case root =>
    obtain ⟨deleted, q, run⟩ := deleteTeam_ok exact (containsTeam_of_team? found)
      ((references_of_team? found).trans root)
    obtain ⟨eq, dissolved⟩ := deleteTeam_records exact found run
    exact ⟨deleted, q, run, InPlace.deleteTeam_run run, eq, dissolved⟩
  case absent =>
    have missing : p.getTeam t = .error (.violation (.unknownTeam t)) := by
      simp only [getTeam, absent]
      rfl
    refine ⟨?_, InPlace.look_bind_error missing⟩
    rw [deleteTeam, missing]
    rfl
  case referred =>
    have targeted : (!team.inLearners.isEmpty) = true := by simpa using referred
    constructor
    · rw [deleteTeam, getTeam_eq_ok.2 found]
      simp only [bind, Except.bind, if_pos targeted]
      rfl
    · rw [InPlace.deleteTeam, InPlace.look_bind (getTeam_eq_ok.2 found), if_pos targeted]
      rfl

/-- A root with three learners of its own and one that it shares. Two of the three
lead to one team, the third and the shared one to another. -/
def spreading : List (Stock.Call × Stream) :=
  [.createTeam 0, .createTeam 0, .createTeam 0, .createTeam 0,
    .createLearner ⟨⟨0⟩, []⟩ (.team ⟨1⟩) 0, .createLearner ⟨⟨1⟩, []⟩ (.team ⟨1⟩) 0,
    .createLearner ⟨⟨2⟩, []⟩ (.team ⟨3⟩) 0, .createLearner ⟨⟨3⟩, []⟩ (.team ⟨3⟩) 0,
    .addLearner ⟨0⟩ ⟨1⟩, .addLearner ⟨0⟩ ⟨2⟩, .addLearner ⟨0⟩ ⟨0⟩, .addLearner ⟨0⟩ ⟨3⟩,
    .addLearner ⟨2⟩ ⟨2⟩].map fun call => (call, Stream.ofScript [])

theorem spreading_dissolved : ∃ stock q,
    Stock.perform ⟨.empty, {}⟩ spreading = .ok stock ∧ stock.population.roots = [⟨0⟩, ⟨2⟩] ∧
    stock.population.deleteTeam ⟨0⟩ = .ok ([⟨1⟩, ⟨0⟩, ⟨3⟩], q) ∧
    Dissolved ⟨0⟩ [⟨1⟩, ⟨0⟩, ⟨3⟩] stock.population q ∧ ⟨1⟩ ∈ q.roots ∧
    (InPlace.deleteTeam ⟨3⟩).run stock.population =
      .error (.violation (.deletedWhileTargeted ⟨3⟩ [⟨2⟩, ⟨3⟩])) stock.population := by
  have run : (fun stock : Stock => (stock.population.roots,
      [0, 1, 3].map fun n => stock.population.references ⟨n⟩,
      (stock.population.members ⟨0⟩).filter fun l => stock.population.teamsOf l = [⟨0⟩])) <$>
      Stock.perform ⟨.empty, {}⟩ spreading =
        .ok ([⟨0⟩, ⟨2⟩], [[], [⟨0⟩, ⟨1⟩], [⟨2⟩, ⟨3⟩]], [⟨1⟩, ⟨0⟩, ⟨3⟩]) := by
    decide +kernel
  obtain ⟨stock, run, eqs⟩ := map_eq_ok.1 run
  simp only [List.map_cons, List.map_nil, Prod.mk.injEq, List.cons.injEq, and_true] at eqs
  obtain ⟨roots, ⟨root, references₁, references₃⟩, sole⟩ := eqs
  have exact := (Stock.perform_sound Stock.sound_empty run).exact
  obtain ⟨team, found⟩ := containsTeam_iff.1 (mem_roots.1 (roots ▸ List.mem_cons_self)).1
  obtain ⟨team₃, found₃⟩ := containsTeam_iff.1 (containsTeam_of_mem_references
    (references₃ ▸ List.mem_cons_self))
  obtain ⟨deleted, q, deletion, -, eq, dissolved⟩ :=
    (deleteTeam_dissolves exact ⟨0⟩).1 team found (references_of_team? found ▸ root)
  rw [← members_of_team? found, sole] at eq
  subst eq
  have new : ⟨1⟩ ∈ q.roots := by
    refine (dissolved.roots ⟨1⟩).2 (.inr ⟨containsTeam_of_mem_references
      (references₁ ▸ List.mem_cons_self), ?_⟩)
    rw [references₁]
    decide
  rw [references_of_team? found₃] at references₃
  have refused := ((deleteTeam_dissolves exact ⟨3⟩).2.2 team₃ found₃ (by simp [references₃])).2
  rw [references₃] at refused
  exact ⟨stock, q, run, roots, deletion, dissolved, new, refused⟩

end TangledGraph.Population
