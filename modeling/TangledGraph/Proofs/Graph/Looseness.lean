import Mathlib.Data.List.Perm.Subperm
import TangledGraph.Proofs.Graph.Progress
import TangledGraph.Proofs.Graph.Roots
import TangledGraph.Proofs.Mimicry

/-!
# Populations with loose records

The records of a population may be loose: a reference is on record more often than
once, or after its learner has left it, and a membership is on record more often than
once. Such a population does as one with tidy records does. What is there is the same
in both, and every edit that the tidy one allows can be made in the loose one too, but
for a team that is left with a reference and so is no root.
-/
namespace TangledGraph

section Entries

variable {α β : Type} {R : α → α → Prop} {x y : Option α} (related : Option.Rel R x y)
include related

theorem map_eq_of_rel {f : α → β} (same : ∀ a b, R a b → f a = f b) : x.map f = y.map f := by
  cases related with
  | none => rfl
  | some alike => exact congrArg some (same _ _ alike)

/-- What asks for an entry goes alike. -/
theorem Mimics.of_rel (missing : Violation) :
    Mimics R (x.elim (throw (.violation missing)) pure)
      (y.elim (throw (.violation missing)) pure) := by
  cases related with
  | none => exact Mimics.faulty rfl nofun
  | some alike => exact Mimics.pure alike

theorem bind_eq_of_rel (missing : Violation) {f g : α → Except Fault β}
    (same : ∀ a b, R a b → f a = g b) :
    x.elim (throw (.violation missing)) pure >>= f =
      y.elim (throw (.violation missing)) pure >>= g := by
  cases related with
  | none => rfl
  | some alike => exact same _ _ alike

end Entries

/-- The same learners, and all references, some of them perhaps too often. -/
structure Team.Loosens (a b : Team) : Prop where
  learners : a.learners = b.learners
  references : b.inLearners.Subperm a.inLearners

/-- The same policy, and the same teams, some of them perhaps too often. -/
structure Learner.Loosens (a b : Learner) : Prop where
  program : a.program = b.program
  action : a.action = b.action
  teams : ∀ t, t ∈ a.inTeams ↔ t ∈ b.inTeams

namespace Learner.Loosens

variable {a b : Learner}

theorem isAtomic_eq (h : a.Loosens b) : a.isAtomic = b.isAtomic :=
  congrArg Action.isAtomic h.action

theorem target?_eq (h : a.Loosens b) : a.target? = b.target? := congrArg Action.target? h.action

theorem isEmpty_eq (h : a.Loosens b) : a.inTeams.isEmpty = b.inTeams.isEmpty := by
  rw [Bool.eq_iff_iff, List.isEmpty_iff, List.isEmpty_iff, List.eq_nil_iff_forall_not_mem,
    List.eq_nil_iff_forall_not_mem]
  exact forall_congr' fun t => not_congr (h.teams t)

end Learner.Loosens

namespace Population

variable {p q : Population} {t : TeamId} {l : LearnerId}

theorem getTeam_eq_elim (p : Population) (t : TeamId) :
    p.getTeam t = (p.team? t).elim (throw (.violation (.unknownTeam t))) pure := by
  unfold getTeam
  cases p.team? t <;> rfl

theorem getLearner_eq_elim (p : Population) (l : LearnerId) :
    p.getLearner l = (p.learner? l).elim (throw (.violation (.unknownLearner l))) pure := by
  unfold getLearner
  cases p.learner? l <;> rfl

/-- The first population is the second one, but for records that are loose. -/
structure Loosens (p q : Population) : Prop where
  team : ∀ t, Option.Rel Team.Loosens (p.team? t) (q.team? t)
  learner : ∀ l, Option.Rel Learner.Loosens (p.learner? l) (q.learner? l)

namespace Loosens

section Reading

variable (h : p.Loosens q) {α : Type}
include h

theorem getTeam (t : TeamId) : Mimics Team.Loosens (p.getTeam t) (q.getTeam t) := by
  rw [getTeam_eq_elim, getTeam_eq_elim]
  exact Mimics.of_rel (h.team t) _

theorem getLearner (l : LearnerId) : Mimics Learner.Loosens (p.getLearner l) (q.getLearner l) := by
  rw [getLearner_eq_elim, getLearner_eq_elim]
  exact Mimics.of_rel (h.learner l) _

/-- What is read of a team is the same if its references play no part. -/
theorem map_team? {f : Team → α} (same : ∀ a b, a.Loosens b → f a = f b) (t : TeamId) :
    (p.team? t).map f = (q.team? t).map f :=
  map_eq_of_rel (h.team t) same

theorem map_learner? {f : Learner → α} (same : ∀ a b, a.Loosens b → f a = f b) (l : LearnerId) :
    (p.learner? l).map f = (q.learner? l).map f :=
  map_eq_of_rel (h.learner l) same

theorem getTeam_bind {f g : Team → Except Fault α} (same : ∀ a b, a.Loosens b → f a = g b)
    (t : TeamId) : p.getTeam t >>= f = q.getTeam t >>= g := by
  rw [getTeam_eq_elim, getTeam_eq_elim]
  exact bind_eq_of_rel (h.team t) _ same

theorem getLearner_bind {f g : Learner → Except Fault α}
    (same : ∀ a b, a.Loosens b → f a = g b) (l : LearnerId) :
    p.getLearner l >>= f = q.getLearner l >>= g := by
  rw [getLearner_eq_elim, getLearner_eq_elim]
  exact bind_eq_of_rel (h.learner l) _ same

theorem containsTeam_eq : p.containsTeam = q.containsTeam := by
  ext1 t
  have there := congrArg Option.isSome (h.map_team? (fun _ _ _ => Eq.refl ()) t)
  simpa only [Population.containsTeam_eq, Option.isSome_map] using there

theorem members_eq : p.members = q.members := by
  ext1 t
  exact congrArg (Option.getD · []) (h.map_team? (fun _ _ alike => alike.learners) t)

theorem policy?_eq : p.policy? = q.policy? := by
  ext1 l
  exact h.map_learner? (fun _ _ alike => by rw [alike.program, alike.action]) l

theorem target?_eq : p.target? = q.target? := by
  ext1 l
  rw [Population.target?_eq, Population.target?_eq, Outline.target?, Outline.target?,
    outline_policy?, outline_policy?, h.policy?_eq]

/-- A root in spite of all references is a root without some of them. -/
theorem references_eq_nil (root : p.references t = []) : q.references t = [] := by
  unfold references at root ⊢
  have found := h.team t
  generalize p.team? t = x, q.team? t = y at found root
  cases found with
  | none => rfl
  | @some a b alike =>
    have none : a.inLearners = [] := root
    exact List.subperm_nil.1 (none ▸ alike.references)

theorem teamsOf_eq_nil_iff (l : LearnerId) : p.teamsOf l = [] ↔ q.teamsOf l = [] := by
  have empty := h.map_learner? (fun _ _ alike => alike.isEmpty_eq) l
  have read (r : Population) : r.teamsOf l = [] ↔
      ((r.learner? l).map fun learner => learner.inTeams.isEmpty) ≠ some false := by
    unfold teamsOf
    cases r.learner? l <;> simp
  rw [read, read, empty]

theorem wellFormed_iff : p.WellFormed t ↔ q.WellFormed t := by
  constructor
  all_goals
    rintro ⟨two, nodup, atomic, foreign⟩
    exact ⟨by simpa [h.members_eq] using two, by simpa [h.members_eq] using nodup,
      by simpa [h.members_eq, h.policy?_eq] using atomic,
      by simpa [h.members_eq, h.target?_eq] using foreign⟩

/-- Looseness is about what an outline decides. -/
theorem congr {r : Population} (same : r.outline = p.outline) : r.Loosens q where
  team t := by
    have teams : (r.team? t).isSome = (p.team? t).isSome := by
      have := congrFun (congrArg Outline.teams same) t
      simpa only [outline_teams, Population.containsTeam_eq] using this
    have members : ((r.team? t).map Team.learners).getD [] =
        ((p.team? t).map Team.learners).getD [] := congrFun (congrArg Outline.members same) t
    have references : ((r.team? t).map Team.inLearners).getD [] =
        ((p.team? t).map Team.inLearners).getD [] := congrFun (congrArg Outline.references same) t
    have alike := h.team t
    generalize r.team? t = x, p.team? t = y, q.team? t = z at teams members references alike
    cases alike with
    | none =>
      obtain rfl : x = none := by simpa using teams
      exact .none
    | @some a b alike =>
      obtain ⟨c, rfl⟩ : ∃ c, x = some c := Option.isSome_iff_exists.1 teams
      have learners : c.learners = a.learners := members
      have inLearners : c.inLearners = a.inLearners := references
      exact .some ⟨learners.trans alike.learners, inLearners ▸ alike.references⟩
  learner l := by
    have policy : (r.learner? l).map (fun learner => (learner.program, learner.action)) =
        (p.learner? l).map fun learner => (learner.program, learner.action) :=
      congrFun (congrArg Outline.policy? same) l
    have teamsOf : ((r.learner? l).map Learner.inTeams).getD [] =
        ((p.learner? l).map Learner.inTeams).getD [] := congrFun (congrArg Outline.teamsOf same) l
    have alike := h.learner l
    generalize r.learner? l = x, p.learner? l = y, q.learner? l = z at policy teamsOf alike
    cases alike with
    | none =>
      obtain rfl : x = none := by simpa using policy
      exact .none
    | @some a b alike =>
      obtain ⟨c, rfl, eq⟩ := Option.map_eq_some_iff.1 policy
      obtain ⟨program, action⟩ := Prod.mk.inj eq
      have inTeams : c.inTeams = a.inTeams := teamsOf
      exact .some ⟨program.trans alike.program, action.trans alike.action,
        fun t => inTeams ▸ alike.teams t⟩

theorem atomicAmong_eq : p.atomicAmong = q.atomicAmong := by
  ext1 ls
  induction ls with
  | nil => rfl
  | cons l ls ih =>
    rw [atomicAmong, atomicAmong]
    refine h.getLearner_bind (fun a b alike => ?_) l
    rw [ih, alike.isAtomic_eq]

theorem atomicCount_eq (t : TeamId) : p.atomicCount t = q.atomicCount t := by
  refine h.getTeam_bind (fun a b alike => ?_) t
  rw [h.atomicAmong_eq, alike.learners]

theorem teamProblems_eq (t : TeamId) : p.teamProblems t = q.teamProblems t := by
  refine h.getTeam_bind (fun a b alike => ?_) t
  rw [h.atomicCount_eq, alike.learners]
  refine bind_congr fun n => congrArg (· >>= _) (congrArg (b.learners.filterMapM ·) ?_)
  ext1 l
  exact h.getLearner_bind (fun c d alike => by rw [alike.target?_eq]) l

theorem assertWellFormed_eq (t : TeamId) : p.assertWellFormed t = q.assertWellFormed t := by
  rw [assertWellFormed, assertWellFormed, h.teamProblems_eq]

end Reading

section Writing

variable {a b : Team} {c d : Learner}

theorem setTeam (h : p.Loosens q) (alike : a.Loosens b) (t : TeamId) :
    (p.setTeam t a).Loosens (q.setTeam t b) where
  team u := by
    rw [team?_setTeam, team?_setTeam]
    split
    · exact .some alike
    · exact h.team u
  learner := h.learner

theorem setLearner (h : p.Loosens q) (alike : c.Loosens d) (l : LearnerId) :
    (p.setLearner l c).Loosens (q.setLearner l d) where
  team := h.team
  learner k := by
    rw [learner?_setLearner, learner?_setLearner]
    split
    · exact .some alike
    · exact h.learner k

theorem eraseTeam (h : p.Loosens q) (t : TeamId) :
    Loosens { p with teams := p.teams.erase t } { q with teams := q.teams.erase t } where
  team u := by
    rw [team?_eraseTeam, team?_eraseTeam]
    split
    · exact .none
    · exact h.team u
  learner := h.learner

theorem eraseLearner (h : p.Loosens q) (l : LearnerId) :
    Loosens { p with learners := p.learners.erase l }
      { q with learners := q.learners.erase l } where
  team := h.team
  learner k := by
    rw [learner?_eraseLearner, learner?_eraseLearner]
    split
    · exact .none
    · exact h.learner k

variable (h : p.Loosens q)
include h

theorem createTeam (counters : Counters) (generation : Nat) :
    (p.createTeam counters generation).2.1.Loosens (q.createTeam counters generation).2.1 :=
  h.setTeam ⟨rfl, List.Subperm.refl _⟩ _

theorem addTarget (action : Action) (l : LearnerId) :
    Mimics Loosens (p.addTarget action l) (q.addTarget action l) := by
  unfold Population.addTarget
  cases action.target? with
  | none => exact Mimics.pure h
  | some t =>
    refine (h.getTeam t).bind fun a b alike => Mimics.pure (Loosens.setTeam h ?_ t)
    exact ⟨alike.learners, (List.subperm_append_right [l]).2 alike.references⟩

/-- One record of a reference goes on both sides. -/
theorem dropTarget (action : Action) (l : LearnerId) :
    Mimics Loosens (p.dropTarget action l) (q.dropTarget action l) := by
  unfold Population.dropTarget
  cases action.target? with
  | none => exact Mimics.pure h
  | some t =>
    refine (h.getTeam t).bind fun a b alike => ?_
    by_cases held : l ∈ b.inLearners
    · rw [if_pos held, if_pos (alike.references.subset held)]
      refine Mimics.pure (Loosens.setTeam h ?_ t)
      exact ⟨alike.learners, alike.references.erase l⟩
    · rw [if_neg held]
      exact Mimics.faulty rfl nofun

theorem createLearner (counters : Counters) (program : Program) (action : Action)
    (generation : Nat) : Mimics (fun x y => x.1 = y.1 ∧ x.2.1.Loosens y.2.1 ∧ x.2.2 = y.2.2)
      (p.createLearner counters program action generation)
      (q.createLearner counters program action generation) :=
  (h.addTarget action _).bind fun _ _ after =>
    Mimics.pure ⟨rfl, after.setLearner ⟨rfl, rfl, fun _ => Iff.rfl⟩ _, rfl⟩

theorem cloneLearner (counters : Counters) (source : LearnerId) (generation : Nat) :
    Mimics (fun x y => x.1 = y.1 ∧ x.2.1.Loosens y.2.1 ∧ x.2.2 = y.2.2)
      (p.cloneLearner counters source generation) (q.cloneLearner counters source generation) := by
  refine (h.getLearner source).bind fun c d alike => ?_
  rw [alike.program, alike.action]
  exact h.createLearner _ _ _ _

theorem addLearner (t : TeamId) (l : LearnerId) :
    Mimics Loosens (p.addLearner t l) (q.addLearner t l) := by
  refine (h.getTeam t).bind fun a b alike => ?_
  by_cases listed : l ∈ b.learners
  · rw [if_pos listed]
    exact Mimics.faulty rfl nofun
  rw [if_neg listed, if_neg (alike.learners ▸ listed)]
  have joined := h.setTeam (a := { a with learners := a.learners ++ [l] })
    (b := { b with learners := b.learners ++ [l] })
    ⟨congrArg (· ++ [l]) alike.learners, alike.references⟩ t
  refine (joined.getLearner l).bind fun c d alike => Mimics.pure (joined.setLearner ?_ l)
  exact ⟨alike.program, alike.action, by simp [alike.teams]⟩

theorem dropLearner (t : TeamId) (l : LearnerId) :
    Mimics Loosens (p.dropLearner t l) (q.dropLearner t l) := by
  refine (h.getTeam t).bind fun a b alike => ?_
  by_cases listed : l ∉ b.learners
  · rw [if_pos listed]
    exact Mimics.faulty rfl nofun
  rw [if_neg listed, if_neg (alike.learners ▸ listed)]
  have left := h.setTeam (a := { a with learners := a.learners.erase l })
    (b := { b with learners := b.learners.erase l })
    ⟨congrArg (List.erase · l) alike.learners, alike.references⟩ t
  refine (left.getLearner l).bind fun c d alike => Mimics.pure (left.setLearner ?_ l)
  exact ⟨alike.program, alike.action, by simp [alike.teams]⟩

theorem setAction (l : LearnerId) (action : Action) :
    Mimics Loosens (p.setAction l action) (q.setAction l action) := by
  have moved : Mimics Loosens (do
      let learner ← p.getLearner l
      let r ← (p.setLearner l { learner with action }).dropTarget learner.action l
      r.addTarget action l) (do
      let learner ← q.getLearner l
      let r ← (q.setLearner l { learner with action }).dropTarget learner.action l
      r.addTarget action l) := by
    refine (h.getLearner l).bind fun c d alike => ?_
    rw [alike.action]
    have aimed := h.setLearner (c := { c with action }) (d := { d with action })
      ⟨alike.program, rfl, alike.teams⟩ l
    exact (aimed.dropTarget d.action l).bind fun _ _ after => after.addTarget action l
  unfold Population.setAction
  cases action.target? with
  | none => exact moved
  | some t =>
    refine (h.getLearner l).bind fun c d alike => ?_
    by_cases member : t ∈ d.inTeams
    · rw [if_pos member]
      exact Mimics.faulty rfl nofun
    · rw [if_neg member, if_neg (mt (alike.teams t).1 member)]
      exact moved

theorem deleteLearner (l : LearnerId) :
    Mimics (fun x y => x.2.Loosens y.2) (p.deleteLearner l) (q.deleteLearner l) := by
  refine (h.getLearner l).bind fun c d alike => ?_
  dsimp only
  rw [alike.isEmpty_eq, alike.action]
  split
  · exact Mimics.faulty rfl nofun
  · refine ((h.eraseLearner l).dropTarget d.action l).bind fun _ _ after => Mimics.pure after

theorem releaseMembers (t : TeamId) (ls : List LearnerId) :
    Mimics (fun x y => x.1 = y.1 ∧ x.2.Loosens y.2) (releaseMembers t ls p)
      (releaseMembers t ls q) := by
  induction ls generalizing p q with
  | nil => exact Mimics.pure ⟨rfl, h⟩
  | cons l rest ih =>
    refine (h.dropLearner t l).bind fun p q h => (h.getLearner l).bind fun c d alike => ?_
    rw [alike.isEmpty_eq]
    split
    · refine (h.deleteLearner l).bind fun x y h => (ih h).bind fun x y ⟨same, h⟩ => ?_
      exact Mimics.pure ⟨congrArg (l :: ·) same, h⟩
    · exact ih h

/-- A root can be deleted, unless it is none because of loose references. -/
theorem deleteTeam (root : p.references t = []) :
    Mimics (fun x y => x.1 = y.1 ∧ x.2.Loosens y.2) (p.deleteTeam t) (q.deleteTeam t) := by
  unfold Population.deleteTeam Population.getTeam
  unfold references at root
  have found := h.team t
  generalize p.team? t = x, q.team? t = y at found root
  cases found with
  | none => exact Mimics.faulty rfl nofun
  | @some a b alike =>
    have none : a.inLearners = [] := root
    have none' : b.inLearners = [] := List.subperm_nil.1 (none ▸ alike.references)
    simp only [pure_bind, none, none', List.isEmpty_nil, Bool.not_true, Bool.false_eq_true,
      if_false, alike.learners]
    refine (h.releaseMembers t b.learners).bind fun x y ⟨same, h⟩ => ?_
    exact Mimics.pure ⟨same, h.eraseTeam t⟩

omit h in
theorem orphans_ascending (p : Population) : p.orphans.Pairwise fun l k => l.val < k.val := by
  have ascending : p.learnerList.Pairwise fun a b => compare a.1 b.1 = .lt :=
    Std.ExtTreeMap.ordered_keys_toList
  refine List.pairwise_map.2 ((ascending.filter _).imp fun {a b} less => ?_)
  rwa [LearnerId.compare_eq, Nat.compare_eq_lt] at less

theorem orphans_eq : p.orphans = q.orphans := by
  refine eq_of_ascending (orphans_ascending p) (orphans_ascending q) fun l => ?_
  rw [mem_orphans, mem_orphans, h.policy?_eq, h.teamsOf_eq_nil_iff]

theorem pruneOrphans :
    Mimics (fun x y => x.1 = y.1 ∧ x.2.Loosens y.2) p.pruneOrphans q.pruneOrphans := by
  rw [Population.pruneOrphans, Population.pruneOrphans, h.orphans_eq]
  have each (p q : Population) (l : LearnerId) (h : p.Loosens q) :
      Mimics Loosens (Prod.snd <$> p.deleteLearner l) (Prod.snd <$> q.deleteLearner l) := by
    rw [map_eq_pure_bind, map_eq_pure_bind]
    exact (h.deleteLearner l).bind fun x y h => Mimics.pure h
  exact (Mimics.foldlM each q.orphans h).bind fun p q h => Mimics.pure ⟨rfl, h⟩

end Writing

end Loosens
end Population
end TangledGraph
