import Mathlib.Data.List.Sort
import TangledGraph.Proofs.Graph.Exactness

/-!
# Roots, and records that are no edges

The roots are the teams without references, in ascending order, so they depend
on the outline alone. Outcomes and fitness are not in the outline; to record or
to drop them changes no edge and no root.
-/
namespace TangledGraph.Population

variable {p q : Population} {t : TeamId}

theorem mem_teamIds : t ∈ p.teamIds ↔ p.containsTeam t = true := Std.ExtTreeMap.mem_keys

theorem mem_roots : t ∈ p.roots ↔ p.containsTeam t ∧ p.references t = [] := by
  simp only [roots, List.mem_map, List.mem_filter, Prod.exists, mem_teamList]
  constructor
  · rintro ⟨u, team, ⟨found, root⟩, rfl⟩
    refine ⟨containsTeam_of_team? found, ?_⟩
    simpa [Team.isRoot, references_of_team? found] using root
  · rintro ⟨there, unreferred⟩
    obtain ⟨team, found⟩ := containsTeam_iff.1 there
    refine ⟨t, team, ⟨found, ?_⟩, rfl⟩
    simpa [Team.isRoot, references_of_team? found] using unreferred

/-- A list of all teams, each once, is as long as there are teams. -/
theorem teamCount_eq_length {ts : List TeamId} (nodup : ts.Nodup)
    (all : ∀ t, t ∈ ts ↔ p.containsTeam t = true) : p.teamCount = ts.length := by
  have perm : p.teamIds.Perm ts :=
    (List.perm_ext_iff_of_nodup Std.ExtTreeMap.nodup_keys nodup).2 fun t =>
      mem_teamIds.trans (all t).symm
  rw [← perm.length_eq]
  exact Std.ExtTreeMap.length_keys.symm

theorem roots_ascending (p : Population) : p.roots.Pairwise fun t u => t.val < u.val := by
  have ascending : p.teamList.Pairwise fun a b => compare a.1 b.1 = .lt :=
    Std.ExtTreeMap.ordered_keys_toList
  refine List.pairwise_map.2 ((ascending.filter _).imp fun {a b} less => ?_)
  rwa [TeamId.compare_eq, Nat.compare_eq_lt] at less

theorem nodup_roots (p : Population) : p.roots.Nodup :=
  p.roots_ascending.imp fun less same => by simp [same] at less

/-- What is in ascending order is in one list only. -/
theorem eq_of_ascending {α : Type} {rank : α → Nat} {xs ys : List α}
    (first : xs.Pairwise fun a b => rank a < rank b)
    (second : ys.Pairwise fun a b => rank a < rank b) (same : ∀ a, a ∈ xs ↔ a ∈ ys) :
    xs = ys := by
  have : Std.Irrefl fun a b : α => rank a < rank b := ⟨fun _ => Nat.lt_irrefl _⟩
  have : Std.Antisymm fun a b : α => rank a < rank b :=
    ⟨fun _ _ less less' => absurd less' (Nat.lt_asymm less)⟩
  exact first.eq_of_mem_iff second same

theorem roots_congr (h : p.outline = q.outline) : p.roots = q.roots := by
  have teams : p.containsTeam = q.containsTeam := congrArg Outline.teams h
  have references : p.references = q.references := congrArg Outline.references h
  exact eq_of_ascending p.roots_ascending q.roots_ascending fun t => by
    rw [mem_roots, mem_roots, teams, references]

/-- A team is written again with the same lists. -/
theorem outline_annotate {team team' : Team} (found : p.team? t = some team)
    (learners : team'.learners = team.learners) (references : team'.inLearners = team.inLearners) :
    (p.setTeam t team').outline = p.outline := by
  rw [outline_resetTeam found, learners, references, ← members_of_team? found,
    ← references_of_team? found, Function.update_eq_self, Function.update_eq_self]
  rfl

theorem outline_setOutcome {task : String} {value : Float}
    (run : p.setOutcome t task value = .ok q) : q.outline = p.outline := by
  unfold setOutcome at run
  cases found : p.team? t with
  | none => simp [found, throw, throwThe, MonadExceptOf.throw] at run
  | some team =>
    simp only [found, pure, Except.pure, Except.ok.injEq] at run
    subst run
    exact outline_annotate found rfl rfl

theorem outline_setFitness {fitness : Float} (run : p.setFitness t fitness = .ok q) :
    q.outline = p.outline := by
  simp only [setFitness, bind_eq_ok, getTeam_eq_ok, pure_eq_ok] at run
  obtain ⟨team, found, rfl⟩ := run
  exact outline_annotate found rfl rfl

theorem outline_retainOutcomes (p : Population) (keep : List String) :
    (p.retainOutcomes keep).outline = p.outline := by
  have found (t : TeamId) : (p.retainOutcomes keep).team? t = (p.team? t).map fun team =>
      { team with outcomes := team.outcomes.filter fun task _ => keep.contains task } :=
    Std.ExtTreeMap.getElem?_map
  simp only [outline, Outline.mk.injEq]
  refine ⟨?_, ?_, ?_, rfl, rfl⟩
  · funext t
    rw [containsTeam_eq, containsTeam_eq, found, Option.isSome_map]
  all_goals
    funext t
    simp only [members, references, found, Option.map_map, Function.comp_def]

end TangledGraph.Population
