import TangledGraph.Proofs.Graph.Progress
import TangledGraph.Proofs.Graph.Stored
import TangledGraph.Proofs.Settings.Stored
import TangledGraph.Proofs.Training.Reachable
import TangledGraph.Training.Checkpoint

/-!
# Checkpoints that are read back

A checkpoint is read back if its numbers have the size of stored ones and its
floats are finite. The checks on what is taken up again never refuse a sound
trainer.
-/
namespace TangledGraph

open Json

namespace Checkpoint

structure Fits (c : Checkpoint) : Prop where
  settings : c.settings.Fits
  generation : IsWord c.generation
  counters : c.counters.Fits
  teams : ∀ entry ∈ c.teams, entry.2.Fits entry.1
  learners : ∀ entry ∈ c.learners, entry.2.Fits entry.1
  roots : ∀ t ∈ c.roots, IsWord t.val
  elites : ∀ t ∈ c.elites, IsWord t.val
  memory : ∀ m ∈ c.memory, m.Fits

/-- The checkpoint as it is read back. -/
def stored (c : Checkpoint) : Checkpoint :=
  { c with
    teams := c.teams.map fun (id, team) => (id, team.stored)
    memory := c.memory.map Memory.stored }

theorem ofJson?_object (s g i t l r e n m : Json) (c : Checkpoint) :
    Checkpoint.ofJson? (object [("config", s), ("generation", g), ("ids", i), ("teams", t),
        ("learners", l), ("roots", r), ("elites", e), ("tasks", n), ("memory", m)]) = some c ↔
      Settings.ofJson? exactly s = some c.settings ∧ natural? g = some c.generation ∧
        Counters.ofJson? i = some c.counters ∧ list? Team.ofJson? t = some c.teams ∧
        list? Learner.ofJson? l = some c.learners ∧ list? TeamId.ofJson? r = some c.roots ∧
        list? TeamId.ofJson? e = some c.elites ∧ list? text? n = some c.tasks ∧
        option? Memory.ofJson? m = some c.memory := by
  rw [Checkpoint.ofJson?, record?_object]
  case nodup => decide
  case all => rfl
  simp only [↓fields_eq_some, Option.pure_def, Option.some.injEq]
  constructor
  · rintro ⟨_, rfl, _, settings, _, generation, _, counters, _, teams, _, learners, _, roots, _,
      elites, _, tasks, _, memory, rfl⟩
    exact ⟨settings, generation, counters, teams, learners, roots, elites, tasks, memory⟩
  · rintro ⟨settings, generation, counters, teams, learners, roots, elites, tasks, memory⟩
    exact ⟨_, rfl, _, settings, _, generation, _, counters, _, teams, _, learners, _, roots, _,
      elites, _, tasks, _, memory, rfl⟩

theorem stores : Stores Checkpoint.toJson Checkpoint.ofJson? Fits stored := by
  intro c d
  have document : c.toJson.written = object [("config", c.settings.toJson.written),
      ("generation", (ofNat c.generation).written), ("ids", c.counters.toJson.written),
      ("teams", (ofList (fun entry => entry.2.toJson entry.1) c.teams).written),
      ("learners", (ofList (fun entry => entry.2.toJson entry.1) c.learners).written),
      ("roots", (ofList TeamId.toJson c.roots).written),
      ("elites", (ofList TeamId.toJson c.elites).written),
      ("tasks", (ofList string c.tasks).written),
      ("memory", (ofOption Memory.toJson c.memory).written)] := rfl
  rw [document, ofJson?_object, Settings.returns.eq_some, returns_ofNat.eq_some,
    Counters.returns.eq_some, Team.stores.list.eq_some, Learner.returns.list.eq_some,
    TeamId.returns.list.eq_some, TeamId.returns.list.eq_some, returns_string.list.eq_some,
    (Memory.stores.option fun _ => Json.noConfusion).eq_some]
  obtain ⟨_, _, _, _, _, _, _, _, _⟩ := c
  obtain ⟨_, _, _, _, _, _, _, _, _⟩ := d
  simp only [stored, mk.injEq]
  constructor
  · rintro ⟨⟨settings, rfl⟩, ⟨generation, rfl⟩, ⟨counters, rfl⟩, ⟨teams, rfl⟩, ⟨learners, rfl⟩,
      ⟨roots, rfl⟩, ⟨elites, rfl⟩, ⟨-, rfl⟩, memory, rfl⟩
    exact ⟨⟨settings, generation, counters, teams, learners, roots, elites, memory⟩,
      rfl, rfl, rfl, rfl, rfl, rfl, rfl, rfl, rfl⟩
  · rintro ⟨⟨settings, generation, counters, teams, learners, roots, elites, memory⟩,
      rfl, rfl, rfl, rfl, rfl, rfl, rfl, rfl, rfl⟩
    exact ⟨⟨settings, rfl⟩, ⟨generation, rfl⟩, ⟨counters, rfl⟩, ⟨teams, rfl⟩, ⟨learners, rfl⟩,
      ⟨roots, rfl⟩, ⟨elites, rfl⟩, ⟨fun _ _ => trivial, rfl⟩, memory, rfl⟩

end Checkpoint

theorem TaskNames.ofNames_toList (tasks : TaskNames) : ofNames tasks.toList = tasks := by
  have built : ofNames tasks.toList = Std.ExtTreeSet.ofList tasks.toList compare :=
    Std.ExtTreeSet.ofList_eq_foldl.symm
  rw [built]
  refine Std.ExtTreeSet.ext_mem fun task => ?_
  rw [Std.ExtTreeSet.mem_ofList, List.contains_iff_mem, Std.ExtTreeSet.mem_toList]

namespace Checkpoint

theorem mem_teamSet {ts : List TeamId} {t : TeamId} : t ∈ teamSet ts ↔ t ∈ ts := by
  have mem_foldl (s : Std.ExtTreeMap TeamId Unit) :
      t ∈ ts.foldl (fun s t => s.insert t ()) s ↔ t ∈ s ∨ t ∈ ts := by
    induction ts generalizing s with
    | nil => simp
    | cons u ts ih =>
      rw [List.foldl_cons, ih, Std.ExtTreeMap.mem_insert, Std.LawfulEqCmp.compare_eq_iff_eq,
        List.mem_cons, eq_comm, or_assoc, or_left_comm]
  rw [teamSet, Std.ExtTreeMap.mem_keys, mem_foldl]
  simp

/-- Identities in ascending order are stored as they are. -/
theorem teamSet_of_ascending {ts : List TeamId}
    (ascending : ts.Pairwise fun t u => t.val < u.val) : teamSet ts = ts := by
  refine Population.eq_of_ascending ?_ ascending fun t => mem_teamSet
  refine Std.ExtTreeMap.ordered_keys.imp fun {t u} less => ?_
  rwa [TeamId.compare_eq, Nat.compare_eq_lt] at less

end Checkpoint

namespace Population

variable {p : Population} {t : TeamId}

/-- The population without fitness that is not finite. -/
def stored (p : Population) : Population :=
  { p with teams := p.teams.map fun _ team => team.stored }

theorem team?_stored (p : Population) (t : TeamId) :
    p.stored.team? t = (p.team? t).map Team.stored := Std.ExtTreeMap.getElem?_map

theorem outline_stored (p : Population) : p.stored.outline = p.outline := by
  simp only [outline, Outline.mk.injEq]
  refine ⟨?_, ?_, ?_, rfl, rfl⟩
  · funext t
    rw [containsTeam_eq, containsTeam_eq, team?_stored, Option.isSome_map]
  all_goals
    funext t
    simp only [members, references, team?_stored, Option.map_map, Function.comp_def, Team.stored]

theorem ofLists_stored (p : Population) :
    ofLists (p.teamList.map fun (id, team) => (id, team.stored)) p.learnerList = p.stored := by
  have teams : p.stored.teams.toList = p.teamList.map fun (id, team) => (id, team.stored) :=
    Std.ExtTreeMap.toList_map
  rw [ofLists, ← teams, foldl_insert_toList, learnerList, foldl_insert_toList]
  rfl

/-- If all teams keep the rules, an examination finds nothing. -/
theorem allTeamProblems_ok (exact : p.outline.Exact)
    (rules : ∀ {t}, p.containsTeam t = true → p.WellFormed t) : p.allTeamProblems = .ok [] := by
  have each (ts : List TeamId) (there : ∀ t ∈ ts, p.containsTeam t = true) :
      ts.mapM p.teamProblems = .ok (ts.map fun _ => []) := by
    induction ts with
    | nil => rfl
    | cons t ts ih =>
      obtain ⟨first, others⟩ := List.forall_mem_cons.1 there
      rw [List.mapM_cons, teamProblems_ok exact first (rules first), ih others]
      rfl
  rw [allTeamProblems, each p.teamIds fun t => mem_teamIds.1]
  simp [bind, Except.bind, pure, Except.pure]

/-- Stored teams and learners are taken up again if they make up a sound
population. -/
theorem restore_ok {teams : List (TeamId × Team)} {learners : List (LearnerId × Learner)}
    (same : ofLists teams learners = p) (exact : p.outline.Exact)
    (rules : ∀ {t}, p.containsTeam t = true → p.WellFormed t) :
    restore teams learners = .ok (.ok p) := by
  simp only [restore, same, audit_eq_nil exact, allTeamProblems_ok exact rules]
  rfl

end Population

namespace Trainer

variable {s : Settings} {t next : Trainer} {entropy : Stream}

/-- The trainer that is taken up from what is stored of it. -/
def resumed (t : Trainer) (entropy : Stream) : Trainer :=
  let seed := t.settings.trainer.seed
  let drawn := drawSeedBase seed (streamFor seed t.generation entropy)
  { t with
    population := t.population.stored
    memory := t.memory.map Memory.stored <|> initialMemory t.settings
    stream := drawn.2
    seedBase := drawn.1 }

/-- Nothing of a sound trainer is refused. -/
theorem Sound.resume_stored (sound : t.Sound s) (valid : s.validate = .ok ()) (entropy : Stream) :
    t.checkpoint.stored.resume entropy = .ok (.ok (t.resumed entropy)) := by
  have accepted : t.settings.validate = .ok () := sound.settings ▸ valid
  have same := t.population.outline_stored
  have steady := sound.steady.congr same
  have restored : Population.restore t.checkpoint.stored.teams t.checkpoint.stored.learners =
      .ok (.ok t.population.stored) :=
    Population.restore_ok t.population.ofLists_stored steady.sound.exact steady.wellFormed
  have roots : t.population.stored.roots = t.roots :=
    (Population.roots_congr same).trans sound.roots.symm
  have ascending : t.roots.Pairwise fun a b => a.val < b.val :=
    roots ▸ t.population.stored.roots_ascending
  have listed : Checkpoint.teamSet t.checkpoint.stored.roots = t.roots :=
    Checkpoint.teamSet_of_ascending ascending
  have confirmed : (t.roots != t.population.stored.roots) = false :=
    bne_eq_false_iff_eq.2 roots.symm
  have names : TaskNames.ofNames t.checkpoint.stored.tasks = t.tasks :=
    TaskNames.ofNames_toList t.tasks
  have settings : t.checkpoint.stored.settings = t.settings := rfl
  simp only [Checkpoint.resume, settings, accepted, restored, bind, Except.bind, listed, confirmed,
    names]
  rfl

/-- What a sound trainer is stored as is read back or not, and if it is, then as
the trainer that can be taken up from it. -/
theorem Sound.load_saved (sound : t.Sound s) (valid : s.validate = .ok ()) (entropy : Stream) :
    load t.saved entropy = .ok (.ok next) ↔ t.checkpoint.Fits ∧ t.resumed entropy = next := by
  have document : t.saved = t.checkpoint.toJson.written := rfl
  rw [load, document]
  cases read : Checkpoint.ofJson? t.checkpoint.toJson.written with
  | none =>
    have unfit : ¬t.checkpoint.Fits := by
      intro fits
      rw [Checkpoint.stores.eq_some.2 ⟨fits, rfl⟩] at read
      cases read
    simp [unfit]
  | some c =>
    obtain ⟨fits, rfl⟩ := Checkpoint.stores.eq_some.1 read
    simp [sound.resume_stored valid entropy, fits]

end Trainer

end TangledGraph
