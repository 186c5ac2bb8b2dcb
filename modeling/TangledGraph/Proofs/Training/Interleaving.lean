import TangledGraph.Proofs.Training.Decisions
import TangledGraph.Proofs.Training.Lineage
import TangledGraph.Proofs.Training.Recording
import TangledGraph.Proofs.Training.Turns

/-!
# Agents that take turns

The turns of agents may be interleaved in any way, even if they use the same learners.
Without a memory, what becomes of an agent goes by the number of its own turns alone,
and since no two of the agents are of one team, their reports can be taken in in any
order.
-/
namespace TangledGraph

/-- The players take turns. A schedule lists the places of those whose turn it is. -/
def play (p : Population) : List Nat → List Player → Commons →
    Except Fault (List Player × Commons)
  | [], players, c => pure (players, c)
  | i :: rest, players, c =>
    match players[i]? with
    | none => play p rest players c
    | some x => do
      let (x, c) ← x.turn p c
      play p rest (players.set i x) c

section Play

variable {p : Population} {players played : List Player} {c c' : Commons}

theorem set_of_getElem? {x : Player} {i : Nat} (found : players[i]? = some x) :
    players.set i x = players := by
  obtain ⟨inside, rfl⟩ := List.getElem?_eq_some_iff.1 found
  exact List.set_getElem_self inside

/-- Players keep their teams. -/
theorem teams_play {schedule : List Nat} (run : play p schedule players c = .ok (played, c')) :
    played.map (·.agent.team) = players.map (·.agent.team) := by
  induction schedule generalizing players c with
  | nil => rw [(Prod.mk.inj (pure_eq_ok.1 run)).1]
  | cons i schedule ih =>
    rw [play] at run
    split at run
    case h_1 => exact ih run
    case h_2 x found =>
      simp only [bind_eq_ok] at run
      obtain ⟨⟨x', middle⟩, turn, run⟩ := run
      have team : x'.agent.team = x.agent.team := (Player.turn_writes turn).1
      rw [ih run, List.map_set, team, ← List.map_set, set_of_getElem? found]

/-- Turns that a player has in a row lead on to the rest of the schedule. -/
theorem play_turns {x x' : Player} {n i : Nat} (found : players[i]? = some x)
    (turns : x.turns p n c = .ok (x', c')) (rest : List Nat) :
    play p (List.replicate n i ++ rest) players c = play p rest (players.set i x') c' := by
  induction n generalizing players x c with
  | zero =>
    obtain ⟨rfl, rfl⟩ := Prod.mk.inj (pure_eq_ok.1 turns)
    rw [set_of_getElem? found]
    rfl
  | succ n ih =>
    obtain ⟨⟨y, middle⟩, turn, turns⟩ := bind_eq_ok.1 turns
    have inside := (List.getElem?_eq_some_iff.1 found).1
    have later := ih (List.getElem?_set_self inside) turns
    rw [List.set_set] at later
    rw [List.replicate_succ, List.cons_append, play, found]
    simp only [turn]
    exact later

/-- An agent with what its environment is going to do with it. -/
def Player.of (environment : Environment) (a : Agent) : Player where
  agent := a
  todo := environment a.team

/-- Agents that interact one after another have their turns in a row: all of them come to a
good end, or one of them ends with the error that is given. -/
theorem play_of_evaluateAll {environment : Environment} {agents : List Agent}
    {result : Except Error (List Report)}
    (run : evaluateAll p environment agents c = .ok (result, c')) (before : List Player) :
    ∃ schedule after,
      play p schedule (before ++ agents.map (.of environment)) c = .ok (before ++ after, c') ∧
      (∀ reports, result = .ok reports →
        (∀ x ∈ after, x.todo = .finish (.ok ())) ∧ after.map (·.agent.report) = reports) ∧
      ∀ e, result = .error e → ∃ x ∈ after, x.todo = .finish (.error e) := by
  induction agents generalizing c before result with
  | nil =>
    obtain ⟨rfl, rfl⟩ := Prod.mk.inj (pure_eq_ok.1 run)
    exact ⟨[], [], rfl, by simp, by simp⟩
  | cons a agents ih =>
    have found : (before ++ (a :: agents).map (.of environment))[before.length]? =
        some (.of environment a) := by
      simp
    obtain ⟨e, a', interaction, rfl⟩ | ⟨a', middle, later, interaction, rest, rfl⟩ :=
      evaluateAll_cons_eq_ok.1 run
    · obtain ⟨n, y, turns, -, todo⟩ :=
        Player.turns_of_run (x := .of environment a) interaction
      have played := play_turns found turns []
      refine ⟨List.replicate n before.length ++ [], y :: agents.map (.of environment), ?_, by simp,
        fun e' failed => ⟨y, List.mem_cons_self, ?_⟩⟩
      · rw [played]
        simp [play, pure, Except.pure]
      · rw [todo, Except.error.inj failed]
    · obtain ⟨n, y, turns, rfl, todo⟩ :=
        Player.turns_of_run (x := .of environment a) interaction
      obtain ⟨schedule, after, played, ended, failed⟩ := ih rest (before ++ [y])
      refine ⟨List.replicate n before.length ++ schedule, y :: after, ?_, fun reports eq => ?_,
        fun e eq => ?_⟩
      · rw [play_turns found turns]
        simpa using played
      · cases later with
        | error e => cases eq
        | ok others =>
          obtain ⟨done, listed⟩ := ended others rfl
          refine ⟨List.forall_mem_cons.2 ⟨todo, done⟩, ?_⟩
          rw [List.map_cons, listed]
          exact Except.ok.inj eq
      · cases later with
        | ok others => cases eq
        | error e' =>
          obtain ⟨x, listed, stopped⟩ := failed e' rfl
          exact ⟨x, List.mem_cons_of_mem _ listed, Except.error.inj eq ▸ stopped⟩

end Play

/-- The players after the turns of a schedule if there is no memory. -/
def afterwards (p : Population) (schedule : List Nat) (players : List Player) : List Player :=
  players.mapIdx fun i x => (Player.next p)^[schedule.count i] x

section Memoryless

variable {p : Population} {players : List Player} {c : Commons} {schedule : List Nat} {i : Nat}

theorem getElem?_afterwards : (afterwards p schedule players)[i]? =
    players[i]?.map (Player.next p)^[schedule.count i] :=
  List.getElem?_mapIdx

theorem afterwards_nil : afterwards p [] players = players := by
  refine List.ext_getElem? fun j => ?_
  rw [getElem?_afterwards, List.count_nil, Function.iterate_zero, Option.map_id]
  rfl

theorem afterwards_skip (nobody : players[i]? = none) :
    afterwards p (i :: schedule) players = afterwards p schedule players := by
  refine List.ext_getElem? fun j => ?_
  rw [getElem?_afterwards, getElem?_afterwards]
  by_cases same : i = j
  · rw [← same, nobody]
    rfl
  · rw [List.count_cons_of_ne same]

theorem afterwards_cons {x : Player} (found : players[i]? = some x) :
    afterwards p (i :: schedule) players = afterwards p schedule (players.set i (x.next p)) := by
  refine List.ext_getElem? fun j => ?_
  rw [getElem?_afterwards, getElem?_afterwards]
  by_cases same : i = j
  · subst same
    have inside := (List.getElem?_eq_some_iff.1 found).1
    rw [found, List.getElem?_set_self inside, List.count_cons_self]
    rfl
  · rw [List.count_cons_of_ne same, List.getElem?_set_ne same]

theorem afterwards_perm {schedule' : List Nat} (perm : schedule'.Perm schedule) :
    afterwards p schedule' players = afterwards p schedule players := by
  simp only [afterwards, perm.count_eq]

theorem forall_mem_set {P : Player → Prop} {x : Player} (all : ∀ y ∈ players, P y) (new : P x) :
    ∀ y ∈ players.set i x, P y :=
  fun y among => (List.mem_or_eq_of_mem_set among).elim (all y) (· ▸ new)

/-- Without a memory, a player has had as many turns as the schedule gives it, and the
tasks that are named are those from before and those reported. -/
theorem play_eq (complete : p.Complete) (memoryless : c.memory = none)
    (there : ∀ x ∈ players, p.containsTeam x.agent.team = true)
    (named : ∀ x ∈ players, x.Named c.tasks) (schedule : List Nat) :
    ∃ tasks, play p schedule players c = .ok (afterwards p schedule players, ⟨tasks, none⟩) ∧
      ∀ name, name ∈ tasks ↔
        name ∈ c.tasks ∨ ∃ x ∈ afterwards p schedule players, name ∈ x.agent.reported := by
  induction schedule generalizing players c with
  | nil =>
    rw [afterwards_nil]
    refine ⟨c.tasks, memoryless ▸ rfl, fun name => ⟨.inl, ?_⟩⟩
    rintro (before | ⟨x, listed, reported⟩)
    · exact before
    · exact named x listed name reported
  | cons i schedule ih =>
    cases found : players[i]? with
    | none =>
      rw [afterwards_skip found, play, found]
      exact ih memoryless there named
    | some x =>
      have listed := List.mem_of_getElem? found
      have inside := (List.getElem?_eq_some_iff.1 found).1
      have team := x.team_next complete (there x listed)
      have there' := forall_mem_set there (i := i) (team ▸ there x listed)
      have named' : ∀ y ∈ players.set i (x.next p), y.Named (x.noted c.tasks) :=
        forall_mem_set
          (fun y other name reported => (x.mem_noted (named x listed)).2
            (.inl (named y other name reported)))
          (x.named_next complete (there x listed) (named x listed))
      obtain ⟨tasks, rest, mem⟩ := ih (c := ⟨x.noted c.tasks, none⟩) rfl there' named'
      rw [afterwards_cons found]
      refine ⟨tasks, ?_, fun name => (mem name).trans ?_⟩
      · rw [play, found]
        simp only [x.turn_eq complete (there x listed) memoryless]
        exact rest
      · -- What a player names in its turn, it still reports after the others.
        have ended : (Player.next p)^[schedule.count i] (x.next p) ∈
            afterwards p schedule (players.set i (x.next p)) := by
          refine List.mem_of_getElem? (i := i) ?_
          rw [getElem?_afterwards, List.getElem?_set_self inside]
          rfl
        exact x.mem_noted_or complete (there x listed) (named x listed) fun reported =>
          ⟨_, ended, Player.mem_reported_iterate complete (team ▸ there x listed) reported _⟩

theorem teams_afterwards (complete : p.Complete)
    (there : ∀ x ∈ players, p.containsTeam x.agent.team = true) :
    (afterwards p schedule players).map (·.agent.team) = players.map (·.agent.team) := by
  refine List.ext_getElem? fun i => ?_
  rw [List.getElem?_map, List.getElem?_map, getElem?_afterwards]
  cases found : players[i]? with
  | none => rfl
  | some x =>
    have team := x.team_iterate complete (there x (List.mem_of_getElem? found)) (schedule.count i)
    simp only [Option.map_some, team]

/-- Agents whose environments are all done after some turns can as well interact one
after another. -/
theorem evaluateAll_eq (complete : p.Complete) {environment : Environment} {agents : List Agent}
    (memoryless : c.memory = none) (there : ∀ a ∈ agents, p.containsTeam a.team = true)
    (named : ∀ a ∈ agents, ∀ name ∈ a.reported, name ∈ c.tasks) {ended : List Player}
    (done : List.Forall₂ (fun a x => (∃ n, (Player.next p)^[n] ⟨a, environment a.team, []⟩ = x) ∧
      x.todo = .finish (.ok ())) agents ended) :
    ∃ tasks, evaluateAll p environment agents c =
        .ok (.ok (ended.map (·.agent.report)), ⟨tasks, none⟩) ∧
      ∀ name, name ∈ tasks ↔ name ∈ c.tasks ∨ ∃ x ∈ ended, name ∈ x.agent.reported := by
  induction done generalizing c with
  | nil => exact ⟨c.tasks, memoryless ▸ rfl, by simp⟩
  | @cons a x agents ended first others ih =>
    obtain ⟨there, theirs⟩ := List.forall_mem_cons.1 there
    obtain ⟨own, named⟩ := List.forall_mem_cons.1 named
    obtain ⟨⟨n, rfl⟩, done⟩ := first
    obtain ⟨tasks, run, mem⟩ := Player.run_eq complete (x := ⟨a, environment a.team, []⟩) there
      memoryless own done
    obtain ⟨tasks', rest, mem'⟩ := ih (c := ⟨tasks, none⟩) rfl theirs
      fun a' listed name reported => (mem name).2 (.inl (named a' listed name reported))
    refine ⟨tasks', ?_, fun name => ?_⟩
    · simp only [evaluateAll, run, rest, bind, Except.bind, pure, Except.pure, Except.map,
        List.map_cons]
    · rw [mem', mem, List.exists_mem_cons_iff, or_assoc]

end Memoryless

namespace Trainer

variable {s : Settings} {t next : Trainer} {query : AgentQuery} {environment : Environment}

/-- The agents of a query with what their environment is going to do with them. -/
def players (t : Trainer) (query : AgentQuery) (environment : Environment) : List Player :=
  (t.agents query).map (.of environment)

/-- The agents of a query after the turns of a schedule if there is no memory. -/
def played (t : Trainer) (query : AgentQuery) (environment : Environment)
    (schedule : List Nat) : List Player :=
  afterwards t.population schedule (t.players query environment)

/-- What may come of an evaluation whose agents take turns: an environment that is done
with an error ends it, or all of them are done and the reports are taken in. -/
inductive Interleaves (t : Trainer) (query : AgentQuery) (environment : Environment) :
    Except Error Nat → Trainer → Prop
  | stops {schedule players c x e}
      (played : play t.population schedule (t.players query environment) t.commons =
        .ok (players, c))
      (listed : x ∈ players) (failed : x.todo = .finish (.error e)) :
      Interleaves t query environment (.error e) (t.withCommons c)
  | ends {schedule players c result next}
      (played : play t.population schedule (t.players query environment) t.commons =
        .ok (players, c))
      (done : ∀ x ∈ players, x.todo = .finish (.ok ()))
      (applied : applyReports (players.map (·.agent.report)) (t.withCommons c) =
        (result, next)) :
      Interleaves t query environment (result.map fun _ => players.length) next

/-- Agents that interact one after another are a case of that. -/
theorem evaluate_interleaves {result : Except Error Nat}
    (run : t.evaluate query environment = .ok (result, next)) :
    t.Interleaves query environment result next := by
  obtain ⟨evaluated, c, evaluation, ⟨e, rfl, rfl, rfl⟩ | ⟨reports, ended, rfl, applied, rfl⟩⟩ :=
    evaluate_parts run
  · obtain ⟨schedule, players, played, -, failed⟩ := play_of_evaluateAll evaluation []
    obtain ⟨x, listed, stopped⟩ := failed e rfl
    exact .stops played listed stopped
  · obtain ⟨schedule, players, played, done, -⟩ := play_of_evaluateAll evaluation []
    obtain ⟨all, rfl⟩ := done reports rfl
    rw [List.length_map]
    exact .ends played all applied

theorem nodup_selected (nodup : t.roots.Nodup) : (t.selected query).Nodup :=
  (t.selected_perm query).nodup_iff.2 (nodup.sublist (t.wanted_sublist query))

/-- All roots are handed out by default. -/
theorem Sound.selected_all (sound : t.Sound s) : t.selected {} = t.roots := by
  refine List.filter_eq_self.2 fun id root => ?_
  obtain ⟨team, found⟩ := Population.containsTeam_iff.1 (sound.unreferred root).1
  simp [found]

theorem teams_players : (t.players query environment).map (·.agent.team) = t.selected query := by
  simp only [players, agents, List.map_map]
  exact List.map_id _

theorem Sound.players_there (sound : t.Sound s) (query : AgentQuery) (environment : Environment) :
    ∀ x ∈ t.players query environment, t.population.containsTeam x.agent.team = true := by
  intro x listed
  obtain ⟨a, agent, rfl⟩ := List.mem_map.1 listed
  exact (sound.unreferred (mem_roots_of_mem_agents agent)).1

/-- Agents have nothing to report yet. -/
theorem players_named (t : Trainer) (query : AgentQuery) (environment : Environment) :
    ∀ x ∈ t.players query environment, x.Named t.commons.tasks := by
  intro x listed name reported
  obtain ⟨a, agent, rfl⟩ := List.mem_map.1 listed
  obtain ⟨id, -, rfl⟩ := List.mem_map.1 agent
  exact absurd reported Std.ExtTreeMap.not_mem_empty

/-- Whatever their turns are, the reports of the agents can be taken in in any order. -/
theorem Sound.merges_played (sound : t.Sound s) (schedule : List Nat) (c : Commons) :
    (t.withCommons c).Merges ((t.played query environment schedule).map (·.agent.report))
      ((t.withCommons c).recordedAll
        (((t.played query environment schedule).map (·.agent.report)).flatMap Report.entries)) := by
  have teams : ((t.played query environment schedule).map (·.agent.report)).map Report.team =
      t.selected query := by
    rw [List.map_map]
    exact (teams_afterwards sound.steady.complete (sound.players_there _ _)).trans teams_players
  refine merges_recordedAll (fun report listed => ?_)
    (List.pairwise_map.1 (teams ▸ nodup_selected sound.nodup_roots))
  have chosen : report.team ∈ t.selected query := teams ▸ List.mem_map_of_mem listed
  exact (sound.unreferred (mem_roots_of_mem_agents (List.mem_map_of_mem chosen))).1

/-- If all the environments are done, it is as if the agents had not taken turns. -/
theorem Sound.evaluateAll_played (sound : t.Sound s) (memoryless : t.commons.memory = none)
    {schedule : List Nat}
    (done : ∀ x ∈ t.played query environment schedule, x.todo = .finish (.ok ())) :
    ∃ tasks, evaluateAll t.population environment (t.agents query) t.commons =
        .ok (.ok ((t.played query environment schedule).map (·.agent.report)), ⟨tasks, none⟩) ∧
      ∀ name, name ∈ tasks ↔ name ∈ t.commons.tasks ∨
        ∃ x ∈ t.played query environment schedule, name ∈ x.agent.reported := by
  have player {a : Agent} (agent : a ∈ t.agents query) :
      ⟨a, environment a.team, []⟩ ∈ t.players query environment := List.mem_map_of_mem agent
  refine evaluateAll_eq sound.steady.complete memoryless
    (fun a agent => sound.players_there _ _ _ (player agent))
    (fun a agent => t.players_named _ _ _ (player agent)) (List.forall₂_iff_get.2 ⟨?_, ?_⟩)
  · simp only [played, afterwards, players, List.length_mapIdx, List.length_map]
  · intro i agent ended
    refine ⟨⟨schedule.count i, ?_⟩, done _ (List.get_mem _ _)⟩
    simp only [played, afterwards, players, List.get_eq_getElem, List.getElem_mapIdx,
      List.getElem_map]
    rfl

/-- Whatever the environment does with each of the agents, each is as if it were alone,
and the order of their turns does not count, nor the order in which their reports
are taken in. -/
theorem Lineage.agents_independent (lineage : Lineage s t)
    (unused : s.program.instructionSet.usesMemory = false) (query : AgentQuery)
    (environment : Environment) :
    ∃ enough : Nat → Nat, ∀ schedule, ∃ played c,
      play t.population schedule (t.players query environment) t.commons = .ok (played, c) ∧
      (∀ (i : Nat) x, (t.players query environment)[i]? = some x → ∃ x', played[i]? = some x' ∧
        x.Alone t.population t.commons (schedule.count i) x' ∧
        (enough i ≤ schedule.count i → ∃ result, x'.todo = .finish result)) ∧
      (∀ schedule' : List Nat, schedule'.Perm schedule →
        play t.population schedule' (t.players query environment) t.commons = .ok (played, c)) ∧
      ∃ merged, (t.withCommons c).Merges (played.map (·.agent.report)) merged ∧
        ((∀ x ∈ played, x.todo = .finish (.ok ())) →
          t.evaluate query environment = .ok (.ok played.length, merged)) := by
  have complete := lineage.sound.steady.complete
  have memoryless : t.commons.memory = none := lineage.memoryless unused
  have there := lineage.sound.players_there query environment
  have named := t.players_named query environment
  have ends (i : Nat) : ∃ enough, ∀ x, (t.players query environment)[i]? = some x →
      ∀ n ≥ enough, ∃ result, ((Player.next t.population)^[n] x).todo = .finish result := by
    cases found : (t.players query environment)[i]? with
    | none => exact ⟨0, by simp⟩
    | some x =>
      obtain ⟨enough, result, done⟩ := x.ends complete (there x (List.mem_of_getElem? found))
      refine ⟨enough, fun x' same n late => ⟨result, ?_⟩⟩
      obtain rfl := Option.some.inj same
      rwa [Player.iterate_of_le done late]
  choose enough enough_spec using ends
  refine ⟨enough, fun schedule => ?_⟩
  obtain ⟨tasks, run, mem⟩ := play_eq complete memoryless there named schedule
  have unique {tasks' : TaskNames} (mem' : ∀ name, name ∈ tasks' ↔ name ∈ t.commons.tasks ∨
      ∃ x ∈ t.played query environment schedule, name ∈ x.agent.reported) : tasks' = tasks :=
    Std.ExtTreeSet.ext_mem fun name => (mem' name).trans (mem name).symm
  refine ⟨_, _, run, fun i x found => ?_, fun schedule' perm => ?_, _,
    lineage.sound.merges_played schedule ⟨tasks, none⟩, fun done => ?_⟩
  · have listed := List.mem_of_getElem? found
    refine ⟨_, by rw [getElem?_afterwards, found]; rfl, ?_, enough_spec i x found _⟩
    exact x.alone_iterate complete (there x listed) memoryless (named x listed) _
  · obtain ⟨tasks', run', mem'⟩ := play_eq complete memoryless there named schedule'
    rw [afterwards_perm perm] at run' mem'
    rw [run', unique mem']
  · obtain ⟨tasks', evaluation, mem'⟩ := lineage.sound.evaluateAll_played memoryless done
    obtain rfl := unique mem'
    simp only [evaluate, evaluation, bind, Except.bind, pure, Except.pure,
      (lineage.sound.merges_played schedule _).whole _ (.refl _), List.length_map]
    rfl

/-- Two agents that act and report: they may act one after the other and report then, or
each of them may do both before the next one. -/
theorem agents_independent_in_shortRun : ∃ t environment played c merged, Lineage small t ∧
    small.program.instructionSet.usesMemory = false ∧
    (t.players {} environment).map (·.agent.team) = [⟨0⟩, ⟨1⟩] ∧
    play t.population [0, 1, 0, 1] (t.players {} environment) t.commons = .ok (played, c) ∧
    play t.population [1, 1, 0, 0] (t.players {} environment) t.commons = .ok (played, c) ∧
    (t.withCommons c).Merges (played.map (·.agent.report)) merged := by
  obtain ⟨t₀, t₁, t₂, -, -, -, start, first, second, -, roots, -⟩ := shortRun_calls
  have lineage := ((Lineage.start start).report first).report second
  let environment : Environment := fun _ =>
    .act #[0.5] fun _ => .reward "task" 3.0 (.finish (.ok ()))
  obtain ⟨enough, spec⟩ := lineage.agents_independent rfl {} environment
  obtain ⟨played, c, run, -, reordered, merged, merges, -⟩ := spec [0, 1, 0, 1]
  refine ⟨t₂, environment, played, c, merged, lineage, rfl, ?_, run,
    reordered [1, 1, 0, 0] (by decide), merges⟩
  rw [teams_players, lineage.sound.selected_all, roots]

end Trainer

end TangledGraph
