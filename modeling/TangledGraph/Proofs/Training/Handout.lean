import TangledGraph.Proofs.Training.Registry
import TangledGraph.Proofs.Training.Selection

/-!
# The agents that a query asks for

A query hands out the roots that lack an outcome on one of its tasks, each once: in the
order of the roots, or the fittest first, where roots that are equally fit stay in
their order. Once each of these agents has reported each of the tasks, there is no root
left that lacks an outcome, whether the agents interacted one after another or took
turns, and in whichever order their reports are taken in.
-/
namespace TangledGraph

section Order

variable {α : Type} {l : List α} {a b : α}

theorem pair_sublist_or (ha : a ∈ l) (hb : b ∈ l) (other : a ≠ b) :
    [a, b].Sublist l ∨ [b, a].Sublist l := by
  obtain ⟨before, after, rfl⟩ := List.append_of_mem ha
  obtain early | eq | late := (List.mem_append.1 hb).imp_right List.mem_cons.1
  · refine .inr ((List.singleton_sublist.2 early).append ?_)
    exact List.singleton_sublist.2 List.mem_cons_self
  · exact absurd eq.symm other
  · refine .inl (List.Sublist.trans ?_ (List.sublist_append_right before _))
    exact (List.singleton_sublist.2 late).cons_cons a

/-- A list without repetitions has no two members in both orders. -/
theorem not_pair_sublist (nodup : l.Nodup) (listed : [a, b].Sublist l) : ¬[b, a].Sublist l := by
  induction l with
  | nil => cases listed
  | cons c l ih =>
    obtain ⟨new, nodup⟩ := List.nodup_cons.1 nodup
    intro swapped
    cases listed with
    | cons _ listed =>
      cases swapped with
      | cons _ swapped => exact ih nodup listed swapped
      | cons_cons _ _ => exact new (listed.subset (by simp))
    | cons_cons _ rest =>
      cases swapped with
      | cons _ swapped => exact new (swapped.subset (by simp))
      | cons_cons _ _ => exact new (rest.subset (by simp))

/-- A stable sort leaves members that are equal to each other in their order. -/
theorem pairwise_mergeSort_stable {le : α → α → Bool} (nodup : l.Nodup)
    (trans : ∀ a b c, le a b = true → le b c = true → le a c = true)
    (total : ∀ a b, (le a b || le b a) = true) :
    (l.mergeSort le).Pairwise fun a b => le a b = true ∧ (le b a = true → [a, b].Sublist l) := by
  have perm := List.mergeSort_perm l le
  have nodup' : (l.mergeSort le).Nodup := perm.nodup_iff.2 nodup
  refine List.pairwise_iff_forall_sublist.2 fun {a b} sorted => ?_
  have ordered := List.pairwise_iff_forall_sublist.1 (List.pairwise_mergeSort trans total l) sorted
  have other : a ≠ b := List.pairwise_iff_forall_sublist.1 nodup' sorted
  have member {c : α} (listed : c ∈ [a, b]) : c ∈ l := perm.subset (sorted.subset listed)
  refine ⟨ordered, fun equal => ?_⟩
  refine (pair_sublist_or (member (by simp)) (member (by simp)) other).resolve_right fun swapped => ?_
  exact not_pair_sublist nodup' sorted (List.pair_sublist_mergeSort trans total equal swapped)

end Order

variable {p : Population} {environment : Environment} {c c' : Commons}

/-- Whatever the agent answers, it is rewarded for the task before a good end. -/
def Interaction.Rewards (task : String) : Interaction → Prop
  | finish result => result ≠ .ok ()
  | act _ next => ∀ answer, (next answer).Rewards task
  | reward name _ next => name = task ∨ next.Rewards task
  | taskDone _ next => ∀ known, (next known).Rewards task
  | reset next => next.Rewards task
  | inspect next => ∀ context, (next context).Rewards task

/-- An agent that is rewarded for a task reports it. -/
theorem Interaction.run_rewards (i : Interaction) {task : String} {a a' : Agent}
    (rewards : i.Rewards task) (run : i.run p a c = .ok (.ok (), a', c')) :
    task ∈ a'.reported := by
  induction i generalizing a c with
  | finish ended => exact absurd (run_finish_eq_ok.1 run).1 rewards
  | act input next ih =>
    obtain ⟨answer, mind, -, rest⟩ := run_act_eq_ok.1 run
    exact ih answer (rewards answer) rest
  | reward name value next ih =>
    obtain rfl | later := rewards
    · exact (run_keeps next run).2 name Std.ExtTreeMap.mem_insert_self
    · exact ih later run
  | taskDone name next ih => exact ih _ (rewards _) run
  | reset next ih => exact ih rewards run
  | inspect next ih => exact ih _ (rewards _) run

/-- Agents that all come to a good end have one report each, of what they were rewarded for. -/
theorem evaluateAll_reports {agents : List Agent} {reports : List Report}
    (run : evaluateAll p environment agents c = .ok (.ok reports, c')) :
    reports.map Report.team = agents.map Agent.team ∧
      ∀ r ∈ reports, ∃ a ∈ agents, ∃ a' c₁ c₂, r = a'.report ∧
        (environment a.team).run p a c₁ = .ok (.ok (), a', c₂) := by
  induction agents generalizing c reports with
  | nil =>
    simp only [evaluateAll, pure_eq_ok, Prod.mk.injEq, Except.ok.injEq] at run
    obtain ⟨rfl, -⟩ := run
    exact ⟨rfl, by simp⟩
  | cons a agents ih =>
    obtain ⟨a', middle, later, interaction, rest, rfl⟩ := evaluateAll_cons_eq_ok_ok.1 run
    obtain ⟨teams, each⟩ := ih rest
    refine ⟨?_, List.forall_mem_cons.2 ⟨?_, fun r listed => ?_⟩⟩
    · rw [List.map_cons, List.map_cons, teams]
      exact congrArg (· :: _) (Interaction.run_keeps _ interaction).1
    · exact ⟨a, List.mem_cons_self, a', c, middle, rfl, interaction⟩
    · obtain ⟨b, among, ended⟩ := each r listed
      exact ⟨b, List.mem_cons_of_mem a among, ended⟩

namespace Trainer

open Rounding

variable {s : Settings} {t next : Trainer} {query : AgentQuery} {u : TeamId}

/-- The team lacks an outcome on one of the tasks of a query, or there are none. -/
def Lacks (t : Trainer) (query : AgentQuery) (id : TeamId) : Prop :=
  query.skipTasks = [] ∨ ∃ task ∈ query.skipTasks, t.outcome? id task = none

/-- The teams whose agents a query hands out. -/
structure HandsOut (t : Trainer) (query : AgentQuery) (ids : List TeamId) : Prop where
  nodup : ids.Nodup
  mem_iff : ∀ id, id ∈ ids ↔ id ∈ t.roots ∧ t.Lacks query id
  unranked : query.ranked = false → ids.Sublist t.roots
  /-- A team without a fitness counts as least fit, and of equally fit ones the earlier
  root comes first. -/
  ranked : query.ranked = true → ids.Pairwise fun a b =>
    (t.fitness? b).getD (-infinity) ≤ (t.fitness? a).getD (-infinity) ∧
      ((t.fitness? a).getD (-infinity) ≤ (t.fitness? b).getD (-infinity) → [a, b].Sublist t.roots)

/-- The fitness of every root that has one is a number. -/
def Rated (t : Trainer) : Prop := ∀ id ∈ t.roots, ∀ x, t.fitness? id = some x → x.isNaN = false

theorem Rated.number (rated : t.Rated) (root : u ∈ t.roots) : (t.fitnessOf u).isNaN = false := by
  change ((t.fitness? u).getD (-infinity)).isNaN = false
  cases found : t.fitness? u with
  | none => exact (by decide : (-infinity : Float).isNaN = false)
  | some x => exact rated u root x found

theorem selected_eq : t.selected query = if query.ranked then
    (t.wanted query).mergeSort fun a b => !(t.fitnessOf a < t.fitnessOf b) else t.wanted query :=
  rfl

/-- Where the roots are teams that are there, a query asks for those that lack an
outcome. -/
theorem mem_selected (there : ∀ root ∈ t.roots, t.population.containsTeam root = true) :
    u ∈ t.selected query ↔ u ∈ t.roots ∧ t.Lacks query u := by
  rw [(t.selected_perm query).mem_iff, wanted, List.mem_filter]
  refine and_congr_right fun root => ?_
  obtain ⟨team, found⟩ := Population.containsTeam_iff.1 (there u root)
  simp [found, Lacks, outcome?]

/-- How teams are ranked: by where their fitness stands. -/
def ranksBefore (t : Trainer) (a b : TeamId) : Bool :=
  Selection.standsBefore (a, t.fitnessOf a) (b, t.fitnessOf b)

theorem ranksBefore_iff {a b : TeamId} :
    t.ranksBefore a b = true ↔ rankOf (t.fitnessOf b) ≤ rankOf (t.fitnessOf a) :=
  decide_eq_true_iff

theorem Rated.mergeSort_eq (rated : t.Rated) {ids : List TeamId} (roots : ids ⊆ t.roots) :
    (ids.mergeSort fun a b => !(t.fitnessOf a < t.fitnessOf b)) = ids.mergeSort t.ranksBefore := by
  have compared : ∀ a ∈ ids, ∀ b ∈ ids,
      (!(t.fitnessOf a < t.fitnessOf b)) = t.ranksBefore a b := by
    intro a ha b hb
    rw [Bool.eq_iff_iff, Bool.not_eq_true', decide_eq_false_iff_not, ranksBefore_iff,
      lt_iff (rated.number (roots ha)) (rated.number (roots hb)), not_lt]
  have same := List.map_mergeSort (f := id) compared
  rwa [List.map_id, List.map_id] at same

theorem Sound.handsOut (sound : t.Sound s) (rated : t.Rated) (query : AgentQuery) :
    t.HandsOut query (t.selected query) := by
  have part := t.wanted_sublist query
  constructor
  case nodup => exact nodup_selected sound.nodup_roots
  case mem_iff => exact fun id => mem_selected fun root listed => (sound.unreferred listed).1
  case unranked =>
    intro unranked
    rwa [selected_eq, unranked]
  case ranked =>
    intro ranked
    rw [selected_eq, if_pos ranked, rated.mergeSort_eq part.subset]
    have stable : ((t.wanted query).mergeSort t.ranksBefore).Pairwise fun a b =>
        t.ranksBefore a b = true ∧ (t.ranksBefore b a = true → [a, b].Sublist (t.wanted query)) :=
      pairwise_mergeSort_stable (sound.nodup_roots.sublist part)
        (fun _ _ _ => Selection.standsBefore_trans _ _ _)
        fun _ _ => Selection.standsBefore_total _ _
    refine stable.imp_of_mem fun {a b} ha hb ⟨ordered, equal⟩ => ?_
    have numbera := rated.number (part.subset (List.mem_mergeSort.1 ha))
    have numberb := rated.number (part.subset (List.mem_mergeSort.1 hb))
    rw [ranksBefore_iff] at ordered equal
    refine ⟨(le_iff numberb numbera).2 ordered, fun le => ?_⟩
    exact (equal ((le_iff numbera numberb).1 le)).trans part

theorem teams_agents : (t.agents query).map Agent.team = t.selected query := by
  rw [agents, List.map_map]
  exact List.map_id _

/-- Outcomes on record stay on record, and those that are taken in come on record. -/
theorem outcome?_recordedAll {os : List Outcome}
    (there : ∀ o ∈ os, t.population.containsTeam o.team = true) (id : TeamId) (task : String) :
    ((t.recordedAll os).outcome? id task).isSome = true ↔
      (t.outcome? id task).isSome = true ∨ ∃ o ∈ os, o.team = id ∧ o.task = task := by
  induction os generalizing t with
  | nil => simp [recordedAll]
  | cons o os ih =>
    obtain ⟨first, others⟩ := List.forall_mem_cons.1 there
    have later := ih (t := t.recorded o) fun o' listed => by
      rw [containsTeam_recorded]
      exact others o' listed
    refine later.trans ?_
    rw [outcome?_recorded first, List.exists_mem_cons_iff, ← or_assoc]
    refine or_congr_left ?_
    split
    case isTrue same => simp [same.1, same.2]
    case isFalse other => exact (or_iff_left fun same => other ⟨same.1.symm, same.2.symm⟩).symm

theorem roots_recordedAll (t : Trainer) (os : List Outcome) :
    (t.recordedAll os).roots = t.roots := by
  induction os generalizing t with
  | nil => rfl
  | cons o os ih => exact ih (t.recorded o)

/-- If each selected team has a report with all the tasks, nobody is asked for any more. -/
theorem Sound.agents_applyReports (sound : t.Sound s) (tasks : query.skipTasks ≠ [])
    (c : Commons) {reports : List Report}
    (teams : ∀ id, id ∈ reports.map Report.team ↔ id ∈ t.selected query)
    (rewarded : ∀ r ∈ reports, ∀ task ∈ query.skipTasks, task ∈ r.outcomes) :
    ∃ next, applyReports reports (t.withCommons c) = (.ok (), next) ∧
      next.agents query = [] := by
  have present : ∀ root ∈ t.roots, t.population.containsTeam root = true :=
    fun root listed => (sound.unreferred listed).1
  have there : ∀ r ∈ reports, t.population.containsTeam r.team = true := fun r listed =>
    present r.team ((mem_selected present).1 ((teams r.team).1 (List.mem_map_of_mem listed))).1
  have entries : ∀ o ∈ reports.flatMap Report.entries,
      t.population.containsTeam o.team = true := by
    intro o listed
    obtain ⟨r, among, entry⟩ := List.mem_flatMap.1 listed
    rw [Report.team_of_mem_entries entry]
    exact there r among
  let next := (t.withCommons c).recordedAll (reports.flatMap Report.entries)
  have roots : next.roots = t.roots := roots_recordedAll ..
  have present' : ∀ root ∈ next.roots, next.population.containsTeam root = true := by
    rw [roots, containsTeam_recordedAll]
    exact present
  refine ⟨next, applyReports_eq there, List.map_eq_nil_iff.2 ?_⟩
  refine List.eq_nil_iff_forall_not_mem.2 fun id asked => ?_
  rw [mem_selected present', roots] at asked
  obtain ⟨root, none | ⟨task, skipped, missing⟩⟩ := asked
  · exact tasks none
  rw [← Option.not_isSome_iff_eq_none, outcome?_recordedAll (t := t.withCommons c) entries,
    not_or] at missing
  obtain ⟨unscored, unreported⟩ := missing
  have selected : id ∈ t.selected query := (mem_selected present).2
    ⟨root, .inr ⟨task, skipped, Option.not_isSome_iff_eq_none.1 unscored⟩⟩
  obtain ⟨r, among, rfl⟩ := List.mem_map.1 ((teams id).2 selected)
  obtain ⟨x, outcome⟩ := Option.isSome_iff_exists.1
    (Std.ExtTreeMap.isSome_getElem?_iff_mem.2 (rewarded r among task skipped))
  have entry := Std.ExtTreeMap.mem_toList_iff_getElem?_eq_some.2 outcome
  exact unreported ⟨⟨r.team, task, x⟩,
    List.mem_flatMap.2 ⟨r, among, List.mem_map_of_mem entry⟩, rfl, rfl⟩

/-- Whenever the environment comes to a good end with one of the agents of a query, it
has rewarded the agent for each of the tasks. -/
def Rewarding (t : Trainer) (query : AgentQuery) (environment : Environment) : Prop :=
  ∀ a ∈ t.agents query, ∀ c a' c',
    (environment a.team).run t.population a c = .ok (.ok (), a', c') →
      ∀ task ∈ query.skipTasks, task ∈ a'.reported

theorem rewarding_of_rewards {environment : Environment}
    (rewards : ∀ id ∈ t.selected query, ∀ task ∈ query.skipTasks,
      (environment id).Rewards task) : t.Rewarding query environment := by
  intro a agent c a' c' run task skipped
  have selected : a.team ∈ t.selected query := teams_agents ▸ List.mem_map_of_mem agent
  exact Interaction.run_rewards _ (rewards a.team selected task skipped) run

/-- Agents that interact one after another report what they are rewarded for. -/
theorem Sound.agents_evaluate (sound : t.Sound s) (tasks : query.skipTasks ≠ [])
    {environment : Environment} (rewarding : t.Rewarding query environment) {n : Nat}
    (run : t.evaluate query environment = .ok (.ok n, next)) :
    n = (t.agents query).length ∧ next.agents query = [] := by
  obtain ⟨evaluated, c, evaluation, ⟨e, -, failed, -⟩ | ⟨reports, ended, rfl, applied, count⟩⟩ :=
    evaluate_parts run
  · cases failed
  obtain ⟨teams, each⟩ := evaluateAll_reports evaluation
  have rewarded : ∀ r ∈ reports, ∀ task ∈ query.skipTasks, task ∈ r.outcomes := by
    intro r listed
    obtain ⟨a, agent, a', c₁, c₂, rfl, interaction⟩ := each r listed
    exact rewarding a agent c₁ a' c₂ interaction
  have asked (id : TeamId) : id ∈ reports.map Report.team ↔ id ∈ t.selected query := by
    rw [teams, teams_agents]
  obtain ⟨next', applied', nobody⟩ := sound.agents_applyReports tasks c asked rewarded
  obtain ⟨rfl, rfl⟩ := Prod.mk.inj (applied.symm.trans applied')
  have length := congrArg List.length teams
  rw [List.length_map, List.length_map] at length
  exact ⟨(Except.ok.inj count).trans length, nobody⟩

/-- It makes no difference if they take turns, nor in which order their reports are
taken in. -/
theorem Sound.agents_play (sound : t.Sound s) (tasks : query.skipTasks ≠ [])
    {environment : Environment} {schedule : List Nat} {players : List Player} {c : Commons}
    (run : play t.population schedule (t.players query environment) t.commons = .ok (players, c))
    (rewarded : ∀ x ∈ players, ∀ task ∈ query.skipTasks, task ∈ x.agent.reported)
    {order : List Report} (perm : order.Perm (players.map (·.agent.report))) :
    ∃ next, applyReports order (t.withCommons c) = (.ok (), next) ∧
      next.agents query = [] := by
  have teams : (players.map (·.agent.report)).map Report.team = t.selected query := by
    rw [List.map_map]
    exact (teams_play run).trans teams_players
  refine sound.agents_applyReports tasks c (fun id => ?_) fun r listed => ?_
  · rw [(perm.map Report.team).mem_iff, teams]
  · obtain ⟨x, player, rfl⟩ := List.mem_map.1 (perm.subset listed)
    exact rewarded x player

/-- A query hands out the roots that lack an outcome on one of its tasks, in their order
or the fittest first. If there are tasks, and the agents have all been rewarded for each
of them when they come to their end, the query hands out nobody any more. -/
theorem Lineage.hands_out (lineage : Lineage s t) (rated : t.Rated) (query : AgentQuery) :
    t.HandsOut query ((t.agents query).map Agent.team) ∧
    (query.skipTasks ≠ [] → ∀ environment,
      (t.Rewarding query environment → ∀ n next,
        t.evaluate query environment = .ok (.ok n, next) →
          n = (t.agents query).length ∧ next.agents query = []) ∧
      ∀ schedule players c,
        play t.population schedule (t.players query environment) t.commons = .ok (players, c) →
        (∀ x ∈ players, ∀ task ∈ query.skipTasks, task ∈ x.agent.reported) →
        ∀ order : List Report, order.Perm (players.map (·.agent.report)) →
          ∃ next, applyReports order (t.withCommons c) = (.ok (), next) ∧
            next.agents query = []) := by
  have sound := lineage.sound
  refine ⟨teams_agents ▸ sound.handsOut rated query, fun tasks environment => ⟨?_, ?_⟩⟩
  · exact fun rewarding n next => sound.agents_evaluate tasks rewarding
  · exact fun schedule players c run rewarded order => sound.agents_play tasks run rewarded

/-- The roots that lack an outcome on one of two tasks, the fittest first. -/
def unfinished : AgentQuery where
  ranked := true
  skipTasks := ["task", "other"]

/-- Each agent is rewarded for both tasks. -/
def thorough : Environment := fun _ =>
  .reward "other" 1.0 (.reward "task" 2.0 (.finish (.ok ())))

theorem lineage_shortRun {summary : Summary} (run : shortRun = some (t, summary, next)) :
    Lineage small next := by
  simp only [shortRun, Option.bind_eq_bind, Option.bind_eq_some_iff, Option.pure_def,
    Option.some.injEq, Prod.mk.injEq] at run
  obtain ⟨started, run, t₀, start, t₁, first, t₂, second, ⟨result, next⟩, evolution, summary,
    success, -, -, rfl⟩ := run
  obtain rfl := ok_of_toOption start
  obtain rfl := ok_of_toOption success
  have reported := ((Lineage.start (ok_of_toOption run)).report (ok_of_toOption first)).report
    (ok_of_toOption second)
  exact (reported.call (.redraw _)).call (.evolve _ _ (ok_of_toOption evolution))

/-- Of two roots only the second has no fitness. Both lack an outcome, until they have
been rewarded. -/
theorem hands_out_in_shortRun : ∃ t n next, Lineage small t ∧ t.Rated ∧
    t.HandsOut unfinished [⟨1⟩, ⟨2⟩] ∧ t.Rewarding unfinished thorough ∧
    t.evaluate unfinished thorough = .ok (.ok n, next) ∧ next.agents unfinished = [] := by
  have run : shortRun.map (fun (_, _, t) => (t.roots, t.wanted unfinished,
      t.roots.map fun id => (t.fitness? id).map Float.isNaN, t.fitnessOf ⟨1⟩ < t.fitnessOf ⟨2⟩)) =
      some ([⟨1⟩, ⟨2⟩], [⟨1⟩, ⟨2⟩], [some false, none], false) := by
    simp only [shortRun, Trainer.evolve, Trainer.advance]
    rw [Selection.run_eq]
    decide +kernel
  obtain ⟨⟨_, summary, t⟩, made, eq⟩ := Option.map_eq_some_iff.1 run
  simp only [Prod.mk.injEq] at eq
  obtain ⟨roots, wanted, numbers, not_less⟩ := eq
  have lineage := lineage_shortRun made
  rw [roots, List.map_cons, List.map_cons, List.cons.injEq, List.cons.injEq] at numbers
  have rated : t.Rated := by
    intro id root x fitness
    rw [roots] at root
    obtain rfl | rfl : id = ⟨1⟩ ∨ id = ⟨2⟩ := by simpa using root
    · rw [fitness] at numbers
      exact Option.some.inj numbers.1
    · rw [fitness] at numbers
      cases numbers.2.1
  have selected : t.selected unfinished = [⟨1⟩, ⟨2⟩] := by
    rw [selected_eq, wanted, if_pos (by rfl)]
    exact List.mergeSort_of_pairwise (by simpa using of_decide_eq_false not_less)
  have rewarding : t.Rewarding unfinished thorough :=
    rewarding_of_rewards fun id _ task skipped => by
      obtain rfl | rfl : task = "task" ∨ task = "other" := by simpa [unfinished] using skipped
      · exact .inr (.inl rfl)
      · exact .inl rfl
  have handsOut := (lineage.hands_out rated unfinished).1
  rw [teams_agents, selected] at handsOut
  have agents : t.agents unfinished = [t.agentOf ⟨1⟩, t.agentOf ⟨2⟩] := by
    rw [Trainer.agents, selected]
    rfl
  let outcomes : Outcomes := ((∅ : Outcomes).insert "other" 1.0).insert "task" 2.0
  have present : ∀ r ∈ [Report.mk ⟨1⟩ outcomes, ⟨⟨2⟩, outcomes⟩],
      t.population.containsTeam r.team = true := by
    intro r listed
    have root : r.team ∈ t.roots := by
      rw [roots]
      simp only [List.mem_cons, List.not_mem_nil, or_false] at listed ⊢
      exact listed.imp (congrArg Report.team) (congrArg Report.team)
    exact (lineage.sound.unreferred root).1
  obtain ⟨c, evaluated⟩ : ∃ c, evaluateAll t.population thorough [t.agentOf ⟨1⟩, t.agentOf ⟨2⟩]
      t.commons = .ok (.ok [⟨⟨1⟩, outcomes⟩, ⟨⟨2⟩, outcomes⟩], c) := ⟨_, rfl⟩
  obtain ⟨next, run⟩ : ∃ next, t.evaluate unfinished thorough = .ok (.ok 2, next) := by
    have applied := applyReports_eq (t := t.withCommons c) present
    simp only [evaluate, agents, evaluated, bind, Except.bind, applied]
    exact ⟨_, rfl⟩
  have nobody := ((lineage.hands_out rated unfinished).2 (by decide) thorough).1 rewarding 2 next run
  exact ⟨t, 2, next, lineage, rated, handsOut, rewarding, run, nobody.2⟩

end Trainer

end TangledGraph
