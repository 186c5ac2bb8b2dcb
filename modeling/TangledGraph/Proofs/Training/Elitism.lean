import TangledGraph.Proofs.Scoring.Champions
import TangledGraph.Proofs.Training.Lineage
import TangledGraph.Proofs.Training.Recording
import TangledGraph.Proofs.Training.Replenishment

/-!
# The best of each task are kept

The elites of a generation are the champions of its tasks: for each task the earliest
of the roots with the best outcome. However the roots are scored, selection spares the
elites, and since no action may lead to one, they are still roots in the end.
-/
namespace TangledGraph.Trainer

variable {s : Settings} {t next : Trainer} {tasks : List String}

/-- A team is the earliest of the roots with the best outcome on a task: no root has a
better one, and each earlier root has a worse one. -/
def Wins (t : Trainer) (id : TeamId) (task : String) : Prop :=
  ∃ (i : Nat) (x : Float), t.roots[i]? = some id ∧ t.outcome? id task = some x ∧
    (∀ r ∈ t.roots, ∃ y, t.outcome? r task = some y ∧ y ≤ x) ∧
    ∀ j < i, ∀ r, t.roots[j]? = some r → ∃ y, t.outcome? r task = some y ∧ y < x

theorem outcomeRow_eq_ok {id : TeamId} {row : Scoring.Row}
    (run : t.outcomeRow tasks id = .ok row) :
    List.Forall₂ (fun task x => t.outcome? id task = some x) tasks row := by
  unfold outcomeRow at run
  cases found : t.population.team? id with
  | none => simp [found, throw, throwThe, MonadExceptOf.throw] at run
  | some team =>
    rw [found] at run
    obtain ⟨e, -, refused⟩ | ⟨-, outcomes, run', each⟩ := mapM_cases (outcomeOf id team) tasks
    · simp [refused] at run
    · obtain rfl := Except.ok.inj (run'.symm.trans run)
      refine each.imp fun task x there => ?_
      rw [outcome?, found, Option.bind_some]
      unfold outcomeOf at there
      cases outcome : team.outcome? task with
      | none => simp [outcome, throw, throwThe, MonadExceptOf.throw] at there
      | some y =>
        simp only [outcome, pure, Except.pure, Except.ok.injEq] at there
        rw [there]

/-- A matrix has the outcomes of the roots on the tasks. -/
structure Records (t : Trainer) (tasks : List String) (m : Scoring.Matrix) : Prop where
  rows : m.length = t.roots.length
  columns : ∀ row ∈ m, row.length = tasks.length
  outcome : ∀ {i k : Nat} {id : TeamId} {task : String}, t.roots[i]? = some id →
    tasks[k]? = some task → t.outcome? id task = some (Scoring.cell m i k)

theorem records_of_outcomeMatrix {outcomes : Scoring.Matrix}
    (run : t.outcomeMatrix tasks = .ok outcomes) :
    t.Records (t.effectiveTasks tasks) outcomes := by
  unfold outcomeMatrix at run
  generalize t.effectiveTasks tasks = effective at run ⊢
  have run : t.roots.mapM (t.outcomeRow effective) = .ok outcomes := by
    cases none : effective.isEmpty with
    | true => simp [none, bind, Except.bind, throw, throwThe, MonadExceptOf.throw] at run
    | false => simpa [none, bind, Except.bind, pure, Except.pure] using run
  obtain ⟨e, -, refused⟩ | ⟨-, rows, run', each⟩ := mapM_cases (t.outcomeRow effective) t.roots
  · simp [refused] at run
  obtain rfl := Except.ok.inj (run'.symm.trans run)
  have length := each.length_eq
  have row {i : Nat} (root : i < t.roots.length) (inside : i < rows.length) :
      List.Forall₂ (fun task x => t.outcome? t.roots[i] task = some x) effective rows[i] :=
    outcomeRow_eq_ok (each.get root inside)
  refine ⟨length.symm, fun r listed => ?_, fun {i k id task} root column => ?_⟩
  · obtain ⟨i, inside, rfl⟩ := List.getElem_of_mem listed
    exact (row (length ▸ inside) inside).length_eq.symm
  · obtain ⟨listed, rfl⟩ := List.getElem?_eq_some_iff.1 root
    obtain ⟨counts, rfl⟩ := List.getElem?_eq_some_iff.1 column
    have inside : i < rows.length := length ▸ listed
    have entries := row listed inside
    have place : k < rows[i].length := entries.length_eq ▸ counts
    have there : Scoring.cell rows i k = rows[i][k] := by
      rw [Scoring.cell, List.getD_eq_getElem _ _ inside, Scoring.entry,
        List.getD_eq_getElem _ _ place]
    exact there ▸ entries.get counts place

namespace Records

variable {m : Scoring.Matrix} (records : t.Records tasks m)
include records

theorem numeric (numbers : ∀ id ∈ t.roots, ∀ task ∈ tasks, ∀ x, t.outcome? id task = some x →
    x.isNaN = false) : ∀ row ∈ m, Scoring.Numeric row := by
  intro row listed
  refine Scoring.numeric_of_forall fun x there => ?_
  obtain ⟨i, inside, rfl⟩ := List.getElem_of_mem listed
  obtain ⟨k, place, rfl⟩ := List.getElem_of_mem there
  have root : i < t.roots.length := records.rows ▸ inside
  have column : k < tasks.length := records.columns _ listed ▸ place
  have outcome := records.outcome (List.getElem?_eq_getElem root) (List.getElem?_eq_getElem column)
  rw [Scoring.cell, List.getD_eq_getElem _ _ inside, Scoring.entry,
    List.getD_eq_getElem _ _ place] at outcome
  exact numbers _ (List.getElem_mem root) _ (List.getElem_mem column) _ outcome

theorem width_eq (some_root : t.roots ≠ []) : Scoring.width m = tasks.length := by
  cases m with
  | nil => exact absurd (List.length_eq_zero_iff.1 records.rows.symm) some_root
  | cons row rest => exact records.columns row List.mem_cons_self

/-- The earliest row with the best outcome is that of the team that wins. -/
theorem leads_iff (nodup : t.roots.Nodup) {i k : Nat} {id : TeamId} {task : String}
    (root : t.roots[i]? = some id) (column : tasks[k]? = some task) :
    Scoring.Leads m k i ↔ t.Wins id task := by
  have inside : i < t.roots.length := (List.getElem?_eq_some_iff.1 root).1
  constructor
  · intro leads
    refine ⟨i, _, root, records.outcome root column, fun r listed => ?_,
      fun j earlier r other => ?_⟩
    · obtain ⟨j, place, rfl⟩ := List.getElem_of_mem listed
      exact ⟨_, records.outcome (List.getElem?_eq_getElem place) column,
        leads.best j (records.rows ▸ place)⟩
    · exact ⟨_, records.outcome other column, leads.first j earlier⟩
  · rintro ⟨i', x, root', won, best, first⟩
    obtain rfl : i = i' := (List.getElem?_inj inside nodup).1 (root.trans root'.symm)
    have own : x = Scoring.cell m i k :=
      Option.some.inj (won.symm.trans (records.outcome root column))
    refine ⟨records.rows.symm ▸ inside, fun j place => ?_, fun j earlier => ?_⟩
    · have listed : j < t.roots.length := records.rows ▸ place
      have other := List.getElem?_eq_getElem listed
      obtain ⟨y, outcome, le⟩ := best _ (List.mem_of_getElem? other)
      rw [records.outcome other column] at outcome
      exact own ▸ Option.some.inj outcome ▸ le
    · have other := List.getElem?_eq_getElem (earlier.trans inside)
      obtain ⟨y, outcome, less⟩ := first j earlier _ other
      rw [records.outcome other column] at outcome
      exact own ▸ Option.some.inj outcome ▸ less

end Records

/-- What elitism promises of a generation: the elites are the teams that win a task, each
once, in the order of the first task that each of them wins, and they are still roots. -/
structure Crowns (t next : Trainer) (tasks : List String) : Prop where
  nodup : next.elites.Nodup
  champions : ∀ id, id ∈ next.elites ↔ ∃ task ∈ tasks, t.Wins id task
  ordered : next.elites.Pairwise fun a b => ∃ (k : Nat) (task : String),
    tasks[k]? = some task ∧ t.Wins a task ∧
      ∀ l ≤ k, ∀ other, tasks[l]? = some other → ¬t.Wins b other
  kept : ∀ id ∈ next.elites, next.population.containsTeam id = true ∧
    id ∈ next.population.roots ∧ id ∈ next.roots

/-- The champions of a matrix stand for the teams that win. -/
theorem Records.champions {m : Scoring.Matrix} (records : t.Records tasks m)
    (nodup : t.roots.Nodup) (numbers : ∀ row ∈ m, Scoring.Numeric row) {elites : List TeamId}
    (chosen : elites = (Scoring.elites m).filterMap fun i => t.roots[i]?) :
    elites.Nodup ∧ (∀ id, id ∈ elites ↔ ∃ task ∈ tasks, t.Wins id task) ∧
      elites.Pairwise fun a b => ∃ (k : Nat) (task : String),
        tasks[k]? = some task ∧ t.Wins a task ∧
          ∀ l ≤ k, ∀ other, tasks[l]? = some other → ¬t.Wins b other := by
  obtain ⟨once, winners, ordered⟩ := Scoring.elites_spec numbers
  have column {i k : Nat} {id : TeamId} (root : t.roots[i]? = some id)
      (inside : k < Scoring.width m) : ∃ task, tasks[k]? = some task := by
    rw [records.width_eq (List.ne_nil_of_mem (List.mem_of_getElem? root))] at inside
    exact ⟨_, List.getElem?_eq_getElem inside⟩
  subst chosen
  refine ⟨?_, fun id => ?_, ?_⟩
  · refine List.Pairwise.filterMap _ (fun i j apart id root id' root' same => ?_) once
    have inside := (List.getElem?_eq_some_iff.1 root).1
    exact apart ((List.getElem?_inj inside nodup).1 (root.trans (same ▸ root'.symm)))
  · rw [List.mem_filterMap]
    constructor
    · rintro ⟨i, winner, root⟩
      obtain ⟨k, inside, leads⟩ := (winners i).1 winner
      obtain ⟨task, there⟩ := column root inside
      exact ⟨task, List.mem_of_getElem? there, (records.leads_iff nodup root there).1 leads⟩
    · rintro ⟨task, listed, wins⟩
      obtain ⟨k, inside, rfl⟩ := List.getElem_of_mem listed
      have there := List.getElem?_eq_getElem inside
      obtain ⟨i, x, root, better⟩ := wins
      have some_root := List.ne_nil_of_mem (List.mem_of_getElem? root)
      exact ⟨i, (winners i).2 ⟨k, records.width_eq some_root ▸ inside,
        (records.leads_iff nodup root there).2 ⟨i, x, root, better⟩⟩, root⟩
  · refine ordered.filterMap _ fun i j ⟨k, inside, leads, before⟩ a root b root' => ?_
    obtain ⟨task, there⟩ := column root inside
    refine ⟨k, task, there, (records.leads_iff nodup root there).1 leads,
      fun l le other there' wins => ?_⟩
    exact before l le ((records.leads_iff nodup root' there').2 wins)

/-- Elitism never loses the best: the roots with the best outcomes are the elites, and
they are roots after the generation, however they were scored. -/
theorem Lineage.keeps_best (lineage : Lineage s t) (elitist : s.trainer.elitist = true)
    {mode : Scoring.Mode} {summary : Summary}
    (run : t.evolve tasks mode = .ok (.ok summary, next))
    (numbers : ∀ id ∈ t.roots, ∀ task ∈ t.effectiveTasks tasks, ∀ x,
      t.outcome? id task = some x → x.isNaN = false) :
    t.Crowns next (t.effectiveTasks tasks) := by
  have sound := lineage.sound
  obtain ⟨elites, selection, brood, _, _, pruned, ended, selects, filled, pruning, rfl, -⟩ :=
    evolve_parts run
  obtain ⟨outcomes, _, fitness, _, p, matrix, -, -, chosen, -⟩ := selects
  have records := records_of_outcomeMatrix matrix
  have elites_eq : elites = (Scoring.elites outcomes).filterMap fun i => t.roots[i]? := by
    rw [chooseElites, sound.settings, if_pos elitist] at chosen
    simp only [bind_eq_ok, pure_eq_ok] at chosen
    obtain ⟨places, full, eq⟩ := chosen
    rw [Scoring.ifFull_ok records.columns, Except.ok.injEq] at full
    exact full ▸ eq.symm
  have after : ended.elites = elites := by
    simp only [nextGeneration, bind_eq_ok, pure_eq_ok, Prod.mk.injEq] at pruning
    obtain ⟨_, -, -, rfl⟩ := pruning
    rfl
  obtain ⟨once, winners, ordered⟩ :=
    records.champions sound.nodup_roots (records.numeric numbers) elites_eq
  have sound' := (lineage.call (.evolve tasks mode run)).sound
  refine ⟨after ▸ once, after ▸ winners, after ▸ ordered, fun id elite => ?_⟩
  have root := sound'.elites id elite
  exact ⟨(sound'.unreferred root).1, sound'.roots ▸ root, root⟩

/-- The second of two teams has the greater outcome, and stays. -/
theorem keeps_best_in_shortRun : ∃ t summary next, Lineage small t ∧
    small.trainer.elitist = true ∧ t.evolve ["task"] .single = .ok (.ok summary, next) ∧
    t.outcome? ⟨0⟩ "task" = some 1.0 ∧ t.outcome? ⟨1⟩ "task" = some 2.0 ∧
    t.Crowns next ["task"] ∧ ⟨1⟩ ∈ next.elites ∧ ⟨1⟩ ∈ next.roots := by
  obtain ⟨t₀, t₁, t₂, stream, summary, next, start, first, second, evolution, before, -⟩ :=
    shortRun_calls
  have scored := ((Lineage.start start).report first).report second
  obtain ⟨there, rfl⟩ := (reportOutcome_eq_ok (o := ⟨⟨0⟩, "task", 1.0⟩)).1 first
  obtain ⟨there', rfl⟩ := (reportOutcome_eq_ok (o := ⟨⟨1⟩, "task", 2.0⟩)).1 second
  set t₂ := (t₀.recorded ⟨⟨0⟩, "task", 1.0⟩).recorded ⟨⟨1⟩, "task", 2.0⟩
  have low : t₂.outcome? ⟨0⟩ "task" = some 1.0 := by
    rw [outcome?_recorded there', outcome?_recorded there]
    rfl
  have high : t₂.outcome? ⟨1⟩ "task" = some 2.0 := by
    rw [outcome?_recorded there']
    rfl
  have crowns : Crowns { t₂ with stream } next ["task"] := by
    refine (scored.call (.redraw stream)).keeps_best rfl evolution
      fun id root task listed x known => ?_
    obtain rfl := List.mem_singleton.1 listed
    obtain rfl | rfl : id = ⟨0⟩ ∨ id = ⟨1⟩ := by simpa [before] using root
    · exact Option.some.inj (low.symm.trans known) ▸ rfl
    · exact Option.some.inj (high.symm.trans known) ▸ rfl
  have wins : Wins { t₂ with stream } ⟨1⟩ "task" := by
    refine ⟨1, 2.0, by simp [before], high, fun r root => ?_, fun j earlier r root => ?_⟩
    · obtain rfl | rfl : r = ⟨0⟩ ∨ r = ⟨1⟩ := by simpa [before] using root
      · exact ⟨1.0, low, by decide⟩
      · exact ⟨2.0, high, by decide⟩
    · obtain rfl : j = 0 := Nat.lt_one_iff.1 earlier
      obtain rfl : ⟨0⟩ = r := by simpa [before] using root
      exact ⟨1.0, low, by decide⟩
  have elite := (crowns.champions ⟨1⟩).2 ⟨"task", List.mem_cons_self, wins⟩
  exact ⟨_, summary, next, scored.call (.redraw stream), rfl, evolution, low, high, crowns, elite,
    (crowns.kept ⟨1⟩ elite).2.2⟩

end TangledGraph.Trainer
