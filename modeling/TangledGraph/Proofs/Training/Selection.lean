import TangledGraph.Proofs.Training.Culling
import TangledGraph.Proofs.Training.Descent
import TangledGraph.Proofs.Training.Replenishment

/-!
# What selection deletes

The roots are ranked by their scores, of equal ones the earlier first. Selection deletes
the roots at the end of the ranking that are no elites, and with them the learners that
have no other team; everything else stays. Since a gap is less than one, not all roots
are at that end.
-/
namespace TangledGraph

open Rounding

namespace Selection

/-- A place comes before another one: its score is greater, or it is not less and the
place is earlier. -/
def Outranks (fitness : List Float) (i j : Nat) : Prop :=
  ∃ x y, fitness[i]? = some x ∧ fitness[j]? = some y ∧ (y < x ∨ ¬x < y ∧ i < j)

/-- The places of some scores, the best first, of equal ones the earlier. -/
structure Ranking (fitness : List Float) (places : List Nat) : Prop where
  perm : places.Perm (List.range fitness.length)
  ordered : places.Pairwise (Outranks fitness)

variable {roots : List TeamId} {fitness : List Float}

theorem Ranking.nodup {places : List Nat} (h : Ranking fitness places) : places.Nodup :=
  h.perm.nodup_iff.2 List.nodup_range

theorem Ranking.mem_iff {places : List Nat} (h : Ranking fitness places) {i : Nat} :
    i ∈ places ↔ i < fitness.length := by
  rw [h.perm.mem_iff, List.mem_range]

/-- Of scores that are numbers the greater one comes first, of equal ones the earlier. -/
theorem outranks_iff (numbers : ∀ x ∈ fitness, x.isNaN = false) {i j : Nat} {x y : Float}
    (score : fitness[i]? = some x) (score' : fitness[j]? = some y) :
    Outranks fitness i j ↔ rankOf y < rankOf x ∨ ¬rankOf x < rankOf y ∧ i < j := by
  have numberx := numbers x (List.mem_of_getElem? score)
  have numbery := numbers y (List.mem_of_getElem? score')
  simp only [Outranks, score, score', Option.some.injEq, ↓existsAndEq, true_and,
    lt_iff numbery numberx, lt_iff numberx numbery]

/-- Scores that are numbers have one ranking only. -/
theorem Ranking.unique {places places' : List Nat} (h : Ranking fitness places)
    (h' : Ranking fitness places') (numbers : ∀ x ∈ fitness, x.isNaN = false) :
    places = places' := by
  refine (h.perm.trans h'.perm.symm).eq_of_pairwise (fun i j _ _ before after => ?_)
    h.ordered h'.ordered
  obtain ⟨x, y, score, score', -⟩ := id before
  rw [outranks_iff numbers score score'] at before
  rw [outranks_iff numbers score' score] at after
  obtain less | ⟨not_less, earlier⟩ := before <;> obtain less' | ⟨not_less', earlier'⟩ := after
  · exact absurd less' (lt_asymm less)
  · exact absurd less not_less'
  · exact absurd less' not_less
  · exact absurd earlier' (Nat.lt_asymm earlier)

/-- The first of a ranking have scores that are not less than those of the last. -/
theorem Ranking.le {places : List Nat} (h : Ranking fitness places)
    (numbers : ∀ x ∈ fitness, x.isNaN = false) {n i j : Nat} (first : i ∈ places.take n)
    (last : j ∈ places.drop n) {x y : Float} (score : fitness[i]? = some x)
    (score' : fitness[j]? = some y) : y ≤ x := by
  have apart := (List.pairwise_append.1 (List.take_append_drop n places ▸ h.ordered)).2.2
  have before := (outranks_iff numbers score score').1 (apart i first j last)
  rw [le_iff (numbers y (List.mem_of_getElem? score')) (numbers x (List.mem_of_getElem? score))]
  obtain less | ⟨not_less, -⟩ := before
  · exact less.le
  · exact not_lt.1 not_less

/-- A root at the end of a ranking is not better than one that is not there. -/
theorem Ranking.le_of_not_late {places : List Nat} (h : Ranking fitness places)
    (numbers : ∀ x ∈ fitness, x.isNaN = false) (nodup : roots.Nodup) {n i j : Nat}
    {id other : TeamId} {x y : Float} (root : roots[i]? = some id) (score : fitness[i]? = some x)
    (root' : roots[j]? = some other) (score' : fitness[j]? = some y)
    (late : ∃ k ∈ places.drop n, roots[k]? = some id)
    (not_late : ¬∃ k ∈ places.drop n, roots[k]? = some other) : x ≤ y := by
  obtain ⟨k, late, same⟩ := late
  obtain rfl : i = k :=
    (List.getElem?_inj (List.getElem?_eq_some_iff.1 root).1 nodup).1 (root.trans same.symm)
  have ranked : j ∈ places := h.mem_iff.2 (List.getElem?_eq_some_iff.1 score').1
  rw [← List.take_append_drop n places, List.mem_append] at ranked
  have early := ranked.resolve_right fun late' => not_late ⟨j, late', root'⟩
  exact h.le numbers early late score' score

/-- How scores are compared, for all floats: by where they stand. -/
def standsBefore (a b : TeamId × Float) : Bool := rankOf b.2 ≤ rankOf a.2

theorem standsBefore_trans (a b c : TeamId × Float) (h : standsBefore a b = true)
    (h' : standsBefore b c = true) : standsBefore a c = true := by
  simp only [standsBefore, decide_eq_true_iff] at h h' ⊢
  exact h'.trans h

theorem standsBefore_total (a b : TeamId × Float) :
    (standsBefore a b || standsBefore b a) = true := by
  simp only [standsBefore, Bool.or_eq_true, decide_eq_true_iff]
  exact le_total _ _

theorem ranked_eq_mergeSort {scores : List (TeamId × Float)}
    (numbers : ∀ a ∈ scores, a.2.isNaN = false) :
    ranked scores = scores.mergeSort standsBefore := by
  have compared : ∀ a ∈ scores, ∀ b ∈ scores, (!(a.2 < b.2)) = standsBefore a b := by
    intro a ha b hb
    rw [standsBefore, Bool.eq_iff_iff, Bool.not_eq_true', decide_eq_false_iff_not,
      decide_eq_true_iff, lt_iff (numbers a ha) (numbers b hb), not_lt]
  have same := List.map_mergeSort (f := id) compared
  rwa [List.map_id, List.map_id] at same

/-- Of two different places, the one that sorts before the other outranks it. -/
theorem outranks_of_zipIdxLE {a b : (TeamId × Float) × Nat} (score : fitness[a.2]? = some a.1.2)
    (score' : fitness[b.2]? = some b.1.2) (numbers : ∀ x ∈ fitness, x.isNaN = false)
    (before : List.zipIdxLE standsBefore a b = true) (other : a.2 ≠ b.2) :
    Outranks fitness a.2 b.2 := by
  rw [outranks_iff numbers score score']
  by_cases not_less : rankOf b.1.2 ≤ rankOf a.1.2
  case neg => simp [List.zipIdxLE, standsBefore, not_less] at before
  case pos =>
    by_cases same : rankOf a.1.2 ≤ rankOf b.1.2
    · have earlier : a.2 ≤ b.2 := by
        simpa [List.zipIdxLE, standsBefore, not_less, same] using before
      exact .inr ⟨not_lt.2 not_less, Nat.lt_of_le_of_ne earlier other⟩
    · exact .inl (not_le.1 same)

/-- Of scores that are numbers, the ranked teams are those at the places of a ranking. -/
theorem ranked_eq_places (length : fitness.length = roots.length)
    (numbers : ∀ x ∈ fitness, x.isNaN = false) :
    ∃ places, Ranking fitness places ∧
      (ranked (roots.zip fitness)).map (some ∘ Prod.fst) = places.map (roots[·]?) := by
  -- A stable sort is the sort of the scores with their places.
  let sorted := (roots.zip fitness).zipIdx.mergeSort (List.zipIdxLE standsBefore)
  have perm : sorted.Perm (roots.zip fitness).zipIdx := List.mergeSort_perm ..
  have ordered : sorted.Pairwise fun a b => List.zipIdxLE standsBefore a b = true :=
    List.pairwise_mergeSort (List.zipIdxLE_trans standsBefore_trans)
      (List.zipIdxLE_total standsBefore_total) _
  have place : ∀ a ∈ sorted, roots[a.2]? = some a.1.1 ∧ fitness[a.2]? = some a.1.2 := by
    intro a listed
    have entry := List.mem_zipIdx_iff_getElem?.1 (perm.mem_iff.1 listed)
    rw [List.getElem?_zip_eq_some] at entry
    exact entry
  have places : (sorted.map Prod.snd).Perm (List.range fitness.length) := by
    have := perm.map Prod.snd
    rwa [List.zipIdx_map_snd, List.length_zip, length, Nat.min_self, ← List.range_eq_range',
      ← length] at this
  have distinct : sorted.Pairwise fun a b => a.2 ≠ b.2 :=
    List.pairwise_map.1 (places.nodup_iff.2 List.nodup_range)
  refine ⟨sorted.map Prod.snd, ⟨places, List.pairwise_map.2 ?_⟩, ?_⟩
  · exact (ordered.and distinct).imp_of_mem fun ha hb ⟨before, other⟩ =>
      outranks_of_zipIdxLE (place _ ha).2 (place _ hb).2 numbers before other
  · have fsts : sorted.map Prod.fst = ranked (roots.zip fitness) :=
      List.mergeSort_zipIdx.trans
        (ranked_eq_mergeSort fun a listed => numbers a.2 (List.of_mem_zip listed).2).symm
    rw [← fsts, List.map_map, List.map_map]
    exact List.map_congr_left fun a listed => (place a listed).1.symm

/-- The doomed are the roots at the last places that are no elites. -/
theorem mem_doomed_iff (length : fitness.length = roots.length) {places : List Nat}
    (ranks : (ranked (roots.zip fitness)).map (some ∘ Prod.fst) = places.map (roots[·]?))
    {gap : Float} {elites : List TeamId} {id : TeamId} :
    id ∈ doomed (ranked (roots.zip fitness)) gap elites ↔ id ∉ elites ∧
      ∃ i ∈ places.drop (roots.length - condemned roots.length gap), roots[i]? = some id := by
  have size : (ranked (roots.zip fitness)).length = roots.length := by
    rw [(ranked_perm _).length_eq, List.length_zip, length, Nat.min_self]
  have last (n : Nat) : id ∈ ((ranked (roots.zip fitness)).drop n).map Prod.fst ↔
      ∃ i ∈ places.drop n, roots[i]? = some id := by
    have named : id ∈ ((ranked (roots.zip fitness)).drop n).map Prod.fst ↔
        some id ∈ ((ranked (roots.zip fitness)).drop n).map (some ∘ Prod.fst) := by
      simp only [List.mem_map, Function.comp_apply, Option.some.injEq]
    rw [named, List.map_drop, ranks, ← List.map_drop, List.mem_map]
  simp only [doomed, size, List.mem_filter, last]
  simp [and_comm]

end Selection

namespace Trainer

open Selection

variable {s : Settings} {t : Trainer}

/-- What a selection promises for given scores of the roots and given elites, where the
gap condemns the last `k` of the roots. -/
structure Culls (t : Trainer) (fitness : List Float) (elites : List TeamId) (k : Nat)
    (scored : Population) (selection : Selection) : Prop where
  /-- Not all roots are condemned. -/
  fewer : k < t.roots.length
  /-- Those at the end of the ranking go, but for the elites. -/
  gone : ∀ places, Ranking fitness places → ∀ id, t.population.containsTeam id = true →
    (selection.population.containsTeam id = false ↔
      id ∉ elites ∧ ∃ i ∈ places.drop (t.roots.length - k), t.roots[i]? = some id)
  ranking : ∃ places, Ranking fitness places
  survivor : ∃ id ∈ t.roots, selection.population.containsTeam id = true
  /-- No team that goes is better than a root that stays and is no elite. -/
  worse : ∀ {i j : Nat} {id other : TeamId} {x y : Float}, t.roots[i]? = some id →
    fitness[i]? = some x → selection.population.containsTeam id = false →
    t.roots[j]? = some other → fitness[j]? = some y →
    selection.population.containsTeam other = true → other ∉ elites → x ≤ y
  fromRoots : ∀ id, t.population.containsTeam id = true →
    selection.population.containsTeam id = false → id ∈ t.roots
  /-- The numbers are those of the teams and of the learners that are gone. -/
  teams : selection.deletedTeams =
    (t.population.teamIds.filter fun id => !selection.population.containsTeam id).length
  learners : selection.removedLearners =
    (t.population.learnerIds.filter fun l => !selection.population.containsLearner l).length
  /-- A learner goes with the last team that lists it. -/
  bereft : ∀ l, t.population.containsLearner l = true →
    (selection.population.containsLearner l = false ↔
      ∀ id, l ∈ t.population.members id → selection.population.containsTeam id = false)
  /-- Nothing else changes than if all of them went at once. -/
  culled : ∃ away, (∀ id, id ∈ away ↔ t.population.containsTeam id = true ∧
    selection.population.containsTeam id = false) ∧
    Population.Culled away scored selection.population

/-- However the roots are scored, and whichever teams are elites, selection deletes the
worst of the roots without a fault. -/
theorem Lineage.culls_worst (lineage : Lineage s t) {fitness : List Float}
    (length : fitness.length = t.roots.length) (numbers : ∀ x ∈ fitness, x.isNaN = false)
    (elites : List TeamId) :
    ∃ scored selection, setFitnesses t.population (t.roots.zip fitness) = .ok scored ∧
      Selection.run scored (t.roots.zip fitness) t.settings.trainer.gap elites = .ok selection ∧
      t.Culls fitness elites (condemned t.roots.length t.settings.trainer.gap) scored
        selection := by
  have sound := lineage.sound
  have probability : isProbability t.settings.trainer.gap = true :=
    sound.settings ▸ (Settings.valid_of_validate lineage.valid).gap
  obtain ⟨scored, written, selects⟩ := sound.selection_ok fitness t.settings.trainer.gap elites
  obtain ⟨selection, selected⟩ := selects _ (ranked_perm _)
  refine ⟨scored, selection, written, selected, ?_⟩
  have thins := sound.thins written selected
  obtain ⟨places, ranking, ranks⟩ := ranked_eq_places length numbers
  have gone {id : TeamId} (there : t.population.containsTeam id = true) :
      selection.population.containsTeam id = false ↔ id ∉ elites ∧
        ∃ i ∈ places.drop (t.roots.length - condemned t.roots.length t.settings.trainer.gap),
          t.roots[i]? = some id :=
    (thins.gone_iff there).trans (mem_doomed_iff length ranks)
  have there {i : Nat} {id : TeamId} (root : t.roots[i]? = some id) :
      t.population.containsTeam id = true :=
    (sound.unreferred (List.mem_of_getElem? root)).1
  constructor
  case fewer => exact condemned_lt probability (List.length_pos_iff.2 lineage.roots_ne_nil)
  case ranking => exact ⟨places, ranking⟩
  case gone =>
    intro places' ranking' id there
    obtain rfl := ranking'.unique ranking numbers
    exact gone there
  case survivor =>
    have short : (ranked (t.roots.zip fitness)).length ≤ t.roots.length := by
      rw [(ranked_perm _).length_eq, List.length_zip, length, Nat.min_self]
    obtain ⟨id, root, spared⟩ :
        ∃ id ∈ t.roots, id ∉ doomed (ranked (t.roots.zip fitness)) t.settings.trainer.gap elites :=
      exists_spared sound.nodup_roots lineage.roots_ne_nil short probability
    exact ⟨id, root, (thins.teams id).2 ⟨(sound.unreferred root).1, spared⟩⟩
  case worse =>
    intro i j id other x y root score away root' score' stays common
    obtain ⟨-, late⟩ := (gone (there root)).1 away
    refine ranking.le_of_not_late numbers sound.nodup_roots root score root' score' late ?_
    exact fun late' => absurd stays (Bool.not_eq_true _ ▸ (gone (there root')).2 ⟨common, late'⟩)
  case fromRoots =>
    intro id there away
    obtain ⟨-, i, -, root⟩ := (gone there).1 away
    exact List.mem_of_getElem? root
  case teams => exact thins.deletedTeams_eq
  case learners => exact thins.removedLearners_eq
  case bereft => exact fun l there => thins.bereft_iff there
  case culled =>
    refine ⟨_, fun id => ?_, thins.culled⟩
    refine ⟨fun doomed => ?_, fun ⟨there, away⟩ => (thins.gone_iff there).1 away⟩
    obtain ⟨-, i, -, root⟩ := (mem_doomed_iff length ranks).1 doomed
    exact ⟨there root, (thins.gone_iff (there root)).2 doomed⟩

/-- Of two roots with equal scores the later one goes. -/
theorem culls_worst_in_shortRun : ∃ t scored selection, Lineage small t ∧
    setFitnesses t.population (t.roots.zip [1.0, 1.0]) = .ok scored ∧
    Selection.run scored (t.roots.zip [1.0, 1.0]) t.settings.trainer.gap [] = .ok selection ∧
    t.Culls [1.0, 1.0] [] 1 scored selection ∧
    selection.population.containsTeam ⟨0⟩ = true ∧
    selection.population.containsTeam ⟨1⟩ = false := by
  obtain ⟨t₀, t₁, t, stream, summary, next, start, first, second, -, roots, -⟩ := shortRun_calls
  have lineage : Lineage small t := ((Lineage.start start).report first).report second
  have numbers : ∀ x ∈ ([1.0, 1.0] : List Float), x.isNaN = false := by decide
  obtain ⟨scored, selection, written, selected, culls⟩ :=
    lineage.culls_worst (by rw [roots]; rfl) numbers []
  have half : condemned t.roots.length t.settings.trainer.gap = 1 := by
    rw [roots, lineage.sound.settings]
    decide +kernel
  rw [half] at culls
  have ranking : Ranking [1.0, 1.0] [0, 1] := by
    refine ⟨.refl _, List.pairwise_pair.2 ⟨1.0, 1.0, rfl, rfl, .inr ⟨by decide, Nat.zero_lt_one⟩⟩⟩
  have there (id : TeamId) (root : id ∈ t.roots) := (lineage.sound.unreferred root).1
  have gone (id : TeamId) (root : id ∈ t.roots) := culls.gone _ ranking id (there id root)
  simp only [roots] at gone
  refine ⟨t, scored, selection, lineage, written, selected, culls, ?_, ?_⟩
  · have stays := (gone ⟨0⟩ (by simp)).not.2 (by simp)
    exact Bool.not_eq_false _ ▸ stays
  · exact (gone ⟨1⟩ (by simp)).2 (by simp)

end Trainer

end TangledGraph
