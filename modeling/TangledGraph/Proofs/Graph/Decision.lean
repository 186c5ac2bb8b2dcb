import Mathlib.Data.List.Perm.Subperm
import TangledGraph.Graph.Decision
import TangledGraph.Proofs.Graph.Outline
import TangledGraph.Proofs.Machine.Totality

/-!
# Decisions always end in a code

A walk visits no team twice, so it ends within as many teams as there are. At
each of them some learner may be followed, since a team has a learner with a
code. Teams may lead to each other in any way; the measure of the walk is the
number of teams that it has not visited. A greater bound on a walk would change
nothing.
-/
namespace TangledGraph

open Draw

namespace Mind

/-- The memory, if there is one, is full. -/
def Full (m : Mind) : Prop := ∀ memory, m.memory = some memory → memory.Full

variable {m : Mind}

theorem runProgram_ok (full : m.Full) (l : LearnerId) (program : Program)
    (input : Array Float) :
    ∃ value m', m.runProgram l program input = .ok (value, m') ∧ m'.Full := by
  have full' : Machine.Full ⟨m.context.startRegisters l, m.memory⟩ := full
  obtain ⟨⟨value, machine⟩, stream, run, h⟩ :=
    Machine.execute_gives full' program.instructions input m.context.stream
  refine ⟨value, ⟨{ m.context with
    registers := m.context.registers.insert l machine.registers, stream }, machine.memory⟩, ?_, h⟩
  simp only [runProgram, run]
  rfl

/-- Every learner gives a bid, whatever was kept from earlier decisions. -/
theorem bid_ok (full : m.Full) (l : LearnerId) (learner : Learner) (input : Array Float) :
    ∃ value m', m.bid l learner input = .ok (value, m') ∧ m'.Full := by
  unfold bid
  cases m.context.cachedBid? l with
  | some value => exact ⟨value, m, rfl, full⟩
  | none =>
    obtain ⟨value, m', run, full'⟩ := runProgram_ok full l learner.program input
    refine ⟨value, { m' with context := m'.context.storeBid l value }, ?_, full'⟩
    simp only [run]
    rfl

end Mind

/-- What is known of a walk on its way: the teams visited are there, and no two
are the same. -/
structure Walk.Sound (w : Walk) (p : Population) : Prop where
  nodup : w.visited.Nodup
  there : ∀ t ∈ w.visited, p.containsTeam t
  full : w.mind.Full

namespace Population

variable {p : Population} {input : Array Float} {visited : List TeamId}

/-- The learners and the targets on record are there, and every team has a
learner with a code. -/
structure Complete (p : Population) : Prop where
  learners : ∀ {t team}, p.team? t = some team →
    ∀ l ∈ team.learners, ∃ learner, p.learner? l = some learner
  targets : ∀ {l learner u}, p.learner? l = some learner → learner.target? = some u →
    ∃ team, p.team? u = some team
  atomic : ∀ {t team}, p.team? t = some team →
    ∃ l ∈ team.learners, ∃ learner, p.learner? l = some learner ∧ learner.isAtomic

theorem isEligible_of_isAtomic {learner : Learner} (h : learner.isAtomic = true) :
    learner.isEligible visited = true := by
  cases action : learner.action with
  | atomic code => simp [Learner.isEligible, Learner.target?, action]
  | team t => simp [Learner.isAtomic, action] at h

/-- A learner is passed over, or it bids and may take the lead. -/
theorem winner_cons_eq_ok {l : LearnerId} {ls : List LearnerId} {leader leader' : Leader}
    {m m' : Mind} : p.winner input visited (l :: ls) leader m = .ok (leader', m') ↔
      ∃ learner, p.learner? l = some learner ∧
        (learner.isEligible visited = false ∧
            p.winner input visited ls leader m = .ok (leader', m') ∨
          learner.isEligible visited = true ∧ ∃ bid m₁, m.bid l learner input = .ok (bid, m₁) ∧
            p.winner input visited ls
              (if leader.isBeatenBy bid then some (learner, bid) else leader) m₁ =
                .ok (leader', m')) := by
  simp only [winner, bind_eq_ok, getLearner_eq_ok]
  refine exists_congr fun learner => and_congr_right fun _ => ?_
  cases eligible : learner.isEligible visited with
  | false => simp
  | true => simp [bind_eq_ok]

/-- What every bid keeps, whether it takes the lead or not, is kept to the end of
a bidding. -/
theorem winner_induction (I : Leader → Mind → Prop) {ls : List LearnerId}
    (keep : ∀ l ∈ ls, ∀ learner, p.learner? l = some learner → learner.isEligible visited = true →
      ∀ leader m bid m', I leader m → m.bid l learner input = .ok (bid, m') →
        I leader m' ∧ I (some (learner, bid)) m')
    {leader leader' : Leader} {m m' : Mind} (start : I leader m)
    (run : p.winner input visited ls leader m = .ok (leader', m')) : I leader' m' := by
  induction ls generalizing leader m with
  | nil =>
    simp only [winner, pure_eq_ok, Prod.mk.injEq] at run
    exact run.1 ▸ run.2 ▸ start
  | cons l ls ih =>
    obtain ⟨first, others⟩ := List.forall_mem_cons.1 keep
    obtain ⟨learner, enlisted, ⟨-, run⟩ | ⟨eligible, bid, m₁, bids, run⟩⟩ :=
      winner_cons_eq_ok.1 run
    · exact ih others start run
    · obtain ⟨stays, leads⟩ := first learner enlisted eligible leader m bid m₁ start bids
      refine ih others ?_ run
      split
      · exact leads
      · exact stays

/-- The learner that leads is one of those before it or an eligible one of the list. -/
theorem winner_source {ls : List LearnerId} {leader leader' : Leader} {m m' : Mind}
    (run : p.winner input visited ls leader m = .ok (leader', m')) :
    ∀ best ∈ leader', best ∈ leader ∨
      ∃ l ∈ ls, p.learner? l = some best.1 ∧ best.1.isEligible visited = true := by
  refine winner_induction (fun now _ => ∀ best ∈ now, best ∈ leader ∨
    ∃ l ∈ ls, p.learner? l = some best.1 ∧ best.1.isEligible visited = true) ?_
      (fun best => .inl) run
  intro l listed learner enlisted eligible now m bid m' before bids
  refine ⟨before, fun best leads => ?_⟩
  obtain rfl := Option.some.inj leads
  exact .inr ⟨l, listed, enlisted, eligible⟩

/-- Where some learner leads, one does to the end. -/
theorem winner_isSome {ls : List LearnerId} {leader leader' : Leader} {m m' : Mind}
    (run : p.winner input visited ls leader m = .ok (leader', m')) (leads : leader.isSome = true) :
    leader'.isSome = true :=
  winner_induction (fun now _ => now.isSome = true)
    (fun _ _ _ _ _ _ _ _ _ before _ => ⟨before, rfl⟩) leads run

/-- An eligible learner leads, or another one does. -/
theorem winner_isSome_of_eligible {ls : List LearnerId} {leader leader' : Leader} {m m' : Mind}
    {l : LearnerId} {learner : Learner} (listed : l ∈ ls) (enlisted : p.learner? l = some learner)
    (eligible : learner.isEligible visited = true)
    (run : p.winner input visited ls leader m = .ok (leader', m')) : leader'.isSome = true := by
  induction ls generalizing leader m with
  | nil => cases listed
  | cons k ls ih =>
    obtain ⟨learner', enlisted', ⟨passed, run⟩ | ⟨-, bid, m₁, -, run⟩⟩ := winner_cons_eq_ok.1 run
    · obtain rfl | later := List.mem_cons.1 listed
      · obtain rfl := Option.some.inj (enlisted.symm.trans enlisted')
        cases passed.symm.trans eligible
      · exact ih later run
    · refine winner_isSome run ?_
      cases leader with
      | none => rfl
      | some best => split <;> rfl

/-- A bidding of learners that are there ends. -/
theorem winner_total (input : Array Float) (visited : List TeamId) {ls : List LearnerId}
    (there : ∀ l ∈ ls, ∃ learner, p.learner? l = some learner) {m : Mind} (full : m.Full)
    (leader : Leader) :
    ∃ leader' m', p.winner input visited ls leader m = .ok (leader', m') ∧ m'.Full := by
  induction ls generalizing leader m with
  | nil => exact ⟨leader, m, rfl, full⟩
  | cons l ls ih =>
    obtain ⟨⟨learner, enlisted⟩, rest⟩ := List.forall_mem_cons.1 there
    cases eligible : learner.isEligible visited with
    | false =>
      obtain ⟨leader', m', run, full'⟩ := ih rest full leader
      exact ⟨leader', m', winner_cons_eq_ok.2 ⟨learner, enlisted, .inl ⟨eligible, run⟩⟩, full'⟩
    | true =>
      obtain ⟨bid, m₁, bids, full₁⟩ := Mind.bid_ok full l learner input
      obtain ⟨leader', m', run, full'⟩ := ih rest full₁ _
      exact ⟨leader', m', winner_cons_eq_ok.2
        ⟨learner, enlisted, .inr ⟨eligible, bid, m₁, bids, run⟩⟩, full'⟩

/-- The bidding of a team ends with an eligible learner of it in the lead. -/
theorem winner_ok (complete : p.Complete) (input : Array Float) (visited : List TeamId)
    {t : TeamId} {team : Team} (found : p.team? t = some team) {m : Mind} (full : m.Full) :
    ∃ best m', p.winner input visited team.learners none m = .ok (some best, m') ∧ m'.Full ∧
      ∃ l ∈ team.learners, p.learner? l = some best.1 ∧ best.1.isEligible visited = true := by
  obtain ⟨leader, m', run, full'⟩ :=
    winner_total input visited (complete.learners found) full none
  obtain ⟨l, listed, learner, enlisted, atomic⟩ := complete.atomic found
  obtain ⟨best, rfl⟩ := Option.isSome_iff_exists.1
    (winner_isSome_of_eligible listed enlisted (isEligible_of_isAtomic atomic) run)
  exact ⟨best, m', run, full', (winner_source run best rfl).resolve_left nofun⟩

/-- Different teams are no more than there are teams. -/
theorem length_le_teamCount {ts : List TeamId} (nodup : ts.Nodup)
    (there : ∀ t ∈ ts, p.containsTeam t) : ts.length ≤ p.teamCount := by
  have sub : ts ⊆ p.teams.keys := fun t ht => Std.ExtTreeMap.mem_keys.2 (there t ht)
  calc ts.length ≤ p.teams.keys.length := (List.subperm_of_subset nodup sub).length_le
    _ = p.teamCount := Std.ExtTreeMap.length_keys

theorem visit {t : TeamId} {team : Team} (found : p.team? t = some team) (nodup : visited.Nodup)
    (there : ∀ u ∈ visited, p.containsTeam u) (new : t ∉ visited) :
    (visited ++ [t]).Nodup ∧ ∀ u ∈ visited ++ [t], p.containsTeam u := by
  constructor
  · simpa [List.nodup_append] using ⟨nodup, fun u hu eq => new (eq ▸ hu)⟩
  · simpa [or_imp, forall_and] using ⟨there, containsTeam_of_team? found⟩

/-- A learner that is followed leads to a team that is not visited yet. -/
theorem not_mem_of_isEligible {learner : Learner} {u : TeamId}
    (eligible : learner.isEligible visited = true) (leads : learner.target? = some u) :
    u ∉ visited := by
  simpa only [Learner.isEligible, leads, Bool.not_eq_true', List.contains_eq_mem,
    decide_eq_false_iff_not] using eligible

/-- A walk with enough fuel left for all the teams that it has not visited ends
in the code of a learner. -/
theorem walk_ok (complete : p.Complete) {fuel : Nat} {t : TeamId} {team : Team} {w : Walk}
    (found : p.team? t = some team) (sound : w.Sound p) (new : t ∉ w.visited)
    (enough : p.teamCount < fuel + w.visited.length) :
    ∃ code w', p.walk input fuel t team w = .ok (.ok code, w') ∧ w'.Sound p ∧
      ∃ l learner, p.learner? l = some learner ∧ learner.action = .atomic code := by
  induction fuel generalizing t team w with
  | zero =>
    have := length_le_teamCount sound.nodup sound.there
    omega
  | succ fuel ih =>
    obtain ⟨nodup, there⟩ := visit found sound.nodup sound.there new
    obtain ⟨⟨best, bid⟩, mind, run, full, k, -, enlisted', eligible⟩ :=
      winner_ok complete input (w.visited ++ [t]) found sound.full
    have walked : Walk.Sound ⟨w.visited ++ [t], mind⟩ p := ⟨nodup, there, full⟩
    simp only [walk]
    rw [if_neg new, run]
    simp only [bind, Except.bind]
    cases action : best.action with
    | atomic code => exact ⟨code, _, rfl, walked, k, best, enlisted', action⟩
    | team target =>
      have leads : best.target? = some target := by simp [Learner.target?, action]
      obtain ⟨next, found'⟩ := complete.targets enlisted' leads
      simp only [found']
      refine ih found' walked (not_mem_of_isEligible eligible leads) ?_
      rw [List.length_append, List.length_singleton]
      omega

/-- With enough fuel for all the teams that it has not visited, a walk does not depend
on the fuel that is left, whatever it ends in. -/
theorem walk_of_enough {fuel : Nat} {t : TeamId} {team : Team} {w : Walk}
    (found : p.team? t = some team) (nodup : w.visited.Nodup)
    (there : ∀ u ∈ w.visited, p.containsTeam u) (enough : p.teamCount < fuel + w.visited.length)
    (more : Nat) : p.walk input (fuel + more) t team w = p.walk input fuel t team w := by
  induction fuel generalizing t team w with
  | zero =>
    have := length_le_teamCount nodup there
    omega
  | succ fuel ih =>
    rw [Nat.succ_add]
    simp only [walk]
    by_cases again : t ∈ w.visited
    case pos => rw [if_pos again, if_pos again]
    case neg =>
      rw [if_neg again, if_neg again]
      cases won : p.winner input (w.visited ++ [t]) team.learners none w.mind with
      | error fault => rfl
      | ok ended =>
        obtain ⟨leader, mind⟩ := ended
        simp only [bind, Except.bind]
        cases leader with
        | none => rfl
        | some best =>
          obtain ⟨best, bid⟩ := best
          cases leads : best.action with
          | atomic code => simp only [leads]
          | team target =>
            simp only [leads]
            cases found' : p.team? target with
            | none => rfl
            | some next =>
              obtain ⟨nodup', there'⟩ := visit found nodup there again
              refine ih found' nodup' there' ?_
              rw [List.length_append, List.length_singleton]
              omega

/-- A decision of any team in any context is a code of some learner, and no
team is visited twice on the way to it. -/
theorem decideFrom_ok (complete : p.Complete) {t : TeamId} (there : p.containsTeam t)
    {m : Mind} (full : m.Full) (input : Array Float) :
    ∃ code w, p.decideFrom input t ⟨[], m⟩ = .ok (.ok code, w) ∧ w.Sound p ∧
      ∃ l learner, p.learner? l = some learner ∧ learner.action = .atomic code := by
  obtain ⟨team, found⟩ := containsTeam_iff.1 there
  simp only [decideFrom, found]
  exact walk_ok complete found ⟨List.nodup_nil, by simp, full⟩ (by simp) (by simp)

theorem act_eq_decideFrom {t : TeamId} (there : p.containsTeam t) (input : Array Float)
    (m : Mind) : p.act t input m = (fun decided => (decided.1, decided.2.mind)) <$>
      p.decideFrom input t ⟨[], { m with context := m.context.beginFrame }⟩ := by
  simp only [act, there, if_true, map_eq_pure_bind]

end Population

end TangledGraph
