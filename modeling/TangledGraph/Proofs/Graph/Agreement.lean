import TangledGraph.Proofs.Graph.Decision

/-!
# Populations that agree on some teams

Two populations agree on a set of teams if these have the same lists in both,
the learners on them the same policies, and no action leads out of the set. A
walk from such a team is the same walk in both: a bid depends on the program of
a learner alone, and where the winner leads on its action alone. The numbers of
teams may differ, but they only bound the walks, and no walk reaches its bound.
So decisions are the same even where one of them comes to no end.
-/
namespace TangledGraph

/-- The leader as far as decisions depend on it. -/
def Leader.view (leader : Leader) : Option ((Program × Action) × Float) :=
  leader.map fun (learner, bid) => ((learner.program, learner.action), bid)

theorem Leader.isBeatenBy_congr {leader leader' : Leader} (same : leader'.view = leader.view)
    (bid : Float) : leader'.isBeatenBy bid = leader.isBeatenBy bid := by
  cases leader with
  | none =>
    obtain rfl : leader' = none := Option.map_eq_none_iff.1 same
    rfl
  | some best =>
    obtain ⟨best', rfl, eq⟩ := Option.map_eq_some_iff.1 same
    simp only [isBeatenBy, (Prod.mk.inj eq).2]

theorem Mind.bid_congr {learner learner' : Learner} (same : learner'.program = learner.program)
    (m : Mind) (l : LearnerId) (input : Array Float) :
    m.bid l learner' input = m.bid l learner input := by
  simp only [bid, same]

theorem Learner.isEligible_congr {learner learner' : Learner}
    (same : learner'.action = learner.action) (visited : List TeamId) :
    learner'.isEligible visited = learner.isEligible visited := by
  simp only [isEligible, target?, same]

namespace Population

variable {p q : Population} {inside : TeamId → Prop} {input : Array Float} {t : TeamId}

/-- The teams for which a condition holds are the same in two populations, and
no action leads out of them. -/
structure AgreeOn (inside : TeamId → Prop) (p q : Population) : Prop where
  there : ∀ {t}, inside t → p.containsTeam t = true ∧ q.containsTeam t = true
  members : ∀ {t}, inside t → q.members t = p.members t
  policies : ∀ {t l}, inside t → l ∈ p.members t → q.policy? l = p.policy? l
  closed : ∀ {t l u}, inside t → l ∈ p.members t → p.target? l = some u → inside u

/-- The same learner wins if the policies are the same. -/
theorem winner_congr (input : Array Float) (visited : List TeamId) {ls : List LearnerId}
    (same : ∀ l ∈ ls, q.policy? l = p.policy? l) {leader leader' : Leader}
    (view : leader'.view = leader.view) (m : Mind) :
    (fun won => (Leader.view won.1, won.2)) <$> q.winner input visited ls leader' m =
      (fun won => (Leader.view won.1, won.2)) <$> p.winner input visited ls leader m := by
  induction ls generalizing leader leader' m with
  | nil => exact congrArg (fun view => Except.ok (view, m)) view
  | cons l ls ih =>
    obtain ⟨first, rest⟩ := List.forall_mem_cons.1 same
    simp only [winner]
    cases enlisted : p.learner? l with
    | none =>
      have absent : q.learner? l = none := by simpa [policy?, enlisted] using first
      simp only [getLearner, enlisted, absent]
      rfl
    | some learner =>
      rw [policy?_of_learner? enlisted] at first
      obtain ⟨learner', enlisted', eq⟩ := learner?_of_policy? first
      obtain ⟨program, action⟩ := Prod.mk.inj eq
      rw [getLearner_eq_ok.2 enlisted, getLearner_eq_ok.2 enlisted']
      simp only [bind, Except.bind]
      rw [Learner.isEligible_congr action]
      split
      case isFalse => exact ih rest view m
      case isTrue =>
        rw [Mind.bid_congr program]
        cases m.bid l learner input with
        | error fault => rfl
        | ok bidden =>
          obtain ⟨bid, m'⟩ := bidden
          simp only [Leader.isBeatenBy_congr view]
          refine ih rest ?_ m'
          split
          · simp [Leader.view, program, action]
          · exact view

/-- A walk goes the same way in both populations. -/
theorem walk_congr (agree : AgreeOn inside p q) {fuel : Nat} {team team' : Team} {w : Walk}
    (here : inside t) (found : p.team? t = some team) (found' : q.team? t = some team') :
    q.walk input fuel t team' w = p.walk input fuel t team w := by
  induction fuel generalizing t team team' w with
  | zero => rfl
  | succ fuel ih =>
    have listed := members_of_team? found
    have lists : team'.learners = team.learners := by
      rw [← members_of_team? found', ← listed]
      exact agree.members here
    have policies : ∀ l ∈ team.learners, q.policy? l = p.policy? l :=
      fun l hl => agree.policies here (listed ▸ hl)
    simp only [walk, lists]
    split
    · rfl
    have start : Leader.view none = Leader.view none := rfl
    have same := winner_congr input (w.visited ++ [t]) policies start w.mind
    cases run : p.winner input (w.visited ++ [t]) team.learners none w.mind with
    | error fault =>
      rw [run] at same
      rw [map_eq_error.1 same]
      rfl
    | ok ended =>
      obtain ⟨leader, m⟩ := ended
      rw [run] at same
      obtain ⟨⟨leader', m'⟩, run', eq⟩ := map_eq_ok.1 same
      obtain ⟨view, rfl⟩ := Prod.mk.inj eq
      rw [run']
      simp only [bind, Except.bind]
      cases leader with
      | none =>
        obtain rfl : leader' = none := Option.map_eq_none_iff.1 view
        rfl
      | some best =>
        obtain ⟨best', rfl, eq'⟩ := Option.map_eq_some_iff.1 view
        obtain ⟨policy, -⟩ := Prod.mk.inj eq'
        obtain ⟨-, action⟩ := Prod.mk.inj policy
        simp only [action]
        cases leads : best.1.action with
        | atomic code => rfl
        | team target =>
          obtain ⟨l, hl, enlisted, -⟩ := (winner_source run _ rfl).resolve_left nofun
          have inside' : inside target := by
            refine agree.closed here (listed ▸ hl) ?_
            rw [target?_of_learner? enlisted, leads, Action.target?_team]
          obtain ⟨there, there'⟩ := agree.there inside'
          obtain ⟨next, found⟩ := containsTeam_iff.1 there
          obtain ⟨next', found'⟩ := containsTeam_iff.1 there'
          simp only [found, found']
          exact ih inside' found found'

/-- A team that two populations agree on decides the same in both. -/
theorem act_congr (agree : AgreeOn inside p q) (here : inside t) (input : Array Float)
    (m : Mind) : q.act t input m = p.act t input m := by
  obtain ⟨there, there'⟩ := agree.there here
  obtain ⟨team, found⟩ := containsTeam_iff.1 there
  obtain ⟨team', found'⟩ := containsTeam_iff.1 there'
  let start : Walk := ⟨[], { m with context := m.context.beginFrame }⟩
  have enough {p : Population} {team : Team} (found : p.team? t = some team) (more : Nat) :
      p.walk input (p.teamCount + 1 + more) t team start =
        p.walk input (p.teamCount + 1) t team start :=
    walk_of_enough found List.nodup_nil (by simp [start]) (by simp [start]) more
  -- Each walk has enough fuel, so that both can be given that of the other as well.
  have same : q.decideFrom input t start = p.decideFrom input t start := by
    simp only [decideFrom, found, found']
    rw [← enough found (q.teamCount + 1), ← enough found' (p.teamCount + 1),
      walk_congr agree here found found', Nat.add_comm]
  rw [act_eq_decideFrom there, act_eq_decideFrom there', same]

/-- The decisions of a team on inputs in turn, with what is kept between them. -/
def decisions (p : Population) (t : TeamId) : List (Array Float) → Mind →
    Except Fault (List (Except Error Code) × Mind)
  | [], m => pure ([], m)
  | input :: inputs, m => do
    let (result, m) ← p.act t input m
    let (results, m) ← p.decisions t inputs m
    pure (result :: results, m)

theorem decisions_congr (agree : AgreeOn inside p q) (here : inside t)
    (inputs : List (Array Float)) (m : Mind) : q.decisions t inputs m = p.decisions t inputs m := by
  induction inputs generalizing m with
  | nil => rfl
  | cons input inputs ih => simp only [decisions, act_congr agree here, ih]

/-- Decisions on a full memory all come to an end. -/
theorem decisions_ok (complete : p.Complete) (there : p.containsTeam t = true)
    (inputs : List (Array Float)) {m : Mind} (full : m.Full) :
    ∃ results m', p.decisions t inputs m = .ok (results, m') := by
  induction inputs generalizing m with
  | nil => exact ⟨[], m, rfl⟩
  | cons input inputs ih =>
    have full' : Mind.Full { m with context := m.context.beginFrame } := full
    obtain ⟨code, w, decided, sound, -⟩ := decideFrom_ok complete there full' input
    have act : p.act t input m = .ok (.ok code, w.mind) := by
      rw [act_eq_decideFrom there, decided]
      rfl
    obtain ⟨results, m', rest⟩ := ih sound.full
    refine ⟨.ok code :: results, m', ?_⟩
    simp only [decisions, bind_eq_ok]
    exact ⟨_, act, _, rest, rfl⟩

end Population

end TangledGraph
