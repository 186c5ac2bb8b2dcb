import TangledGraph.Proofs.Graph.Bidding
import TangledGraph.Proofs.Graph.Descent
import TangledGraph.Proofs.Graph.History

/-!
# The course of a decision

A decision visits one team after the other. At each of them the eligible learners
bid, and the leader has a code, or leads to the next team. Teams may be without a
code and lead to each other in any way: a team that was visited is not eligible,
so the course never comes back to it, and if no learner is left it ends there.
-/
namespace TangledGraph

/-- A team on the way of a decision, with the bids that were made there. -/
structure Stage where
  team : TeamId
  bids : List Bid

namespace Population

open Relation

/-- A walk visits a team for the first time and hears the bids of its learners. -/
structure Visits (p : Population) (input : Array Float) (t : TeamId) (w : Walk) (stage : Stage)
    (w' : Walk) : Prop where
  there : p.containsTeam t = true
  new : t ∉ w.visited
  team : stage.team = t
  visited : w'.visited = w.visited ++ [t]
  bidding : p.bidding input w'.visited (p.members t) w.mind = .ok (stage.bids, w'.mind)

/-- The course of a walk from a team: the stages on its way, what it ends in, and what is
left of it then. -/
inductive Course (p : Population) (input : Array Float) :
    TeamId → Walk → List Stage → Except Error Code → Walk → Prop
  /-- No learner may be followed. -/
  | stuck {t : TeamId} {w w' : Walk} {stage : Stage} (visit : p.Visits input t w stage w')
      (silent : stage.bids = []) :
      Course p input t w [stage] (.error (.structuralCycle t w'.visited)) w'
  | decided {t : TeamId} {w w' : Walk} {stage : Stage} {b : Bid} {code : Code}
      (visit : p.Visits input t w stage w') (leads : Bid.leading? stage.bids = some b)
      (action : b.learner.action = .atomic code) : Course p input t w [stage] (.ok code) w'
  /-- The leader's target is not there. -/
  | lost {t u : TeamId} {w w' : Walk} {stage : Stage} {b : Bid}
      (visit : p.Visits input t w stage w') (leads : Bid.leading? stage.bids = some b)
      (action : b.learner.action = .team u) (absent : p.team? u = none) :
      Course p input t w [stage] (.error (.unknownTeam u)) w'
  | hop {t u : TeamId} {w w' w'' : Walk} {stage : Stage} {b : Bid} {stages : List Stage}
      {result : Except Error Code} (visit : p.Visits input t w stage w')
      (leads : Bid.leading? stage.bids = some b) (action : b.learner.action = .team u)
      (rest : Course p input u w' stages result w'') :
      Course p input t w (stage :: stages) result w''

variable {p : Population} {input : Array Float} {t u : TeamId} {team : Team}
variable {w w' : Walk} {stage : Stage} {stages : List Stage} {result : Except Error Code}

/-- A walk hears the bids of a team and goes where the leader leads. -/
theorem walk_eq (new : t ∉ w.visited) (fuel : Nat) :
    p.walk input (fuel + 1) t team w = (do
      let (bids, mind) ← p.bidding input (w.visited ++ [t]) team.learners w.mind
      let w' : Walk := ⟨w.visited ++ [t], mind⟩
      match Bid.leading? bids with
      | none => pure (.error (.structuralCycle t w'.visited), w')
      | some b =>
        match b.learner.action with
        | .atomic code => pure (.ok code, w')
        | .team u =>
          match p.team? u with
          | none => pure (.error (.unknownTeam u), w')
          | some next => p.walk input fuel u next w') := by
  have won : p.winner input (w.visited ++ [t]) team.learners none w.mind =
      (fun made => ((Bid.leading? made.1).map Bid.leader, made.2)) <$>
        p.bidding input (w.visited ++ [t]) team.learners w.mind :=
    winner_eq none team.learners w.mind
  simp only [walk, if_neg new, won, map_eq_pure_bind, bind_assoc, pure_bind]
  refine bind_congr fun heard => ?_
  obtain ⟨bids, mind⟩ := heard
  cases Bid.leading? bids with
  | none => rfl
  | some b =>
    obtain ⟨id, ⟨program, action, generation, inTeams⟩, value⟩ := b
    cases action <;> rfl

/-- What a walk does after a visit depends on the leader alone. -/
theorem walk_visit (found : p.team? t = some team) (visit : p.Visits input t w stage w')
    (fuel : Nat) : p.walk input (fuel + 1) t team w =
      match Bid.leading? stage.bids with
      | none => .ok (.error (.structuralCycle t w'.visited), w')
      | some b =>
        match b.learner.action with
        | .atomic code => .ok (.ok code, w')
        | .team u =>
          match p.team? u with
          | none => .ok (.error (.unknownTeam u), w')
          | some next => p.walk input fuel u next w' := by
  obtain ⟨visited, mind⟩ := w'
  obtain ⟨-, new, -, rfl, bidding⟩ := visit
  rw [members_of_team? found] at bidding
  rw [walk_eq new, bidding]
  rfl

/-- A walk that ends hears the bids of the team where it begins. -/
theorem exists_visits (found : p.team? t = some team) (new : t ∉ w.visited) {fuel : Nat}
    (run : p.walk input (fuel + 1) t team w = .ok (result, w')) :
    ∃ stage next, p.Visits input t w stage next := by
  rw [walk_eq new] at run
  obtain ⟨⟨bids, mind⟩, bidding, -⟩ := bind_eq_ok.1 run
  rw [← members_of_team? found] at bidding
  exact ⟨⟨t, bids⟩, ⟨w.visited ++ [t], mind⟩, containsTeam_of_team? found, new, rfl, rfl, bidding⟩

/-- The leader of a visit may be followed. -/
theorem Visits.leader (visit : p.Visits input t w stage w') {b : Bid}
    (leads : Bid.leading? stage.bids = some b) : b.id ∈ p.members t ∧
      p.learner? b.id = some b.learner ∧ b.learner.isEligible w'.visited = true :=
  bidder_listed visit.bidding (Bid.mem_of_leading? leads)

/-- A leader never leads to a team that was visited. -/
theorem Visits.target_new (visit : p.Visits input t w stage w') {b : Bid}
    (leads : Bid.leading? stage.bids = some b) (action : b.learner.action = .team u) :
    u ∉ w'.visited := by
  obtain ⟨-, -, eligible⟩ := visit.leader leads
  simpa [Learner.isEligible, Learner.target?, action] using eligible

/-- Every walk that ends has a course. -/
theorem walk_course {fuel : Nat} (found : p.team? t = some team) (new : t ∉ w.visited)
    (run : p.walk input fuel t team w = .ok (result, w')) :
    ∃ stages, p.Course input t w stages result w' := by
  induction fuel generalizing t team w with
  | zero => simp [walk] at run
  | succ fuel ih =>
    obtain ⟨stage, next, visit⟩ := exists_visits found new run
    rw [walk_visit found visit] at run
    cases leads : Bid.leading? stage.bids with
    | none =>
      simp only [leads, Except.ok.injEq, Prod.mk.injEq] at run
      obtain ⟨rfl, rfl⟩ := run
      exact ⟨[stage], .stuck visit (Bid.leading?_eq_none_iff.1 leads)⟩
    | some b =>
      simp only [leads] at run
      cases action : b.learner.action with
      | atomic code =>
        simp only [action, Except.ok.injEq, Prod.mk.injEq] at run
        obtain ⟨rfl, rfl⟩ := run
        exact ⟨[stage], .decided visit leads action⟩
      | team u =>
        simp only [action] at run
        cases target : p.team? u with
        | none =>
          simp only [target, Except.ok.injEq, Prod.mk.injEq] at run
          obtain ⟨rfl, rfl⟩ := run
          exact ⟨[stage], .lost visit leads action target⟩
        | some team' =>
          simp only [target] at run
          obtain ⟨stages, rest⟩ := ih target (visit.target_new leads action) run
          exact ⟨stage :: stages, .hop visit leads action rest⟩

/-- The learners of all teams are there, and so are the teams that they lead to. -/
structure Resolved (p : Population) : Prop where
  learners : ∀ {t l}, l ∈ p.members t → ∃ learner, p.learner? l = some learner
  targets : ∀ {t l u}, l ∈ p.members t → p.target? l = some u → p.containsTeam u = true

theorem resolved_of_exact (exact : p.outline.Exact) : p.Resolved where
  learners hl := (resolve_member exact hl).2
  targets _ leads := resolve_target exact leads

/-- With enough fuel left for all the teams that it has not visited a walk ends. -/
theorem walk_total (resolved : p.Resolved) {fuel : Nat} (found : p.team? t = some team)
    (sound : w.Sound p) (new : t ∉ w.visited)
    (enough : p.teamCount < fuel + w.visited.length) :
    ∃ result w', p.walk input fuel t team w = .ok (result, w') := by
  induction fuel generalizing t team w with
  | zero =>
    have := length_le_teamCount sound.nodup sound.there
    omega
  | succ fuel ih =>
    have heard : ∃ bids mind, p.bidding input (w.visited ++ [t]) (p.members t) w.mind =
        .ok (bids, mind) ∧ mind.Full :=
      bidding_ok (fun _ hl => resolved.learners hl) sound.full
    obtain ⟨bids, mind, bidding, full⟩ := heard
    have visit : p.Visits input t w ⟨t, bids⟩ ⟨w.visited ++ [t], mind⟩ :=
      ⟨containsTeam_of_team? found, new, rfl, rfl, bidding⟩
    rw [walk_visit found visit]
    cases leads : Bid.leading? bids with
    | none => exact ⟨_, _, rfl⟩
    | some b =>
      cases action : b.learner.action with
      | atomic code => exact ⟨.ok code, ⟨w.visited ++ [t], mind⟩, by simp only [action]⟩
      | team u =>
        simp only [action]
        obtain ⟨listed, enlisted, -⟩ := visit.leader leads
        have leads' : p.target? b.id = some u := by
          rw [target?_of_learner? enlisted, action, Action.target?_team]
        obtain ⟨team', found'⟩ := containsTeam_iff.1 (resolved.targets listed leads')
        simp only [found']
        refine ih found' ⟨?_, ?_, full⟩ (visit.target_new leads action) ?_
        · simpa [List.nodup_append] using ⟨sound.nodup, fun v hv eq => new (eq ▸ hv)⟩
        · simpa [or_imp, forall_and] using ⟨sound.there, containsTeam_of_team? found⟩
        · rw [List.length_append, List.length_singleton]
          omega

namespace Course

theorem visited_eq (course : p.Course input t w stages result w') :
    w'.visited = w.visited ++ stages.map Stage.team := by
  induction course with
  | stuck visit | decided visit | lost visit =>
    rw [visit.visited, List.map_singleton, visit.team]
  | hop visit _ _ _ ih =>
    rw [ih, visit.visited, List.map_cons, visit.team, List.append_assoc, List.singleton_append]

/-- The first stage is at the team where the course begins. -/
theorem starts (course : p.Course input t w stages result w') :
    ∃ stage rest, stages = stage :: rest ∧ stage.team = t := by
  cases course with
  | stuck visit | decided visit | lost visit => exact ⟨_, [], rfl, visit.team⟩
  | hop visit => exact ⟨_, _, rfl, visit.team⟩

/-- No team is visited twice. -/
theorem nodup (course : p.Course input t w stages result w') (start : w.visited.Nodup) :
    w'.visited.Nodup := by
  have visited {t w stage w'} (visit : p.Visits input t w stage w') (before : w.visited.Nodup) :
      w'.visited.Nodup := by
    rw [visit.visited]
    exact before.append (List.nodup_singleton t) (by simpa using visit.new)
  induction course with
  | stuck visit | decided visit | lost visit => exact visited visit start
  | hop visit _ _ _ ih => exact ih (visited visit start)

theorem first_visit (course : p.Course input t w (stage :: stages) result w') :
    ∃ v, p.Visits input t w stage v := by
  cases course with
  | stuck visit | decided visit | lost visit | hop visit => exact ⟨_, visit⟩

/-- Where there is another stage, the leader leads to its team. -/
theorem first_hop {next : Stage} (course : p.Course input t w (stage :: next :: stages) result w') :
    ∃ v b, p.Visits input t w stage v ∧ Bid.leading? stage.bids = some b ∧
      b.learner.action = .team next.team ∧
      p.Course input next.team v (next :: stages) result w' := by
  cases course with
  | hop visit leads action rest =>
    obtain ⟨_, _, same, rfl⟩ := rest.starts
    obtain ⟨rfl, rfl⟩ := List.cons.inj same
    exact ⟨_, _, visit, leads, action, rest⟩

/-- From each of its stages on a course is a course. -/
theorem later {before after : List Stage}
    (course : p.Course input t w (before ++ stage :: after) result w') :
    ∃ v, p.Course input stage.team v (stage :: after) result w' ∧
      v.visited = w.visited ++ before.map Stage.team := by
  induction before generalizing t w with
  | nil =>
    obtain ⟨_, _, same, rfl⟩ := course.starts
    obtain ⟨rfl, rfl⟩ := List.cons.inj same
    exact ⟨w, course, (List.append_nil _).symm⟩
  | cons first before ih =>
    obtain ⟨next, rest, eq⟩ : ∃ next rest, before ++ stage :: after = next :: rest :=
      List.exists_cons_of_ne_nil (by simp)
    rw [List.cons_append, eq] at course
    obtain ⟨v, b, visit, -, -, course⟩ := course.first_hop
    rw [← eq] at course
    obtain ⟨v', course, visited⟩ := ih course
    refine ⟨v', course, ?_⟩
    rw [visited, visit.visited, List.map_cons, visit.team, List.append_assoc,
      List.singleton_append]

/-- The bidders of a stage are the members that may be followed after the teams so far. -/
theorem bidders {m : Mind} {before after : List Stage}
    (course : p.Course input t ⟨[], m⟩ (before ++ stage :: after) result w') :
    stage.bids.map Bid.id =
      (p.members stage.team).filter (p.eligible ((before ++ [stage]).map Stage.team)) := by
  obtain ⟨v, course', visited⟩ := course.later
  obtain ⟨v', visit⟩ := course'.first_visit
  rw [List.map_append, List.map_singleton, ← List.nil_append (before.map Stage.team), ← visited,
    ← visit.visited]
  exact (bidding_spec visit.bidding).1

/-- In a population where every edge leads somewhere, a course ends where no learner may
be followed, or in the code of the leader. -/
theorem last_stage (resolved : p.Resolved) (course : p.Course input t w [stage] result w') :
    p.Visits input t w stage w' ∧
      (stage.bids = [] ∧ result = .error (.structuralCycle t w'.visited) ∨
        ∃ b code, Bid.leading? stage.bids = some b ∧ b.learner.action = .atomic code ∧
          result = .ok code) := by
  cases course with
  | stuck visit silent => exact ⟨visit, .inl ⟨silent, rfl⟩⟩
  | decided visit leads action => exact ⟨visit, .inr ⟨_, _, leads, action, rfl⟩⟩
  | @lost _ u _ _ _ b visit leads action absent =>
    obtain ⟨listed, enlisted, -⟩ := visit.leader leads
    have leads' : p.target? b.id = some u := by
      rw [target?_of_learner? enlisted, action, Action.target?_team]
    obtain ⟨team, found⟩ := containsTeam_iff.1 (resolved.targets listed leads')
    cases found.symm.trans absent
  | hop _ _ _ rest =>
    obtain ⟨_, _, none, -⟩ := rest.starts
    cases none

end Course

/-- A bid that is followed: if all bids are numbers, the first of the greatest. -/
structure Followed (p : Population) (bids : List Bid) (b : Bid) : Prop where
  made : b ∈ bids
  enlisted : p.learner? b.id = some b.learner
  wins : (∀ a ∈ bids, a.value.isNaN = false) → b.Wins bids

theorem Visits.followed (visit : p.Visits input t w stage w') {b : Bid}
    (leads : Bid.leading? stage.bids = some b) : p.Followed stage.bids b :=
  ⟨Bid.mem_of_leading? leads, (visit.leader leads).2.1, fun numbers =>
    Bid.wins_of_leading? numbers leads⟩

/-- How the stages of a decision of a team follow from each other and how they end. -/
structure Traversal (p : Population) (t : TeamId) (stages : List Stage)
    (result : Except Error Code) : Prop where
  starts : (stages.map Stage.team).head? = some t
  nodup : (stages.map Stage.team).Nodup
  /-- The bidders of a stage are the members that may be followed after the teams so far. -/
  bidders : ∀ before stage after, stages = before ++ stage :: after →
    stage.bids.map Bid.id =
      (p.members stage.team).filter (p.eligible ((before ++ [stage]).map Stage.team))
  follows : ∀ before stage next after, stages = before ++ stage :: next :: after →
    ∃ b, p.Followed stage.bids b ∧ b.learner.action = .team next.team
  /-- The last team has no learner that may be followed, or the one followed has a code. -/
  ends : ∀ before last, stages = before ++ [last] →
    if (p.members last.team).filter (p.eligible (stages.map Stage.team)) = [] then
      result = .error (.structuralCycle last.team (stages.map Stage.team))
    else ∃ b code, p.Followed last.bids b ∧ b.learner.action = .atomic code ∧ result = .ok code

theorem Course.traversal (resolved : p.Resolved) {m m' : Mind}
    (course : p.Course input t ⟨[], m⟩ stages result ⟨stages.map Stage.team, m'⟩) :
    p.Traversal t stages result where
  starts := by
    obtain ⟨stage, rest, rfl, rfl⟩ := course.starts
    rfl
  nodup := course.nodup List.nodup_nil
  bidders before stage after split := by
    subst split
    exact course.bidders
  follows before stage next after split := by
    subst split
    obtain ⟨v, course', -⟩ := course.later
    obtain ⟨v', b, visit, leads, action, -⟩ := course'.first_hop
    exact ⟨b, visit.followed leads, action⟩
  ends before last split := by
    subst split
    rw [← course.bidders]
    obtain ⟨v, course', -⟩ := course.later
    obtain ⟨visit, ends⟩ := course'.last_stage resolved
    obtain ⟨silent, cycle⟩ | ⟨b, code, leads, action, decided⟩ := ends
    · rw [if_pos (by rw [silent, List.map_nil])]
      exact cycle
    · rw [if_neg]
      · exact ⟨b, code, visit.followed leads, action, decided⟩
      · intro none
        have made := Bid.mem_of_leading? leads
        rw [List.map_eq_nil_iff.1 none] at made
        cases made

/-- Where a walk goes on, it has not been. -/
theorem Hops.target_new {a b : Stand} (hop : p.Hops input a b) : b.1 ∉ b.2.visited := by
  obtain ⟨team, learner, bid, found, won, action, visited⟩ := hop
  have heard := (winner_eq none team.learners a.2.mind).symm.trans won
  obtain ⟨⟨bids, mind⟩, bidding, made⟩ := map_eq_ok.1 heard
  have first : (Bid.leading? bids).map Bid.leader = some (learner, bid) := (Prod.mk.inj made).1
  obtain ⟨b', leads, same⟩ := Option.map_eq_some_iff.1 first
  obtain ⟨rfl, rfl⟩ := Prod.mk.inj same
  obtain ⟨-, -, eligible⟩ := bidder_listed bidding (Bid.mem_of_leading? leads)
  rw [visited]
  simpa [Learner.isEligible, Learner.target?, action] using eligible

/-- A decision of any team in any context visits different teams, each one where the
first of the greatest bids led, until it comes to a code or to a team where no
learner may be followed. It never stands at a team that it visited. -/
theorem act_traversal (resolved : p.Resolved) (there : p.containsTeam t = true) {m : Mind}
    (full : m.Full) (input : Array Float) :
    ∃ stages result m', p.act t input m = .ok (result, m') ∧
      p.decideFrom input t ⟨[], { m with context := m.context.beginFrame }⟩ =
        .ok (result, ⟨stages.map Stage.team, m'⟩) ∧
      p.Course input t ⟨[], { m with context := m.context.beginFrame }⟩ stages result
        ⟨stages.map Stage.team, m'⟩ ∧
      p.Traversal t stages result ∧
      ∀ stand, ReflTransGen (p.Hops input)
        (t, ⟨[], { m with context := m.context.beginFrame }⟩) stand →
          stand.1 ∉ stand.2.visited := by
  obtain ⟨team, found⟩ := containsTeam_iff.1 there
  have full' : Mind.Full { m with context := m.context.beginFrame } := full
  have ended : ∃ result w', p.decideFrom input t
      ⟨[], { m with context := m.context.beginFrame }⟩ = .ok (result, w') := by
    simp only [decideFrom, found]
    exact walk_total resolved found ⟨List.nodup_nil, by simp, full'⟩ (by simp) (by simp)
  obtain ⟨result, w', decided⟩ := ended
  have run := decided
  simp only [decideFrom, found] at run
  obtain ⟨stages, course⟩ := walk_course found (by simp) run
  obtain ⟨visited, m'⟩ := w'
  obtain rfl : visited = stages.map Stage.team := course.visited_eq
  refine ⟨stages, result, m', ?_, decided, course, course.traversal resolved, fun stand path => ?_⟩
  · rw [act_eq_decideFrom there, decided]
    rfl
  · obtain rfl | ⟨_, -, hop⟩ := (ReflTransGen.cases_tail_iff ..).1 path
    · simp
    · exact hop.target_new

/-- Two teams lead to each other. The first one has a learner with a code too, which bids
as much as the one before it. -/
def facing : List (Stock.Call × Stream) :=
  [.createTeam 0, .createTeam 0, .createLearner ⟨⟨0⟩, []⟩ (.team ⟨1⟩) 0,
    .createLearner ⟨⟨1⟩, []⟩ (.team ⟨0⟩) 0, .createLearner ⟨⟨2⟩, []⟩ (.atomic (.discrete 7)) 0,
    .addLearner ⟨0⟩ ⟨0⟩, .addLearner ⟨0⟩ ⟨2⟩, .addLearner ⟨1⟩ ⟨1⟩].map
      fun call => (call, Stream.ofScript [])

theorem facing_traversal : ∃ stock stages m', Stock.perform ⟨.empty, {}⟩ facing = .ok stock ∧
    stock.population.act ⟨0⟩ #[] ⟨Context.create 1 false 0, none⟩ =
      .ok (.error (.structuralCycle ⟨1⟩ [⟨0⟩, ⟨1⟩]), m') ∧
    stages.map Stage.team = [⟨0⟩, ⟨1⟩] ∧
    stock.population.Traversal ⟨0⟩ stages (.error (.structuralCycle ⟨1⟩ [⟨0⟩, ⟨1⟩])) := by
  have run : (do
      let stock ← Stock.perform ⟨.empty, {}⟩ facing
      let decided ← stock.population.decideFrom #[] ⟨0⟩
        ⟨[], ⟨(Context.create 1 false 0).beginFrame, none⟩⟩
      pure (stock.population.containsTeam ⟨0⟩, decided.2.visited,
        (stock.population.members ⟨1⟩).filter (stock.population.eligible [⟨0⟩, ⟨1⟩]))) =
      .ok (true, [⟨0⟩, ⟨1⟩], []) := by
    decide +kernel
  simp only [bind_eq_ok, pure_eq_ok, Prod.mk.injEq] at run
  obtain ⟨stock, made, ⟨result, w⟩, decided, there, visited, stuck⟩ := run
  have resolved := resolved_of_exact (Stock.perform_sound Stock.sound_empty made).exact
  have full : Mind.Full ⟨Context.create 1 false 0, none⟩ := by
    rintro _ ⟨⟩
  obtain ⟨stages, result', m', acted, decided', -, traversal, -⟩ :=
    act_traversal resolved there full #[]
  obtain ⟨rfl, rfl⟩ := Prod.mk.inj (Except.ok.inj (decided'.symm.trans decided))
  have path : stages.map Stage.team = [⟨0⟩] ++ [⟨1⟩] := visited
  obtain ⟨before, after, rfl, -, single⟩ := List.map_eq_append_iff.1 path
  obtain ⟨last, rfl, team⟩ := List.map_eq_singleton_iff.1 single
  have ended := traversal.ends before last rfl
  rw [path, team] at ended
  obtain rfl := (if_pos stuck).mp ended
  exact ⟨stock, _, m', made, acted, visited, traversal⟩

end Population

end TangledGraph
