import TangledGraph.Proofs.Graph.Frame

/-!
# Decisions forget

Without a memory, and with registers that are not kept, nothing of what a context has
been through counts for a decision. It is the decision of a traversal that has no
context at all: every bid is computed anew from zeros, also that of a learner that
bid at an earlier team, and the way ends when there is no team left to visit.
-/
namespace TangledGraph.Population

variable {p : Population} {n : Nat} {input : Array Float} {visited : List TeamId}
  {t u : TeamId} {team : Team}

/-- The bids of the learners that may be followed, each from a run on zeros. -/
def biddingAnew (p : Population) (n : Nat) (input : Array Float) (visited : List TeamId) :
    List LearnerId → Except Fault (List Bid)
  | [] => pure []
  | l :: rest => do
    let learner ← p.getLearner l
    if learner.isEligible visited then
      let (value, _) ← learner.program.runOn (Array.replicate n 0.0) input
      let bids ← p.biddingAnew n input visited rest
      pure (⟨l, learner, value⟩ :: bids)
    else p.biddingAnew n input visited rest

/-- The teams that are still to be visited. -/
def unvisited (p : Population) (visited : List TeamId) : List TeamId :=
  p.teamIds.filter fun t => !visited.contains t

/-- A team that is visited is not one of those that are left. -/
theorem unvisited_lt (found : p.team? t = some team) (new : t ∉ visited) :
    (p.unvisited (visited ++ [t])).length < (p.unvisited visited).length := by
  have fewer : p.unvisited (visited ++ [t]) = (p.unvisited visited).filter (· != t) := by
    unfold unvisited
    rw [List.filter_filter]
    refine List.filter_congr fun u _ => ?_
    by_cases same : u = t
    · simp [same]
    · simp [same]
  rw [fewer]
  refine List.length_filter_lt_length_iff_exists.2 ⟨t, List.mem_filter.2 ⟨?_, by simpa using new⟩,
    by simp⟩
  exact mem_teamIds.2 (containsTeam_of_team? found)

/-- The decision of a traversal that computes every bid anew. -/
def decideAnew (p : Population) (n : Nat) (input : Array Float) (visited : List TeamId)
    (t : TeamId) : Except Fault (Except Error Code) :=
  match _found : p.team? t with
  | none => pure (.error (.unknownTeam t))
  | some team =>
    if _new : t ∈ visited then pure (.error (.structuralCycle t visited))
    else do
      let bids ← p.biddingAnew n input (visited ++ [t]) team.learners
      match Bid.leading? bids with
      | none => pure (.error (.structuralCycle t (visited ++ [t])))
      | some b =>
        match b.learner.action with
        | .atomic code => pure (.ok code)
        | .team u => p.decideAnew n input (visited ++ [t]) u
termination_by (p.unvisited visited).length
decreasing_by exact unvisited_lt _found _new

theorem decideAnew_eq (found : p.team? t = some team) (new : t ∉ visited) :
    p.decideAnew n input visited t = (do
      let bids ← p.biddingAnew n input (visited ++ [t]) team.learners
      match Bid.leading? bids with
      | none => pure (.error (.structuralCycle t (visited ++ [t])))
      | some b =>
        match b.learner.action with
        | .atomic code => pure (.ok code)
        | .team u => p.decideAnew n input (visited ++ [t]) u) := by
  rw [decideAnew]
  split
  case h_1 absent => cases absent.symm.trans found
  case h_2 team' found' =>
    obtain rfl := Option.some.inj (found.symm.trans found')
    rw [dif_neg new]

theorem decideAnew_absent (absent : p.team? t = none) :
    p.decideAnew n input visited t = pure (.error (.unknownTeam t)) := by
  rw [decideAnew]
  split
  case h_1 => rfl
  case h_2 found => cases absent.symm.trans found

section Frame

variable {start now : Context} {heardBids : List Bid}
variable (zeros : ∀ l, start.startRegisters l = Array.replicate n 0.0)
include zeros

/-- What is heard in a frame is what would be computed anew, also where it fails. -/
theorem bidding_anew (heard : Heard p input start heardBids now) (ls : List LearnerId) :
    Prod.fst <$> p.bidding input visited ls ⟨now, none⟩ = p.biddingAnew n input visited ls := by
  induction ls generalizing heardBids now with
  | nil => rfl
  | cons l ls ih =>
    cases enlisted : p.learner? l with
    | none => simp only [bidding, biddingAnew, getLearner, enlisted]; rfl
    | some learner =>
      simp only [bidding, biddingAnew, getLearner_eq_ok.2 enlisted]
      show Prod.fst <$> (if _ then _ else _) = if _ then _ else _
      by_cases eligible : learner.isEligible visited = true
      · obtain ⟨value, next, bid, heard'⟩ := heard.bid enlisted
        obtain ⟨file, run, -⟩ := heard'.ran ⟨l, learner, value⟩ (by simp)
        rw [zeros] at run
        rw [if_pos eligible, if_pos eligible, bid, run]
        show Prod.fst <$> (p.bidding input visited ls ⟨next, none⟩ >>= _) =
          p.biddingAnew n input visited ls >>= _
        rw [← ih heard']
        cases p.bidding input visited ls ⟨next, none⟩ <;> rfl
      · rw [if_neg eligible, if_neg eligible]
        exact ih heard

/-- A walk with enough fuel decides as the traversal does that computes every bid anew. -/
theorem walk_anew {fuel : Nat} (found : p.team? t = some team) (new : t ∉ visited)
    (nodup : visited.Nodup) (there : ∀ u ∈ visited, p.containsTeam u = true)
    (enough : p.teamCount < fuel + visited.length)
    (heard : Heard p input start heardBids now) :
    Prod.fst <$> p.walk input fuel t team ⟨visited, ⟨now, none⟩⟩ =
      p.decideAnew n input visited t := by
  induction fuel generalizing t team visited now heardBids with
  | zero =>
    have := length_le_teamCount nodup there
    omega
  | succ fuel ih =>
    have anew : Prod.fst <$> p.bidding input (visited ++ [t]) team.learners ⟨now, none⟩ =
        p.biddingAnew n input (visited ++ [t]) team.learners :=
      bidding_anew zeros heard team.learners
    rw [walk_eq new, decideAnew_eq found new, ← anew]
    cases bidding : p.bidding input (visited ++ [t]) team.learners ⟨now, none⟩ with
    | error fault => rfl
    | ok made =>
      obtain ⟨bids, later, memory⟩ := made
      obtain ⟨rfl, heard'⟩ := heard.bidding bidding
      show Prod.fst <$> (match Bid.leading? bids with | none => _ | some b => _) =
        match Bid.leading? bids with | none => _ | some b => _
      cases leads : Bid.leading? bids with
      | none => rfl
      | some b =>
        cases action : b.learner.action with
        | atomic code => simp only [action]; rfl
        | team u =>
          simp only [action]
          cases target : p.team? u with
          | none => exact (decideAnew_absent target).symm
          | some next =>
            obtain ⟨-, -, eligible⟩ := bidder_listed bidding (Bid.mem_of_leading? leads)
            have new' : u ∉ visited ++ [t] := by
              simpa [Learner.isEligible, Learner.target?, action] using eligible
            refine ih target new' ?_ ?_ ?_ heard'
            · simpa [List.nodup_append] using ⟨nodup, fun v hv eq => new (eq ▸ hv)⟩
            · simpa [or_imp, forall_and] using ⟨there, containsTeam_of_team? found⟩
            · rw [List.length_append, List.length_singleton]
              omega

end Frame

/-- A decision is what the traversal decides that computes every bid anew. -/
theorem act_anew {c : Context} (driven : c.Driven n false) (p : Population) (t : TeamId)
    (input : Array Float) : Prod.fst <$> p.act t input ⟨c, none⟩ = p.decideAnew n input [] t := by
  have settled := driven.settled
  have zeros (l : LearnerId) : c.beginFrame.startRegisters l = Array.replicate n 0.0 := by
    rw [settled.beginFrame.startRegisters_eq, if_neg Bool.false_ne_true]
  cases found : p.team? t with
  | none =>
    have absent : ¬p.containsTeam t = true := by simp [containsTeam_eq, found]
    rw [decideAnew_absent found, act, if_neg absent]
    rfl
  | some team =>
    rw [act_eq_decideFrom (containsTeam_of_team? found), ← comp_map]
    simp only [decideFrom, found]
    exact walk_anew zeros found (by simp) List.nodup_nil (by simp) (by simp)
      (.refl settled.cachedBid?_beginFrame)

/-- Two contexts of one size decide alike, whatever each of them has been through. -/
theorem act_forgets {c c' : Context} (driven : c.Driven n false) (driven' : c'.Driven n false)
    (p : Population) (t : TeamId) (input : Array Float) :
    Prod.fst <$> p.act t input ⟨c, none⟩ = Prod.fst <$> p.act t input ⟨c', none⟩ ∧
      Prod.fst <$> p.act t input ⟨c, none⟩ = p.decideAnew n input [] t := by
  rw [act_anew driven, act_anew driven']
  exact ⟨rfl, rfl⟩

/-- A context that decided before and was given the greatest bid of a learner by hand
decides as a new one does. -/
theorem relay_forgets : ∃ stock c, Stock.perform ⟨.empty, {}⟩ relay = .ok stock ∧
    c.Driven 1 false ∧ (c.cachedBid? ⟨1⟩).map Float.toBits = some (9.0 : Float).toBits ∧
    Prod.fst <$> stock.population.act ⟨0⟩ #[1.0] ⟨c, none⟩ =
      Prod.fst <$> stock.population.act ⟨0⟩ #[1.0] ⟨Context.create 1 false 5, none⟩ ∧
    Prod.fst <$> stock.population.act ⟨0⟩ #[1.0] ⟨c, none⟩ =
      stock.population.decideAnew 1 #[1.0] [] ⟨0⟩ := by
  have run : (do
      let stock ← Stock.perform ⟨.empty, {}⟩ relay
      let first ← stock.population.act ⟨0⟩ #[1.0] ⟨Context.create 1 false 0, none⟩
      pure (((first.2.context.storeBid ⟨1⟩ 9.0).cachedBid? ⟨1⟩).map Float.toBits)) =
      .ok (some (9.0 : Float).toBits) := by
    decide +kernel
  simp only [bind_eq_ok, pure_eq_ok] at run
  obtain ⟨stock, made, ⟨_, first⟩, acted, stored⟩ := run
  have driven : (first.context.storeBid ⟨1⟩ 9.0).Driven 1 false :=
    .storeBid (.act (.create 0) acted) ⟨1⟩ 9.0
  exact ⟨stock, _, made, driven, stored,
    act_forgets driven (.create 5) stock.population ⟨0⟩ #[1.0]⟩

end TangledGraph.Population
