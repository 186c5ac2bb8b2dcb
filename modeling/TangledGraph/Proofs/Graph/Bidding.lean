import TangledGraph.Proofs.Graph.Decision
import TangledGraph.Proofs.Number.Order

/-!
# Bidding

The learners of a team that may be followed bid in the order of the team's list.
The search for the leader keeps no more than the best bid so far; what it finds is
the first of the greatest of all these bids, if they are numbers.
-/
namespace TangledGraph

open Rounding

/-- The bid that a learner makes. -/
structure Bid where
  id : LearnerId
  learner : Learner
  value : Float

namespace Bid

variable {b c : Bid} {bids : List Bid}

/-- The better of the best bid so far and the next one, which an equal one is not. -/
def better : Option Bid → Bid → Option Bid
  | none, next => some next
  | some best, next => if best.value < next.value then some next else some best

/-- The bid that leads in the end. -/
def leading? (bids : List Bid) : Option Bid := bids.foldl better none

/-- A bid is greater than all before it, and as great as all after it. -/
def Wins (b : Bid) (bids : List Bid) : Prop :=
  ∃ before after, bids = before ++ b :: after ∧
    (∀ a ∈ before, a.value < b.value) ∧ ∀ a ∈ after, a.value ≤ b.value

theorem leading?_concat (bids : List Bid) (b : Bid) :
    leading? (bids ++ [b]) = better (leading? bids) b := List.foldl_concat ..

theorem exists_better (best : Option Bid) (b : Bid) : ∃ c, better best b = some c := by
  cases best with
  | none => exact ⟨b, rfl⟩
  | some best =>
    rw [better]
    split
    · exact ⟨b, rfl⟩
    · exact ⟨best, rfl⟩

/-- There is a leader as soon as there is a bid. -/
theorem leading?_eq_none_iff : leading? bids = none ↔ bids = [] := by
  constructor
  · intro none
    induction bids using List.reverseRecOn with
    | nil => rfl
    | append_singleton bids b =>
      obtain ⟨c, some⟩ := exists_better (leading? bids) b
      rw [leading?_concat, some] at none
      cases none
  · rintro rfl
    rfl

theorem mem_of_leading? (leads : leading? bids = some b) : b ∈ bids := by
  induction bids using List.reverseRecOn generalizing b with
  | nil => cases leads
  | append_singleton bids c ih =>
    rw [leading?_concat] at leads
    cases best : leading? bids with
    | none =>
      rw [best] at leads
      obtain rfl := Option.some.inj leads
      simp
    | some a =>
      rw [best, better] at leads
      split at leads
      · obtain rfl := Option.some.inj leads
        simp
      · obtain rfl := Option.some.inj leads
        exact List.mem_append_left _ (ih best)

/-- Of bids that are numbers the first of the greatest leads. -/
theorem wins_of_leading? (numbers : ∀ a ∈ bids, a.value.isNaN = false)
    (leads : leading? bids = some b) : b.Wins bids := by
  induction bids using List.reverseRecOn generalizing b with
  | nil => cases leads
  | append_singleton bids c ih =>
    have number : c.value.isNaN = false := numbers c (by simp)
    have others : ∀ a ∈ bids, a.value.isNaN = false :=
      fun a ha => numbers a (List.mem_append_left _ ha)
    rw [leading?_concat] at leads
    cases best : leading? bids with
    | none =>
      rw [best] at leads
      obtain rfl := Option.some.inj leads
      obtain rfl := leading?_eq_none_iff.1 best
      exact ⟨[], [], rfl, by simp, by simp⟩
    | some a =>
      have number' : a.value.isNaN = false := others a (mem_of_leading? best)
      obtain ⟨before, after, rfl, less, atMost⟩ := ih others best
      rw [best, better] at leads
      split at leads
      case isTrue lower =>
        -- The last bid is greater than the leader, and so greater than all others.
        obtain rfl := Option.some.inj leads
        refine ⟨before ++ a :: after, [], rfl, fun d hd => ?_, by simp⟩
        have number'' := others d hd
        rw [lt_iff number'' number]
        rw [lt_iff number' number] at lower
        simp only [List.mem_append, List.mem_cons] at hd
        obtain hd | rfl | hd := hd
        · exact ((lt_iff number'' number').1 (less d hd)).trans lower
        · exact lower
        · exact ((le_iff number'' number').1 (atMost d hd)).trans_lt lower
      case isFalse stays =>
        obtain rfl := Option.some.inj leads
        refine ⟨before, after ++ [c], by simp, less, fun d hd => ?_⟩
        simp only [List.mem_append, List.mem_singleton] at hd
        obtain hd | rfl := hd
        · exact atMost d hd
        · rw [lt_iff number' number] at stays
          exact (le_iff number number').2 (not_lt.1 stays)

/-- What the search for a leader keeps of a bid. -/
def leader (b : Bid) : Learner × Float := (b.learner, b.value)

theorem better_leader (best : Option Bid) (b : Bid) :
    (better best b).map leader =
      if Leader.isBeatenBy (best.map leader) b.value then some b.leader else best.map leader := by
  cases best with
  | none => rfl
  | some best =>
    simp only [better, Option.map_some, Leader.isBeatenBy, leader, decide_eq_true_eq]
    split
    all_goals rfl

end Bid

namespace Population

variable {p : Population} {input : Array Float} {visited : List TeamId} {ls : List LearnerId}
  {m m' : Mind} {bids : List Bid}

/-- Whether a learner may be followed: its action is a code or a team not yet visited. -/
def eligible (p : Population) (visited : List TeamId) (l : LearnerId) : Bool :=
  (p.learner? l).any fun learner => learner.isEligible visited

/-- The bids of the learners that may be followed, one after the other. -/
def bidding (p : Population) (input : Array Float) (visited : List TeamId) :
    List LearnerId → Mind → Except Fault (List Bid × Mind)
  | [], mind => pure ([], mind)
  | l :: rest, mind => do
    let learner ← p.getLearner l
    if learner.isEligible visited then
      let (value, mind) ← mind.bid l learner input
      let (bids, mind) ← p.bidding input visited rest mind
      pure (⟨l, learner, value⟩ :: bids, mind)
    else p.bidding input visited rest mind

/-- The winner is the bid that leads in the end. -/
theorem winner_eq (best : Option Bid) (ls : List LearnerId) (m : Mind) :
    p.winner input visited ls (best.map Bid.leader) m =
      (fun made => ((made.1.foldl Bid.better best).map Bid.leader, made.2)) <$>
        p.bidding input visited ls m := by
  induction ls generalizing best m with
  | nil => rfl
  | cons l ls ih =>
    simp only [winner, bidding, map_bind]
    refine bind_congr fun learner => ?_
    split
    · simp only [map_bind]
      refine bind_congr fun made => ?_
      obtain ⟨value, m'⟩ := made
      have next := Bid.better_leader best ⟨l, learner, value⟩
      dsimp only [Bid.leader] at next
      rw [← next, ih, map_eq_pure_bind]
      rfl
    · exact ih best m

/-- Exactly the eligible learners of the list bid, in its order. -/
theorem bidding_spec (run : p.bidding input visited ls m = .ok (bids, m')) :
    bids.map Bid.id = ls.filter (p.eligible visited) ∧
      ∀ b ∈ bids, p.learner? b.id = some b.learner := by
  induction ls generalizing bids m with
  | nil =>
    simp only [bidding, pure_eq_ok, Prod.mk.injEq] at run
    obtain ⟨rfl, -⟩ := run
    exact ⟨rfl, by simp⟩
  | cons l ls ih =>
    simp only [bidding, bind_eq_ok, getLearner_eq_ok] at run
    obtain ⟨learner, enlisted, run⟩ := run
    have known : p.eligible visited l = learner.isEligible visited := by
      simp [eligible, enlisted]
    split at run
    case isTrue eligible =>
      simp only [bind_eq_ok, pure_eq_ok, Prod.mk.injEq] at run
      obtain ⟨⟨value, m₁⟩, -, ⟨others, m₂⟩, run, rfl, rfl⟩ := run
      obtain ⟨ids, learners⟩ := ih run
      rw [List.filter_cons_of_pos (known.trans eligible), List.map_cons, ids]
      exact ⟨rfl, List.forall_mem_cons.2 ⟨enlisted, learners⟩⟩
    case isFalse passed =>
      rw [List.filter_cons_of_neg (known ▸ passed)]
      exact ih run

/-- A bid that was made comes from an eligible learner of the list. -/
theorem bidder_listed (run : p.bidding input visited ls m = .ok (bids, m')) {b : Bid}
    (made : b ∈ bids) : b.id ∈ ls ∧ p.learner? b.id = some b.learner ∧
      b.learner.isEligible visited = true := by
  obtain ⟨ids, learners⟩ := bidding_spec run
  have listed : b.id ∈ ls.filter (p.eligible visited) := ids ▸ List.mem_map_of_mem made
  obtain ⟨listed, eligible⟩ := List.mem_filter.1 listed
  have enlisted := learners b made
  exact ⟨listed, enlisted, by simpa [Population.eligible, enlisted] using eligible⟩

/-- All bids can be made if all learners are there. -/
theorem bidding_ok (there : ∀ l ∈ ls, ∃ learner, p.learner? l = some learner) (full : m.Full) :
    ∃ bids m', p.bidding input visited ls m = .ok (bids, m') ∧ m'.Full := by
  induction ls generalizing m with
  | nil => exact ⟨[], m, rfl, full⟩
  | cons l ls ih =>
    obtain ⟨⟨learner, enlisted⟩, rest⟩ := List.forall_mem_cons.1 there
    simp only [bidding, bind_eq_ok, getLearner_eq_ok]
    by_cases eligible : learner.isEligible visited = true
    · obtain ⟨value, m₁, made, full₁⟩ := Mind.bid_ok full l learner input
      obtain ⟨bids, m₂, run, full₂⟩ := ih rest full₁
      refine ⟨⟨l, learner, value⟩ :: bids, m₂, ⟨learner, enlisted, ?_⟩, full₂⟩
      rw [if_pos eligible, bind_eq_ok]
      refine ⟨_, made, ?_⟩
      rw [bind_eq_ok]
      exact ⟨_, run, rfl⟩
    · obtain ⟨bids, m₁, run, full₁⟩ := ih rest full
      refine ⟨bids, m₁, ⟨learner, enlisted, ?_⟩, full₁⟩
      rw [if_neg eligible]
      exact run

end Population

end TangledGraph
