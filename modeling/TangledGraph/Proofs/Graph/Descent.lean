import Mathlib.Logic.Relation
import TangledGraph.Proofs.Graph.Decision
import TangledGraph.Proofs.Graph.Presence
import TangledGraph.Proofs.Graph.Roots

/-!
# Descent

Where every action leads to a team with a smaller identity, the graph has no
cycle. Then a walk never comes near a team that it has visited, so it skips no
learner; and going up from a team, against the actions, ends at a root.
-/
namespace TangledGraph.Population

open Relation

variable {p q : Population} {t u : TeamId} {input : Array Float}

/-- A learner of one team leads to another. -/
def Leads (p : Population) (t u : TeamId) : Prop :=
  ∃ l ∈ p.members t, p.target? l = some u

/-- Identities get smaller along actions. -/
def Descends (p : Population) : Prop := ∀ t u, p.Leads t u → u.val < t.val

theorem leads_congr (same : q.outline = p.outline) : q.Leads t u ↔ p.Leads t u := by
  have members : q.members = p.members := congrArg Outline.members same
  simp only [Leads, target?_eq, members, same]

theorem Descends.congr (h : p.Descends) (same : q.outline = p.outline) : q.Descends :=
  fun t u leads => h t u ((leads_congr same).1 leads)

theorem Descends.lt (h : p.Descends) (path : TransGen p.Leads t u) : u.val < t.val := by
  induction path with
  | single leads => exact h _ _ leads
  | tail _ leads ih => exact (h _ _ leads).trans ih

theorem Descends.acyclic (h : p.Descends) (t : TeamId) : ¬TransGen p.Leads t t :=
  fun path => lt_irrefl _ (h.lt path)

/-- A team is a root, or another one leads to it. -/
theorem root_or_led (exact : p.outline.Exact)
    (employed : ∀ {l policy}, p.policy? l = some policy → p.teamsOf l ≠ [])
    (there : p.containsTeam t = true) :
    t ∈ p.roots ∨ ∃ u, p.containsTeam u = true ∧ p.Leads u t := by
  cases references : p.references t with
  | nil => exact .inl (mem_roots.2 ⟨there, references⟩)
  | cons l others =>
    have reference : l ∈ p.references t := references ▸ List.mem_cons_self
    have leads : p.outline.target? l = some t := exact.reference_iff.1 reference
    obtain ⟨policy, enlisted, -⟩ := Option.bind_eq_some_iff.1 leads
    obtain ⟨u, listed⟩ := List.exists_mem_of_ne_nil _ (employed enlisted)
    have member : l ∈ p.members u := exact.member_iff.2 listed
    exact .inr ⟨u, containsTeam_of_mem_members member, l, member, target?_eq p l ▸ leads⟩

/-- Every team is reached from a root. -/
theorem Descends.rooted (h : p.Descends) (exact : p.outline.Exact)
    (employed : ∀ {l policy}, p.policy? l = some policy → p.teamsOf l ≠ []) {bound : Nat}
    (below : ∀ {t}, p.containsTeam t = true → t.val < bound) (there : p.containsTeam t = true) :
    ∃ r ∈ p.roots, ReflTransGen p.Leads r t := by
  -- The identities that are left above a team get fewer on the way up.
  induction left : bound - t.val using Nat.strongRecOn generalizing t with
  | ind n ih =>
    obtain root | ⟨u, there', leads⟩ := root_or_led exact employed there
    · exact ⟨t, root, .refl⟩
    · have higher := h u t leads
      have bounded := below there'
      obtain ⟨r, root, path⟩ := ih (bound - u.val) (by omega) there' rfl
      exact ⟨r, root, path.tail leads⟩

/-- Where a walk stands: at a team, with what it visited before. -/
abbrev Stand := TeamId × Walk

/-- A walk goes on to the team that the learner with the greatest bid leads to. -/
def Hops (p : Population) (input : Array Float) (a b : Stand) : Prop :=
  ∃ team learner bid, p.team? a.1 = some team ∧
    p.winner input (a.2.visited ++ [a.1]) team.learners none a.2.mind =
      .ok (some (learner, bid), b.2.mind) ∧
    learner.action = .team b.1 ∧ b.2.visited = a.2.visited ++ [a.1]

/-- A walk ends in the code of the learner with the greatest bid. -/
def Ends (p : Population) (input : Array Float) (a : Stand) (code : Code) (m : Mind) : Prop :=
  ∃ team learner bid, p.team? a.1 = some team ∧
    p.winner input (a.2.visited ++ [a.1]) team.learners none a.2.mind =
      .ok (some (learner, bid), m) ∧
    learner.action = .atomic code

/-- A walk to a code goes along hops to where it ends. -/
theorem walk_hops {fuel : Nat} {team : Team} {w w' : Walk} {code : Code}
    (found : p.team? t = some team) (run : p.walk input fuel t team w = .ok (.ok code, w')) :
    ∃ last : Stand, ReflTransGen (p.Hops input) (t, w) last ∧ p.Ends input last code w'.mind := by
  induction fuel generalizing t team w with
  | zero => simp [walk] at run
  | succ fuel ih =>
    simp only [walk] at run
    split at run
    case isTrue again => simp at run
    case isFalse new =>
      obtain ⟨⟨leader, m⟩, won, run⟩ := bind_eq_ok.1 run
      split at run
      case h_1 => simp at run
      case h_2 learner bid leads =>
        obtain rfl : leader = some (learner, bid) := leads
        split at run
        case h_1 code' action =>
          simp only [pure_eq_ok, Prod.mk.injEq, Except.ok.injEq] at run
          obtain ⟨rfl, rfl⟩ := run
          exact ⟨(t, w), .refl, team, learner, bid, found, won, action⟩
        case h_2 target action =>
          split at run
          case h_1 => simp at run
          case h_2 next found' =>
            obtain ⟨last, path, ends⟩ := ih found' run
            have hop : p.Hops input (t, w) (target, ⟨w.visited ++ [t], m⟩) :=
              ⟨team, learner, bid, found, won, action, rfl⟩
            exact ⟨last, path.head hop, ends⟩

/-- A decision is a walk along hops. -/
theorem act_hops (complete : p.Complete) (there : p.containsTeam t = true) {m : Mind}
    (full : m.Full) (input : Array Float) :
    ∃ code m' last, p.act t input m = .ok (.ok code, m') ∧
      ReflTransGen (p.Hops input) (t, ⟨[], { m with context := m.context.beginFrame }⟩) last ∧
      p.Ends input last code m' := by
  obtain ⟨team, found⟩ := containsTeam_iff.1 there
  have full' : Mind.Full { m with context := m.context.beginFrame } := full
  obtain ⟨code, w, decided, -⟩ := decideFrom_ok complete there full' input
  have run := decided
  simp only [decideFrom, found] at run
  obtain ⟨last, path, ends⟩ := walk_hops found run
  refine ⟨code, w.mind, last, ?_, path, ends⟩
  rw [act_eq_decideFrom there, decided]
  rfl

theorem Descends.hop (h : p.Descends) {a b : Stand} (hop : p.Hops input a b) :
    b.1.val < a.1.val := by
  obtain ⟨team, learner, bid, found, won, action, -⟩ := hop
  obtain ⟨l, hl, enlisted, -⟩ := (winner_source won _ rfl).resolve_left nofun
  refine h a.1 b.1 ⟨l, members_of_team? found ▸ hl, ?_⟩
  rw [target?_of_learner? enlisted, action, Action.target?_team]

/-- A walk stands below all the teams that it visited. -/
theorem Descends.below_visited (h : p.Descends) {a b : Stand}
    (start : ∀ v ∈ a.2.visited, a.1.val < v.val)
    (path : ReflTransGen (p.Hops input) a b) : ∀ v ∈ b.2.visited, b.1.val < v.val := by
  induction path with
  | refl => exact start
  | @tail b c _ hop ih =>
    have lower := h.hop hop
    obtain ⟨-, -, -, -, -, -, visited⟩ := hop
    intro v listed
    rw [visited, List.mem_append, List.mem_singleton] at listed
    obtain before | rfl := listed
    · exact lower.trans (ih v before)
    · exact lower

/-- Wherever a walk stands, it is there for the first time, and every learner of
the team takes part in the bidding. -/
theorem Descends.unskipped (h : p.Descends) {a b : Stand}
    (start : a.2.visited = []) (path : ReflTransGen (p.Hops input) a b) :
    b.1 ∉ b.2.visited ∧ ∀ l ∈ p.members b.1, ∀ learner, p.learner? l = some learner →
      learner.isEligible (b.2.visited ++ [b.1]) = true := by
  have below := h.below_visited (by simp [start]) path
  refine ⟨fun again => lt_irrefl _ (below _ again), fun l hl learner enlisted => ?_⟩
  cases target : learner.target? with
  | none => simp [Learner.isEligible, target]
  | some u =>
    have lower : u.val < b.1.val :=
      h b.1 u ⟨l, hl, (target?_of_learner? enlisted).trans target⟩
    have new : u ∉ b.2.visited ++ [b.1] := by
      intro listed
      rw [List.mem_append, List.mem_singleton] at listed
      obtain before | rfl := listed
      · exact lt_asymm lower (below u before)
      · exact lt_irrefl _ lower
    simp only [Learner.isEligible, target, List.contains_eq_mem, new, decide_false, Bool.not_false]

end TangledGraph.Population
