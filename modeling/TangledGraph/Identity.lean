import Std.Data.ExtTreeMap

/-!
# Identities

Teams, learners and programs are named by numbers of three separate kinds. A
number is handed out once: the counters only grow, so an identity never comes
back after what it named is gone.
-/
namespace TangledGraph

/-- The name of a team in the graph. -/
structure TeamId where
  val : Nat
  deriving DecidableEq, Repr, Inhabited

/-- The name of a learner in the graph. -/
structure LearnerId where
  val : Nat
  deriving DecidableEq, Repr, Inhabited

/-- The name of one version of a program. -/
structure ProgramId where
  val : Nat
  deriving DecidableEq, Repr, Inhabited

namespace TeamId

instance : Ord TeamId := ⟨fun a b => compare a.val b.val⟩

theorem compare_eq (a b : TeamId) : compare a b = compare a.val b.val := rfl

instance : Std.TransOrd TeamId where
  eq_swap := Std.OrientedOrd.eq_swap (α := Nat)
  isLE_trans := Std.TransOrd.isLE_trans (α := Nat)

instance : Std.LawfulEqOrd TeamId where
  eq_of_compare {a b} h := by
    have : a.val = b.val := Std.LawfulEqOrd.eq_of_compare (α := Nat) h
    cases a; cases b; simp_all

/-- How messages name a team. -/
def label (t : TeamId) : String := s!"T{t.val}"

end TeamId

namespace LearnerId

instance : Ord LearnerId := ⟨fun a b => compare a.val b.val⟩

theorem compare_eq (a b : LearnerId) : compare a b = compare a.val b.val := rfl

instance : Std.TransOrd LearnerId where
  eq_swap := Std.OrientedOrd.eq_swap (α := Nat)
  isLE_trans := Std.TransOrd.isLE_trans (α := Nat)

instance : Std.LawfulEqOrd LearnerId where
  eq_of_compare {a b} h := by
    have : a.val = b.val := Std.LawfulEqOrd.eq_of_compare (α := Nat) h
    cases a; cases b; simp_all

/-- How messages name a learner. -/
def label (l : LearnerId) : String := s!"L{l.val}"

end LearnerId

/-- How messages name a program. -/
def ProgramId.label (p : ProgramId) : String := s!"P{p.val}"

/-- The next unused number of each kind. -/
structure Counters where
  team : Nat := 0
  learner : Nat := 0
  program : Nat := 0
  deriving DecidableEq, Repr, Inhabited

namespace Counters

/-- A fresh team identity and the counters without it. -/
def newTeam (c : Counters) : TeamId × Counters := (⟨c.team⟩, { c with team := c.team + 1 })

/-- A fresh learner identity and the counters without it. -/
def newLearner (c : Counters) : LearnerId × Counters :=
  (⟨c.learner⟩, { c with learner := c.learner + 1 })

/-- A fresh program identity and the counters without it. -/
def newProgram (c : Counters) : ProgramId × Counters :=
  (⟨c.program⟩, { c with program := c.program + 1 })

end Counters

end TangledGraph
