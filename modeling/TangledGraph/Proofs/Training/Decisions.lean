import TangledGraph.Proofs.Training.Reachable

/-!
# Decisions of agents

In a population in which what is on record is there and every team has a
learner with a code, every team decides, in any context and on any input, if the
memory has a cell for every row and column. The populations of reachable trainers
are of that kind, and all their codes are codes of the settings. Their memories have
all cells exactly if the settings ask for no more cells than there are words; of
other memories there are cells that a program may ask for in vain.
-/
namespace TangledGraph

/-- The settings ask for no memory, or for one in which the places of all cells are words. -/
def Settings.Addressable (s : Settings) : Prop :=
  s.program.instructionSet.usesMemory = true →
    s.program.memoryRows * s.program.memoryCols < Nat.pow 2 64

instance (s : Settings) : Decidable s.Addressable :=
  inferInstanceAs (Decidable (_ → _))

/-- A learner whose program reads a cell of the memory. -/
def Learner.reader (row col : Nat) : Learner where
  program := ⟨⟨0⟩, [⟨.register, .memoryRead, col, row⟩]⟩
  action := .atomic (.discrete 0)
  generation := 0
  inTeams := [⟨0⟩]

/-- A team of that learner. -/
def Population.reader (row col : Nat) : Population :=
  (Population.empty.setTeam ⟨0⟩ { learners := [⟨0⟩], generation := 0 }).setLearner ⟨0⟩
    (.reader row col)

namespace Population

end Population

namespace Trainer

variable {s : Settings} {t : Trainer}

theorem wanted_sublist (t : Trainer) (query : AgentQuery) : (t.wanted query).Sublist t.roots :=
  List.filter_sublist

/-- However fit the roots are, a query gives those that it asks for in some order. -/
theorem selected_perm (t : Trainer) (query : AgentQuery) :
    (t.selected query).Perm (t.wanted query) := by
  unfold Trainer.selected
  split
  · exact List.mergeSort_perm ..
  · exact .refl _

/-- Agents are roots. -/
theorem mem_roots_of_mem_agents {t : Trainer} {query : AgentQuery} {a : Agent}
    (h : a ∈ t.agents query) : a.team ∈ t.roots := by
  obtain ⟨id, chosen, rfl⟩ := List.mem_map.1 h
  exact (t.wanted_sublist query).subset ((t.selected_perm query).subset chosen)

/-- The memory that a trainer shares is full exactly if the places of its cells are words. -/
theorem Sound.full_iff (sound : t.Sound s) : t.commons.Full ↔ s.Addressable := by
  have same := sound.memory
  cases used : s.program.instructionSet.usesMemory with
  | false =>
    rw [initialMemory, used, if_neg Bool.false_ne_true, Option.map_none,
      Option.map_eq_none_iff] at same
    simp [Commons.Full, commons, same, Settings.Addressable, used]
  | true =>
    rw [initialMemory, used, if_pos rfl, Option.map_some, Option.map_eq_some_iff] at same
    obtain ⟨memory, remembered, same⟩ := same
    have rows : memory.rows = s.program.memoryRows := (Memory.shape_eq_iff.1 same).1
    have cols : memory.cols = s.program.memoryCols := (Memory.shape_eq_iff.1 same).2.1
    have full := (sound.allocated remembered).full_iff
    rw [Memory.Addressable, rows, cols] at full
    simpa [Commons.Full, commons, remembered, Settings.Addressable, used] using full

end Trainer

end TangledGraph
