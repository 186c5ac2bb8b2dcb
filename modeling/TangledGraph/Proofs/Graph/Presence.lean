import TangledGraph.Proofs.Graph.Decision

/-!
# A memory stays

Programs write to the memory that they find, but none of them makes a memory, takes
one away or changes its shape. So after a decision there is a memory of the same shape
as before, or there is none as before.
-/
namespace TangledGraph

open Draw

namespace Instruction

theorem result_memory (x y : Float) (m : Machine) (i : Instruction) :
    Yields (i.result x y m) fun computed =>
      computed.2.map Memory.shape = m.memory.map Memory.shape := by
  cases op : i.op <;> cases memory : m.memory <;> simp only [result, op, memory]
  case memoryRead.some => exact Yields.skip fun _ => Yields.pure rfl
  case memoryWrite.some memory' =>
    exact (memory'.write_shape m.registers).bind fun _ same =>
      Yields.pure (congrArg some same)
  all_goals exact Yields.pure rfl

theorem step_memory (input : Array Float) (m : Machine) (i : Instruction) :
    Yields (step input m i) fun next =>
      next.memory.map Memory.shape = m.memory.map Memory.shape :=
  Yields.skip fun y => Yields.skip fun x =>
    (result_memory x y m i).bind fun _ kept => Yields.pure kept

end Instruction

theorem Machine.execute_memory (m : Machine) (instructions : List Instruction)
    (input : Array Float) :
    Yields (m.execute instructions input) fun computed =>
      computed.2.memory.map Memory.shape = m.memory.map Memory.shape := by
  unfold execute
  split
  · exact Yields.pure rfl
  · refine (Yields.foldlM
      (fun next : Machine => next.memory.map Memory.shape = m.memory.map Memory.shape)
      (fun next i kept => (Instruction.step_memory input next i).mono fun _ h => h.trans kept)
      instructions rfl).bind fun next kept => ?_
    exact Yields.skip fun _ => Yields.pure kept

namespace Mind

variable {m m' : Mind} {l : LearnerId} {input : Array Float} {value : Float}

theorem runProgram_memory {program : Program}
    (run : m.runProgram l program input = .ok (value, m')) :
    m'.memory.map Memory.shape = m.memory.map Memory.shape := by
  simp only [runProgram, bind_eq_ok, pure_eq_ok, Prod.mk.injEq] at run
  obtain ⟨⟨⟨_, machine⟩, _⟩, executed, -, rfl⟩ := run
  exact Machine.execute_memory _ _ _ _ _ _ executed

theorem bid_memory {learner : Learner} (run : m.bid l learner input = .ok (value, m')) :
    m'.memory.map Memory.shape = m.memory.map Memory.shape := by
  unfold bid at run
  cases cached : m.context.cachedBid? l with
  | some bid =>
    simp only [cached, pure_eq_ok, Prod.mk.injEq] at run
    exact run.2 ▸ rfl
  | none =>
    simp only [cached, bind_eq_ok, pure_eq_ok, Prod.mk.injEq] at run
    obtain ⟨⟨_, m₁⟩, computed, -, rfl⟩ := run
    have kept := runProgram_memory computed
    exact kept

end Mind

namespace Population

variable {p : Population} {input : Array Float} {visited : List TeamId}

section Keeping

variable (I : Mind → Prop)
variable (keep : ∀ {l learner m value m'}, I m → m.bid l learner input = .ok (value, m') → I m')
include keep

theorem winner_keeps {ls : List LearnerId} {leader leader' : Leader} {m m' : Mind} (start : I m)
    (run : p.winner input visited ls leader m = .ok (leader', m')) : I m' := by
  refine winner_induction (fun _ => I) ?_ start run
  intro _ _ _ _ _ _ _ _ _ before bids
  exact ⟨keep before bids, keep before bids⟩

theorem walk_keeps {fuel : Nat} {t : TeamId} {team : Team} {w w' : Walk}
    {result : Except Error Code} (start : I w.mind)
    (run : p.walk input fuel t team w = .ok (result, w')) : I w'.mind := by
  induction fuel generalizing t team w with
  | zero => simp [walk] at run
  | succ fuel ih =>
    simp only [walk] at run
    split at run
    case isTrue again =>
      simp only [pure_eq_ok, Prod.mk.injEq] at run
      exact run.2 ▸ start
    case isFalse new =>
      obtain ⟨⟨leader, m⟩, won, run⟩ := bind_eq_ok.1 run
      have kept := winner_keeps I keep start won
      split at run
      case h_1 =>
        simp only [pure_eq_ok, Prod.mk.injEq] at run
        exact run.2 ▸ kept
      case h_2 =>
        split at run
        case h_1 =>
          simp only [pure_eq_ok, Prod.mk.injEq] at run
          exact run.2 ▸ kept
        case h_2 =>
          split at run
          case h_1 =>
            simp only [pure_eq_ok, Prod.mk.injEq] at run
            exact run.2 ▸ kept
          case h_2 => exact ih kept run

theorem decideFrom_keeps {t : TeamId} {w w' : Walk} {result : Except Error Code}
    (start : I w.mind) (run : p.decideFrom input t w = .ok (result, w')) : I w'.mind := by
  unfold decideFrom at run
  split at run
  · simp only [pure_eq_ok, Prod.mk.injEq] at run
    exact run.2 ▸ start
  · exact walk_keeps I keep start run

theorem act_keeps {t : TeamId} {m m' : Mind} {result : Except Error Code}
    (begins : I m → I { m with context := m.context.beginFrame }) (start : I m)
    (run : p.act t input m = .ok (result, m')) : I m' := by
  unfold act at run
  split at run
  case isFalse =>
    simp only [pure_eq_ok, Prod.mk.injEq] at run
    exact run.2 ▸ start
  case isTrue =>
    simp only [bind_eq_ok, pure_eq_ok, Prod.mk.injEq] at run
    obtain ⟨⟨_, w⟩, decided, -, rfl⟩ := run
    exact decideFrom_keeps I keep (begins start) decided

end Keeping

theorem act_memory {t : TeamId} {m m' : Mind} {result : Except Error Code}
    (run : p.act t input m = .ok (result, m')) :
    m'.memory.map Memory.shape = m.memory.map Memory.shape :=
  act_keeps (fun m' => m'.memory.map Memory.shape = m.memory.map Memory.shape)
    (fun kept bids => (Mind.bid_memory bids).trans kept) id rfl run

end Population

end TangledGraph
