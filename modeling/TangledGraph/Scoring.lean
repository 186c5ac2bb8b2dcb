import TangledGraph.Number
import TangledGraph.Random.Draw

/-!
# Scoring

Fitness from outcomes. A matrix has a row for every candidate and a column for
every task; higher outcomes are better, and so is higher fitness. A matrix is
read as far as its first row goes, so that no other row may be shorter.
-/
namespace TangledGraph.Scoring

abbrev Row := List Float

abbrev Matrix := List Row

/-- How fitness comes from outcomes. -/
inductive Mode
  /-- The outcome of the first task. -/
  | single
  /-- The worst normalized outcome. -/
  | min
  /-- The best normalized outcome. -/
  | max
  /-- The mean of the normalized outcomes. -/
  | average
  /-- How many other rows this one is nowhere below. -/
  | paretoDominate
  /-- Minus the number of rows that are above this one everywhere. -/
  | paretoNonDominated
  /-- The place in the lexicographic order along a random order of the tasks. -/
  | lexicase
  deriving DecidableEq, Repr

def Mode.ofName? : String → Option Mode
  | "single" => some .single
  | "min" => some .min
  | "max" => some .max
  | "average" => some .average
  | "pareto_dominate" => some .paretoDominate
  | "pareto_non_dominated" => some .paretoNonDominated
  | "lexicase" => some .lexicase
  | _ => none

/-- The number of tasks. -/
def width (m : Matrix) : Nat := (m.head?.getD []).length

/-- Whether every row has an outcome for every task. -/
def isFull (m : Matrix) : Bool := m.all fun row => width m ≤ row.length

def entry (row : Row) (k : Nat) : Float := row.getD k 0.0

/-- The least and the greatest outcome of a task. -/
def bounds (m : Matrix) (k : Nat) : Float × Float :=
  m.foldl (fun (low, high) row => (lesser low (entry row k), greater high (entry row k)))
    (infinity, -infinity)

/-- A column without spread counts as full marks for all. -/
def rescale (x : Float) (bounds : Float × Float) : Float :=
  let range := bounds.2 - bounds.1
  if range.abs < 1e-12 then 1.0 else (x - bounds.1) / range

/-- The outcomes of each task on a scale from its least to its greatest. -/
def normalize (m : Matrix) : Matrix :=
  let columns := (List.range (width m)).map (bounds m)
  m.map fun row => row.zipWith rescale columns

def mean (row : Row) : Float :=
  row.foldl (· + ·) (-0.0) / Float.ofNat (Nat.max row.length 1)

/-- At least as good on every task. -/
def weaklyDominates (a b : Row) : Bool :=
  a.length == b.length && (a.zip b).all fun (x, y) => y ≤ x

/-- Better on every task, of which there is one at least. -/
def strictlyDominates (a b : Row) : Bool :=
  !a.isEmpty && a.length == b.length && (a.zip b).all fun (x, y) => y < x

/-- How many other rows are in a relation to each row. -/
def countOthers (related : Row → Row → Bool) (m : Matrix) : List Nat :=
  m.zipIdx.map fun (a, i) => m.zipIdx.countP fun (b, j) => j != i && related a b

def paretoDominate (m : Matrix) : List Float :=
  (countOthers weaklyDominates m).map Float.ofNat

def paretoNonDominated (m : Matrix) : List Float :=
  (countOthers (fun a b => strictlyDominates b a) m).map fun n => -Float.ofNat n

/-- How row `a` stands to row `b` along an order of tasks: `lt` if it is better
on the first task that tells them apart. -/
def standing (order : List Nat) (a b : Row) : Ordering :=
  match order with
  | [] => .eq
  | k :: rest =>
    if entry b k < entry a k then .lt
    else if entry a k < entry b k then .gt
    else standing rest a b

/-- The rows with their places in the matrix, best first. -/
def ranking (order : List Nat) (m : Matrix) : List (Row × Nat) :=
  m.zipIdx.mergeSort fun a b => standing order a.1 b.1 != .gt

/-- The places of the rows of a ranking with their ranks: a row that stands
level with the one before it shares its rank. -/
def ranks (order : List Nat) : List (Row × Nat) → Option Row → Nat → Nat → List (Nat × Nat)
  | [], _, _, _ => []
  | (row, i) :: rest, previous, position, rank =>
    let level := previous.all fun before => standing order before row == .eq
    let rank := if level then rank else position
    (i, rank) :: ranks order rest (some row) (position + 1) rank

/-- The number of rows less the rank of each row. -/
def lexicase (order : List Nat) (m : Matrix) : List Float :=
  let ranked := ranks order (ranking order m) none 0 0
  (List.range m.length).map fun i =>
    Float.ofNat (m.length - (ranked.lookup i).getD 0)

/-- Whether two rows can be compared along an order of tasks without a look at
an outcome that one of them lacks. -/
def isComparable (order : List Nat) (a b : Row) : Bool :=
  match order with
  | [] => true
  | k :: rest =>
    if k < a.length && k < b.length then
      entry b k < entry a k || entry a k < entry b k || isComparable rest a b
    else false

/-- Whether every two rows can be compared along an order of tasks. -/
def isRankable (order : List Nat) (m : Matrix) : Bool :=
  order.all (fun k => m.all (k < ·.length)) ||
    m.zipIdx.all fun (a, i) => (m.take i).all fun b => isComparable order b a

/-- The first row with the best outcome of a task. -/
def champion? (m : Matrix) (k : Nat) : Option Nat :=
  let better := fun best (candidate : Row × Nat) =>
    match best with
    | none => some candidate
    | some leader => if entry leader.1 k < entry candidate.1 k then some candidate else best
  (m.zipIdx.foldl better none).map Prod.snd

/-- The champions of the tasks in the order in which they are found, each once. -/
def elites (m : Matrix) : List Nat :=
  ((List.range (width m)).filterMap (champion? m)).foldl
    (fun found i => if found.contains i then found else found ++ [i]) []

/-- A result that needs an outcome for every task. -/
def ifFull {α : Type} (m : Matrix) (result : Matrix → α) : Except Fault α :=
  if isFull m then pure (result m) else throw .outOfRange

def ifRankable (order : List Nat) (m : Matrix) : Except Fault (List Float) :=
  if isRankable order m then pure (lexicase order m) else throw .outOfRange

/-- The order in which tasks count; only the lexicographic mode draws one. -/
def taskOrder (mode : Mode) (m : Matrix) : Draw (List Nat) :=
  match mode with
  | .lexicase => Draw.shuffle (List.range (width m))
  | _ => pure []

/-- The fitness of each row. -/
def scoreAlong (order : List Nat) (mode : Mode) (m : Matrix) : Except Fault (List Float) :=
  match mode with
  | .single => pure (m.map fun row => row.headD 0.0)
  | .min => ifFull m fun m => (normalize m).map (·.foldl lesser infinity)
  | .max => ifFull m fun m => (normalize m).map (·.foldl greater (-infinity))
  | .average => ifFull m fun m => (normalize m).map mean
  | .paretoDominate => pure (paretoDominate m)
  | .paretoNonDominated => pure (paretoNonDominated m)
  | .lexicase => ifRankable order m

def score (mode : Mode) (m : Matrix) : Draw (List Float) := do
  scoreAlong (← taskOrder mode m) mode m

end TangledGraph.Scoring
