import TangledGraph.Text.Reader

/-!
# What readers take

A reader takes some text from the front of what it is given and leaves the rest. What
it takes may depend on the rest, since readers look at what comes next before they
stop. Readings are put together along the steps of a reader.
-/
namespace TangledGraph.Text.Reader

variable {α β : Type} {r : Reader α} {t u w rest : List Char} {a : α} {b : β} {c : Char}
  {p : Char → Bool}

/-- Of a text and the rest after it, the reader takes the text, with a result. -/
def Reads (r : Reader α) (text rest : List Char) (a : α) : Prop :=
  r.run (text ++ rest) = some (a, rest)

theorem Reads.pure : Reads (pure a) [] rest a := rfl

theorem Reads.bind {f : α → Reader β} (first : Reads r t (u ++ rest) a)
    (next : Reads (f a) u rest b) : Reads (r >>= f) (t ++ u) rest b := by
  rw [Reads, StateT.run_bind, List.append_assoc, first]
  exact next

/-- A first step that takes nothing. -/
theorem Reads.look {f : α → Reader β} (first : Reads r [] (t ++ rest) a)
    (next : Reads (f a) t rest b) : Reads (r >>= f) t rest b :=
  first.bind next

/-- A last step that takes nothing. -/
theorem Reads.stop {f : α → Reader β} (first : Reads r t rest a)
    (next : Reads (f a) [] rest b) : Reads (r >>= f) t rest b := by
  rw [← List.append_nil t]
  exact first.bind next

/-- A first step that takes one character. -/
theorem Reads.step {f : α → Reader β} (first : Reads r [c] (t ++ rest) a)
    (next : Reads (f a) t rest b) : Reads (r >>= f) (c :: t) rest b :=
  first.bind next

theorem reads_peek : Reads peek [] rest rest.head? := rfl

theorem reads_next : Reads next [c] rest c := rfl

theorem reads_remaining : Reads remaining [] rest rest := rfl

theorem reads_char : Reads (char c) [c] rest () := by
  simp [Reads, char, StateT.run]

theorem reads_tryChar : Reads (tryChar c) [c] rest true := by
  simp [Reads, tryChar, StateT.run]

theorem reads_tryChar_not (other : rest.head? ≠ some c) : Reads (tryChar c) [] rest false := by
  cases rest with
  | nil => rfl
  | cons d rest =>
    have apart : d ≠ c := fun same => other (congrArg some same)
    simp [Reads, tryChar, StateT.run, apart]

theorem reads_takeWhile (all : ∀ c ∈ t, p c = true) (stops : ∀ c ∈ rest.head?, p c = false) :
    Reads (takeWhile p) t rest t := by
  have taken : rest.takeWhile p = [] := by
    cases rest with
    | nil => rfl
    | cons c rest => rw [List.takeWhile_cons, stops c rfl]; rfl
  have left : rest.dropWhile p = rest := by
    cases rest with
    | nil => rfl
    | cons c rest => rw [List.dropWhile_cons, stops c rfl]; rfl
  simp only [Reads, takeWhile, StateT.run, List.takeWhile_append_of_pos all, taken,
    List.dropWhile_append_of_pos all, left, List.append_nil]

theorem reads_skipWhile (all : ∀ c ∈ t, p c = true) (stops : ∀ c ∈ rest.head?, p c = false) :
    Reads (skipWhile p) t rest () := by
  have taken := reads_takeWhile all stops
  simp only [Reads, takeWhile, StateT.run, Option.some.injEq, Prod.mk.injEq] at taken
  simp only [Reads, skipWhile, StateT.run, taken.2]

theorem reads_tryWord : Reads (tryWord w) w rest true := by
  have comes : w.isPrefixOf (w ++ rest) = true := List.isPrefixOf_iff_prefix.2 ⟨rest, rfl⟩
  simp only [Reads, tryWord, StateT.run, comes, if_true, List.drop_left]

theorem reads_tryWord_not (other : ¬w <+: rest) : Reads (tryWord w) [] rest false := by
  have absent : w.isPrefixOf rest = false := by
    rw [← Bool.not_eq_true, List.isPrefixOf_iff_prefix]
    exact other
  simp only [Reads, tryWord, StateT.run, List.nil_append, absent, Bool.false_eq_true, if_false]

theorem reads_word : Reads (word w) w rest () :=
  reads_tryWord.stop Reads.pure

theorem reads_take : Reads (take w.length) w rest w := by
  simp [Reads, take, StateT.run]

/-- A reader that takes a whole text. -/
theorem whole_eq_some (reads : Reads r t [] a) : whole r t = some a := by
  rw [Reads, List.append_nil] at reads
  rw [whole, show r t = some (a, []) from reads]

end TangledGraph.Text.Reader
