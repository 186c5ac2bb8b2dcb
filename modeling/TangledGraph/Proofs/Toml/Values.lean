import TangledGraph.Proofs.Toml.Numbers

/-!
# Values in TOML text

A value without tables in it reads back from its text: a scalar, or an array of such
values on one line or on many. What a value can start with tells it apart from what
stands between the items of an array.
-/
namespace TangledGraph.Toml

open Text Text.Reader

variable {fuel room : Nat} {text rest : List Char} {j : Json}

/-- A value without tables in it, which nests arrays only as deep as there is room. -/
inductive Plain : Nat → Json → Prop
  | bool {room : Nat} (b : Bool) : Plain room (.bool b)
  | integer {room : Nat} {n : Int} (fits : inRange n = some (.integer n)) : Plain room (.integer n)
  | real {room : Nat} {x : Float} (number : x.isNaN = false) : Plain room (.real x)
  | string {room : Nat} (s : String) : Plain room (.string s)
  | array {room : Nat} {values : List Json} (inner : ∀ j ∈ values, Plain room j) :
      Plain (room + 1) (.array values)

/-- What comes next is neither blank nor the end of a line nor a comment. -/
def Solid (text : List Char) : Prop :=
  ∀ c ∈ text.head?, isBlank c = false ∧ c ≠ '#' ∧ c ≠ '\n' ∧ c ≠ '\r'

theorem reads_comment (solid : Solid rest) : Reads comment [] rest () :=
  Reads.look (reads_tryChar_not fun head => (solid _ head).2.1 rfl) Reads.pure

theorem reads_tryNewline_not (solid : Solid rest) : Reads tryNewline [] rest false := by
  refine Reads.look (reads_tryChar_not fun head => (solid _ head).2.2.1 rfl) ?_
  refine reads_tryWord_not fun mark => ?_
  obtain ⟨more, rfl⟩ := mark
  exact (solid '\r' rfl).2.2.2 rfl

theorem reads_tryNewline : Reads tryNewline ['\n'] rest true :=
  Reads.stop reads_tryChar Reads.pure

theorem reads_filler (solid : Solid rest) (blank : ∀ c ∈ text, isBlank c = true) :
    Reads (filler (fuel + 1)) text rest () := by
  refine Reads.stop (reads_skipWhile blank fun c head => (solid c head).1) ?_
  refine Reads.look (reads_comment solid) ?_
  exact Reads.look (reads_tryNewline_not solid) Reads.pure

theorem reads_filler_newline (next : Reads (filler fuel) text rest ()) :
    Reads (filler (fuel + 1)) ('\n' :: text) rest () := by
  refine Reads.look (t := '\n' :: text) (reads_skipWhile (List.forall_mem_nil _) ?_) ?_
  · rintro c ⟨⟩
    rfl
  refine Reads.look (Reads.look (reads_tryChar_not nofun) Reads.pure) ?_
  exact Reads.step reads_tryNewline next

/-- A character that a value can start with. -/
structure Opens (c : Char) : Prop where
  blank : isBlank c = false
  comment : c ≠ '#'
  line : c ≠ '\n' ∧ c ≠ '\r'
  bracket : c ≠ ']'

theorem Opens.solid {c : Char} (opens : Opens c) (more : List Char) : Solid (c :: more) := by
  rintro d ⟨⟩
  exact ⟨opens.blank, opens.comment, opens.line⟩

theorem opens_of_isDigit {c : Char} (digit : Decimal.isDigit c = true) : Opens c := by
  have ne : ∀ d, Decimal.isDigit d = false → c ≠ d := by
    rintro d none rfl
    exact Bool.false_ne_true (none.symm.trans digit)
  exact ⟨by simp [isBlank, ne ' ' rfl, ne '\t' rfl], ne _ rfl, ⟨ne _ rfl, ne _ rfl⟩, ne _ rfl⟩

theorem Numeral.opens (numeral : Numeral text) : ∃ c more, text = c :: more ∧ Opens c := by
  obtain ⟨c, more, rfl, digit | rfl | rfl⟩ := numeral.starts
  · exact ⟨c, more, rfl, opens_of_isDigit digit⟩
  · exact ⟨_, more, rfl, rfl, by decide, by decide, by decide⟩
  · exact ⟨_, more, rfl, rfl, by decide, by decide, by decide⟩

theorem quotedText_opens (s : String) :
    ∃ c more, (quotedText s).toList = c :: more ∧ Opens c := by
  have double : Opens '"' := ⟨rfl, by decide, by decide, by decide⟩
  have single : Opens '\'' := ⟨rfl, by decide, by decide, by decide⟩
  unfold quotedText
  match Quotes.ofText s.toList with
  | .basic false => exact ⟨_, _, quotedAs_short, double⟩
  | .basic true => exact ⟨_, _, quotedAs_basic, double⟩
  | .literal false => exact ⟨_, _, quotedAs_literal, single⟩
  | .literal true => exact ⟨_, _, quotedAs_lines, single⟩

theorem renderItems_eq (values : List Json) : renderItems values = values.map renderValue := by
  induction values with
  | nil => rfl
  | cons j values ih => rw [renderItems, ih, List.map_cons]

theorem bracketed_toList (items : List String) :
    (bracketed items).toList = '[' :: if items.length ≤ 1 then items.flatMap String.toList ++ [']']
      else (items.flatMap fun item => "\n    ".toList ++ item.toList ++ [',']) ++ "\n]".toList := by
  rw [bracketed]
  split <;> simp [String.toList_join, List.flatMap_map]

theorem Plain.opens (plain : Plain room j) :
    ∃ c more, (renderValue j).toList = c :: more ∧ Opens c := by
  cases plain with
  | bool b => cases b <;> exact ⟨_, _, rfl, rfl, by decide, by decide, by decide⟩
  | integer => exact (numeral_toString _).opens
  | real number => exact (numeral_numeral number).opens
  | string s => exact quotedText_opens s
  | array =>
    rw [renderValue, bracketed_toList]
    exact ⟨_, _, rfl, rfl, by decide, by decide, by decide⟩

/-- With enough fuel and in room, the reader takes the text of a value for it. -/
def Returns (room : Nat) (j : Json) : Prop :=
  ∀ fuel rest, Ends rest → (renderValue j).toList.length < fuel →
    Reads (value fuel room) (renderValue j).toList rest j

theorem returns_of_succ (reads : ∀ fuel rest, Ends rest →
    (renderValue j).toList.length ≤ fuel →
      Reads (value (fuel + 1) room) (renderValue j).toList rest j) : Returns room j := by
  intro fuel rest ends enough
  obtain ⟨fuel, rfl⟩ := Nat.exists_eq_succ_of_ne_zero (Nat.ne_zero_of_lt enough)
  exact reads fuel rest ends (Nat.le_of_lt_succ enough)

theorem ends_comma : Ends (',' :: rest) := by
  rintro c ⟨⟩
  exact .inr (.inl rfl)

theorem ends_bracket : Ends (']' :: rest) := by
  rintro c ⟨⟩
  exact .inr (.inr rfl)

theorem solid_comma : Solid (',' :: rest) := by
  rintro c ⟨⟩
  decide

theorem solid_bracket : Solid (']' :: rest) := by
  rintro c ⟨⟩
  decide

/-- An item of an array with what stands before it; then a comma or the bracket. -/
theorem reads_item {lead tail : List Char} {seen : List Json} {a : Json} (plain : Plain room j)
    (returns : Returns room j)
    (before : Reads (filler fuel) lead ((renderValue j).toList ++ (tail ++ rest)) ())
    (ends : Ends (tail ++ rest)) (solid : Solid (tail ++ rest))
    (enough : (renderValue j).toList.length < fuel)
    (next : Reads (tryChar ',' >>= fun comma =>
      if comma = true then items fuel room (j :: seen)
      else char ']' >>= fun _ => pure (.array (j :: seen).reverse)) tail rest a) :
    Reads (items (fuel + 1) room seen) (lead ++ ((renderValue j).toList ++ tail)) rest a := by
  obtain ⟨c, more, start, opens⟩ := plain.opens
  obtain ⟨fuel, rfl⟩ := Nat.exists_eq_succ_of_ne_zero (Nat.ne_zero_of_lt enough)
  rw [items]
  refine Reads.bind (List.append_assoc _ _ _ ▸ before) ?_
  refine Reads.look (reads_tryChar_not ?_) ?_
  · rw [start]
    exact fun head => opens.bracket (Option.some.inj head)
  refine Reads.bind (returns _ _ ends enough) ?_
  exact Reads.look (reads_filler solid (List.forall_mem_nil _)) next

/-- The lines of an array, one for each item. -/
def itemLines (values : List Json) : List Char :=
  values.flatMap fun j => "\n    ".toList ++ ((renderValue j).toList ++ [','])

theorem itemLines_cons (j : Json) (values : List Json) : itemLines (j :: values) =
    "\n    ".toList ++ ((renderValue j).toList ++ (',' :: itemLines values)) := by
  rw [itemLines, List.flatMap_cons, List.append_assoc, List.append_assoc]
  rfl

/-- The lines of an array read back from one on. -/
theorem reads_lines {values seen : List Json} (plain : ∀ j ∈ values, Plain room j)
    (returns : ∀ j ∈ values, Returns room j) (enough : (itemLines values).length + 2 < fuel) :
    Reads (items fuel room seen) (itemLines values ++ "\n]".toList) rest
      (.array (seen.reverse ++ values)) := by
  induction values generalizing fuel seen with
  | nil =>
    obtain ⟨fuel, rfl⟩ : ∃ k, fuel = k + 3 := ⟨fuel - 3, by omega⟩
    rw [items, List.append_nil]
    refine Reads.bind (t := ['\n']) (reads_filler_newline (reads_filler solid_bracket ?_)) ?_
    · exact List.forall_mem_nil _
    · exact Reads.stop reads_tryChar Reads.pure
  | cons j values ih =>
    obtain ⟨first, others⟩ := List.forall_mem_cons.1 plain
    obtain ⟨returns, later⟩ := List.forall_mem_cons.1 returns
    obtain ⟨c, more, start, opens⟩ := first.opens
    have turned : seen.reverse ++ j :: values = (j :: seen).reverse ++ values := by simp
    rw [itemLines_cons] at enough ⊢
    simp only [List.length_append, List.length_cons] at enough
    obtain ⟨fuel, rfl⟩ : ∃ k, fuel = k + 3 := ⟨fuel - 3, by omega⟩
    rw [turned, List.append_assoc, List.append_assoc]
    refine reads_item first returns ?_ ends_comma solid_comma (by omega) ?_
    · rw [start]
      exact reads_filler_newline (reads_filler (opens.solid _) (List.all_eq_true.1 rfl))
    · exact Reads.step reads_tryChar (ih others later (by omega))

/-- An array of up to one item reads back from one line. -/
theorem reads_line {values : List Json} (few : values.length ≤ 1)
    (plain : ∀ j ∈ values, Plain room j) (returns : ∀ j ∈ values, Returns room j)
    (enough : ((values.map renderValue).flatMap String.toList).length + 1 < fuel) :
    Reads (items fuel room []) ((values.map renderValue).flatMap String.toList ++ [']']) rest
      (.array values) := by
  obtain ⟨fuel, rfl⟩ : ∃ k, fuel = k + 2 := ⟨fuel - 2, by omega⟩
  match values, few with
  | [], _ =>
    rw [items]
    refine Reads.look (reads_filler solid_bracket (List.forall_mem_nil _)) ?_
    exact Reads.stop reads_tryChar Reads.pure
  | [j], _ =>
    obtain ⟨first, -⟩ := List.forall_mem_cons.1 plain
    obtain ⟨returns, -⟩ := List.forall_mem_cons.1 returns
    obtain ⟨c, more, start, opens⟩ := first.opens
    simp only [List.map_cons, List.map_nil, List.flatMap_cons, List.flatMap_nil,
      List.append_nil] at enough ⊢
    rw [← List.nil_append ((renderValue j).toList ++ [']'])]
    refine reads_item first returns ?_ ends_bracket solid_bracket (by omega) ?_
    · rw [start]
      exact reads_filler (opens.solid _) (List.forall_mem_nil _)
    · exact Reads.look (reads_tryChar_not nofun) (Reads.stop reads_char Reads.pure)

/-- Every plain value reads back. -/
theorem Plain.returns (plain : Plain room j) : Returns room j := by
  induction plain with
  | bool b =>
    refine returns_of_succ fun fuel rest ends enough => ?_
    rw [value]
    cases b <;> exact Reads.look reads_peek (Reads.stop reads_word Reads.pure)
  | integer fits =>
    refine returns_of_succ fun fuel rest ends enough => ?_
    exact (numeral_toString _).reads ((decimal_toString _).trans fits) ends
  | real number =>
    refine returns_of_succ fun fuel rest ends enough => ?_
    exact (numeral_numeral number).reads (decimal_numeral number) ends
  | string s => exact returns_of_succ fun fuel rest => reads_string s
  | @array room values inner ih =>
    refine returns_of_succ fun fuel rest ends enough => ?_
    rw [renderValue, renderItems_eq, bracketed_toList, List.length_cons] at enough
    rw [renderValue, renderItems_eq, bracketed_toList, value]
    refine Reads.look reads_peek (Reads.step reads_next ?_)
    by_cases size : (values.map renderValue).length ≤ 1
    · rw [if_pos size, List.length_append, List.length_singleton] at enough
      rw [if_pos size]
      exact reads_line (List.length_map renderValue ▸ size) inner ih (by omega)
    · have lines : ((values.map renderValue).flatMap fun item =>
          "\n    ".toList ++ item.toList ++ [',']) = itemLines values := by
        rw [List.flatMap_map, itemLines]
        simp only [List.append_assoc]
      have last : "\n]".toList.length = 2 := rfl
      rw [if_neg size, lines, List.length_append, last] at enough
      rw [if_neg size, lines]
      exact reads_lines inner ih (by omega)

end TangledGraph.Toml
