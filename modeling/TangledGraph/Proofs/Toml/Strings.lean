import Mathlib.Tactic.ByContra
import Mathlib.Tactic.SplitIfs
import TangledGraph.Proofs.Text.Reading
import TangledGraph.Toml.Writer

/-!
# Strings in quotes

Every text reads back from the quotes that are chosen for it. What could go wrong are
the characters that need an escape mark, and in strings over several lines the quotes
at the end, which run into the end mark.
-/
namespace TangledGraph.Toml

open Text Text.Reader

/-- What may come after a value: the end of the line, or a mark that ends an item. -/
def Ends (rest : List Char) : Prop := ∀ c ∈ rest.head?, c = '\n' ∨ c = ',' ∨ c = ']'

variable {quote c first : Char} {room fuel : Nat} {long : Bool}
  {seen rest text spelling more : List Char}

theorem Ends.head_ne (ends : Ends rest) (newline : c ≠ '\n') (comma : c ≠ ',')
    (bracket : c ≠ ']') : rest.head? ≠ some c := by
  intro head
  obtain rfl | rfl | rfl := ends c head
  · exact newline rfl
  · exact comma rfl
  · exact bracket rfl

/-- After a backslash the reader takes `first` and `more` for the character. -/
structure Escapes (c first : Char) (more : List Char) : Prop where
  visible : isBlank first = false ∧ first ≠ '\n' ∧ first ≠ '\r'
  reads : ∀ rest, Reads (escaped first) more rest c

theorem escapes_simple (visible : isBlank first = false ∧ first ≠ '\n' ∧ first ≠ '\r')
    (stands : escaped first = pure c) : Escapes c first [] :=
  ⟨visible, fun _ => stands ▸ Reads.pure⟩

theorem escapes_quote : Escapes '"' '"' [] := escapes_simple (by decide) rfl

theorem toNat_lt_of_isControl (control : isControl c = true) : c.toNat < 128 := by
  simp only [isControl, Bool.or_eq_true, Bool.and_eq_true, decide_eq_true_eq] at control
  omega

/-- A control character is spelled by its code point. -/
theorem escapes_control (control : isControl c = true) :
    Escapes c 'u' ((hexDigits 4 c.toNat).map Char.toUpper) := by
  refine ⟨by decide, fun rest => ?_⟩
  have small := toNat_lt_of_isControl control
  have spelled : ∀ n < 128, ((hexDigits 4 n).map Char.toUpper).length = 4 ∧
      (hexValue? ((hexDigits 4 n).map Char.toUpper)).bind charOf? = some (Char.ofNat n) := by
    decide +kernel
  obtain ⟨four, value⟩ := spelled c.toNat small
  rw [Char.ofNat_toNat] at value
  refine Reads.stop (four ▸ reads_take) ?_
  rw [value]
  exact Reads.pure

/-- A character stands for itself, or it has an escape mark. -/
theorem escapeChar_cases (long : Bool) (c : Char) :
    (escapeChar long c = [c] ∧ c ≠ '\\' ∧ (isControl c = false ∨ long = true ∧ c = '\n')) ∨
      ∃ first more, escapeChar long c = '\\' :: first :: more ∧ Escapes c first more := by
  by_cases named : c ∈ ['\\', '\t', '\r', '\x08', '\x0c']
  · simp only [List.mem_cons, List.not_mem_nil, or_false] at named
    obtain rfl | rfl | rfl | rfl | rfl := named <;>
      exact .inr ⟨_, _, rfl, escapes_simple (by decide) rfl⟩
  · simp only [List.mem_cons, List.not_mem_nil, or_false, not_or] at named
    obtain ⟨backslash, tab, ret, back, feed⟩ := named
    by_cases newline : c = '\n'
    · subst newline
      cases long
      · exact .inr ⟨_, _, rfl, escapes_simple (by decide) rfl⟩
      · exact .inl ⟨rfl, backslash, .inr ⟨rfl, rfl⟩⟩
    · simp only [escapeChar, backslash, newline, tab, ret, back, feed, if_false]
      cases control : isControl c
      · exact .inl ⟨rfl, backslash, .inl rfl⟩
      · exact .inr ⟨_, _, rfl, escapes_control control⟩

theorem escape_short (other : c ≠ '"') :
    escape false room (c :: text) = escapeChar false c ++ escape false 0 text := by
  cases room <;> simp [escape, other]

theorem escape_long (other : c ≠ '"') :
    escape true room (c :: text) = escapeChar true c ++ escape true 2 text := by
  cases room <;> simp [escape, other]

/-- The rest of a short string in double quotes reads back. -/
theorem reads_basicTail (enough : (escape false 0 text).length < fuel) :
    Reads (basicTail fuel seen) (escape false 0 text ++ ['"']) rest
      (String.ofList (seen.reverse ++ text)) := by
  induction text generalizing fuel seen with
  | nil =>
    obtain ⟨fuel, rfl⟩ := Nat.exists_eq_succ_of_ne_zero (Nat.ne_zero_of_lt enough)
    refine Reads.step reads_next ?_
    rw [List.append_nil]
    exact Reads.pure
  | cons c text ih =>
    obtain ⟨fuel, rfl⟩ := Nat.exists_eq_succ_of_ne_zero (Nat.ne_zero_of_lt enough)
    have turned : seen.reverse ++ c :: text = (c :: seen).reverse ++ text := by simp
    rw [turned]
    by_cases same : c = '"'
    · subst same
      have quoted : escape false 0 ('"' :: text) = '\\' :: '"' :: escape false 0 text := rfl
      rw [quoted] at enough ⊢
      simp only [List.length_cons] at enough
      refine Reads.step reads_next (Reads.step reads_next (Reads.look Reads.pure ?_))
      exact ih (by omega)
    · rw [escape_short same] at enough
      rw [escape_short same, List.append_assoc]
      obtain ⟨plain, backslash, control⟩ | ⟨first, more, spelled, escapes⟩ :=
        escapeChar_cases false c
      · rw [plain] at enough ⊢
        simp only [List.length_append, List.length_singleton] at enough
        refine Reads.bind reads_next ?_
        split
        · exact absurd rfl same
        · exact absurd rfl backslash
        · have visible : isControl c = false := control.resolve_right nofun
          rw [visible]
          exact ih (by omega)
      · rw [spelled] at enough ⊢
        simp only [List.length_append, List.length_cons] at enough
        refine Reads.step reads_next (Reads.step reads_next ?_)
        exact Reads.bind (escapes.reads _) (ih (by omega))

/-- The rest of a short string in single quotes reads back. -/
theorem reads_literalTail (quotes : '\'' ∉ text) (controls : ∀ c ∈ text, isControl c = false) :
    Reads literalTail (text ++ ['\'']) rest (String.ofList text) := by
  have all : ∀ c ∈ text, (c != '\'' && !isControl c) = true := by
    intro c mem
    have other : c ≠ '\'' := fun same => quotes (same ▸ mem)
    simp [other, controls c mem]
  refine Reads.bind (reads_takeWhile all ?_) (Reads.stop reads_char Reads.pure)
  rintro c ⟨⟩
  rfl

/-- Within a string over several lines the reader takes a spelling, which starts with
no quote, for a character. -/
structure Spells (quote c : Char) (spelling : List Char) : Prop where
  nonempty : spelling ≠ []
  head : ∀ d ∈ spelling.head?, d ≠ quote ∧ d ≠ '\r' ∧ (d = '\n' → c = '\n')
  reads : ∀ {fuel : Nat} {seen tail rest : List Char} {s : String},
    Reads (longTail quote fuel (c :: seen)) tail rest s →
      Reads (longTail quote (fuel + 1) seen) (spelling ++ tail) rest s

/-- A text as it is spelled within a string over several lines, after quotes that leave
room for some more. -/
inductive Spelled (quote : Char) : Nat → List Char → List Char → Prop
  | nil {room : Nat} : Spelled quote room [] []
  | quote {room : Nat} {text spelling : List Char} (later : Spelled quote room text spelling) :
      Spelled quote (room + 1) (quote :: text) (quote :: spelling)
  | char {room : Nat} {c : Char} {text spelling more : List Char}
      (first : Spells quote c spelling) (later : Spelled quote 2 text more) :
      Spelled quote room (c :: text) (spelling ++ more)

/-- Up to two quotes before the end mark are quotes after it to the reader. -/
theorem reads_closing (few : room ≤ 2) (other : rest.head? ≠ some quote) :
    Reads (longTail quote (fuel + 1) seen)
      (List.replicate room quote ++ [quote, quote, quote]) rest
      (String.ofList (seen.reverse ++ List.replicate room quote)) := by
  have turned : List.replicate room quote ++ [quote, quote, quote] =
      [quote, quote, quote] ++ List.replicate room quote := by
    rw [show [quote, quote, quote] = List.replicate 3 quote from rfl,
      List.replicate_append_replicate, List.replicate_append_replicate, Nat.add_comm]
  rw [turned]
  refine Reads.bind reads_tryWord ?_
  show Reads (closingQuotes quote seen) (List.replicate room quote) rest _
  obtain rfl | rfl | rfl : room = 0 ∨ room = 1 ∨ room = 2 := by omega
  · exact (reads_tryChar_not other).look Reads.pure
  · refine Reads.step reads_tryChar ?_
    exact (reads_tryChar_not other).look Reads.pure
  · exact Reads.step reads_tryChar (Reads.step reads_tryChar Reads.pure)

theorem Spells.not_mark (spells : Spells quote c spelling) (few : room ≤ 2) (tail : List Char) :
    ¬[quote, quote, quote] <+: List.replicate room quote ++ (spelling ++ tail) := by
  obtain ⟨d, more, rfl⟩ := List.exists_cons_of_ne_nil spells.nonempty
  have other : quote ≠ d := (spells.head d rfl).1.symm
  have rooms : room = 0 ∨ room = 1 ∨ room = 2 := by omega
  obtain rfl | rfl | rfl := rooms <;> simp [List.replicate, other]

/-- Only quotes are left, not more than there is room for, or some other character
comes next, after so few quotes that they are no end mark. -/
theorem Spelled.cases_quotes (spelled : Spelled quote room text spelling) :
    (∃ k ≤ room, text = List.replicate k quote ∧ spelling = List.replicate k quote) ∨
      ∃ k ≤ room, ∃ c more tail, Spells quote c more ∧
        spelling = List.replicate k quote ++ (more ++ tail) := by
  induction spelled with
  | nil => exact .inl ⟨0, Nat.zero_le _, rfl, rfl⟩
  | quote _ ih =>
    obtain ⟨k, le, rfl, rfl⟩ | ⟨k, le, c, more, tail, spells, rfl⟩ := ih
    · exact .inl ⟨k + 1, Nat.succ_le_succ le, rfl, rfl⟩
    · exact .inr ⟨k + 1, Nat.succ_le_succ le, c, more, tail, spells, rfl⟩
  | char first _ _ => exact .inr ⟨0, Nat.zero_le _, _, _, _, first, rfl⟩

/-- The two kinds of quotes. -/
def IsQuote (quote : Char) : Prop := quote = '"' ∨ quote = '\''

theorem IsQuote.visible (kind : IsQuote quote) : isControl quote = false ∧ quote ≠ '\\' := by
  obtain rfl | rfl := kind <;> decide

/-- A character that is no control character stands for itself, but a backslash only in
single quotes, and a quote only where no end mark starts. -/
theorem reads_self {tail : List Char} {s : String}
    (mark : ¬[quote, quote, quote] <+: c :: (tail ++ rest)) (visible : isControl c = false)
    (backslash : c = '\\' → quote = '\'')
    (later : Reads (longTail quote fuel (c :: seen)) tail rest s) :
    Reads (longTail quote (fuel + 1) seen) (c :: tail) rest s := by
  have newline : c ≠ '\n' := by rintro rfl; cases visible
  have ret : '\r' ≠ c := by rintro rfl; cases visible
  refine Reads.look (reads_tryWord_not mark) ?_
  refine Reads.look (reads_tryChar_not fun head => newline (Option.some.inj head)) ?_
  refine Reads.look (reads_tryWord_not (by simp [ret])) ?_
  refine Reads.step reads_next ?_
  split
  · rw [if_pos (backslash rfl)]
    exact later
  · rw [visible]
    exact later

theorem spells_self (other : c ≠ quote) (backslash : c = '\\' → quote = '\'')
    (visible : isControl c = false) : Spells quote c [c] := by
  have ret : c ≠ '\r' := by rintro rfl; cases visible
  refine ⟨nofun, fun d head => Option.some.inj head ▸ ⟨other, ret, id⟩, fun later => ?_⟩
  exact reads_self (by simp [Ne.symm other]) visible backslash later

theorem spells_newline (kind : IsQuote quote) : Spells quote '\n' ['\n'] := by
  have other : quote ≠ '\n' := by obtain rfl | rfl := kind <;> decide
  refine ⟨nofun, fun d head => Option.some.inj head ▸ ⟨other.symm, by decide, id⟩,
    fun later => ?_⟩
  refine Reads.look (reads_tryWord_not (by simp [other])) ?_
  exact Reads.step reads_tryChar later

theorem Escapes.spells (escapes : Escapes c first more) : Spells '"' c ('\\' :: first :: more) := by
  refine ⟨nofun, fun d head => Option.some.inj head ▸ ⟨by decide, by decide, nofun⟩,
    fun {fuel seen tail rest s} later => ?_⟩
  refine Reads.look (reads_tryWord_not (by simp)) ?_
  refine Reads.look (reads_tryChar_not (by simp)) ?_
  refine Reads.look (reads_tryWord_not (by simp)) ?_
  refine Reads.step reads_next (Reads.look reads_peek ?_)
  obtain ⟨blank, newline, ret⟩ := escapes.visible
  rw [if_neg (by simp [blank, newline, ret])]
  refine Reads.step reads_next ?_
  exact Reads.bind (escapes.reads _) later

/-- A text spelled within a string over several lines reads back. -/
theorem Spelled.reads (spelled : Spelled quote room text spelling) (kind : IsQuote quote)
    (few : room ≤ 2) (other : rest.head? ≠ some quote) (enough : spelling.length < fuel) :
    Reads (longTail quote fuel seen) (spelling ++ [quote, quote, quote]) rest
      (String.ofList (seen.reverse ++ text)) := by
  induction spelled generalizing fuel seen with
  | nil =>
    obtain ⟨fuel, rfl⟩ := Nat.exists_eq_succ_of_ne_zero (Nat.ne_zero_of_lt enough)
    exact reads_closing (Nat.zero_le 2) other
  | @quote room text spelling later ih =>
    obtain ⟨fuel, rfl⟩ := Nat.exists_eq_succ_of_ne_zero (Nat.ne_zero_of_lt enough)
    obtain ⟨k, le, texts, spellings⟩ | ⟨k, le, c, more, tail, spells, spellings⟩ :=
      later.quote.cases_quotes
    · rw [texts, spellings]
      exact reads_closing (Nat.le_trans le few) other
    · have mark := spells.not_mark (Nat.le_trans le few) (tail ++ ([quote, quote, quote] ++ rest))
      have turned : seen.reverse ++ quote :: text = (quote :: seen).reverse ++ text := by simp
      rw [turned]
      refine reads_self ?_ kind.visible.1 (absurd · kind.visible.2) (ih (by omega) ?_)
      · rw [← List.append_assoc more, ← List.append_assoc, ← spellings] at mark
        simpa using mark
      · simpa using enough
  | @char room c text spelling more first later ih =>
    obtain ⟨fuel, rfl⟩ := Nat.exists_eq_succ_of_ne_zero (Nat.ne_zero_of_lt enough)
    have turned : seen.reverse ++ c :: text = (c :: seen).reverse ++ text := by simp
    have positive := List.length_pos_iff.2 first.nonempty
    rw [List.length_append] at enough
    rw [turned, List.append_assoc]
    exact first.reads (ih (Nat.le_refl 2) (by omega))

/-- In double quotes, escape marks spell every text. -/
theorem spelled_escape (text : List Char) : Spelled '"' room text (escape true room text) := by
  induction text generalizing room with
  | nil => cases room <;> exact .nil
  | cons c text ih =>
    by_cases same : c = '"'
    · subst same
      cases room with
      | zero => exact .char escapes_quote.spells ih
      | succ room => exact .quote ih
    · rw [escape_long same]
      refine .char ?_ ih
      obtain ⟨plain, backslash, control⟩ | ⟨first, more, spelled, escapes⟩ :=
        escapeChar_cases true c
      · rw [plain]
        obtain visible | ⟨-, rfl⟩ := control
        · exact spells_self same (absurd · backslash) visible
        · exact spells_newline (.inl rfl)
      · exact spelled ▸ escapes.spells

/-- No control characters but ends of lines. -/
def Literal (text : List Char) : Prop := ∀ c ∈ text, isControl c = true → c = '\n'

/-- The run of a character that a text ends with so far, and the longest one. -/
def countRun (c : Char) : Nat × Nat → Char → Nat × Nat :=
  fun (run, longest) d =>
    if d = c then (run + 1, max longest (run + 1)) else (0, longest)

theorem le_longest (c : Char) (text : List Char) (runs : Nat × Nat) :
    runs.2 ≤ (text.foldl (countRun c) runs).2 := by
  induction text generalizing runs with
  | nil => exact Nat.le_refl runs.2
  | cons d text ih =>
    refine Nat.le_trans ?_ (ih _)
    by_cases same : d = c
    · simp only [countRun, if_pos same]
      exact Nat.le_max_left ..
    · simp only [countRun, if_neg same, Nat.le_refl]

/-- In single quotes, characters spell themselves if no three quotes come in a row. -/
theorem spelled_literal {run longest : Nat} (literal : Literal text)
    (few : (text.foldl (countRun '\'') (run, longest)).2 ≤ 2) :
    Spelled '\'' (2 - run) text text := by
  induction text generalizing run longest with
  | nil => exact .nil
  | cons c text ih =>
    rw [List.foldl_cons] at few
    obtain ⟨first, others⟩ := List.forall_mem_cons.1 literal
    by_cases same : c = '\''
    · subst same
      have step : countRun '\'' (run, longest) '\'' = (run + 1, max longest (run + 1)) := rfl
      rw [step] at few
      have within := le_longest '\'' text (run + 1, max longest (run + 1))
      rw [show 2 - run = 2 - (run + 1) + 1 by simp only at within; omega]
      exact .quote (ih others few)
    · have step : countRun '\'' (run, longest) c = (0, longest) := if_neg same
      rw [step] at few
      have spells : Spells '\'' c [c] := by
        cases visible : isControl c with
        | false => exact spells_self same (fun _ => rfl) visible
        | true => exact first visible ▸ spells_newline (.inr rfl)
      exact .char spells (ih others few)

/-- Whether a kind of quotes can hold a text: double quotes hold every text. -/
def Suits (text : List Char) : Quotes → Prop
  | .basic _ => True
  | .literal false => '\'' ∉ text ∧ '\n' ∉ text ∧ Literal text
  | .literal true => longestRun '\'' text ≤ 2 ∧ Literal text

theorem suits_ofText (text : List Char) : Suits text (Quotes.ofText text) := by
  unfold Quotes.ofText
  dsimp only
  split_ifs with control _ single _ run
  · trivial
  · trivial
  all_goals
    have literal : Literal text := by
      intro c mem marked
      by_contra newline
      exact control (List.any_eq_true.2 ⟨c, mem, by simp [marked, newline]⟩)
  · simp only [Bool.and_eq_true, Bool.not_eq_true', List.contains_eq_mem,
      decide_eq_false_iff_not] at single
    exact ⟨single.1, single.2, literal⟩
  · trivial
  · exact ⟨run, literal⟩
  · trivial

/-- A text of one line is not spelled with the end of a line in front. -/
theorem Spelled.head (spelled : Spelled quote room text spelling) (kind : IsQuote quote) :
    ∀ d ∈ (spelling ++ [quote, quote, quote]).head?, d ≠ '\r' ∧ (d = '\n' → '\n' ∈ text) := by
  have mark : quote ≠ '\r' ∧ (quote = '\n' → '\n' ∈ text) := by
    obtain rfl | rfl := kind <;> exact ⟨by decide, nofun⟩
  cases spelled with
  | nil => rintro d ⟨⟩; exact mark
  | quote => rintro d ⟨⟩; exact mark
  | char first _ =>
    obtain ⟨d, more, rfl⟩ := List.exists_cons_of_ne_nil first.nonempty
    intro e head
    obtain rfl : d = e := Option.some.inj head
    obtain ⟨-, ret, line⟩ := first.head d rfl
    exact ⟨ret, fun newline => line newline ▸ List.mem_cons_self⟩

/-- A text spelled over several lines reads back, from a line of its own if it has
several. -/
theorem Spelled.quoted {short : Reader String} (spelled : Spelled quote 2 text spelling)
    (kind : IsQuote quote) (other : rest.head? ≠ some quote) (enough : spelling.length < fuel) :
    Reads (quoted fuel quote short)
      ([quote, quote, quote] ++ (if text.contains '\n' then ['\n'] else []) ++ spelling ++
        [quote, quote, quote]) rest (String.ofList text) := by
  have reads : Reads (longTail quote fuel []) (spelling ++ [quote, quote, quote]) rest
      (String.ofList text) := spelled.reads kind (Nat.le_refl 2) other enough
  rw [List.append_assoc, List.append_assoc]
  refine Reads.bind reads_tryWord ?_
  show Reads (tryNewline >>= fun _ => longTail quote fuel []) _ _ _
  by_cases lines : '\n' ∈ text
  · rw [if_pos (List.contains_iff_mem.2 lines)]
    exact Reads.bind (Reads.stop reads_tryChar Reads.pure) reads
  · rw [if_neg (List.contains_iff_mem.not.2 lines), List.nil_append]
    obtain ⟨d, more, start⟩ : ∃ d more, spelling ++ [quote, quote, quote] = d :: more :=
      List.exists_cons_of_ne_nil (by simp)
    obtain ⟨ret, newline⟩ := spelled.head kind d (start ▸ rfl)
    rw [start] at reads ⊢
    refine Reads.look (Reads.look (reads_tryChar_not ?_) (reads_tryWord_not ?_)) reads
    · exact fun head => lines (newline (Option.some.inj head))
    · simp [Ne.symm ret]

/-- The mark of a short string starts no string over several lines. -/
theorem not_long_mark {body : List Char} (head : body.head? ≠ some quote)
    (other : rest.head? ≠ some quote) :
    ¬[quote, quote, quote] <+: quote :: (body ++ [quote]) ++ rest := by
  cases body with
  | nil =>
    cases rest with
    | nil => simp
    | cons d rest =>
      have apart : quote ≠ d := fun same => other (congrArg some same.symm)
      simp [apart]
  | cons d body =>
    have apart : quote ≠ d := fun same => head (congrArg some same.symm)
    simp [apart]

theorem head_escape_short (text : List Char) : (escape false 0 text).head? ≠ some '"' := by
  cases text with
  | nil => nofun
  | cons c text =>
    by_cases same : c = '"'
    · subst same
      nofun
    · rw [escape_short same]
      obtain ⟨plain, -⟩ | ⟨first, more, spelled, -⟩ := escapeChar_cases false c
      · rw [plain]
        exact fun head => same (Option.some.inj head)
      · rw [spelled]
        nofun

/-- A short string in double quotes reads back. -/
theorem reads_basic (other : rest.head? ≠ some '"')
    (enough : (escape false 0 text).length < fuel) :
    Reads (quoted fuel '"' (basicTail fuel [])) ('"' :: (escape false 0 text ++ ['"'])) rest
      (String.ofList text) := by
  refine Reads.look (reads_tryWord_not (not_long_mark (head_escape_short text) other)) ?_
  exact Reads.step reads_char (reads_basicTail enough)

/-- A short string in single quotes reads back. -/
theorem reads_literal (other : rest.head? ≠ some '\'') (quotes : '\'' ∉ text)
    (controls : ∀ c ∈ text, isControl c = false) :
    Reads (quoted fuel '\'' literalTail) ('\'' :: (text ++ ['\''])) rest
      (String.ofList text) := by
  have head : text.head? ≠ some '\'' := fun head => quotes (List.mem_of_head? head)
  refine Reads.look (reads_tryWord_not (not_long_mark head other)) ?_
  exact Reads.step reads_char (reads_literalTail quotes controls)

theorem quotedAs_short : (quotedAs (.basic false) text).toList =
    '"' :: (escape false 0 text ++ ['"']) := by
  rw [quotedAs, String.toList_ofList]
  rfl

theorem quotedAs_basic : (quotedAs (.basic true) text).toList =
    ['"', '"', '"'] ++ (if text.contains '\n' then ['\n'] else []) ++ escape true 2 text ++
      ['"', '"', '"'] := by
  rw [quotedAs, String.toList_ofList]
  rfl

theorem quotedAs_literal : (quotedAs (.literal false) text).toList =
    '\'' :: (text ++ ['\'']) := by
  rw [quotedAs, String.toList_ofList]
  rfl

theorem quotedAs_lines : (quotedAs (.literal true) text).toList =
    ['\'', '\'', '\''] ++ (if text.contains '\n' then ['\n'] else []) ++ text ++
      ['\'', '\'', '\''] := by
  rw [quotedAs, String.toList_ofList]
  rfl

theorem value_basic {s : String} (head : text.head? = some '"')
    (reads : Reads (quoted fuel '"' (basicTail fuel [])) text rest s) :
    Reads (value (fuel + 1) room) text rest (.string s) := by
  obtain ⟨text, rfl⟩ := List.head?_eq_some_iff.1 head
  rw [value]
  exact Reads.look reads_peek (Reads.stop reads Reads.pure)

theorem value_literal {s : String} (head : text.head? = some '\'')
    (reads : Reads (quoted fuel '\'' literalTail) text rest s) :
    Reads (value (fuel + 1) room) text rest (.string s) := by
  obtain ⟨text, rfl⟩ := List.head?_eq_some_iff.1 head
  rw [value]
  exact Reads.look reads_peek (Reads.stop reads Reads.pure)

/-- Text reads back from quotes of a kind that can hold it. -/
theorem reads_quotedAs {quotes : Quotes} (suits : Suits text quotes) (ends : Ends rest)
    (enough : (quotedAs quotes text).toList.length ≤ fuel) :
    Reads (value (fuel + 1) room) (quotedAs quotes text).toList rest
      (.string (String.ofList text)) := by
  have double : rest.head? ≠ some '"' := ends.head_ne (by decide) (by decide) (by decide)
  have single : rest.head? ≠ some '\'' := ends.head_ne (by decide) (by decide) (by decide)
  match quotes, suits with
  | .basic false, _ =>
    rw [quotedAs_short] at enough ⊢
    refine value_basic rfl (reads_basic double ?_)
    simp only [List.length_cons, List.length_append] at enough
    omega
  | .basic true, _ =>
    rw [quotedAs_basic] at enough ⊢
    refine value_basic rfl ((spelled_escape text).quoted (.inl rfl) double ?_)
    simp only [List.length_cons, List.length_append] at enough
    omega
  | .literal false, ⟨quotes, line, literal⟩ =>
    rw [quotedAs_literal]
    refine value_literal rfl (reads_literal single quotes fun c mem => ?_)
    exact Bool.eq_false_iff.2 fun control => line (literal c mem control ▸ mem)
  | .literal true, ⟨few, literal⟩ =>
    rw [quotedAs_lines] at enough ⊢
    have spelled : Spelled '\'' 2 text text := spelled_literal literal few
    refine value_literal rfl (spelled.quoted (.inr rfl) single ?_)
    simp only [List.length_cons, List.length_append] at enough
    omega

/-- A string reads back from the quotes that are chosen for it. -/
theorem reads_string (s : String) (ends : Ends rest)
    (enough : (quotedText s).toList.length ≤ fuel) :
    Reads (value (fuel + 1) room) (quotedText s).toList rest (.string s) := by
  have reads : Reads (value (fuel + 1) room) (quotedText s).toList rest
      (.string (String.ofList s.toList)) :=
    reads_quotedAs (suits_ofText s.toList) ends enough
  rwa [String.ofList_toList] at reads

end TangledGraph.Toml
