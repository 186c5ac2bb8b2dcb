import TangledGraph.Proofs.Decimal.Reading
import TangledGraph.Proofs.Toml.Strings

/-!
# Numbers in TOML text

Numbers are written in few of the forms that a text may have: digits, or digits on both
sides of a point, or the name of infinity, each with a minus sign at most. None of these
is taken for a date, and each reads back as the number that it writes.
-/
namespace TangledGraph.Toml

open Decimal Rounding Text Text.Reader Float.Model

variable {fuel room n : Nat} {minus : Bool} {c : Char} {x : Float} {j : Json}
  {text rest front back : List Char}

/-- The forms in which numbers are written. -/
inductive Numeral : List Char → Prop
  | whole {front : List Char} (digits : AllDigits front) (nonempty : front ≠ []) : Numeral front
  | pointed {front back : List Char} (digits : AllDigits front) (nonempty : front ≠ [])
      (places : AllDigits back) : Numeral (front ++ '.' :: back)
  | infinite : Numeral ['i', 'n', 'f']
  | minus {text : List Char} (magnitude : Numeral text) : Numeral ('-' :: text)

theorem isTokenChar_of_isDigit (digit : isDigit c = true) : isTokenChar c = true := by
  rw [isDigit_iff] at digit
  simp [isTokenChar, isKeyChar, digit.1, digit.2]

theorem Numeral.isTokenChar (numeral : Numeral text) : ∀ c ∈ text, isTokenChar c = true := by
  induction numeral with
  | whole digits => exact fun c mem => isTokenChar_of_isDigit (digits c mem)
  | pointed digits _ places =>
    intro c mem
    obtain mem | mem := List.mem_append.1 mem
    · exact isTokenChar_of_isDigit (digits c mem)
    · obtain rfl | mem := List.mem_cons.1 mem
      · decide
      · exact isTokenChar_of_isDigit (places c mem)
  | infinite => exact List.all_eq_true.1 rfl
  | minus _ ih => exact List.forall_mem_cons.2 ⟨by decide, ih⟩

/-- What a number is written with first. -/
theorem Numeral.starts (numeral : Numeral text) :
    ∃ c more, text = c :: more ∧ (isDigit c = true ∨ c = 'i' ∨ c = '-') := by
  cases numeral with
  | whole digits nonempty =>
    obtain ⟨c, more, rfl⟩ := List.exists_cons_of_ne_nil nonempty
    exact ⟨c, more, rfl, .inl (digits c List.mem_cons_self)⟩
  | pointed digits nonempty =>
    obtain ⟨c, more, rfl⟩ := List.exists_cons_of_ne_nil nonempty
    exact ⟨c, _, rfl, .inl (digits c List.mem_cons_self)⟩
  | infinite => exact ⟨_, _, rfl, .inr (.inl rfl)⟩
  | minus => exact ⟨_, _, rfl, .inr (.inr rfl)⟩

theorem Ends.isDigit (ends : Ends rest) : ∀ c ∈ rest.head?, isDigit c = false := by
  intro c head
  obtain rfl | rfl | rfl := ends c head <;> rfl

theorem Ends.isTokenChar (ends : Ends rest) : ∀ c ∈ rest.head?, isTokenChar c = false := by
  intro c head
  obtain rfl | rfl | rfl := ends c head <;> rfl

theorem dropWhile_digits (digits : AllDigits front) (stops : ∀ c ∈ back.head?, isDigit c = false) :
    (front ++ back).dropWhile isDigit = back := by
  rw [List.dropWhile_append_of_pos digits]
  cases back with
  | nil => rfl
  | cons c back => rw [List.dropWhile_cons, stops c rfl]; rfl

/-- A number is not taken for a date or a time. -/
theorem Numeral.reads_tryReader (numeral : Numeral text) (ends : Ends rest) :
    Reads DateTime.tryReader [] (text ++ rest) none := by
  refine Reads.look reads_remaining ?_
  by_cases digit : (text ++ rest).head?.any Decimal.isDigit = true
  · have marks : ((text ++ rest).dropWhile Decimal.isDigit).head? ≠ some '-' ∧
        ((text ++ rest).dropWhile Decimal.isDigit).head? ≠ some ':' := by
      cases numeral with
      | whole digits =>
        rw [dropWhile_digits digits ends.isDigit]
        exact ⟨ends.head_ne (by decide) (by decide) (by decide),
          ends.head_ne (by decide) (by decide) (by decide)⟩
      | pointed digits =>
        rw [List.append_assoc, dropWhile_digits digits (by rintro c ⟨⟩; rfl)]
        exact ⟨nofun, nofun⟩
      | infinite => cases digit
      | minus => cases digit
    simp only [List.nil_append, digit, Bool.not_true, Bool.false_eq_true, if_false]
    split
    · exact absurd ‹_› marks.1
    · exact absurd ‹_› marks.2
    · exact Reads.pure
  · simp only [List.nil_append, digit, Bool.not_false, if_true]
    exact Reads.pure

/-- A number that starts with a digit has no letters. -/
theorem Numeral.digit_or_point (numeral : Numeral text) (start : ∀ d ∈ text.head?, isDigit d) :
    ∀ c ∈ text, isDigit c = true ∨ c = '.' := by
  cases numeral with
  | whole digits => exact fun c mem => .inl (digits c mem)
  | pointed digits _ places =>
    intro c mem
    obtain mem | mem := List.mem_append.1 mem
    · exact .inl (digits c mem)
    · exact (List.mem_cons.1 mem).symm.imp_left (places c)
  | infinite => exact absurd (start 'i' rfl) (by decide)
  | minus => exact absurd (start '-' rfl) (by decide)

theorem Numeral.reads_number (numeral : Numeral text) (decimal : decimal text = some j)
    (ends : Ends rest) : Reads number text rest j := by
  have marks : ∀ d more, text = '0' :: d :: more → d ≠ 'x' ∧ d ≠ 'o' ∧ d ≠ 'b' := by
    rintro d more rfl
    have start : ∀ e ∈ ('0' :: d :: more).head?, isDigit e = true := by
      rintro e ⟨⟩
      rfl
    have kind := numeral.digit_or_point start d (List.mem_cons_of_mem _ List.mem_cons_self)
    refine ⟨?_, ?_, ?_⟩ <;> (rintro rfl; revert kind; decide)
  refine Reads.stop (reads_takeWhile numeral.isTokenChar ends.isTokenChar) ?_
  split
  · exact absurd rfl (marks _ _ rfl).1
  · exact absurd rfl (marks _ _ rfl).2.1
  · exact absurd rfl (marks _ _ rfl).2.2
  · rw [decimal]
    exact Reads.pure

/-- A number is read as the value that it writes. -/
theorem Numeral.reads (numeral : Numeral text) (decimal : decimal text = some j)
    (ends : Ends rest) : Reads (value (fuel + 1) room) text rest j := by
  have token : Reads token text rest j :=
    Reads.look (numeral.reads_tryReader ends) (numeral.reads_number decimal ends)
  obtain ⟨c, more, rfl, start⟩ := numeral.starts
  rw [value]
  refine Reads.look reads_peek ?_
  split <;> rename_i head
  case h_7 => exact token
  all_goals
    obtain rfl := Option.some.inj head
    obtain start | start | start := start <;> cases start

theorem groupedDigits_eq (digits : AllDigits text) (nonempty : text ≠ []) :
    groupedDigits Decimal.isDigit text = some text := by
  have single : text.splitOn '_' = [text] :=
    List.splitOn_eq_singleton fun mem => absurd (digits '_' mem) (by decide)
  have all : text.all Decimal.isDigit = true := List.all_eq_true.2 digits
  simp [groupedDigits, single, all, nonempty]

theorem wholeDigits_eq (digits : AllDigits text) (nonempty : text ≠ [])
    (lead : text.head? = some '0' → text.length = 1) : wholeDigits text = some text := by
  rw [wholeDigits, groupedDigits_eq digits nonempty]
  refine if_neg fun zeros => ?_
  simp only [Bool.and_eq_true, decide_eq_true_eq] at zeros
  rw [lead zeros.2] at zeros
  exact absurd zeros.1 (Nat.lt_irrefl 1)

theorem wholeDigits_toDigits : wholeDigits (Nat.toDigits 10 n) = some (Nat.toDigits 10 n) :=
  wholeDigits_eq allDigits_toDigits Nat.toDigits_ne_nil length_toDigits_of_head

theorem takeSign_signed (start : ∀ c ∈ text.head?, isDigit c = true) :
    takeSign ((if minus then ['-'] else []) ++ text) = (minus, text) := by
  cases minus with
  | true => rfl
  | false =>
    change takeSign text = (false, text)
    unfold takeSign
    split
    · cases start _ rfl
    · cases start _ rfl
    · rfl

/-- What starts with a digit, after a minus sign at most, is no name. -/
theorem decimal_signed (start : ∀ c ∈ text.head?, isDigit c = true) (nonempty : text ≠ []) :
    decimal ((if minus then ['-'] else []) ++ text) =
      if text.all fun c => isDigit c || c = '_' then
        (wholeDigits text).bind fun digits =>
          inRange (if minus then -(natural digits : Int) else natural digits)
      else Toml.fractional minus text := by
  have letters : ∀ name : List Char, name.head?.any isDigit = false → text ≠ name := by
    rintro name head rfl
    obtain ⟨c, more, rfl⟩ := List.exists_cons_of_ne_nil nonempty
    have digit := start c rfl
    simp [digit] at head
  rw [decimal, takeSign_signed start]
  simp only [letters "inf".toList rfl, letters "nan".toList rfl, if_false]
  rfl

/-- Digits are among the marks of a number with underscores. -/
theorem grouped (digits : AllDigits text) :
    ∀ c ∈ text, (isDigit c || decide (c = '_')) = true :=
  fun c mem => by rw [digits c mem]; rfl

theorem toString_int_toList (n : Int) : (toString n).toList =
    (if decide (n < 0) then ['-'] else []) ++ Nat.toDigits 10 n.natAbs := by
  cases n with
  | ofNat n =>
    have positive : ¬Int.ofNat n < 0 := Int.not_lt.2 (Int.natCast_nonneg n)
    rw [decide_eq_false positive]
    exact toString_toList
  | negSucc n =>
    have text : toString (Int.negSucc n) = "-" ++ toString (n + 1) := rfl
    rw [decide_eq_true (Int.negSucc_lt_zero n), text, String.toList_append, toString_toList]
    rfl

/-- A whole number is written as the decimal numeral of it, which has to fit. -/
theorem decimal_toString (n : Int) : decimal (toString n).toList = inRange n := by
  have digits := allDigits_toDigits (n := n.natAbs)
  rw [toString_int_toList, decimal_signed digits.start Nat.toDigits_ne_nil,
    if_pos (List.all_eq_true.2 (grouped digits)), wholeDigits_toDigits, Option.bind_some,
    natural_toDigits]
  congr 1
  split <;> rename_i sign <;> simp only [decide_eq_true_eq] at sign <;> omega

theorem Numeral.signed (numeral : Numeral text) :
    Numeral ((if minus then ['-'] else []) ++ text) := by
  cases minus with
  | true => exact numeral.minus
  | false => exact numeral

theorem numeral_toString (n : Int) : Numeral (toString n).toList := by
  rw [toString_int_toList]
  exact (Numeral.whole allDigits_toDigits Nat.toDigits_ne_nil).signed

theorem takeWhile_digits (digits : AllDigits front) (back : List Char)
    (stops : ∀ c ∈ back.head?, isDigit c = false ∧ c ≠ '_') :
    (front ++ back).takeWhile (fun c => isDigit c || decide (c = '_')) = front ∧
      (front ++ back).dropWhile (fun c => isDigit c || decide (c = '_')) = back := by
  rw [List.takeWhile_append_of_pos (grouped digits), List.dropWhile_append_of_pos (grouped digits)]
  cases back with
  | nil => exact ⟨List.append_nil _, rfl⟩
  | cons c back =>
    obtain ⟨digit, apart⟩ := stops c rfl
    rw [List.takeWhile_cons, List.dropWhile_cons, digit, decide_eq_false apart]
    exact ⟨List.append_nil _, rfl⟩

/-- Digits on both sides of a point are read as a float, which has to be finite. -/
theorem decimal_pointed {q : ℚ} (pointed : Pointed q front back) :
    decimal ((if minus then ['-'] else []) ++ (front ++ '.' :: back)) =
      finite (ofParts minus front back 0) := by
  obtain ⟨digits, ⟨some, after⟩, lead, -⟩ := pointed
  obtain ⟨whole, places⟩ : AllDigits front ∧ AllDigits back := List.forall_mem_append.1 digits
  have start : ∀ c ∈ (front ++ '.' :: back).head?, isDigit c = true := by
    rw [List.head?_append_of_ne_nil _ some]
    exact whole.start
  have point : ¬(front ++ '.' :: back).all fun c => isDigit c || decide (c = '_') := by
    rw [List.all_eq_true]
    exact fun all => nomatch all '.' (List.mem_append_right _ List.mem_cons_self)
  obtain ⟨before, tail⟩ := takeWhile_digits whole ('.' :: back) (by rintro c ⟨⟩; decide)
  obtain ⟨fraction, nothing⟩ := takeWhile_digits places [] nofun
  rw [List.append_nil] at fraction nothing
  rw [decimal_signed start (List.append_ne_nil_of_left_ne_nil some _), if_neg point,
    Toml.fractional, before, tail, wholeDigits_eq whole some lead]
  simp only [Option.bind_eq_bind, Option.bind_some, fraction, nothing,
    groupedDigits_eq places after, Option.pure_def]

/-- How a float is written: the name of infinity or digits about a point, after the sign of
the float. -/
theorem numeral_toList (number : x.isNaN = false) : (numeral x).toList =
    (if negative x then ['-'] else []) ++
      (if x.isInf then ['i', 'n', 'f'] else (layout (shortest x)).toList) := by
  rw [numeral, number, if_neg Bool.false_ne_true, fractional_toList number]

theorem numeral_numeral (number : x.isNaN = false) : Numeral (numeral x).toList := by
  rw [numeral_toList number]
  refine Numeral.signed ?_
  split
  · exact .infinite
  · obtain ⟨whole, places, text, ⟨digits, nonempty, -, -⟩, -⟩ := layout_pointed (shortest x)
    obtain ⟨before, after⟩ := List.forall_mem_append.1 digits
    rw [text]
    exact .pointed before nonempty.1 after

theorem decimal_infinite : decimal ((if minus then ['-'] else []) ++ ['i', 'n', 'f']) =
    some (.real (if minus then -(1.0 / 0.0) else 1.0 / 0.0)) := by
  cases minus <;> rfl

/-- What unpacks to an infinity is the quotient by zero of its sign. -/
theorem eq_of_infinite {s : UnpackedFloat.Sign} (number : x.isNaN = false)
    (unpacked : x.toModel.unpack = .infinity s) :
    (if negative x then -(1.0 / 0.0) else 1.0 / 0.0) = x := by
  have sign : negative x = true ↔ s = .negative := negative_of_unpack unpacked (.inl rfl)
  have top : (1.0 / 0.0 : Float).toModel.unpack = .infinity .positive := rfl
  have bottom : (-(1.0 / 0.0) : Float).toModel.unpack = .infinity .negative := rfl
  refine eq_of_magnitude number sign ?_ ?_
  · rintro rfl
    exact unpacked.trans top.symm
  · rintro rfl
    exact unpacked.trans bottom.symm

/-- A float is written as a numeral that reads back. -/
theorem decimal_numeral (number : x.isNaN = false) :
    decimal (numeral x).toList = some (.real x) := by
  have unfolded : x.isInf = x.toModel.unpack.isInf := rfl
  rw [numeral_toList number]
  cases finite : x.isFinite with
  | false =>
    obtain ⟨s, unpacked⟩ := unpack_of_infinite number finite
    have beyond : x.isInf = true := by
      rw [unfolded, unpacked]
      rfl
    rw [beyond, if_pos rfl, decimal_infinite, eq_of_infinite number unpacked]
  | true =>
    have bounded : x.isInf = false := by
      obtain ⟨s, unpacked, -⟩ | ⟨s, m, e, pos, unpacked, -⟩ := finite_cases finite <;>
        rw [unfolded, unpacked] <;> rfl
    obtain ⟨whole, places, text, pointed, few⟩ := layout_pointed (shortest x)
    rw [bounded, if_neg Bool.false_ne_true, text, decimal_pointed pointed,
      ofParts_eq finite pointed few, Toml.finite, if_pos finite]

end TangledGraph.Toml
