import TangledGraph.Proofs.Toml.Values

/-!
# Keys in TOML text

A name is a key as it is or in quotes, and a path is a list of keys with points between
them.
-/
namespace TangledGraph.Toml

open Text Text.Reader

variable {fuel : Nat} {c : Char} {rest blank : List Char} {name : String} {path : List String}

/-- Whether all of a name can stand in a key as it is. -/
def IsBare (name : String) : Prop := name.toList ≠ [] ∧ ∀ c ∈ name.toList, isKeyChar c = true

theorem keyText_bare (bare : IsBare name) : (keyText name).toList = name.toList := by
  rw [keyText, if_pos (by simpa [IsBare] using bare)]

theorem keyText_quoted (odd : ¬IsBare name) :
    (keyText name).toList = '"' :: (escape false 0 name.toList ++ ['"']) := by
  rw [keyText, if_neg (by simpa [IsBare] using odd), quotedAs_short]

/-- What a key starts with. -/
theorem keyText_starts (name : String) :
    ∃ c more, (keyText name).toList = c :: more ∧ (isKeyChar c = true ∨ c = '"') := by
  by_cases bare : IsBare name
  · obtain ⟨c, more, text⟩ := List.exists_cons_of_ne_nil bare.1
    exact ⟨c, more, (keyText_bare bare).trans text,
      .inl (bare.2 c (text ▸ List.mem_cons_self))⟩
  · exact ⟨_, _, keyText_quoted bare, .inr rfl⟩

/-- A key cannot start with a character that is neither one of a key nor a quote. -/
theorem head_keyText_ne (key : isKeyChar c = false) (quote : c ≠ '"') (more : List Char) :
    ((keyText name).toList ++ more).head? ≠ some c := by
  obtain ⟨d, text, eq, start⟩ := keyText_starts name
  rw [eq]
  intro head
  obtain rfl : d = c := Option.some.inj head
  exact start.elim (fun start => Bool.false_ne_true (key.symm.trans start)) quote

/-- A key reads back as its name. -/
theorem reads_keyPart (stops : ∀ c ∈ rest.head?, isKeyChar c = false)
    (enough : (keyText name).toList.length < fuel) :
    Reads (keyPart fuel) (keyText name).toList rest name := by
  by_cases bare : IsBare name
  · obtain ⟨c, more, text⟩ := List.exists_cons_of_ne_nil bare.1
    have start := bare.2 c (text ▸ List.mem_cons_self)
    have taken : Reads (takeWhile isKeyChar) name.toList rest name.toList :=
      reads_takeWhile bare.2 stops
    have full : name.toList.isEmpty = false := by rw [text]; rfl
    rw [keyText_bare bare]
    refine Reads.look reads_peek ?_
    split <;> rename_i head
    · rw [text] at head
      cases head
      cases start
    · rw [text] at head
      cases head
      cases start
    · refine Reads.stop taken ?_
      rw [full, String.ofList_toList]
      exact Reads.pure
  · rw [keyText_quoted bare] at enough ⊢
    simp only [List.length_cons, List.length_append] at enough
    have tail : Reads (basicTail fuel []) (escape false 0 name.toList ++ ['"']) rest
        (String.ofList name.toList) := reads_basicTail (by omega)
    rw [String.ofList_toList] at tail
    exact Reads.look reads_peek (Reads.step reads_next tail)

/-- What ends a dotted key. -/
def EndsKey (rest : List Char) : Prop :=
  ∀ c ∈ rest.head?, isKeyChar c = false ∧ c ≠ '.' ∧ isBlank c = false

/-- The text of a path. -/
def pathText (path : List String) : List Char := (".".intercalate (path.map keyText)).toList

theorem pathText_singleton : pathText [name] = (keyText name).toList := by
  rw [pathText, List.map_singleton, String.intercalate_singleton]

theorem pathText_cons (more : path ≠ []) :
    pathText (name :: path) = (keyText name).toList ++ ('.' :: pathText path) := by
  rw [pathText, List.map_cons, String.intercalate_cons_of_ne_nil (by simpa using more),
    String.toList_append, String.toList_append, List.append_assoc]
  rfl

theorem reads_blanks (blanks : ∀ c ∈ blank, isBlank c = true)
    (stops : ∀ c ∈ rest.head?, isBlank c = false) : Reads Toml.blanks blank rest () :=
  reads_skipWhile blanks stops

theorem isBlank_head_keyText (more : List Char) :
    ∀ c ∈ ((keyText name).toList ++ more).head?, isBlank c = false := by
  intro c head
  by_contra blank
  have kind : c = ' ' ∨ c = '\t' := by
    simpa only [isBlank, Bool.or_eq_false_iff, decide_eq_false_iff_not, not_and_or,
      Decidable.not_not] using blank
  obtain rfl | rfl := kind
  · exact head_keyText_ne (by decide) (by decide) more head
  · exact head_keyText_ne (by decide) (by decide) more head

/-- A dotted key with blanks after it reads back as its path. -/
theorem reads_keyParts (some : path ≠ []) (blanks : ∀ c ∈ blank, isBlank c = true)
    (ends : EndsKey rest) (enough : (pathText path).length + 1 < fuel) :
    Reads (keyParts fuel) (pathText path ++ blank) rest path := by
  induction path generalizing fuel with
  | nil => exact absurd rfl some
  | cons name path ih =>
    obtain ⟨fuel, rfl⟩ := Nat.exists_eq_succ_of_ne_zero (Nat.ne_zero_of_lt enough)
    have none : ∀ c ∈ ([] : List Char), isBlank c = true := List.forall_mem_nil _
    by_cases last : path = []
    · subst last
      rw [pathText_singleton] at enough ⊢
      have stops : ∀ c ∈ (blank ++ rest).head?, isKeyChar c = false := by
        intro c head
        cases blank with
        | nil => exact (ends c head).1
        | cons b blank =>
          obtain rfl : b = c := Option.some.inj head
          have kind : b = ' ' ∨ b = '\t' := by
            simpa [isBlank] using blanks b List.mem_cons_self
          obtain rfl | rfl := kind <;> rfl
      refine Reads.look (reads_blanks none ?_) ?_
      · rw [List.append_assoc]
        exact isBlank_head_keyText (blank ++ rest)
      refine Reads.bind (reads_keyPart stops (by omega)) ?_
      refine Reads.stop (reads_blanks blanks fun c head => (ends c head).2.2) ?_
      refine Reads.look (reads_tryChar_not fun head => (ends _ head).2.1 rfl) ?_
      exact Reads.pure
    · rw [pathText_cons last] at enough ⊢
      simp only [List.length_append, List.length_cons] at enough
      rw [List.append_assoc]
      refine Reads.look (reads_blanks none ?_) ?_
      · rw [List.append_assoc]
        exact isBlank_head_keyText _
      refine Reads.bind (reads_keyPart ?_ (by omega)) ?_
      · rintro c ⟨⟩
        rfl
      refine Reads.look (reads_blanks none ?_) ?_
      · rintro c ⟨⟩
        rfl
      refine Reads.step reads_tryChar ?_
      exact Reads.stop (ih last (by omega)) Reads.pure

/-- A dotted key of up to so many parts is a key. -/
theorem reads_key (some : path ≠ []) (short : path.length ≤ depthLimit)
    (blanks : ∀ c ∈ blank, isBlank c = true) (ends : EndsKey rest)
    (enough : (pathText path).length + 1 < fuel) :
    Reads (key fuel) (pathText path ++ blank) rest path := by
  refine Reads.stop (reads_keyParts some blanks ends enough) ?_
  rw [if_pos short]
  exact Reads.pure

end TangledGraph.Toml
