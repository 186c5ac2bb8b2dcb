import TangledGraph.Proofs.Toml.Keys
import TangledGraph.Proofs.Toml.Spine

/-!
# Tables in TOML text

A document whose tables hold plain values first and tables after them is written one
table after the other, each under a header with its whole path. Every statement of that
text adds to the table of the last header, and so the text completes, entry by entry in
their order, the document that it was written from.
-/
namespace TangledGraph.Toml

open Entries Text Text.Reader

variable {fuel room n : Nat} {rest text lead : List Char} {name : String} {j doc : Json}
  {table path : List String} {entries sub : Entries} {spine : Spine}

/-- From some entries on, the rest of a text completes a document. -/
def Completes (text : List Char) (table : List String) (entries : Entries) (doc : Json) : Prop :=
  ∀ fuel, text.length + 2 ≤ fuel → Reads (statements fuel table entries) text [] doc

theorem completes_nil : Completes [] table entries (.object (entriesToJson entries)) := by
  intro fuel enough
  obtain ⟨fuel, rfl⟩ : ∃ k, fuel = k + 2 := ⟨fuel - 2, by omega⟩
  rw [statements]
  refine Reads.look (reads_filler nofun (List.forall_mem_nil _)) ?_
  exact Reads.look reads_peek Reads.pure

theorem reads_lineEnd : Reads lineEnd ['\n'] rest () := by
  refine Reads.look (reads_blanks (List.forall_mem_nil _) ?_) ?_
  · rintro c ⟨⟩
    rfl
  refine Reads.look (Reads.look (reads_tryChar_not nofun) Reads.pure) ?_
  refine Reads.stop reads_tryNewline ?_
  exact Reads.look reads_peek Reads.pure

theorem solid_keyText (name : String) (more : List Char) :
    Solid ((keyText name).toList ++ more) := by
  intro c head
  refine ⟨isBlank_head_keyText more c head, ?_, ?_, ?_⟩ <;>
    (rintro rfl; exact head_keyText_ne (by decide) (by decide) more head)

theorem reads_emptyLines (solid : Solid rest) (enough : n < fuel) :
    Reads (filler fuel) (List.replicate n '\n') rest () := by
  induction n generalizing fuel with
  | zero =>
    obtain ⟨fuel, rfl⟩ := Nat.exists_eq_succ_of_ne_zero (Nat.ne_zero_of_lt enough)
    exact reads_filler solid (List.forall_mem_nil _)
  | succ n ih =>
    obtain ⟨fuel, rfl⟩ := Nat.exists_eq_succ_of_ne_zero (Nat.ne_zero_of_lt enough)
    exact reads_filler_newline (ih (Nat.lt_of_succ_lt_succ enough))

/-- A statement after empty lines, and the rest of the text. -/
theorem Completes.statement {line : List Char} {table' : List String} {entries' : Entries}
    (nonempty : line ≠ []) (solid : Solid (line ++ rest))
    (reads : ∀ fuel, line.length + 1 ≤ fuel →
      Reads (statement fuel table entries) line rest (table', entries'))
    (later : Completes rest table' entries' doc) :
    Completes (List.replicate n '\n' ++ (line ++ rest)) table entries doc := by
  intro fuel enough
  simp only [List.length_append, List.length_replicate] at enough
  obtain ⟨fuel, rfl⟩ : ∃ k, fuel = k + 1 := ⟨fuel - 1, by omega⟩
  have positive := List.length_pos_iff.2 nonempty
  have more : ((line ++ rest).head?).isNone = false := by
    cases line with
    | nil => exact absurd rfl nonempty
    | cons => rfl
  rw [statements]
  refine Reads.bind (reads_emptyLines ?_ (by omega)) ?_
  · simpa only [List.append_nil] using solid
  refine Reads.look reads_peek ?_
  rw [List.append_nil, more]
  have first := reads fuel (by omega)
  rw [← List.append_nil rest] at first
  exact Reads.bind first (later fuel (by omega))

/-- The line of a value. -/
def valueLine (name : String) (j : Json) : List Char :=
  (keyText name).toList ++ (" = ".toList ++ ((renderValue j).toList ++ ['\n']))

theorem ends_newline : Ends ('\n' :: rest) := by
  rintro c ⟨⟩
  exact .inl rfl

theorem not_bracket_keyText {w more : List Char} :
    ¬ '[' :: w <+: (keyText name).toList ++ more := by
  have other : ((keyText name).toList ++ more).head? ≠ some '[' :=
    head_keyText_ne (by decide) (by decide) more
  rintro ⟨tail, eq⟩
  exact other (by rw [← eq]; rfl)

/-- A line sets a value in the table that is being filled. -/
theorem reads_valueLine (fresh : spine.Fresh) (new : sub.lookup name = none)
    (plain : Plain depthLimit j) (enough : (valueLine name j).length + 1 ≤ fuel) :
    Reads (statement fuel spine.path (plug spine sub)) (valueLine name j) rest
      (spine.path, plug spine (sub ++ [(name, .value j)])) := by
  have size : (" = ".toList).length = 3 := rfl
  have single : (keyText name).toList = pathText [name] := pathText_singleton.symm
  obtain ⟨c, more, start, opens⟩ := plain.opens
  have bracket : ∀ w, ¬ '[' :: w <+: valueLine name j ++ rest := by
    intro w
    rw [valueLine, List.append_assoc]
    exact not_bracket_keyText
  simp only [valueLine, List.length_append, List.length_singleton, size] at enough
  rw [statement]
  refine Reads.look (reads_tryWord_not (bracket _)) ?_
  refine Reads.look (reads_tryChar_not fun head => bracket [] ?_) ?_
  · obtain ⟨more, eq⟩ := List.head?_eq_some_iff.1 head
    exact ⟨more, eq.symm⟩
  rw [valueLine, single, show " = ".toList = [' '] ++ ['=', ' '] from rfl, List.append_assoc,
    ← List.append_assoc (pathText [name])]
  refine Reads.bind (reads_key (List.cons_ne_nil _ _) (Nat.one_le_ofNat) (List.all_eq_true.1 rfl)
    ?_ ?_) ?_
  · rintro c ⟨⟩
    decide
  · rw [← single]
    omega
  refine Reads.step reads_char ?_
  refine Reads.bind (t := [' ']) (reads_blanks (List.all_eq_true.1 rfl) ?_) ?_
  · rw [start]
    rintro d ⟨⟩
    exact opens.blank
  refine Reads.bind (plain.returns fuel _ ends_newline (by omega)) ?_
  refine Reads.stop reads_lineEnd ?_
  rw [setUnder_plug fresh new]
  exact Reads.pure

theorem pathText_starts (name : String) (path : List String) :
    ∃ more, pathText (name :: path) = (keyText name).toList ++ more := by
  by_cases last : path = []
  · subst last
    exact ⟨[], by rw [pathText_singleton, List.append_nil]⟩
  · exact ⟨_, pathText_cons last⟩

/-- The line of a header. -/
def headerLine (path : List String) : List Char := '[' :: (pathText path ++ [']', '\n'])

/-- A header opens a table within the one that is being filled. -/
theorem reads_headerLine (fresh : spine.Fresh) (new : sub.lookup name = none)
    (short : spine.length < depthLimit)
    (enough : (headerLine (spine.path ++ [name])).length + 1 ≤ fuel) :
    Reads (statement fuel table (plug spine sub)) (headerLine (spine.path ++ [name])) rest
      (spine.path ++ [name], plug (spine ++ [(sub, name)]) []) := by
  obtain ⟨outer, path, eq⟩ : ∃ outer path, spine.path ++ [name] = outer :: path :=
    List.exists_cons_of_ne_nil (by simp)
  have single : ¬['[', '['] <+: headerLine (spine.path ++ [name]) ++ rest := by
    obtain ⟨more, starts⟩ := pathText_starts outer path
    rw [eq, headerLine, starts, List.cons_append, List.append_assoc, List.append_assoc,
      List.cons_prefix_cons]
    exact fun mark => not_bracket_keyText mark.2
  have nonempty : spine.path ++ [name] ≠ [] := by simp
  have size : (spine.path ++ [name]).length ≤ depthLimit := by
    rw [List.length_append, List.length_singleton, Spine.path, List.length_map]
    exact short
  simp only [headerLine, List.length_cons, List.length_append] at enough
  rw [statement]
  refine Reads.look (reads_tryWord_not single) (Reads.step reads_tryChar ?_)
  have named : Reads (key fuel) (pathText (spine.path ++ [name]) ++ []) (']' :: '\n' :: rest)
      (spine.path ++ [name]) := by
    refine reads_key nonempty size (List.forall_mem_nil _) ?_ (by omega)
    rintro c ⟨⟩
    decide
  rw [List.append_nil] at named
  refine Reads.bind named ?_
  refine Reads.step reads_char (Reads.stop reads_lineEnd ?_)
  rw [openTable_plug fresh new]
  exact Reads.pure

mutual

/-- The node that the text of a document makes. -/
def nodeOf : Json → Node
  | .object fields => .table .header (nodesOf fields)
  | j => .value j

def nodesOf : List (String × Json) → Entries
  | [] => []
  | (name, j) :: rest => (name, nodeOf j) :: nodesOf rest

end

mutual

theorem toJson_nodeOf (j : Json) : (nodeOf j).toJson = j := by
  cases j with
  | object fields => rw [nodeOf, Node.toJson, entriesToJson_nodesOf fields]
  | _ =>
    rw [nodeOf, Node.toJson]
    nofun

theorem entriesToJson_nodesOf (fields : List (String × Json)) :
    entriesToJson (nodesOf fields) = fields := by
  cases fields with
  | nil => rfl
  | cons field fields =>
    obtain ⟨name, j⟩ := field
    rw [nodesOf, entriesToJson, toJson_nodeOf j, entriesToJson_nodesOf fields]

end

theorem nodesOf_append (front back : List (String × Json)) :
    nodesOf (front ++ back) = nodesOf front ++ nodesOf back := by
  induction front with
  | nil => rfl
  | cons field front ih => rw [List.cons_append, nodesOf, ih, nodesOf, List.cons_append]

theorem lookup_absent (absent : name ∉ entries.map (·.1)) : entries.lookup name = none := by
  rw [List.lookup_eq_none_iff]
  intro entry mem
  have apart : name ≠ entry.1 := fun same => absent (List.mem_map.2 ⟨entry, mem, same.symm⟩)
  simpa using apart

theorem names_nodesOf (fields : List (String × Json)) :
    (nodesOf fields).map (·.1) = fields.map (·.1) := by
  induction fields with
  | nil => rfl
  | cons field fields ih => rw [nodesOf, List.map_cons, ih, List.map_cons]

theorem Plain.nodeOf_eq (plain : Plain room j) : nodeOf j = .value j := by
  cases plain <;> rfl

theorem Plain.blocksOf_eq (plain : Plain room j) : blocksOf path j = [] := by
  cases plain <;> rfl

theorem Plain.valueLines_cons (plain : Plain room j) (fields : List (String × Json)) :
    valueLines ((name, j) :: fields) =
      (keyText name ++ " = " ++ renderValue j ++ "\n") :: valueLines fields := by
  cases plain <;> rfl

/-- Tables as fields of the table around them. -/
def objects (tables : List (String × List (String × Json))) : List (String × Json) :=
  tables.map fun t => (t.1, .object t.2)

theorem objects_cons (name : String) (fields : List (String × Json))
    (tables : List (String × List (String × Json))) :
    objects ((name, fields) :: tables) = (name, .object fields) :: objects tables := rfl

/-- Fields of a table that its text keeps in order: first plain values, then tables down
to some depth, with no name twice. A table without any value is empty, so that each has
a header. -/
inductive Orderly : Nat → List (String × Json) → Prop
  | intro {depth : Nat} {values : List (String × Json)}
      {tables : List (String × List (String × Json))}
      (plain : ∀ field ∈ values, Plain depthLimit field.2)
      (distinct : (values.map (·.1) ++ tables.map (·.1)).Nodup)
      (headed : ∀ t ∈ tables, t.2 = [] ∨ valueLines t.2 ≠ [])
      (inner : ∀ t ∈ tables, Orderly depth t.2) :
      Orderly (depth + 1) (values ++ objects tables)

/-- Blocks with an empty line before each. -/
def spaced (blocks : List String) : List Char := blocks.flatMap fun block => '\n' :: block.toList

/-- The text of a table after its header. -/
def tableText (path : List String) (fields : List (String × Json)) : List Char :=
  (String.join (valueLines fields)).toList ++ spaced (blocks path fields)

theorem valueLines_append (front back : List (String × Json)) :
    valueLines (front ++ back) = valueLines front ++ valueLines back := by
  simp only [valueLines, List.filterMap_append]

theorem valueLines_objects (tables : List (String × List (String × Json))) :
    valueLines (objects tables) = [] := by
  simp [valueLines, objects]

theorem valueLines_plain {values : List (String × Json)}
    (plain : ∀ field ∈ values, Plain room field.2) :
    (String.join (valueLines values)).toList =
      values.flatMap fun field => valueLine field.1 field.2 := by
  induction values with
  | nil => rfl
  | cons field values ih =>
    obtain ⟨first, others⟩ := List.forall_mem_cons.1 plain
    rw [first.valueLines_cons, String.join_cons, String.toList_append, ih others,
      List.flatMap_cons]
    simp [valueLine]

theorem blocks_plain {values : List (String × Json)} (plain : ∀ field ∈ values, Plain room field.2)
    (more : List (String × Json)) : blocks path (values ++ more) = blocks path more := by
  induction values with
  | nil => rfl
  | cons field values ih =>
    obtain ⟨first, others⟩ := List.forall_mem_cons.1 plain
    rw [List.cons_append, blocks, first.blocksOf_eq, List.nil_append, ih others]

/-- The lines of values fill the table of the last header. -/
theorem completes_values {values : List (String × Json)} (fresh : spine.Fresh)
    (plain : ∀ field ∈ values, Plain depthLimit field.2)
    (distinct : (sub.map (·.1) ++ values.map (·.1)).Nodup)
    (later : Completes rest spine.path (plug spine (sub ++ nodesOf values)) doc) :
    Completes ((values.flatMap fun field => valueLine field.1 field.2) ++ rest) spine.path
      (plug spine sub) doc := by
  induction values generalizing sub with
  | nil => simpa [nodesOf] using later
  | cons field values ih =>
    obtain ⟨name, j⟩ := field
    obtain ⟨first, others⟩ := List.forall_mem_cons.1 plain
    have absent : name ∉ sub.map (·.1) := fun mem =>
      (List.nodup_append.1 distinct).2.2 name mem name List.mem_cons_self rfl
    rw [nodesOf, first.nodeOf_eq, List.append_cons] at later
    rw [List.map_cons, List.append_cons] at distinct
    have following := ih others (by simpa using distinct) later
    rw [List.flatMap_cons, List.append_assoc]
    refine Completes.statement (n := 0) ?_ ?_ (fun fuel enough => ?_) following
    · simp [valueLine]
    · rw [valueLine, List.append_assoc]
      exact solid_keyText name _
    · exact reads_valueLine fresh (lookup_absent absent) first enough

theorem spaced_append (front back : List String) :
    spaced (front ++ back) = spaced front ++ spaced back := by
  rw [spaced, List.flatMap_append]
  rfl

/-- The first block of a table with a header is the header and its values. -/
theorem blocksOf_object (path : List String) {fields : List (String × Json)}
    (headed : fields = [] ∨ valueLines fields ≠ []) :
    ∃ block, blocksOf path (.object fields) = block :: blocks path fields ∧
      block.toList ++ spaced (blocks path fields) = headerLine path ++ tableText path fields := by
  have block : tableBlock path fields =
      ["[" ++ ".".intercalate (path.map keyText) ++ "]\n" ++ String.join (valueLines fields)] := by
    refine if_neg fun bare => ?_
    obtain rfl | some := headed
    · cases bare
    · simp [some] at bare
  refine ⟨_, by rw [blocksOf, block, List.singleton_append], ?_⟩
  rw [tableText, headerLine, pathText]
  simp

/-- What stands in a table completes a document that is completed from the full table. -/
def Fills (depth : Nat) (fields : List (String × Json)) : Prop :=
  ∀ (spine : Spine) (rest : List Char) (doc : Json), spine.Fresh →
    spine.length + depth ≤ depthLimit + 1 →
    (∀ table, Completes rest table (plug spine (nodesOf fields)) doc) →
    Completes (tableText spine.path fields ++ rest) spine.path (plug spine []) doc

/-- A table after empty lines, and the rest of the text. -/
theorem completes_table (n : Nat) (table : List String) {depth : Nat}
    {fields : List (String × Json)} (fills : Fills depth fields) (fresh : spine.Fresh)
    (new : sub.lookup name = none) (positive : 0 < depth)
    (deep : spine.length + depth ≤ depthLimit)
    (later : ∀ table,
      Completes rest table (plug spine (sub ++ [(name, .table .header (nodesOf fields))])) doc) :
    Completes (List.replicate n '\n' ++ (headerLine (spine.path ++ [name]) ++
      (tableText (spine.path ++ [name]) fields ++ rest))) table (plug spine sub) doc := by
  have contents := fills (spine ++ [(sub, name)]) rest doc (fresh.append new)
    (by rw [List.length_append, List.length_singleton]; omega)
    (by simpa only [plug_append] using later)
  rw [Spine.path_append] at contents
  refine Completes.statement (List.cons_ne_nil _ _) ?_ (fun fuel enough => ?_) contents
  · rintro c ⟨⟩
    decide
  · exact reads_headerLine fresh new (by omega) enough

theorem completes_tables {depth : Nat} {tables : List (String × List (String × Json))}
    (fills : ∀ t ∈ tables, Fills depth t.2) (fresh : spine.Fresh)
    (headed : ∀ t ∈ tables, t.2 = [] ∨ valueLines t.2 ≠ [])
    (positive : ∀ t ∈ tables, 0 < depth) (deep : spine.length + depth ≤ depthLimit)
    (distinct : (sub.map (·.1) ++ tables.map (·.1)).Nodup)
    (later : ∀ table, Completes rest table (plug spine (sub ++ nodesOf (objects tables))) doc) :
    ∀ table, Completes (spaced (blocks spine.path (objects tables)) ++ rest) table
      (plug spine sub) doc := by
  induction tables generalizing sub with
  | nil => simpa [objects, nodesOf, blocks, spaced] using later
  | cons t tables ih =>
    obtain ⟨name, fields⟩ := t
    obtain ⟨first, others⟩ := List.forall_mem_cons.1 fills
    obtain ⟨header, headers⟩ := List.forall_mem_cons.1 headed
    obtain ⟨positive, positives⟩ := List.forall_mem_cons.1 positive
    have absent : sub.lookup name = none := lookup_absent fun mem =>
      (List.nodup_append.1 distinct).2.2 name mem name List.mem_cons_self rfl
    have following : ∀ table, Completes (spaced (blocks spine.path (objects tables)) ++ rest) table
        (plug spine (sub ++ [(name, .table .header (nodesOf fields))])) doc := by
      refine ih others headers positives (by simpa using distinct) fun table => ?_
      rw [List.append_assoc]
      exact later table
    intro table
    have completes := completes_table 1 table first fresh absent positive deep following
    obtain ⟨block, eq, text⟩ := blocksOf_object (spine.path ++ [name]) header
    rw [objects_cons, blocks, spaced_append, eq]
    rw [← List.append_assoc (headerLine _), ← text] at completes
    simpa [spaced] using completes

theorem Orderly.depth_pos {depth : Nat} {fields : List (String × Json)}
    (orderly : Orderly depth fields) : 0 < depth := by
  cases orderly
  exact Nat.succ_pos _

/-- Orderly fields fill their table. -/
theorem Orderly.fills {depth : Nat} {fields : List (String × Json)}
    (orderly : Orderly depth fields) : Fills depth fields := by
  induction orderly with
  | @intro depth values tables plain distinct headed inner ih =>
    intro spine rest doc fresh deep later
    rw [tableText, valueLines_append, valueLines_objects, List.append_nil,
      valueLines_plain plain, blocks_plain plain, List.append_assoc]
    refine completes_values fresh plain ?_ ?_
    · simpa using (List.nodup_append.1 distinct).1
    rw [List.nil_append]
    refine completes_tables ih fresh headed (fun t mem => (inner t mem).depth_pos) (by omega)
      ?_ ?_ _
    · rw [names_nodesOf]
      exact distinct
    · simpa only [nodesOf_append] using later

theorem intercalate_toList (first : String) (others : List String) :
    ("\n".intercalate (first :: others)).toList = first.toList ++ spaced others := by
  induction others generalizing first with
  | nil => simp [spaced]
  | cons second others ih =>
    rw [String.intercalate_cons_cons, String.toList_append, String.toList_append, ih]
    simp [spaced]

theorem render_of_lines {fields : List (String × Json)} (lines : valueLines fields ≠ []) :
    (render (.object fields)).toList = tableText [] fields := by
  have top : ((if (valueLines fields).isEmpty = true then [] else
      [String.join (valueLines fields)]) ++ blocks [] fields) =
      String.join (valueLines fields) :: blocks [] fields := by
    rw [if_neg (by simpa using lines), List.singleton_append]
  rw [render, top, intercalate_toList]
  rfl

theorem render_of_table {fields : List (String × Json)}
    {tables : List (String × List (String × Json))}
    (headed : fields = [] ∨ valueLines fields ≠ []) :
    (render (.object (objects ((name, fields) :: tables)))).toList =
      headerLine [name] ++ (tableText [name] fields ++ spaced (blocks [] (objects tables))) := by
  obtain ⟨block, eq, text⟩ := blocksOf_object [name] headed
  rw [render, valueLines_objects, List.isEmpty_nil, if_pos rfl, List.nil_append, objects_cons,
    blocks, List.nil_append, eq, List.cons_append, intercalate_toList, spaced_append,
    ← List.append_assoc, text, List.append_assoc]

/-- The text of orderly fields is completed to the object of them. -/
theorem completes_render {depth : Nat} {fields : List (String × Json)}
    (orderly : Orderly depth fields) (shallow : depth ≤ depthLimit + 1) :
    Completes (render (.object fields)).toList [] [] (.object fields) := by
  have full : ∀ table, Completes [] table (nodesOf fields) (.object fields) := by
    intro table
    have completes : Completes [] table (nodesOf fields)
        (.object (entriesToJson (nodesOf fields))) := completes_nil
    rwa [entriesToJson_nodesOf] at completes
  by_cases lines : valueLines fields = []
  · obtain @⟨depth, values, tables, plain, distinct, headed, inner⟩ := orderly
    obtain rfl : values = [] := by
      cases values with
      | nil => rfl
      | cons field values =>
        obtain ⟨first, -⟩ := List.forall_mem_cons.1 plain
        rw [List.cons_append, first.valueLines_cons] at lines
        cases lines
    cases tables with
    | nil => exact full []
    | cons t tables =>
      obtain ⟨name, fields⟩ := t
      obtain ⟨header, headers⟩ := List.forall_mem_cons.1 headed
      obtain ⟨first, others⟩ := List.forall_mem_cons.1 inner
      have following : ∀ table, Completes (spaced (blocks (Spine.path []) (objects tables)) ++ [])
          table (plug [] ([] ++ [(name, .table .header (nodesOf fields))]))
          (.object (objects ((name, fields) :: tables))) :=
        completes_tables (fun t mem => (others t mem).fills) nofun headers
          (fun t mem => (others t mem).depth_pos) (by simpa using shallow) distinct full
      have completes : Completes (List.replicate 0 '\n' ++ (headerLine (Spine.path [] ++ [name]) ++
          (tableText (Spine.path [] ++ [name]) fields ++
            (spaced (blocks (Spine.path []) (objects tables)) ++ [])))) [] (plug [] [])
          (.object (objects ((name, fields) :: tables))) :=
        completes_table 0 [] first.fills nofun rfl first.depth_pos (by simpa using shallow)
          following
      rw [List.nil_append, render_of_table header]
      simpa [Spine.path, plug] using completes
  · rw [render_of_lines lines]
    have fills := orderly.fills [] [] (.object fields) nofun (by simpa using shallow) full
    rwa [List.append_nil] at fills

/-- A text starts with a key or a header, and so with no byte order mark. -/
theorem head_render {fields : List (String × Json)} {depth : Nat}
    (orderly : Orderly depth fields) :
    (render (.object fields)).toList.head? ≠ some '\ufeff' := by
  obtain @⟨depth, values, tables, plain, distinct, headed, inner⟩ := orderly
  cases values with
  | cons field values =>
    obtain ⟨first, -⟩ := List.forall_mem_cons.1 plain
    rw [render_of_lines, tableText, List.cons_append, first.valueLines_cons, String.join_cons]
    · simp only [String.toList_append, List.append_assoc]
      exact head_keyText_ne (by decide) (by decide) _
    · rw [List.cons_append, first.valueLines_cons]
      exact List.cons_ne_nil _ _
  | nil =>
    cases tables with
    | nil => nofun
    | cons t tables =>
      obtain ⟨name, fields⟩ := t
      rw [List.nil_append, render_of_table (List.forall_mem_cons.1 headed).1]
      nofun

/-- The object of a text reads back from it. -/
theorem parse_render {depth : Nat} {fields : List (String × Json)}
    (orderly : Orderly depth fields) (shallow : depth ≤ depthLimit + 1) :
    parse (render (.object fields)) = some (.object fields) := by
  have reads := completes_render orderly shallow _ (Nat.le_refl _)
  rw [parse, if_neg (head_render orderly)]
  exact whole_eq_some reads

end TangledGraph.Toml
