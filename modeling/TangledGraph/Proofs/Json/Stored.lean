import Mathlib.Data.List.Nodup
import TangledGraph.Json.Decode

/-!
# Values that are read back

A kind of values is stored by a writer and a reader. Some values fit the
document, and these are read back, possibly as others; for the rest there is
nothing to read. What is known of the parts of a record or a list makes up what
is known of the whole.
-/
namespace TangledGraph.Json

variable {α β : Type}

/-- A value is read back exactly if it fits, and then as what becomes of it. -/
def Stores (write : α → Json) (read : Json → Option α) (fits : α → Prop) (turned : α → α) : Prop :=
  ∀ x y, read (write x).written = some y ↔ fits x ∧ turned x = y

theorem Stores.eq_some {write : α → Json} {read : Json → Option α} {fits : α → Prop}
    {turned : α → α} (h : Stores write read fits turned) {x y : α} :
    read (write x).written = some y ↔ fits x ∧ turned x = y := h x y

/-- A value that fits is read back as it is. -/
def Returns (write : α → Json) (read : Json → Option α) (fits : α → Prop) : Prop :=
  ∀ x y, read (write x).written = some y ↔ fits x ∧ x = y

theorem Returns.eq_some {write : α → Json} {read : Json → Option α} {fits : α → Prop}
    (h : Returns write read fits) {x y : α} :
    read (write x).written = some y ↔ fits x ∧ x = y := h x y

/-- Values that stand for others are stored as these. -/
theorem Returns.wrap {write : α → Json} {read : Json → Option α} {fits : α → Prop}
    (h : Returns write read fits) (mk : α → β) (val : β → α) (inverse : ∀ b, mk (val b) = b) :
    Returns (fun b => write (val b)) (fun j => (read j).map mk) fun b => fits (val b) := by
  intro b c
  simp only [Option.map_eq_some_iff, h.eq_some]
  constructor
  · rintro ⟨_, ⟨fits, rfl⟩, rfl⟩
    exact ⟨fits, (inverse b).symm⟩
  · rintro ⟨fits, rfl⟩
    exact ⟨_, ⟨fits, rfl⟩, inverse b⟩

/-- Documents have room for a number. -/
def IsWord (n : Nat) : Prop := n < Nat.pow 2 64

instance : DecidablePred IsWord := fun n => inferInstanceAs (Decidable (n < Nat.pow 2 64))

theorem returns_ofNat : Returns ofNat natural? IsWord := by
  intro n m
  have positive : (0 : Int) ≤ n := Int.natCast_nonneg n
  simp only [ofNat, written, natural?, positive, true_and, Int.ofNat_lt, Int.toNat_natCast,
    Option.ite_none_right_eq_some, Option.some.injEq, IsWord]

theorem isWord_of_natural? {j : Json} {n : Nat} (read : natural? j = some n) : IsWord n := by
  unfold natural? at read
  split at read
  case h_1 m =>
    rw [Option.ite_none_right_eq_some, Option.some_inj] at read
    obtain ⟨⟨positive, small⟩, rfl⟩ := read
    exact (Int.toNat_lt positive).2 small
  case h_2 => cases read

/-- Documents have room for a number with a sign. -/
def IsSignedWord (n : Int) : Prop := -(Nat.pow 2 63 : Nat) ≤ n ∧ n < (Nat.pow 2 63 : Nat)

instance : DecidablePred IsSignedWord := fun n =>
  inferInstanceAs (Decidable (-(Nat.pow 2 63 : Nat) ≤ n ∧ n < (Nat.pow 2 63 : Nat)))

theorem returns_integer : Returns integer whole? IsSignedWord := by
  intro n m
  simp only [written, whole?, Option.ite_none_right_eq_some, Option.some.injEq, IsSignedWord]

theorem returns_real : Returns real float? (·.isFinite = true) := by
  intro x y
  by_cases finite : x.isFinite = true <;> simp [written, float?, finite]

theorem returns_bool : Returns bool flag? fun _ => True := by
  intro b c
  simp [written, flag?]

theorem returns_string : Returns string text? fun _ => True := by
  intro s u
  simp [written, text?]

theorem writtenItems_eq (items : List Json) : writtenItems items = items.map written := by
  induction items with
  | nil => rfl
  | cons j rest ih => rw [writtenItems, ih, List.map_cons]

theorem writtenFields_eq (fields : List (String × Json)) :
    writtenFields fields = fields.map fun (name, j) => (name, j.written) := by
  induction fields with
  | nil => rfl
  | cons field rest ih => rw [writtenFields, ih, List.map_cons]

theorem Stores.list {write : α → Json} {read : Json → Option α} {fits : α → Prop}
    {turned : α → α} (h : Stores write read fits turned) :
    Stores (ofList write) (list? read) (fun xs => ∀ x ∈ xs, fits x) (List.map turned) := by
  intro xs ys
  unfold Stores at h
  simp only [ofList, written, list?, writtenItems_eq]
  induction xs generalizing ys with
  | nil => simp
  | cons x xs ih =>
    simp only [List.map_cons, List.mapM_cons, Option.bind_eq_bind, Option.bind_eq_some_iff, h,
      Option.pure_def, Option.some.injEq, ih, List.forall_mem_cons]
    constructor
    · rintro ⟨_, ⟨fits, rfl⟩, _, ⟨rest, rfl⟩, rfl⟩
      exact ⟨⟨fits, rest⟩, rfl⟩
    · rintro ⟨⟨fits, rest⟩, rfl⟩
      exact ⟨_, ⟨fits, rfl⟩, _, ⟨rest, rfl⟩, rfl⟩

theorem Returns.list {write : α → Json} {read : Json → Option α} {fits : α → Prop}
    (h : Returns write read fits) :
    Returns (ofList write) (list? read) fun xs => ∀ x ∈ xs, fits x := by
  have stores : Stores write read fits id := h
  intro xs ys
  rw [stores.list.eq_some, List.map_id]

/-- Nothing is told apart from a value that is not written as null. -/
theorem Stores.option {write : α → Json} {read : Json → Option α} {fits : α → Prop}
    {turned : α → α} (h : Stores write read fits turned)
    (some_value : ∀ x, (write x).written ≠ null) :
    Stores (ofOption write) (option? read) (fun o => ∀ x ∈ o, fits x) (Option.map turned) := by
  intro o p
  cases o with
  | none => simp [ofOption, written, option?]
  | some x =>
    have read_some : option? read (write x).written = (read (write x).written).map some := by
      unfold option?
      split
      case h_1 null => exact absurd null (some_value x)
      case h_2 => rfl
    simp only [ofOption, read_some, Option.map_eq_some_iff, h.eq_some, Option.mem_def,
      Option.some.injEq, forall_eq', Option.map_some]
    constructor
    · rintro ⟨_, ⟨fits, rfl⟩, rfl⟩
      exact ⟨fits, rfl⟩
    · rintro ⟨fits, rfl⟩
      exact ⟨_, ⟨fits, rfl⟩, rfl⟩

theorem Returns.option {write : α → Json} {read : Json → Option α} {fits : α → Prop}
    (h : Returns write read fits) (some_value : ∀ x, (write x).written ≠ null) :
    Returns (ofOption write) (option? read) fun o => ∀ x ∈ o, fits x := by
  have stores : Stores write read fits id := h
  intro o p
  rw [(stores.option some_value).eq_some, Option.map_id_fun, id]

/-- The object of all fields of a record is read as these fields. -/
theorem record?_object {names : List String} {fields : List (String × Json)} {defaults : Bool}
    (all : fields.map Prod.fst = names) (nodup : names.Nodup) :
    record? names defaults (object fields) = some fun name => fields.lookup name := by
  have once : (names.all fun name => fields.countP (·.1 == name) ≤ 1) = true := by
    rw [List.all_eq_true]
    intro name _
    have count : fields.countP (·.1 == name) = names.count name := by
      rw [← all, List.count, List.countP_map]
      rfl
    exact decide_eq_true (count ▸ List.nodup_iff_count_le_one.1 nodup name)
  rw [record?, if_pos once]

/-- The fields of a record are read one after another. -/
theorem fields_eq_some {field : Option α} {rest : α → Option β} {record : β} :
    (field >>= rest) = some record ↔ ∃ x, field = some x ∧ rest x = some record :=
  Option.bind_eq_some_iff

end TangledGraph.Json
