import TangledGraph.Proofs.Toml.Tables
import TangledGraph.Settings.Layers
import TangledGraph.Settings.FileFormat

/-!
# Layers that change nothing

A document with no name twice in an object and no number beyond its format is evened out
to itself, and laid over nothing it comes out as it is. The documents that a text keeps in
order are of this kind.
-/
namespace TangledGraph

open Json Toml

namespace Json

variable {j : Json} {name : String} {change : Json → Json}
  {below fields : List (String × Json)}

/-- A document that is evened out to itself and that is itself when laid over nothing. -/
structure Steady (j : Json) : Prop where
  canonical : j.canonical = j
  overlay : overlay null j = j

theorem canonicalItems_eq (items : List Json) : canonicalItems items = items.map canonical := by
  induction items with
  | nil => rfl
  | cons j items ih => rw [canonicalItems, ih, List.map_cons]

theorem canonicalFields_eq (distinct : (fields.map (·.1)).Nodup)
    (steady : ∀ field ∈ fields, Steady field.2) : canonicalFields fields = fields := by
  induction fields with
  | nil => rfl
  | cons field fields ih =>
    obtain ⟨name, j⟩ := field
    obtain ⟨new, distinct⟩ := List.nodup_cons.1 distinct
    obtain ⟨first, others⟩ := List.forall_mem_cons.1 steady
    have once : ¬fields.any (·.1 == name) = true := by
      rw [List.any_eq_true]
      rintro ⟨field, mem, same⟩
      exact new (List.mem_map.2 ⟨field, mem, eq_of_beq same⟩)
    rw [canonicalFields, ih distinct others, if_neg once, first.canonical]

theorem changeField_new (new : name ∉ below.map (·.1)) :
    changeField name change below = below ++ [(name, change null)] := by
  induction below with
  | nil => rfl
  | cons field below ih =>
    obtain ⟨n, j⟩ := field
    obtain ⟨apart, new⟩ := not_or.1 (fun mem => new (List.mem_cons.2 mem))
    rw [changeField, if_neg (Ne.symm apart), ih new, List.cons_append]

/-- Fields with new names are added to those below. -/
theorem overlayFields_eq (below : List (String × Json))
    (distinct : (below.map (·.1) ++ fields.map (·.1)).Nodup)
    (steady : ∀ field ∈ fields, Steady field.2) :
    overlayFields below fields = below ++ fields := by
  induction fields generalizing below with
  | nil => rw [overlayFields, List.append_nil]
  | cons field fields ih =>
    obtain ⟨name, j⟩ := field
    obtain ⟨first, others⟩ := List.forall_mem_cons.1 steady
    have new : name ∉ below.map (·.1) := fun mem =>
      (List.nodup_append.1 distinct).2.2 name mem name List.mem_cons_self rfl
    rw [overlayFields, changeField_new new, first.overlay,
      ih _ (by simpa using distinct) others, ← List.append_cons]

theorem Steady.object (distinct : (fields.map (·.1)).Nodup)
    (steady : ∀ field ∈ fields, Steady field.2) : Steady (.object fields) where
  canonical := by rw [Json.canonical, canonicalFields_eq distinct steady]
  overlay := by
    have none : fieldsOf null = [] := rfl
    rw [Json.overlay, none, overlayFields_eq [] distinct steady, List.nil_append]

end Json

namespace Toml

variable {room : Nat} {j : Json} {fields : List (String × Json)}

theorem inRange_eq_some {n : Int} : inRange n = some j ↔
    (-Nat.pow 2 63 ≤ n ∧ n < Nat.pow 2 63) ∧ Json.integer n = j := by
  rw [inRange, Option.ite_none_right_eq_some, Option.some.injEq]

theorem Plain.steady (plain : Plain room j) : Steady j := by
  induction plain with
  | bool | string => exact ⟨rfl, rfl⟩
  | real => exact ⟨rfl, rfl⟩
  | integer fits =>
    obtain ⟨⟨low, high⟩, -⟩ := inRange_eq_some.1 fits
    have wider : Nat.pow 2 63 ≤ Nat.pow 2 64 := by decide
    exact ⟨if_pos ⟨low, by omega⟩, rfl⟩
  | array inner ih =>
    refine ⟨?_, rfl⟩
    rw [canonical, canonicalItems_eq, List.map_congr_left fun j mem => (ih j mem).canonical,
      List.map_id']

theorem Orderly.steady {depth : Nat} (orderly : Orderly depth fields) :
    (fields.map (·.1)).Nodup ∧ ∀ field ∈ fields, Steady field.2 := by
  induction orderly with
  | @intro depth values tables plain distinct headed inner ih =>
    have names : (objects tables).map (·.1) = tables.map (·.1) := by simp [objects]
    refine ⟨by rwa [List.map_append, names], List.forall_mem_append.2 ⟨?_, ?_⟩⟩
    · exact fun field mem => (plain field mem).steady
    · intro field mem
      obtain ⟨t, table, rfl⟩ := List.mem_map.1 mem
      obtain ⟨distinct, steady⟩ := ih t table
      exact .object distinct steady

/-- The text of orderly fields is a settings file with these fields. -/
theorem Orderly.fields?_render {depth : Nat} (orderly : Orderly depth fields)
    (shallow : depth ≤ depthLimit + 1) :
    FileFormat.toml.fields? (Toml.render (.object fields)) = some fields := by
  obtain ⟨distinct, steady⟩ := orderly.steady
  have format (text : String) : FileFormat.toml.parse text = Toml.parse text := rfl
  rw [FileFormat.fields?, if_neg (head_render orderly), format, parse_render orderly shallow]
  exact congrArg some (canonicalFields_eq distinct steady)

end Toml

namespace Settings

variable {below fields : List (String × Json)} {environment : List (String × String)}

/-- Fields whose names are paths to themselves are set one after another. -/
theorem setAll_object (below : List (String × Json))
    (direct : ∀ field ∈ fields, Place.path field.1 = [.field field.1])
    (distinct : (below.map (·.1) ++ fields.map (·.1)).Nodup)
    (steady : ∀ field ∈ fields, Steady field.2) :
    setAll fields (object below) = object (below ++ fields) := by
  induction fields generalizing below with
  | nil => rw [List.append_nil, setAll, List.foldl_nil]
  | cons field fields ih =>
    obtain ⟨name, j⟩ := field
    obtain ⟨path, paths⟩ := List.forall_mem_cons.1 direct
    obtain ⟨first, others⟩ := List.forall_mem_cons.1 steady
    have new : name ∉ below.map (·.1) := fun mem =>
      (List.nodup_append.1 distinct).2.2 name mem name List.mem_cons_self rfl
    have step : setAll ((name, j) :: fields) (object below) =
        setAll fields (setAt j (Place.path name) (object below)) := rfl
    rw [step, path, setAt, fieldsOf, changeField_new new, setAt, first.overlay,
      ih _ paths (by simpa using distinct) others, ← List.append_cons]

/-- Orderly fields are the whole document where nothing overrides them. -/
theorem layered_eq {depth : Nat} (orderly : Orderly depth fields)
    (direct : ∀ field ∈ fields, Place.path field.1 = [.field field.1])
    (bare : overrides environment = []) : layered fields environment = object fields := by
  obtain ⟨distinct, steady⟩ := orderly.steady
  rw [layered, bare, setAll_object [] direct distinct steady]
  rfl

end Settings

end TangledGraph
