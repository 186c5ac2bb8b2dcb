import Mathlib.Data.List.Induction
import TangledGraph.Toml.Table

/-!
# The table that is being filled

A text written table by table only ever adds to the table of the last header. That table
is the last entry of the table around it, and so on outwards, so what a statement does
to it can be told without the entries around.
-/
namespace TangledGraph.Toml.Entries

variable {k : String} {node old : Node} {before entries sub : Entries} {j : Json}
  {change : String → Entries → Option Entries}

theorem lookup_last (fresh : entries.lookup k = none) :
    (entries ++ [(k, node)]).lookup k = some node := by
  rw [List.lookup_append, fresh, Option.none_or]
  simp

theorem put_last (fresh : entries.lookup k = none) :
    put k node (entries ++ [(k, old)]) = entries ++ [(k, node)] := by
  induction entries with
  | nil => simp [put]
  | cons entry entries ih =>
    obtain ⟨n, other⟩ := entry
    have apart : n ≠ k := by
      rintro rfl
      simp at fresh
    rw [List.lookup_cons, beq_eq_false_iff_ne.2 apart.symm] at fresh
    rw [List.cons_append, put, if_neg apart, ih fresh, List.cons_append]

/-- The tables around one that is being filled, from the outermost on: what stands
before the next one, and its name. -/
abbrev Spine := List (Entries × String)

/-- All entries, with those of the innermost table. -/
def plug (spine : Spine) (sub : Entries) : Entries :=
  match spine with
  | [] => sub
  | (before, k) :: spine => before ++ [(k, .table .header (plug spine sub))]

namespace Spine

def path (spine : Spine) : List String := spine.map (·.2)

/-- No table has the name of an entry before it. -/
def Fresh (spine : Spine) : Prop := ∀ part ∈ spine, part.1.lookup part.2 = none

variable {spine : Spine}

theorem path_append : path (spine ++ [(before, k)]) = spine.path ++ [k] := by
  simp [path]

theorem Fresh.append (fresh : spine.Fresh) (new : before.lookup k = none) :
    Fresh (spine ++ [(before, k)]) :=
  List.forall_mem_append.2 ⟨fresh, List.forall_mem_singleton.2 new⟩

end Spine

variable {spine : Spine}

theorem plug_append :
    plug (spine ++ [(before, k)]) sub = plug spine (before ++ [(k, .table .header sub)]) := by
  induction spine with
  | nil => rfl
  | cons part spine ih => rw [List.cons_append, plug, plug, ih]

theorem descend_cons {path : List String} (deeper : path ≠ [])
    (fresh : before.lookup k = none) :
    descend change (k :: path) (before ++ [(k, .table .header sub)]) =
      (descend change path sub).map fun sub => before ++ [(k, .table .header sub)] := by
  obtain ⟨next, path, rfl⟩ := List.exists_cons_of_ne_nil deeper
  rw [descend, lookup_last fresh]
  case x_2 => exact List.cons_ne_nil next path
  simp only [put_last fresh]
  cases descend change (next :: path) sub <;> rfl

/-- A change at a path of the innermost table leaves the entries around as they are. -/
theorem descend_plug (fresh : spine.Fresh) :
    descend change (spine.path ++ [k]) (plug spine sub) = (change k sub).map (plug spine) := by
  induction spine with
  | nil =>
    have here : descend change [k] sub = change k sub := rfl
    rw [Spine.path, List.map_nil, List.nil_append, plug, here]
    exact Option.map_id'.symm
  | cons part spine ih =>
    obtain ⟨first, others⟩ := List.forall_mem_cons.1 fresh
    have deeper : Spine.path spine ++ [k] ≠ [] := by simp
    have path : Spine.path (part :: spine) ++ [k] = part.2 :: (Spine.path spine ++ [k]) := rfl
    rw [path, plug, descend_cons deeper first, ih others, Option.map_map]
    rfl

/-- A header opens a new table within the innermost one. -/
theorem openTable_plug (fresh : spine.Fresh) (new : sub.lookup k = none) :
    openTable (spine.path ++ [k]) (plug spine sub) = some (plug (spine ++ [(sub, k)]) []) := by
  rw [openTable, descend_plug fresh, new, plug_append]
  rfl

/-- A line sets a new value in the innermost table. -/
theorem setUnder_plug (fresh : spine.Fresh) (new : sub.lookup k = none) :
    setUnder spine.path [k] j (plug spine sub) = some (plug spine (sub ++ [(k, .value j)])) := by
  have set : setValue j [k] sub = some (sub ++ [(k, .value j)]) := by
    rw [setValue, new]
  cases spine using List.reverseRecOn with
  | nil => exact set
  | append_singleton spine part =>
    obtain ⟨outer, last⟩ := List.forall_mem_append.1 fresh
    obtain ⟨before, name⟩ := part
    have fresh := List.forall_mem_singleton.1 last
    rw [setUnder, Spine.path_append, if_neg (by simp), plug_append, descend_plug outer]
    simp only [lookup_last fresh, set, put_last fresh, Option.bind_eq_bind, Option.bind_some,
      Option.pure_def, Option.map_some, plug_append]

end TangledGraph.Toml.Entries
