import BitRecords.Proofs.Layout.Compiled

/-!
# Names along paths

A path is read as the list of the names on it. Names of built schemas are not empty
and hold no dot, so this takes a joined path apart again. What a child takes of a
layout lies below the path of that child, and children of one struct have different
names, so paths tell what belongs to which child.
-/

namespace BitRecords

open Layout

/-- The names along a path. The path of the root has none. -/
def pathNames (path : String) : List (List Char) :=
  if path.isEmpty then [] else path.toList.splitOn '.'

theorem pathNames_joinPath {name : String} (plain : PlainName name) (parent : String) :
    pathNames (joinPath parent name) = pathNames parent ++ [name.toList] := by
  have single := List.splitOn_eq_singleton plain.dotless
  unfold joinPath
  by_cases root : parent.isEmpty
  · rw [if_pos root, pathNames, pathNames, if_pos root, plain.nonempty, if_neg (by decide), single,
      List.nil_append]
  · have longer : (parent ++ "." ++ name).isEmpty = false := by
      simp
    rw [if_neg root, pathNames, longer, if_neg (by decide), pathNames, if_neg root,
      String.toList_append, String.toList_append, List.append_assoc]
    change (parent.toList ++ '.' :: name.toList).splitOn '.' = _
    rw [List.splitOn_append_cons_self, single]

theorem length_pathNames_le {path : String} (dotless : '.' ∉ path.toList) :
    (pathNames path).length ≤ 1 := by
  unfold pathNames
  split
  · exact Nat.zero_le _
  · rw [List.splitOn_eq_singleton dotless]
    exact Nat.le_refl _

theorem intercalate_pathNames (path : String) :
    ".".intercalate ((pathNames path).map String.ofList) = path := by
  refine String.toList_inj.mp ?_
  rw [String.toList_intercalate, List.map_map]
  have same : String.toList ∘ String.ofList = id := funext fun _ => String.toList_ofList
  rw [same, List.map_id]
  unfold pathNames
  split
  · next empty =>
    rw [String.isEmpty_iff.mp empty]
    rfl
  · exact List.intercalate_splitOn '.'

namespace Schema

/-- What holds of a struct when it holds of its children holds of all schemas. -/
theorem children_induction {P : Schema → Prop} (step : ∀ s, (∀ child ∈ s.children, P child) → P s)
    (s : Schema) : P s :=
  @Schema.rec P (fun children => ∀ child ∈ children, P child)
    (fun name fields children flags ih => step ⟨name, fields, children, flags⟩ ih)
    (fun _ member => nomatch member)
    (fun _ _ first others => List.forall_mem_cons.mpr ⟨first, others⟩) s

/-- The structs below a struct below another one are below that one. -/
theorem mem_bodies_trans {s t u : Schema} (inner : s ∈ t.bodies) (outer : t ∈ u.bodies) :
    s ∈ u.bodies := by
  induction u using children_induction with
  | step u each =>
    rcases mem_bodies.mp outer with rfl | ⟨child, inside, below⟩
    · exact inner
    · exact mem_bodies.mpr (.inr ⟨child, inside, each child inside below⟩)

/-- The struct's own fields and children have plain names, and the children
different ones. -/
structure Named (s : Schema) : Prop where
  fields : ∀ f ∈ s.fields, PlainName f.name
  children : ∀ child ∈ s.children, PlainName child.name
  distinct : (s.children.map (·.name)).Nodup

theorem Buildable.named {s : Schema} (buildable : s.Buildable) : ∀ body ∈ s.bodies, body.Named := by
  intro body member
  obtain ⟨regular, below⟩ := wellFormed_iff.mp (buildable.wellFormed.bodies body member)
  obtain ⟨-, distinct, -⟩ := List.nodup_append'.mp regular.distinct
  exact ⟨fun f inside => (regular.fields f inside).1,
    fun child inside => (wellFormed_iff.mp (below child inside)).1.name, distinct⟩

end Schema

end BitRecords
