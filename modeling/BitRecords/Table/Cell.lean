import Std.Data.TreeMap

/-!
# Cells

A cell is a field or struct in a row: the id that names it and the row number.
Cells are ordered by id and then by row.
-/

namespace BitRecords

structure Cell where
  id : Nat
  row : UInt64
deriving DecidableEq, Inhabited

namespace Cell

instance : Ord Cell where
  compare := compareLex (compareOn Cell.id) (compareOn Cell.row)

instance : Std.TransOrd Cell :=
  inferInstanceAs (Std.TransCmp (compareLex (compareOn Cell.id) (compareOn Cell.row)))

instance : Std.LawfulEqOrd Cell where
  eq_of_compare {a b} h := by
    have h : (compare a.id b.id).then (compare a.row b.row) = .eq := h
    rw [Ordering.then_eq_eq, Std.LawfulEqOrd.compare_eq_iff_eq,
      Std.LawfulEqOrd.compare_eq_iff_eq] at h
    cases a
    cases b
    simp_all

/-- Searches entries in the order of their cells, halving them until the first one of
the second half has the cell. -/
def search {α : Type} (cell : Cell) (entries : List (Cell × α)) : Option α :=
  match _half : entries.drop (entries.length / 2) with
  | [] => none
  | entry :: later =>
    match compare cell entry.1 with
    | .lt => cell.search (entries.take (entries.length / 2))
    | .eq => some entry.2
    | .gt => cell.search later
termination_by entries.length
decreasing_by
  · have lengths := congrArg List.length _half
    simp only [List.length_drop, List.length_cons] at lengths
    rw [List.length_take]
    omega
  · have lengths := congrArg List.length _half
    simp only [List.length_drop, List.length_cons] at lengths
    omega

end Cell

end BitRecords
