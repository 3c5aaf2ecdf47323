import Mathlib.Data.List.Forall2
import BitRecords.Storage

/-!
# Storages side by side

A relation between tables holds of two storages when it holds of their tables and when
they have lists under the same cells, of which it holds as well.
-/

namespace BitRecords.Storage

/-- The storages have lists under the same cells, and their tables are related, all
the way down. -/
inductive Throughout₂ (R : Table → Table → Prop) : Storage → Storage → Prop where
  | intro {s s' : Storage} : R s.table s'.table → s.lists.map (·.1) = s'.lists.map (·.1) →
      (∀ a b, (a, b) ∈ s.lists.zip s'.lists → Throughout₂ R a.2 b.2) → Throughout₂ R s s'

variable {R R' : Table → Table → Prop} {s s' : Storage}

/-- Related storages under the same cell. -/
def Entries (R : Table → Table → Prop) (a b : Cell × Storage) : Prop :=
  a.1 = b.1 ∧ a.2.Throughout₂ R b.2

theorem throughout₂_iff : s.Throughout₂ R s' ↔ R s.table s'.table ∧
    List.Forall₂ (Entries R) s.lists s'.lists := by
  constructor
  · rintro ⟨table, cells, each⟩
    have count : s.lists.length = s'.lists.length := by
      simpa using congrArg List.length cells
    refine ⟨table, List.forall₂_iff_zip.mpr ⟨count, fun {a b} member => ⟨?_, each a b member⟩⟩⟩
    obtain ⟨i, found⟩ := List.mem_iff_getElem?.mp member
    obtain ⟨here, there⟩ := List.getElem?_zip_eq_some.mp found
    have same := congrArg (·[i]?) cells
    simpa [here, there] using same
  · rintro ⟨table, lists⟩
    refine .intro table ?_ fun a b member => ((List.forall₂_iff_zip.mp lists).2 member).2
    generalize s.lists = xs at lists
    generalize s'.lists = ys at lists
    induction lists with
    | nil => rfl
    | cons first _ ih => rw [List.map_cons, List.map_cons, first.1, ih]

namespace Throughout₂

theorem mono (all : s.Throughout₂ R s') (more : ∀ t t', R t t' → R' t t') :
    s.Throughout₂ R' s' := by
  induction all with
  | intro tables cells _ ih => exact .intro (more _ _ tables) cells ih

variable (all : s.Throughout₂ R s')
include all

theorem table : R s.table s'.table := (throughout₂_iff.mp all).1

theorem lists : List.Forall₂ (Entries R) s.lists s'.lists := (throughout₂_iff.mp all).2

theorem withTable {t t' : Table} (tables : R t t') :
    Throughout₂ R { s with table := t } { s' with table := t' } :=
  throughout₂_iff.mpr ⟨tables, all.lists⟩

/-- Lists under the same cell are related. -/
theorem list? (cell : Cell) : Option.Rel (Throughout₂ R) (s.list? cell) (s'.list? cell) := by
  have lists := all.lists
  unfold Storage.list?
  generalize s.lists = xs at lists
  generalize s'.lists = ys at lists
  induction lists with
  | nil => exact .none
  | @cons a b _ _ first _ ih =>
    rw [List.lookup_cons, List.lookup_cons, first.1]
    cases cell == b.1 with
    | true => exact .some first.2
    | false => exact ih

theorem setList (cell : Cell) {list list' : Storage} (inner : list.Throughout₂ R list') :
    (s.setList cell list).Throughout₂ R (s'.setList cell list') := by
  refine throughout₂_iff.mpr ⟨all.table, ?_⟩
  have lists := all.lists
  unfold Storage.setList
  dsimp only
  generalize s.lists = xs at lists
  generalize s'.lists = ys at lists
  induction lists with
  | nil => exact .cons ⟨rfl, inner⟩ .nil
  | @cons a b _ _ first rest ih =>
    rw [insertList, insertList, first.1]
    cases compare cell b.1 with
    | lt => exact .cons ⟨rfl, inner⟩ (.cons first rest)
    | eq => exact .cons ⟨rfl, inner⟩ rest
    | gt => exact .cons first ih

end Throughout₂

end BitRecords.Storage
