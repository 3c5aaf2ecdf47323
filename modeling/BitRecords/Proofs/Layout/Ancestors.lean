import BitRecords.Proofs.Layout.Uses

/-!
# Optional structs above a struct

The chain of a struct is found again by a walk from the struct up to the root: it
is the optional structs on the way, outermost first. The innermost one has the segment
that the struct lies in, so whatever lies in the segment of an optional struct has it in
its chain.
-/

namespace BitRecords.Layout

/-- Whether the struct may be absent. -/
def isOptional (l : Layout) (id : StructId) : Bool :=
  (l.struct? id).any fun s => s.flags.optional && !s.isList

/-- The optional structs around a struct and the struct itself if it is optional,
outermost first. -/
def optionalsAbove (l : Layout) (id : StructId) : List StructId :=
  ((l.ancestors id).filter l.isOptional).reverse

variable {l : Layout} {id : StructId} {s : StructLayout}

theorem ancestors_root (found : l.struct? id = some s) (top : s.parent = none) :
    l.ancestors id = [id] := by
  rw [ancestors, found]
  dsimp only
  rw [top]

theorem ancestors_child (found : l.struct? id = some s) {parent : StructId}
    (below : s.parent = some parent) (later : parent < id) :
    l.ancestors id = id :: l.ancestors parent := by
  rw [ancestors, found]
  dsimp only
  rw [below]
  exact if_pos later

theorem optionalsAbove_child (found : l.struct? id = some s) {parent : StructId}
    (below : s.parent = some parent) (later : parent < id) :
    l.optionalsAbove id =
      l.optionalsAbove parent ++ if s.flags.optional && !s.isList then [id] else [] := by
  have optional : l.isOptional id = (s.flags.optional && !s.isList) := by
    rw [isOptional, found, Option.any_some]
  rw [optionalsAbove, optionalsAbove, ancestors_child found below later, List.filter_cons, optional]
  split <;> simp

theorem mem_optionalsAbove {o : StructId} :
    o ∈ l.optionalsAbove id ↔ o ∈ l.ancestors id ∧ l.isOptional o = true := by
  rw [optionalsAbove, List.mem_reverse, List.mem_filter]

/-- The chain of a struct lists the optional structs above it. -/
theorem Sound.chain_eq (sound : l.Sound) (found : l.struct? id = some s) :
    s.chain = l.optionalsAbove id := by
  induction id using Nat.strong_induction_on generalizing s with
  | _ id ih =>
    have number := sound.struct?_id found
    rcases sound.root_or_nested found with ⟨-, rest, hasRoot⟩ | ⟨p, inside, later, -, nests⟩
    · rw [hasRoot.chain, optionalsAbove, ancestors_root found hasRoot.parent]
      simp [isOptional, found, hasRoot.notOptional]
    · have above := ih p.id later inside
      rw [optionalsAbove_child found nests.parent later]
      change s.chain = l.optionalsAbove p.id ++ _
      rw [← above]
      cases nests.fits with
      | list element _ _ _ _ _ chain =>
        simp [chain, StructLayout.isList, element, StructLayout.body]
      | optional single _ isOptional _ _ _ _ _ _ chain =>
        simp [chain, isOptional, StructLayout.isList, single, StructLayout.body, number]
      | plain _ _ notOptional _ _ _ _ chain => simp [chain, notOptional, StructLayout.body]

theorem Sound.chainOf_eq (sound : l.Sound) (id : StructId) :
    ((l.struct? id).map (·.chain)).getD [] = l.optionalsAbove id := by
  cases found : l.struct? id with
  | some s => exact sound.chain_eq found
  | none => simp [optionalsAbove, ancestors, found]

theorem mem_ancestors_self (found : l.struct? id = some s) : id ∈ l.ancestors id := by
  rw [ancestors, found]
  dsimp only
  split
  · exact List.mem_singleton_self id
  · split
    · exact List.mem_cons_self
    · exact List.mem_singleton_self id

/-- What is around a struct is around all structs in it. -/
theorem ancestors_trans {a b c : StructId} (inner : a ∈ l.ancestors b) (outer : c ∈ l.ancestors a) :
    c ∈ l.ancestors b := by
  induction b using Nat.strong_induction_on with
  | _ b ih =>
    rw [ancestors] at inner
    split at inner
    · cases inner
    · next s found =>
      split at inner
      · obtain rfl := List.mem_singleton.mp inner
        exact outer
      · next parent below =>
        split at inner
        · next later =>
          rcases List.mem_cons.mp inner with rfl | above
          · exact outer
          · rw [ancestors_child found below later]
            exact List.mem_cons_of_mem _ (ih parent later above)
        · obtain rfl := List.mem_singleton.mp inner
          exact outer

namespace Sound

variable {o : StructId} {x : StructLayout} {slot : Slot}

theorem chain_trans (sound : l.Sound) (found : l.struct? id = some s)
    (inner : l.struct? o = some x) (member : o ∈ s.chain) : ∀ c ∈ x.chain, c ∈ s.chain := by
  rw [sound.chain_eq found, mem_optionalsAbove] at member
  intro c outer
  rw [sound.chain_eq inner, mem_optionalsAbove] at outer
  rw [sound.chain_eq found, mem_optionalsAbove]
  exact ⟨ancestors_trans member.1 outer.1, outer.2⟩

/-- A struct with a presence bit has it in its parent and has a segment of its own. -/
theorem optional (sound : l.Sound) (found : l.struct? id = some s)
    (presence : s.presence = some slot) :
    ∃ p, l.struct? p.id = some p ∧ p.id < id ∧ p.element = none ∧ slot.segment = p.segment ∧
      s.element = none ∧ s.chain = p.chain ++ [id] ∧
      l.segments[s.segment]? = some ⟨id, s.stride⟩ := by
  rcases sound.root_or_nested found with ⟨-, rest, hasRoot⟩ | ⟨p, inside, later, single, nests⟩
  · cases hasRoot.presence.symm.trans presence
  have number := sound.struct?_id found
  cases nests.fits with
  | list _ _ none => cases none.symm.trans presence
  | plain _ _ _ none => cases none.symm.trans presence
  | optional own _ _ is _ _ _ segment _ chain =>
    cases is.symm.trans presence
    rw [number] at chain segment
    exact ⟨p, inside, later, single, rfl, own, chain, segment⟩

/-- What lies in the segment of an optional struct has the struct in its chain. -/
theorem mem_chain_of_segment (sound : l.Sound) (inner : l.struct? o = some x)
    (presence : x.presence = some slot) (found : l.struct? id = some s) (single : s.element = none)
    (segment : s.segment = x.segment) : o ∈ s.chain := by
  obtain ⟨p, -, below, -, -, -, -, own⟩ := sound.optional inner presence
  induction id using Nat.strong_induction_on generalizing s with
  | _ id ih =>
    rcases sound.root_or_nested found with ⟨-, rest, hasRoot⟩ | ⟨q, inside, later, notList, nests⟩
    · rw [← segment, hasRoot.segment, hasRoot.row] at own
      have first : 0 = o := congrArg Segment.owner (Option.some.inj own)
      exact absurd (first ▸ below) (Nat.not_lt_zero _)
    · cases nests.fits with
      | list element => cases single.symm.trans element
      | optional _ _ _ _ _ _ _ own' _ chain =>
        rw [segment, own] at own'
        have same : o = s.id := congrArg Segment.owner (Option.some.inj own')
        rw [chain, same]
        exact List.mem_append_right _ (List.mem_singleton_self _)
      | plain _ _ _ _ same _ _ chain =>
        rw [chain]
        exact ih q.id later inside notList (same.symm.trans segment)

/-- The innermost optional struct around a struct has the segment that the struct lies in. -/
theorem innermost (sound : l.Sound) (found : l.struct? id = some s) (single : s.element = none)
    (some : s.chain ≠ []) :
    ∃ i x slot, l.struct? i = .some x ∧ x.presence = .some slot ∧ x.segment = s.segment ∧
      x.chain = s.chain := by
  induction id using Nat.strong_induction_on generalizing s with
  | _ id ih =>
    rcases sound.root_or_nested found with ⟨-, rest, hasRoot⟩ | ⟨q, inside, later, notList, nests⟩
    · exact absurd hasRoot.chain some
    · cases nests.fits with
      | list element => cases single.symm.trans element
      | optional _ _ _ is => exact ⟨id, s, _, found, is, rfl, rfl⟩
      | plain _ _ _ _ segment _ _ chain =>
        change s.segment = q.segment at segment
        change s.chain = q.chain at chain
        rw [segment, chain]
        exact ih q.id later inside notList (chain ▸ some)

/-- An optional struct has a presence bit. -/
theorem presence_of_isOptional (sound : l.Sound) (optional : l.isOptional id = true) :
    ∃ x slot, l.struct? id = some x ∧ x.presence = some slot := by
  obtain ⟨x, found, -⟩ := (Option.any_eq_true _ _).mp optional
  have self : id ∈ x.chain := by
    rw [sound.chain_eq found, mem_optionalsAbove]
    exact ⟨mem_ancestors_self found, optional⟩
  obtain ⟨-, slot, presence⟩ := sound.chain found id self
  obtain ⟨y, struct, presence⟩ := presence?_eq_some.mp presence
  exact ⟨y, slot, struct, presence⟩

/-- A union is no list. -/
theorem single_of_union (sound : l.Sound) (found : l.struct? id = some s) {u : UnionRegion}
    (union : s.union = some u) : s.element = none := by
  rcases sound.root_or_nested found with ⟨-, rest, hasRoot⟩ | ⟨p, -, -, -, nests⟩
  · exact hasRoot.single
  · cases nests.fits with
    | list _ _ _ none => cases none.symm.trans union
    | optional single => exact single
    | plain single => exact single

end Sound

end BitRecords.Layout
