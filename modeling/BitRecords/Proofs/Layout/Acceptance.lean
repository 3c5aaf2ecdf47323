import Mathlib.Algebra.BigOperators.Ring.List
import Mathlib.Data.List.Find
import BitRecords.Proofs.Layout.Verdict

/-!
# What the packed and the aligned strategies accept

The packed strategy and the aligned ones round to multiples of a unit, a single bit or the
boundary. With them the size of a body can be told from its definition in unbounded
numbers: the sum of what is rounded in it, rounded again. When all sums are words, a
definition that was built is laid out unless its root may be absent or occur several times,
or a stride is greater than the limit. None of the other checks ever fails.
-/

namespace BitRecords

open Layout

/-- The strategies that round to multiples of a unit. -/
inductive BuiltIn where
  | packed
  | aligned (a : Alignment)

namespace BuiltIn

variable (b : BuiltIn)

def strategy : BuiltIn → Strategy
  | packed => .packed
  | aligned a => .aligned a

def rules (limit : UInt64) : LayoutRules := { strategy := b.strategy, maxStride := limit }

/-- The bits that slots and strides are multiples of. -/
def unit : BuiltIn → Nat
  | packed => 1
  | aligned a => a.bits.toNat

/-- The next multiple of the unit. -/
def round (n : Nat) : Nat := (n + (b.unit - 1)) / b.unit * b.unit

theorem unit_pos : 0 < b.unit := by
  cases b with
  | packed => decide
  | aligned a => cases a <;> decide

theorem unit_le : b.unit ≤ 64 := by
  cases b with
  | packed => decide
  | aligned a => cases a <;> decide

theorem dvd_round (n : Nat) : b.unit ∣ b.round n := Nat.dvd_mul_left _ _

theorem le_round (n : Nat) : n ≤ b.round n := by
  have pos := b.unit_pos
  have split := Nat.div_add_mod (n + (b.unit - 1)) b.unit
  have rest := Nat.mod_lt (n + (b.unit - 1)) pos
  rw [round, Nat.mul_comm]
  omega

theorem round_lt (n : Nat) : b.round n < n + b.unit := by
  have pos := b.unit_pos
  have bound := Nat.div_mul_le_self (n + (b.unit - 1)) b.unit
  rw [round]
  omega

theorem round_of_dvd {n : Nat} (multiple : b.unit ∣ n) : b.round n = n := by
  obtain ⟨k, rfl⟩ := multiple
  have pos := b.unit_pos
  rw [round, Nat.mul_add_div pos, Nat.div_eq_of_lt (by omega), Nat.add_zero, Nat.mul_comm]

theorem div_round (n : Nat) :
    (n + (b.unit - 1)) / b.unit = n / b.unit + if n % b.unit = 0 then 0 else 1 := by
  have pos := b.unit_pos
  have rest := Nat.mod_lt n pos
  conv_lhs => rw [← Nat.div_add_mod n b.unit, Nat.add_assoc, Nat.mul_add_div pos]
  congr 1
  split
  · next multiple => exact Nat.div_eq_of_lt (by omega)
  · next some => exact Nat.div_eq_of_lt_le (by omega) (by omega)

/-- The word arithmetic of an alignment is exact while its result is a word. -/
theorem toNat_roundUp (a : Alignment) (bits : UInt64)
    (word : (aligned a).round bits.toNat < UInt64.size) :
    (a.roundUp bits).toNat = (aligned a).round bits.toNat := by
  have pos : 0 < a.bits.toNat := (aligned a).unit_pos
  rw [round, div_round] at word ⊢
  change (bits.toNat / a.bits.toNat + if bits.toNat % a.bits.toNat = 0 then 0 else 1) *
    a.bits.toNat < UInt64.size at word
  have factor := Nat.le_mul_of_pos_right
    (bits.toNat / a.bits.toNat + if bits.toNat % a.bits.toNat = 0 then 0 else 1) pos
  have rest : bits % a.bits = 0 ↔ bits.toNat % a.bits.toNat = 0 := by
    rw [← UInt64.toNat_inj, UInt64.toNat_mod]
    rfl
  have count : (if bits % a.bits = 0 then 0 else 1 : UInt64).toNat =
      if bits.toNat % a.bits.toNat = 0 then 0 else 1 := by
    simp only [rest]
    split <;> rfl
  rw [Alignment.roundUp, UInt64.toNat_mul, UInt64.toNat_add, UInt64.toNat_div, count,
    Nat.mod_eq_of_lt (Nat.lt_of_le_of_lt factor word), Nat.mod_eq_of_lt word]
  rfl

theorem toNat_roundStride {n : Nat} (word : b.round n < UInt64.size) :
    (b.strategy.roundStride (UInt64.ofNat n)).toNat = b.round n := by
  have small : n < UInt64.size := Nat.lt_of_le_of_lt (b.le_round n) word
  have same := UInt64.toNat_ofNat_of_lt' small
  cases b with
  | packed =>
    rw [round_of_dvd _ (Nat.one_dvd n)]
    exact same
  | aligned a =>
    have exact := toNat_roundUp a (UInt64.ofNat n)
    rw [same] at exact
    exact exact word

theorem toNat_slotBits {width : Nat} (narrow : width ≤ 64) :
    (b.strategy.slotBits width).toNat = b.round width := by
  have same : b.strategy.slotBits width = b.strategy.roundStride (UInt64.ofNat width) := by
    cases b <;> rfl
  have near := b.round_lt width
  have bound := b.unit_le
  rw [same]
  exact b.toNat_roundStride
    (Nat.lt_trans near (Nat.lt_of_le_of_lt (Nat.add_le_add narrow bound) (by decide)))

/-- What the own fields of a struct take. The members of a union share a region as wide as
the widest of them. -/
def ownSum (fields : List Field) (union : Bool) : Nat :=
  if union then b.round (widest fields) + b.round (tagWidth fields.length)
  else (fields.map fun f => b.round f.type.width).sum

mutual

/-- The sum of what is rounded in a body. -/
def sum (b : BuiltIn) : Schema → Nat
  | { fields, children, flags, .. } => b.ownSum fields flags.union + b.childrenSum children

/-- What children take in the body around them: nothing for a list, a presence bit for an
optional struct, and the stride for a plain one. -/
def childrenSum (b : BuiltIn) : List Schema → Nat
  | [] => 0
  | child :: rest =>
    (if child.flags.list then 0
      else if child.flags.optional then b.round 1
      else b.round (b.sum child)) + b.childrenSum rest

end

/-- The stride of a body. -/
def stride (s : Schema) : Nat := b.round (b.sum s)

variable {b : BuiltIn} {s : Schema} {limit : UInt64}

theorem sum_eq (b : BuiltIn) (s : Schema) :
    b.sum s = b.ownSum s.fields s.flags.union + b.childrenSum s.children := by
  cases s
  rw [sum]

theorem dvd_ownSum (b : BuiltIn) (fields : List Field) (union : Bool) :
    b.unit ∣ b.ownSum fields union := by
  cases union with
  | true => exact Nat.dvd_add (b.dvd_round _) (b.dvd_round _)
  | false =>
    change b.unit ∣ (fields.map fun f => b.round f.type.width).sum
    refine List.dvd_sum fun n member => ?_
    obtain ⟨f, -, rfl⟩ := List.mem_map.mp member
    exact b.dvd_round _

theorem dvd_childrenSum (b : BuiltIn) (children : List Schema) :
    b.unit ∣ b.childrenSum children := by
  induction children with
  | nil => exact Nat.dvd_zero _
  | cons child rest ih =>
    rw [childrenSum]
    refine Nat.dvd_add ?_ ih
    split
    · exact Nat.dvd_zero _
    · split <;> exact b.dvd_round _

/-- Sums are multiples of the unit, so that a stride is no greater than the sum. -/
theorem stride_eq (b : BuiltIn) (s : Schema) : b.stride s = b.sum s := by
  refine b.round_of_dvd ?_
  rw [sum_eq]
  exact Nat.dvd_add (b.dvd_ownSum _ _) (b.dvd_childrenSum _)

/-- All sums are words. -/
def Words (b : BuiltIn) (s : Schema) : Prop := ∀ body ∈ s.bodies, b.sum body < UInt64.size

instance (b : BuiltIn) (s : Schema) : Decidable (b.Words s) :=
  inferInstanceAs (Decidable (∀ body ∈ s.bodies, b.sum body < UInt64.size))

theorem Words.child {child : Schema} (words : b.Words s) (member : child ∈ s.children) :
    b.Words child :=
  fun body below => words body (Schema.mem_bodies.mpr (.inr ⟨child, member, below⟩))

theorem Words.stride_lt (words : b.Words s) {body : Schema} (member : body ∈ s.bodies) :
    b.stride body < UInt64.size := by
  rw [stride_eq]
  exact words body member

theorem ownExtent_eq (placeable : s.Placeable) (union : Bool) :
    (b.rules limit).ownExtent s.fields union = b.ownSum s.fields union := by
  cases union with
  | true =>
    have region := b.toNat_slotBits (LayoutRules.widest_le placeable.narrow)
    have tag := b.toNat_slotBits (LayoutRules.tagWidth_le placeable.counted)
    exact congrArg₂ (· + ·) region tag
  | false =>
    exact congrArg List.sum (List.map_congr_left fun f member =>
      b.toNat_slotBits (placeable.narrow f member))

theorem childrenExtent_eq {children : List Schema}
    (each : ∀ child ∈ children, (b.rules limit).extent child = b.sum child)
    (words : ∀ child ∈ children, b.Words child) :
    (b.rules limit).childrenExtent children = b.childrenSum children := by
  induction children with
  | nil => rw [LayoutRules.childrenExtent, childrenSum]
  | cons child rest ih =>
    obtain ⟨first, others⟩ := List.forall_mem_cons.mp each
    obtain ⟨word, words⟩ := List.forall_mem_cons.mp words
    have bit : ((b.rules limit).strategy.slotBits 1).toNat = b.round 1 :=
      b.toNat_slotBits (by decide)
    have stride : ((b.rules limit).strategy.roundStride (UInt64.ofNat (b.sum child))).toNat =
        b.round (b.sum child) :=
      b.toNat_roundStride (word.stride_lt (Schema.mem_bodies.mpr (.inl rfl)))
    rw [LayoutRules.childrenExtent, childrenSum, ih others words, first, bit, stride]

/-- The extents of the bodies, as the strategy answers in words, are their sums. -/
theorem extent_eq (words : b.Words s) (placeable : ∀ body ∈ s.bodies, body.Placeable) :
    (b.rules limit).extent s = b.sum s := by
  induction s using Schema.children_induction with
  | step s each =>
    have own := placeable s (Schema.mem_bodies.mpr (.inl rfl))
    rw [LayoutRules.extent_eq, sum_eq, ownExtent_eq own, childrenExtent_eq]
    · exact fun child member => each child member (words.child member) fun body below =>
        placeable body (Schema.mem_bodies.mpr (.inr ⟨child, member, below⟩))
    · exact fun child member => words.child member

theorem extent_body (buildable : s.Buildable) (words : b.Words s) {body : Schema}
    (member : body ∈ s.bodies) : (b.rules limit).extent body = b.sum body :=
  extent_eq (fun inner below => words inner (Schema.mem_bodies_trans below member))
    fun inner below => buildable.placeable inner (Schema.mem_bodies_trans below member)

theorem toNat_bodyStride (buildable : s.Buildable) (words : b.Words s) {body : Schema}
    (member : body ∈ s.bodies) : ((b.rules limit).bodyStride body).toNat = b.stride body := by
  rw [LayoutRules.bodyStride, extent_body buildable words member]
  exact b.toNat_roundStride (words.stride_lt member)

/-- Neither slots nor unions nor shrinking strides are refused. -/
theorem unhindered (buildable : s.Buildable) (words : b.Words s) :
    (b.rules limit).Unhindered s where
  holds width narrow := by
    change width ≤ (b.strategy.slotBits width).toNat
    rw [b.toNat_slotBits narrow]
    exact b.le_round width
  fits body member := by
    rw [extent_body buildable words member, toNat_bodyStride buildable words member, stride]
    exact b.le_round _
  placeable := buildable.placeable

/-- When the strategy lays out a struct under a limit, and what it reports otherwise: the
flags of the root, or the first completed of the bodies whose stride is too great. -/
structure Accepts (b : BuiltIn) (limit : UInt64) (s : Schema) : Prop where
  ok_iff : (∃ l, (b.rules limit).layout s = .ok l) ↔
    s.flags.list = false ∧ s.flags.optional = false ∧
      ∀ body ∈ s.bodies, b.stride body ≤ limit.toNat
  flagged : s.flags.list = true ∨ s.flags.optional = true →
    (b.rules limit).layout s = .error (.schema s.name .flaggedRoot)
  excess : s.flags.list = false → s.flags.optional = false →
    ∀ e, (b.rules limit).layout s = .error e → ∃ shown body,
      (s.completed "").find? (fun x => decide (limit.toNat < b.stride x.2)) = some (shown, body) ∧
        body ∈ s.bodies ∧ limit.toNat < b.stride body ∧
        e = .compilation shown (.strideOverLimit (UInt64.ofNat (b.stride body)) limit)

theorem bodyStride_eq (buildable : s.Buildable) (words : b.Words s) {body : Schema}
    (member : body ∈ s.bodies) :
    (b.rules limit).bodyStride body = UInt64.ofNat (b.stride body) := by
  rw [← toNat_bodyStride buildable words member, UInt64.ofNat_toNat]

theorem bodyStride_le_iff (buildable : s.Buildable) (words : b.Words s) {body : Schema}
    (member : body ∈ s.bodies) :
    (b.rules limit).bodyStride body ≤ (b.rules limit).maxStride ↔
      b.stride body ≤ limit.toNat := by
  rw [UInt64.le_iff_toNat_le, toNat_bodyStride buildable words member]
  rfl

theorem exceeds_eq (buildable : s.Buildable) (words : b.Words s) {body : Schema}
    (member : body ∈ s.bodies) :
    (b.rules limit).exceeds body = decide (limit.toNat < b.stride body) := by
  rw [LayoutRules.exceeds, decide_eq_decide, UInt64.lt_iff_toNat_lt,
    toNat_bodyStride buildable words member]
  rfl

theorem mem_of_completed {x : String × Schema} (member : x ∈ s.completed "") : x.2 ∈ s.bodies :=
  Schema.mem_completed.mp ⟨x.1, member⟩

/-- An error names the first completed body whose stride is too great, and tells the stride. -/
theorem excess_of_verdict (buildable : s.Buildable) (words : b.Words s) {e : Error}
    (verdict : (b.rules limit).Verdict (s.completed "") (.error e : Except Error Layout)) :
    ∃ shown body,
      (s.completed "").find? (fun x => decide (limit.toNat < b.stride x.2)) = some (shown, body) ∧
        body ∈ s.bodies ∧ limit.toNat < b.stride body ∧
        e = .compilation shown (.strideOverLimit (UInt64.ofNat (b.stride body)) limit) := by
  have same : (s.completed "").find? ((b.rules limit).exceeds ·.2) =
      (s.completed "").find? fun x => decide (limit.toNat < b.stride x.2) :=
    List.find?_congr fun x listed => exceeds_eq buildable words (mem_of_completed listed)
  cases verdict with
  | @error shown body found =>
    have member : body ∈ s.bodies := mem_of_completed (List.mem_of_find?_eq_some found)
    rw [same] at found
    have greater : limit.toNat < b.stride body := by simpa using List.find?_some found
    refine ⟨shown, body, found, member, greater, ?_⟩
    rw [bodyStride_eq buildable words member]
    rfl

/-- The packed and the aligned strategies lay out what was built unless the root is flagged
or a stride is greater than the limit. -/
theorem layout_accepts (buildable : s.Buildable) (words : b.Words s) : b.Accepts limit s := by
  have judged (checked : s.checkRoot = .ok ()) :
      (b.rules limit).Verdict (s.completed "") ((b.rules limit).layout s) :=
    LayoutRules.verdict_layout (unhindered buildable words) checked
  refine ⟨⟨?_, ?_⟩, ?_, ?_⟩
  · rintro ⟨l, ok⟩
    have checked := (LayoutRules.layout_eq_ok.mp ok).1
    have bounded := (judged checked).ok_iff.mp ⟨l, ok⟩
    obtain ⟨list, optional⟩ := LayoutRules.checkRoot_eq_ok.mp checked
    refine ⟨list, optional, fun body member => ?_⟩
    obtain ⟨shown, listed⟩ := Schema.mem_completed.mpr member
    exact (bodyStride_le_iff buildable words member).mp (bounded (shown, body) listed)
  · rintro ⟨list, optional, bounded⟩
    refine (judged (LayoutRules.checkRoot_eq_ok.mpr ⟨list, optional⟩)).ok_iff.mpr fun x listed => ?_
    have member := mem_of_completed listed
    exact (bodyStride_le_iff buildable words member).mpr (bounded x.2 member)
  · intro flags
    rw [LayoutRules.layout, Schema.checkRoot, if_pos (Bool.or_eq_true_iff.mpr flags)]
    rfl
  · intro list optional e failed
    have verdict := judged (LayoutRules.checkRoot_eq_ok.mpr ⟨list, optional⟩)
    rw [failed] at verdict
    exact excess_of_verdict buildable words verdict

/-- An order and its price both have strides of 72 bits. A limit one bit below refuses the
price, which is completed first and takes only a presence bit in the order. -/
theorem layout_accepts_order :
    LayoutRules.order.Buildable ∧ (aligned .bits8).Words LayoutRules.order ∧
      (LayoutRules.order.completed "").map (fun x => (x.1, (aligned .bits8).stride x.2)) =
        [("address", 24), ("price", 72), ("lines", 16), ("order", 72)] ∧
      (aligned .bits8).Accepts 72 LayoutRules.order ∧
      (∃ l, ((aligned .bits8).rules 72).layout LayoutRules.order = .ok l) ∧
      (aligned .bits8).Accepts 71 LayoutRules.order ∧
      ((aligned .bits8).rules 71).layout LayoutRules.order =
        .error (.compilation "price" (.strideOverLimit 72 71)) := by
  have words : (aligned .bits8).Words LayoutRules.order := by decide
  have accepts (limit : UInt64) : (aligned .bits8).Accepts limit LayoutRules.order :=
    layout_accepts LayoutRules.order_buildable words
  exact ⟨LayoutRules.order_buildable, words, by decide, accepts 72,
    (accepts 72).ok_iff.mpr ⟨rfl, rfl, by decide⟩, accepts 71, rfl⟩

end BuiltIn

end BitRecords
