import MiniC.Proofs.Layouts
import Mathlib.Order.Bounds.Basic

/-!
# The layout of structs, in words and in numbers

Layouts are computed in 32-bit words, and only some of the sums are checked. `Planned` says what a
layout is in numbers without a bound: a member stands at the least multiple of its alignment that is
not below the end of the member before it. The words follow it (`Layout.compute_planned`): there is a
layout exactly if the plan is no larger than the largest object, and it is then the plan.

`Checked` has the same computations with a check of every operation on words. They come to the same
results, so nothing is ever out of range on the way.
-/

namespace MiniC

open List

/-! ## Rounding up -/

def IsNext (align n k : Nat) : Prop := IsLeast {k | n ≤ k ∧ align ∣ k} k

theorem isNext_roundUp {align : Nat} (pos : 1 ≤ align) (n : Nat) : IsNext align n (roundUp n align) := by
  refine ⟨⟨le_roundUp pos, Nat.dvd_mul_left _ _⟩, ?_⟩
  rintro _ ⟨le, q, rfl⟩
  rw [roundUp, Nat.mul_comm align]
  refine Nat.mul_le_mul_right align (Nat.le_of_lt_succ ((Nat.div_lt_iff_lt_mul pos).mpr ?_))
  rw [Nat.succ_mul, Nat.mul_comm q]
  omega

theorem IsNext.unique {align n k k' : Nat} (h : IsNext align n k) (h' : IsNext align n k') : k = k' :=
  IsLeast.unique h h'

/-- An operation on words without a result: one that is out of range, or a division by zero. -/
structure Fault

namespace Checked

def add (a b : UInt32) : Except Fault UInt32 :=
  if a.toNat + b.toNat < 2 ^ 32 then .ok (a + b) else .error ⟨⟩

def sub (a b : UInt32) : Except Fault UInt32 :=
  if b.toNat ≤ a.toNat then .ok (a - b) else .error ⟨⟩

def mul (a b : UInt32) : Except Fault UInt32 :=
  if a.toNat * b.toNat < 2 ^ 32 then .ok (a * b) else .error ⟨⟩

def div (a b : UInt32) : Except Fault UInt32 := if b.toNat ≠ 0 then .ok (a / b) else .error ⟨⟩

def alignTo (n align : UInt32) : Except Fault UInt32 := do
  let sum ← add n align
  let last ← sub sum 1
  let quotient ← div last align
  mul quotient align

theorem alignTo_eq {n align : UInt32} (small : n.toNat ≤ maxObjectSize.toNat)
    (pos : 1 ≤ align.toNat) (le : align.toNat ≤ 16) :
    alignTo n align = .ok (MiniC.alignTo n align) := by
  have bound : maxObjectSize.toNat = 2147483647 := rfl
  have sum : (n + align).toNat = n.toNat + align.toNat := by
    rw [UInt32.toNat_add]
    omega
  have last : (n + align - 1).toNat = n.toNat + align.toNat - 1 := by
    rw [UInt32.toNat_sub_of_le, sum, UInt32.toNat_one]
    rw [UInt32.le_iff_toNat_le, sum, UInt32.toNat_one]
    omega
  have product := Nat.div_mul_le_self (n.toNat + align.toNat - 1) align.toNat
  have added : add n align = .ok (n + align) := if_pos (by omega)
  have subtracted : sub (n + align) 1 = .ok (n + align - 1) := if_pos (by rw [sum, UInt32.toNat_one]; omega)
  have divided : div (n + align - 1) align = .ok ((n + align - 1) / align) := if_pos (by omega)
  have multiplied : mul ((n + align - 1) / align) align = .ok ((n + align - 1) / align * align) :=
    if_pos (by rw [UInt32.toNat_div, last]; omega)
  simp only [alignTo, added, subtracted, divided, bind, Except.bind]
  exact multiplied

end Checked

namespace Layout

/-! ## Plans -/

/-- A layout in numbers: the names and types of the members with their offsets, and the size and the
alignment of the whole. -/
structure Plan where
  fields : List (String × CType × Nat)
  size : Nat
  align : Nat

def plan (layout : Layout) : Plan where
  fields := layout.fields.map fun field => (field.name, field.ty, field.offset.toNat)
  size := layout.size.toNat
  align := layout.align.toNat

/-- Members in order from `stop` on: each at the least multiple of its alignment that is not below the
end of the one before. The last one ends at `last`. -/
inductive Places (σ : Structs) :
    Nat → List (String × CType) → List (String × CType × Nat) → Nat → Prop
  | nil (stop : Nat) : Places σ stop [] [] stop
  | cons {stop start last : Nat} {name : String} {ty : CType} {members : List (String × CType)}
    {fields : List (String × CType × Nat)} : IsNext (σ.align ty).toNat stop start →
    Places σ (start + (σ.size ty).toNat) members fields last →
    Places σ stop ((name, ty) :: members) ((name, ty, start) :: fields) last

def greatest (σ : Structs) : List (String × CType) → Nat
  | [] => 1
  | member :: members => max (σ.align member.2).toNat (greatest σ members)

/-- The layout of members in numbers without a bound. -/
structure Planned (σ : Structs) (members : List (String × CType)) (plan : Plan) : Prop where
  align : plan.align = greatest σ members
  places : ∃ last, Places σ 0 members plan.fields last ∧ IsNext plan.align last plan.size

/-- Members stand at multiples of their alignments, one after the other, inside the whole. -/
structure Orderly (σ : Structs) (layout : Layout) : Prop where
  aligned : ∀ field ∈ layout.fields, (σ.align field.ty).toNat ∣ field.offset.toNat
  apart : layout.fields.Pairwise fun a b => a.offset.toNat + (σ.size a.ty).toNat ≤ b.offset.toNat
  inside : ∀ field ∈ layout.fields, field.offset.toNat + (σ.size field.ty).toNat ≤ layout.size.toNat

variable {σ : Structs} {members : List (String × CType)}

def Small (σ : Structs) (members : List (String × CType)) : Prop :=
  ∀ member ∈ members, 1 ≤ (σ.align member.2).toNat ∧ (σ.align member.2).toNat ≤ 8

theorem greatest_bounds (small : Small σ members) :
    1 ≤ greatest σ members ∧ greatest σ members ≤ 8 := by
  induction members with
  | nil => exact ⟨Nat.le_refl 1, Nat.le_of_ble_eq_true rfl⟩
  | cons member members ih =>
    obtain ⟨here, small⟩ := forall_mem_cons.mp small
    have := ih small
    rw [greatest]
    omega

theorem Places.unique {stop last last' : Nat} {fields fields' : List (String × CType × Nat)}
    (h : Places σ stop members fields last) (h' : Places σ stop members fields' last') :
    fields = fields' ∧ last = last' := by
  induction h generalizing fields' last' with
  | nil =>
    cases h'
    exact ⟨rfl, rfl⟩
  | cons next _ ih =>
    cases h' with
    | cons next' rest' =>
      cases next.unique next'
      obtain ⟨rfl, rfl⟩ := ih rest'
      exact ⟨rfl, rfl⟩

theorem Planned.unique {plan plan' : Plan} (h : Planned σ members plan)
    (h' : Planned σ members plan') : plan = plan' := by
  obtain ⟨fields, size, align⟩ := plan
  obtain ⟨fields', size', align'⟩ := plan'
  obtain ⟨rfl, last, places, next⟩ := h
  obtain ⟨rfl, last', places', next'⟩ := h'
  obtain ⟨rfl, rfl⟩ := places.unique places'
  cases next.unique next'
  rfl

theorem Places.orderly {stop last : Nat} {fields : List (String × CType × Nat)}
    (h : Places σ stop members fields last) : stop ≤ last ∧
    (∀ field ∈ fields, (σ.align field.2.1).toNat ∣ field.2.2 ∧ stop ≤ field.2.2 ∧
      field.2.2 + (σ.size field.2.1).toNat ≤ last) ∧
    fields.Pairwise fun a b => a.2.2 + (σ.size a.2.1).toNat ≤ b.2.2 := by
  induction h with
  | nil => exact ⟨Nat.le_refl _, forall_mem_nil _, .nil⟩
  | cons next _ ih =>
    obtain ⟨le, each, apart⟩ := ih
    obtain ⟨above, multiple⟩ := next.1
    refine ⟨by omega, forall_mem_cons.mpr ⟨⟨multiple, above, le⟩, fun field mem => ?_⟩,
      .cons (fun field mem => (each field mem).2.1) apart⟩
    obtain ⟨multiple, after, before⟩ := each field mem
    exact ⟨multiple, by omega, before⟩

/-! ## Words follow the plan -/

theorem addSize_eq {a b : UInt32} (le : a.toNat + b.toNat ≤ maxObjectSize.toNat) :
    addSize a b = some (a + b) ∧ (a + b).toNat = a.toNat + b.toNat := by
  have bound : maxObjectSize.toNat = 2147483647 := rfl
  refine ⟨if_pos le, ?_⟩
  rw [UInt32.toNat_add]
  omega

theorem exists_places (small : Small σ members) :
    ∀ stop, ∃ fields last, Places σ stop members fields last := by
  induction members with
  | nil => exact fun stop => ⟨[], stop, .nil stop⟩
  | cons member members ih =>
    intro stop
    obtain ⟨⟨least, -⟩, small⟩ := forall_mem_cons.mp small
    obtain ⟨fields, last, places⟩ := ih small (roundUp stop (σ.align member.2).toNat +
      (σ.size member.2).toNat)
    exact ⟨_, last, .cons (isNext_roundUp least stop) places⟩

theorem Places.place (small : Small σ members) : ∀ {offset : UInt32} {last : Nat}
    {fields : List (String × CType × Nat)}, Places σ offset.toNat members fields last →
    offset.toNat ≤ maxObjectSize.toNat → ∀ align : UInt32, 1 ≤ align.toNat →
    (maxObjectSize.toNat < last → Layout.place σ offset align members = none) ∧
    (last ≤ maxObjectSize.toNat → ∃ placed stop strictest,
      Layout.place σ offset align members = some (placed, stop, strictest) ∧
      placed.map (fun field => (field.name, field.ty, field.offset.toNat)) = fields ∧
      stop.toNat = last ∧ strictest.toNat = max align.toNat (greatest σ members)) := by
  induction members with
  | nil =>
    intro offset last fields places within align pos
    cases places
    refine ⟨fun beyond => absurd within (Nat.not_le.mpr beyond), fun _ => ?_⟩
    exact ⟨[], offset, align, rfl, rfl, rfl, (Nat.max_eq_left pos).symm⟩
  | cons member members ih =>
    intro offset last fields places within align pos
    obtain ⟨⟨least, most⟩, others⟩ := forall_mem_cons.mp small
    cases places with
    | @cons _ start _ name ty _ fields next places =>
      have exact : start = (alignTo offset (σ.align ty)).toNat := by
        rw [toNat_alignTo within least (Nat.le_trans most (by decide))]
        exact next.unique (isNext_roundUp least offset.toNat)
      subst exact
      simp only [Layout.place, Option.bind_eq_bind, Option.pure_def]
      by_cases fits : (alignTo offset (σ.align ty)).toNat + (σ.size ty).toNat ≤ maxObjectSize.toNat
      · obtain ⟨added, sum⟩ := addSize_eq fits
        rw [← sum] at places fits
        obtain ⟨none, some⟩ := ih others places fits (max align (σ.align ty))
          (by rw [toNat_max]; omega)
        rw [added, Option.bind_some]
        refine ⟨fun beyond => by rw [none beyond, Option.bind_none], fun inside => ?_⟩
        obtain ⟨placed, stop, strictest, found, rfl, rfl, widest⟩ := some inside
        refine ⟨_, stop, strictest, by rw [found, Option.bind_some], rfl, rfl, ?_⟩
        rw [widest, toNat_max, greatest, Nat.max_assoc]
      · -- the end of this member is beyond the limit, and the last end is not below it
        have above := places.orderly.1
        have failed : addSize (alignTo offset (σ.align ty)) (σ.size ty) = none := if_neg fits
        rw [failed, Option.bind_none]
        exact ⟨fun _ => rfl, fun inside => absurd (Nat.le_trans above inside) fits⟩

theorem place_eq_some (small : Small σ members) {placed : List Field} {stop strictest : UInt32}
    (found : place σ 0 1 members = some (placed, stop, strictest)) :
    Places σ 0 members (placed.map fun field => (field.name, field.ty, field.offset.toNat)) stop.toNat ∧
      stop.toNat ≤ maxObjectSize.toNat ∧ strictest.toNat = greatest σ members := by
  obtain ⟨fields, last, places⟩ := exists_places small (UInt32.toNat 0)
  obtain ⟨none, some⟩ := places.place small (by decide) 1 (by decide)
  rcases Nat.lt_or_ge maxObjectSize.toNat last with beyond | inside
  · cases (none beyond).symm.trans found
  · obtain ⟨_, _, _, found', rfl, rfl, widest⟩ := some inside
    cases found.symm.trans found'
    exact ⟨places, inside, widest.trans (Nat.max_eq_right (greatest_bounds small).1)⟩

/-- The members have a plan, and it is what is computed unless it is too large. -/
theorem exists_planned (small : Small σ members) : ∃ plan, Planned σ members plan ∧
    (compute σ members = none ↔ maxObjectSize.toNat < plan.size) ∧
    ∀ layout, compute σ members = some layout → layout.plan = plan := by
  obtain ⟨least, most⟩ := greatest_bounds small
  cases found : place σ 0 1 members with
  | none =>
    obtain ⟨fields, last, places⟩ := exists_places small (UInt32.toNat 0)
    have next := isNext_roundUp least last
    refine ⟨⟨fields, _, greatest σ members⟩, ⟨rfl, last, places, next⟩, ?_⟩
    have failed : compute σ members = none := by rw [compute, found]; rfl
    have beyond : maxObjectSize.toNat < last := by
      by_contra inside
      obtain ⟨_, _, _, found', -⟩ := (places.place small (by decide) 1 (by decide)).2
        (Nat.le_of_not_lt inside)
      cases found.symm.trans found'
    rw [failed]
    exact ⟨⟨fun _ => Nat.lt_of_lt_of_le beyond next.1.1, fun _ => rfl⟩, fun _ same => absurd same.symm (Option.some_ne_none _)⟩
  | some answer =>
    obtain ⟨placed, stop, strictest⟩ := answer
    obtain ⟨places, inside, widest⟩ := place_eq_some small found
    have next := isNext_roundUp least stop.toNat
    rw [← widest, ← toNat_alignTo inside (by omega) (by omega)] at next
    refine ⟨plan ⟨placed, alignTo stop strictest, strictest⟩, ⟨widest, _, places, next⟩, ?_⟩
    have result : compute σ members = if alignTo stop strictest ≤ maxObjectSize then
        some ⟨placed, alignTo stop strictest, strictest⟩ else none := by
      rw [compute, found]
      rfl
    change (_ ↔ _ < (alignTo stop strictest).toNat) ∧ _
    rw [result, ← Nat.not_le, ← UInt32.le_iff_toNat_le]
    by_cases fits : alignTo stop strictest ≤ maxObjectSize
    · rw [if_pos fits]
      refine ⟨⟨fun same => absurd same (Option.some_ne_none _), fun beyond => absurd fits beyond⟩,
        fun layout same => ?_⟩
      cases same
      rfl
    · rw [if_neg fits]
      exact ⟨⟨fun _ => fits, fun _ => rfl⟩, fun _ same => absurd same.symm (Option.some_ne_none _)⟩

theorem Planned.orderly {layout : Layout} (h : Planned σ members layout.plan) : layout.Orderly σ := by
  obtain ⟨-, last, places, next⟩ := h
  obtain ⟨-, each, apart⟩ := places.orderly
  have fields : ∀ field ∈ layout.fields, _ := fun field mem => each _ (mem_map_of_mem mem)
  exact ⟨fun field mem => (fields field mem).1, pairwise_map.mp apart,
    fun field mem => Nat.le_trans (fields field mem).2.2 next.1.1⟩

end Layout

/-! ## Nothing is out of range -/

namespace Checked

open Layout (Small)

def place (σ : Structs) (offset align : UInt32) :
    List (String × CType) → Except Fault (Option (List Field × UInt32 × UInt32))
  | [] => return some ([], offset, align)
  | (name, ty) :: members => do
    let start ← alignTo offset (σ.align ty)
    let some stop := Layout.addSize start (σ.size ty) | return none
    let some (fields, last, strictest) ← place σ stop (max align (σ.align ty)) members | return none
    return some (⟨name, ty, start⟩ :: fields, last, strictest)

def compute (σ : Structs) (members : List (String × CType)) : Except Fault (Option Layout) := do
  let some (fields, last, align) ← place σ 0 1 members | return none
  let size ← alignTo last align
  return if size ≤ maxObjectSize then some ⟨fields, size, align⟩ else none

variable {σ : Structs} {members : List (String × CType)}

theorem place_eq (small : Small σ members) : ∀ {offset align : UInt32},
    offset.toNat ≤ maxObjectSize.toNat →
    place σ offset align members = .ok (Layout.place σ offset align members) := by
  induction members with
  | nil => exact fun _ => rfl
  | cons member members ih =>
    intro offset align within
    obtain ⟨⟨least, most⟩, others⟩ := forall_mem_cons.mp small
    have start := alignTo_eq within least (Nat.le_trans most (by decide))
    simp only [place, Layout.place, start, bind, Except.bind]
    cases added : Layout.addSize (MiniC.alignTo offset (σ.align member.2)) (σ.size member.2) with
    | none => rfl
    | some stop =>
      unfold Layout.addSize at added
      split at added
      next fits =>
        cases added
        rw [← (Layout.addSize_eq fits).2] at fits
        simp only [ih others fits, Option.bind_some]
        cases Layout.place σ _ _ members <;> rfl
      next => cases added

theorem compute_eq (small : Small σ members) : compute σ members = .ok (Layout.compute σ members) := by
  have start : place σ 0 1 members = .ok (Layout.place σ 0 1 members) := place_eq small (by decide)
  simp only [compute, Layout.compute, start, bind, Except.bind]
  cases placed : Layout.place σ 0 1 members with
  | none => rfl
  | some answer =>
    obtain ⟨fields, last, strictest⟩ := answer
    obtain ⟨-, inside, widest⟩ := Layout.place_eq_some small placed
    obtain ⟨least, most⟩ := Layout.greatest_bounds small
    have rounded : alignTo last strictest = .ok (MiniC.alignTo last strictest) :=
      alignTo_eq inside (by omega) (by omega)
    simp only [rounded, Option.bind_some]
    rfl

end Checked

/-- **The struct layout law.** Members with small alignments have exactly one layout in numbers. There
is none in words exactly if that one is larger than the largest object; otherwise the layout in words
is the same. Its members stand at multiples of their alignments and apart from each other, and no
operation on words is out of range. -/
theorem Layout.compute_law (σ : Structs) (members : List (String × CType))
    (alignments : ∀ member ∈ members, σ.align member.2 ∈ [1, 4, 8]) :
    (∃! plan, Planned σ members plan) ∧
    (∀ plan, Planned σ members plan → (compute σ members = none ↔ maxObjectSize.toNat < plan.size)) ∧
    (∀ layout, compute σ members = some layout → Planned σ members layout.plan ∧ layout.Orderly σ) ∧
    Checked.compute σ members = .ok (compute σ members) := by
  have small : Small σ members := by
    intro member mem
    have options : σ.align member.2 = 1 ∨ σ.align member.2 = 4 ∨ σ.align member.2 = 8 := by
      simpa using alignments member mem
    rcases options with same | same | same <;> rw [same] <;> decide
  obtain ⟨plan, planned, none, some⟩ := exists_planned small
  refine ⟨⟨plan, planned, fun _ other => other.unique planned⟩, fun _ other => ?_,
    fun layout computed => ?_, Checked.compute_eq small⟩
  · rwa [other.unique planned]
  · rw [← some layout computed] at planned
    exact ⟨planned, planned.orderly⟩

def Layout.tight : List (String × CType) := [("n", .long), ("text", .array .char 2147483638)]

theorem Layout.compute_law_tight : (∀ member ∈ tight, Structs.align {} member.2 ∈ [1, 4, 8]) ∧
    compute {} tight = none ∧ ∃ plan, Planned {} tight plan ∧ maxObjectSize.toNat < plan.size := by
  have alignments : ∀ member ∈ tight, Structs.align {} member.2 ∈ [1, 4, 8] := by decide
  have none : compute {} tight = none := by decide
  obtain ⟨⟨plan, planned, -⟩, beyond, -, -⟩ := compute_law {} tight alignments
  exact ⟨alignments, none, plan, planned, (beyond plan planned).mp none⟩

end MiniC
