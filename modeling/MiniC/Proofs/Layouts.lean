import Mathlib.Algebra.Group.Nat.Defs
import MiniC.CType.Layout
import MiniC.CType.Shape
import MiniC.Proofs.Computations

/-!
# Layouts and sizes

A table of struct types only grows: what is complete keeps its layout. In every layout the members
stand one after the other.

Sizes are 32-bit words, and the size of an array is a product of two of them. `Shape.extent` is the
size of a type as a number; `Structs.Exact` says that the two agree for every type whose extent is
at most that of the largest object.
-/

namespace MiniC

open List

/-! ## Tables -/

namespace Structs

def Extends (σ σ' : Structs) : Prop :=
  ∀ ref layout, σ.layout? ref = some layout → σ'.layout? ref = some layout

theorem Extends.refl (σ : Structs) : Extends σ σ := fun _ _ h => h

theorem Extends.trans {σ σ' σ'' : Structs} (first : Extends σ σ') (rest : Extends σ' σ'') :
    Extends σ σ'' := fun ref layout h => rest ref layout (first ref layout h)

theorem extends_declare (σ : Structs) (tag : Option String) : Extends σ (σ.declare tag).2 :=
  fun _ _ h => h

theorem extends_complete (σ : Structs) (ref : StructRef) (layout : Layout) :
    Extends σ (σ.complete ref layout).2 := by
  unfold complete
  cases known : σ.layout? ref with
  | some _ => exact .refl σ
  | none =>
    intro other old h
    have different : ref.index ≠ other.index := by
      intro same
      rw [layout?, ← same] at h
      rw [layout?, h] at known
      cases known
    simpa [layout?, different] using h

variable {σ σ' : Structs}

theorem layout?_complete {ref : StructRef} (new : σ.layout? ref = none) (layout : Layout)
    (other : StructRef) : (σ.complete ref layout).2.layout? other =
      if ref.index = other.index then some layout else σ.layout? other := by
  rw [Structs.complete, new, layout?, List.find?_cons]
  by_cases same : ref.index = other.index
  · simp only [same, BEq.rfl, if_true, Option.map_some]
  · simp only [beq_eq_false_iff_ne.mpr same, if_neg same, layout?]

theorem size_le_of_scalar : ∀ {ty : CType}, ty.isAggregate = false → (σ.size ty).toNat ≤ 8
  | .void, _ | .char, _ | .int, _ | .long, _ | .ptr _, _ => Nat.le_of_ble_eq_true rfl

theorem Extends.same {σ σ' : Structs} (h : Extends σ σ') : ∀ {ty : CType}, σ.isComplete ty →
    σ'.isComplete ty ∧ σ'.size ty = σ.size ty ∧ σ'.align ty = σ.align ty
  | .void, known => nomatch known
  | .char, _ | .int, _ | .long, _ | .ptr _, _ => ⟨rfl, rfl, rfl⟩
  | .array element length, known => by
    obtain ⟨complete, size, align⟩ := h.same (show σ.isComplete element from known)
    exact ⟨complete, congrArg (· * length) size, align⟩
  | .struct ref, known => by
    obtain ⟨layout, found⟩ := Option.isSome_iff_exists.mp known
    have found' := h ref layout found
    simp only [isComplete, size, align, found, found', Option.isSome_some, and_self]

end Structs

/-! ## Layouts -/

def roundUp (n align : Nat) : Nat := (n + align - 1) / align * align

theorem le_roundUp {n align : Nat} (pos : 1 ≤ align) : n ≤ roundUp n align := by
  have := Nat.div_add_mod (n + align - 1) align
  have := Nat.mod_lt (n + align - 1) pos
  rw [roundUp, Nat.mul_comm]
  omega

variable {n : UInt32}

theorem toNat_alignTo {align : UInt32} (small : n.toNat ≤ maxObjectSize.toNat)
    (pos : 1 ≤ align.toNat) (le : align.toNat ≤ 16) :
    (alignTo n align).toNat = roundUp n.toNat align.toNat := by
  have bound : maxObjectSize.toNat = 2147483647 := rfl
  have sum : (n + align - 1).toNat = n.toNat + align.toNat - 1 := by
    rw [UInt32.toNat_sub_of_le, UInt32.toNat_add, UInt32.toNat_one]
    · omega
    · rw [UInt32.le_iff_toNat_le, UInt32.toNat_add, UInt32.toNat_one]
      omega
  have above := Nat.div_mul_le_self (n.toNat + align.toNat - 1) align.toNat
  rw [alignTo, UInt32.toNat_mul, UInt32.toNat_div, sum, Nat.mod_eq_of_lt, roundUp]
  omega

theorem toNat_max (a b : UInt32) : (max a b).toNat = max a.toNat b.toNat := by
  have : max a b = if a ≤ b then b else a := rfl
  rw [this]
  split <;> rename_i le <;> rw [UInt32.le_iff_toNat_le] at le <;> omega

theorem le_alignTo {align : UInt32} (small : n.toNat ≤ maxObjectSize.toNat) (pos : 1 ≤ align.toNat)
    (le : align.toNat ≤ 16) : n.toNat ≤ (alignTo n align).toNat := by
  rw [toNat_alignTo small pos le]
  exact le_roundUp pos

namespace Structs

def Placed (σ : Structs) : Nat → List Field → Nat → Prop
  | start, [], stop => start ≤ stop
  | start, field :: rest, stop =>
    start ≤ field.offset.toNat ∧ σ.isComplete field.ty ∧
      σ.Placed (field.offset.toNat + (σ.size field.ty).toNat) rest stop

/-- In every layout of a table the members stand one after the other, and alignments are
small. -/
structure Laid (σ : Structs) : Prop where
  placed : ∀ ref layout, σ.layout? ref = some layout → σ.Placed 0 layout.fields layout.size.toNat
  aligned : ∀ ref layout, σ.layout? ref = some layout → 1 ≤ layout.align.toNat ∧ layout.align.toNat ≤ 8

/-- No product in the size of a type is too large for a word. -/
inductive Fits (σ : Structs) : CType → Prop
  | scalar {ty : CType} : ty.isAggregate = false → Fits σ ty
  | array {element : CType} {length : UInt32} : Fits σ element →
    (σ.size element).toNat * length.toNat < 2 ^ 32 → Fits σ (.array element length)
  | struct {ref : StructRef} : (∀ field ∈ σ.fields ref, Fits σ field.ty) → Fits σ (.struct ref)

/-- No product that the size of a type depends on is too large for a word: an array without
elements has no bytes, whatever its elements are. -/
inductive Sized (σ : Structs) : CType → Prop
  | scalar {ty : CType} : ty.isAggregate = false → Sized σ ty
  | empty {element : CType} : Sized σ (.array element 0)
  | array {element : CType} {length : UInt32} : Sized σ element →
    (σ.size element).toNat * length.toNat < 2 ^ 32 → Sized σ (.array element length)
  | struct {ref : StructRef} : (∀ field ∈ σ.fields ref, Sized σ field.ty) → Sized σ (.struct ref)

variable {σ σ' : Structs}

variable {start stop : Nat} {members : List (String × CType)} {layout : Layout} {ty : CType}

theorem Placed.mono {stop' : Nat} {fields : List Field} (le : stop ≤ stop')
    (h : σ.Placed start fields stop) : σ.Placed start fields stop' := by
  induction fields generalizing start with
  | nil => exact Nat.le_trans h le
  | cons field rest ih => exact ⟨h.1, h.2.1, ih h.2.2⟩

theorem Placed.le {fields : List Field} (h : σ.Placed start fields stop) :
    start ≤ stop := by
  induction fields generalizing start with
  | nil => exact h
  | cons field rest ih => have := ih h.2.2; have := h.1; omega

theorem Placed.inside {fields : List Field} (h : σ.Placed start fields stop) :
    ∀ field ∈ fields, σ.isComplete field.ty ∧
      field.offset.toNat + (σ.size field.ty).toNat ≤ stop := by
  induction fields generalizing start with
  | nil => exact forall_mem_nil _
  | cons field rest ih =>
    exact forall_mem_cons.mpr ⟨⟨h.2.1, h.2.2.le⟩, ih h.2.2⟩

theorem Placed.isComplete {fields : List Field} (h : σ.Placed start fields stop) :
    ∀ field ∈ fields, σ.isComplete field.ty := fun field mem => (h.inside field mem).1

theorem Placed.of_extends (h : Extends σ σ') {fields : List Field}
    (placed : σ.Placed start fields stop) : σ'.Placed start fields stop := by
  induction fields generalizing start with
  | nil => exact placed
  | cons field rest ih =>
    obtain ⟨first, complete, others⟩ := placed
    obtain ⟨complete', size, -⟩ := h.same complete
    exact ⟨first, complete', size ▸ ih others⟩

theorem Laid.align (h : σ.Laid) : ∀ ty, 1 ≤ (σ.align ty).toNat ∧ (σ.align ty).toNat ≤ 8
  | .void | .char | .int | .long | .ptr _ => by
    simp only [Structs.align, Structs.size, pointerSize]
    decide
  | .array element _ => h.align element
  | .struct ref => by
    rw [Structs.align]
    cases found : σ.layout? ref with
    | none => decide
    | some layout => exact h.aligned ref layout found

/-- Members are placed one after the other. -/
theorem Laid.place (h : σ.Laid) : ∀ {members : List (String × CType)} {offset align last strictest : UInt32}
    {fields : List Field}, (∀ member ∈ members, σ.isComplete member.2) →
    offset.toNat ≤ maxObjectSize.toNat → 1 ≤ align.toNat → align.toNat ≤ 8 →
    Layout.place σ offset align members = some (fields, last, strictest) →
    σ.Placed offset.toNat fields last.toNat ∧ last.toNat ≤ maxObjectSize.toNat ∧
      1 ≤ strictest.toNat ∧ strictest.toNat ≤ 8 := by
  intro members
  induction members with
  | nil =>
    intro offset align last strictest fields _ small pos le placed
    cases placed
    exact ⟨Nat.le_refl _, small, pos, le⟩
  | cons member members ih =>
    intro offset align last strictest fields complete small pos le placed
    obtain ⟨name, ty⟩ := member
    rw [forall_mem_cons] at complete
    obtain ⟨posTy, leTy⟩ := h.align ty
    simp only [Layout.place, do_eq_some, Option.pure_def] at placed
    obtain ⟨stop, added, ⟨fields', last', strictest'⟩, rest, same⟩ := placed
    cases same
    have above := le_alignTo small posTy (by omega)
    unfold Layout.addSize at added
    split at added
    · rename_i fits
      cases added
      have exact : (alignTo offset (σ.align ty) + σ.size ty).toNat =
          (alignTo offset (σ.align ty)).toNat + (σ.size ty).toNat := by
        rw [UInt32.toNat_add]
        have : maxObjectSize.toNat = 2147483647 := rfl
        omega
      have widest : 1 ≤ (max align (σ.align ty)).toNat ∧ (max align (σ.align ty)).toNat ≤ 8 := by
        rw [toNat_max]
        omega
      obtain ⟨others, bounds⟩ := ih complete.2 (by rw [exact]; exact fits) widest.1 widest.2 rest
      rw [exact] at others
      exact ⟨⟨above, complete.1, others⟩, bounds⟩
    · cases added

theorem Laid.compute (h : σ.Laid) (complete : ∀ member ∈ members, σ.isComplete member.2)
    (computed : Layout.compute σ members = some layout) :
    σ.Placed 0 layout.fields layout.size.toNat ∧ 1 ≤ layout.align.toNat ∧ layout.align.toNat ≤ 8 := by
  simp only [Layout.compute, do_eq_some] at computed
  obtain ⟨⟨fields, last, align⟩, placed, computed⟩ := computed
  obtain ⟨placed, small, pos, le⟩ := h.place complete (by decide) (by decide) (by decide) placed
  split at computed
  · cases computed
    exact ⟨placed.mono (le_alignTo small pos (Nat.le_trans le (by decide))), pos, le⟩
  · cases computed

/-- Layouts stay in order when a struct is completed. -/
theorem Laid.complete (h : σ.Laid) (ref : StructRef)
    (complete : ∀ member ∈ members, σ.isComplete member.2)
    (computed : Layout.compute σ members = some layout) : (σ.complete ref layout).2.Laid := by
  have larger := extends_complete σ ref layout
  obtain ⟨placed, aligned⟩ := h.compute complete computed
  -- a layout of the new table is the new one, or one of the old table
  have known : ∀ other layout', (σ.complete ref layout).2.layout? other = some layout' →
      layout' = layout ∨ σ.layout? other = some layout' := by
    intro other layout' found
    cases new : σ.layout? ref with
    | some _ =>
      rw [Structs.complete, new] at found
      exact .inr found
    | none =>
      rw [layout?_complete new] at found
      split at found
      · exact .inl (Option.some.inj found).symm
      · exact .inr found
  refine ⟨fun other layout' found => ?_, fun other layout' found => ?_⟩
  · rcases known other layout' found with rfl | old
    · exact placed.of_extends larger
    · exact (h.placed other layout' old).of_extends larger
  · rcases known other layout' found with rfl | old
    · exact aligned
    · exact h.aligned other layout' old

theorem Fits.sized (h : σ.Fits ty) : σ.Sized ty := by
  induction h with
  | scalar plain => exact .scalar plain
  | array _ small ih => exact .array ih small
  | struct _ ih => exact .struct ih

theorem Extends.fields (larger : Extends σ σ') {ref : StructRef} (complete : σ.isComplete (.struct ref)) :
    σ'.fields ref = σ.fields ref := by
  obtain ⟨layout, found⟩ := Option.isSome_iff_exists.mp complete
  rw [Structs.fields, Structs.fields, found, larger ref layout found]

theorem Laid.isComplete (h : σ.Laid) (ref : StructRef) :
    ∀ field ∈ σ.fields ref, σ.isComplete field.ty := by
  cases found : σ.layout? ref with
  | none => simp [fields, found]
  | some layout =>
    rw [fields, found]
    exact (h.placed ref layout found).isComplete

theorem Sized.of_extends (larger : Extends σ σ') (laid : σ.Laid) (h : σ'.Sized ty) :
    σ.isComplete ty → σ.Sized ty := by
  induction h with
  | scalar plain => exact fun _ => .scalar plain
  | empty => exact fun _ => .empty
  | @array element _ _ small ih =>
    intro complete
    have size := (larger.same (show σ.isComplete element from complete)).2.1
    exact .array (ih complete) (by rwa [← size])
  | @struct ref _ ih =>
    intro complete
    refine .struct fun field mem => ih field ?_ (laid.isComplete ref field mem)
    rwa [larger.fields complete]

theorem Sized.extend (larger : Extends σ σ') (laid : σ.Laid) (h : σ.Sized ty) :
    σ.isComplete ty → σ'.Sized ty := by
  induction h with
  | scalar plain => exact fun _ => .scalar plain
  | empty => exact fun _ => .empty
  | @array element _ _ small ih =>
    intro complete
    have size := (larger.same (show σ.isComplete element from complete)).2.1
    exact .array (ih complete) (by rwa [size])
  | @struct ref _ ih =>
    intro complete
    refine .struct fun field mem => ?_
    rw [larger.fields complete] at mem
    exact ih field mem (laid.isComplete ref field mem)

end Structs

namespace Layout

variable {σ : Structs} {members : List (String × CType)}

theorem place_members :
    ∀ {offset align last strictest : UInt32} {fields : List Field},
      place σ offset align members = some (fields, last, strictest) →
      fields.map (fun field => (field.name, field.ty)) = members := by
  induction members with
  | nil =>
    intro offset align last strictest fields placed
    cases placed
    rfl
  | cons member members ih =>
    intro offset align last strictest fields placed
    simp only [place, do_eq_some, Option.pure_def] at placed
    obtain ⟨stop, -, ⟨rest, _, _⟩, placed, same⟩ := placed
    cases same
    rw [map_cons, ih placed]

theorem compute_members {layout : Layout} (computed : compute σ members = some layout) :
    layout.fields.map (fun field => (field.name, field.ty)) = members := by
  simp only [compute, do_eq_some] at computed
  obtain ⟨⟨fields, last, align⟩, placed, sized⟩ := computed
  split at sized
  · cases sized
    exact place_members placed
  · cases sized

end Layout

/-! ## Exact sizes -/

namespace Shape

def scalarExtent : CType → Nat
  | .void | .char => 1
  | .int => 4
  | _ => 8

mutual
def alignment : Shape → Nat
  | .scalar ty => scalarExtent ty
  | .array element _ _ => element.alignment
  | .struct members _ => strictest members
def strictest : List (Field × Shape) → Nat
  | [] => 1
  | (_, shape) :: members => max shape.alignment (strictest members)
end

mutual
/-- The number of bytes of a shape, however large: an array repeats its element, the members of a
struct stand each at the next multiple of its alignment, and the whole is rounded up to the
strictest one. -/
def extent : Shape → Nat
  | .scalar ty => scalarExtent ty
  | .array element length _ => element.extent * length.toNat
  | .struct members _ => roundUp (membersEnd members 0) (strictest members)
def membersEnd : List (Field × Shape) → Nat → Nat
  | [], offset => offset
  | (_, shape) :: members, offset =>
    membersEnd members (roundUp offset shape.alignment + shape.extent)
end

mutual
theorem alignment_pos : (shape : Shape) → 1 ≤ shape.alignment
  | .scalar ty => by cases ty <;> simp only [alignment, scalarExtent] <;> omega
  | .array element _ _ => element.alignment_pos
  | .struct members _ => strictest_pos members
theorem strictest_pos : (members : List (Field × Shape)) → 1 ≤ strictest members
  | [] => Nat.le_refl 1
  | (_, shape) :: _ => Nat.le_trans shape.alignment_pos (Nat.le_max_left _ _)
end

theorem le_membersEnd (members : List (Field × Shape)) (offset : Nat) :
    offset ≤ membersEnd members offset := by
  induction members generalizing offset with
  | nil => exact Nat.le_refl offset
  | cons member members ih =>
    rw [membersEnd]
    have := le_roundUp (n := offset) member.2.alignment_pos
    have := ih (roundUp offset member.2.alignment + member.2.extent)
    omega

end Shape

namespace Structs

open Shape (strictest membersEnd)

variable {σ σ' : Structs}

def extent (σ : Structs) (ty : CType) : Nat := (σ.shape ty).extent

/-- The alignment of a type is exact, and so is its size if its extent fits a word of 32 bits. -/
structure ExactAt (σ : Structs) (ty : CType) : Prop where
  align : (σ.align ty).toNat = (σ.shape ty).alignment
  size : σ.extent ty < 2 ^ 32 → (σ.size ty).toNat = σ.extent ty
  sized : σ.extent ty < 2 ^ 32 → σ.Sized ty

def Exact (σ : Structs) : Prop := ∀ ty, σ.ExactAt ty

theorem Exact.of_structs (structs : ∀ ref, σ.ExactAt (.struct ref)) : σ.Exact
  | .void | .char | .int | .long | .ptr _ => ⟨rfl, fun _ => rfl, fun _ => .scalar rfl⟩
  | .struct ref => structs ref
  | .array element length => by
    have inner := Exact.of_structs structs element
    have extent : σ.extent (.array element length) = σ.extent element * length.toNat := rfl
    by_cases none : length = 0
    · subst none
      refine ⟨inner.align, fun _ => ?_, fun _ => .empty⟩
      rw [extent, Structs.size, UInt32.mul_zero]
      rfl
    · have pos : 1 ≤ length.toNat := by
        have := mt UInt32.toNat_inj.mp none
        rw [UInt32.toNat_zero] at this
        omega
      -- no element is larger than the whole array
      have within : σ.extent (.array element length) < 2 ^ 32 →
          σ.extent element < 2 ^ 32 ∧ (σ.size element).toNat * length.toNat < 2 ^ 32 := by
        intro whole
        rw [extent] at whole
        have lt := Nat.lt_of_le_of_lt (Nat.le_mul_of_pos_right _ pos) whole
        exact ⟨lt, by rwa [inner.size lt]⟩
      refine ⟨inner.align, fun whole => ?_, fun whole => ?_⟩
      · obtain ⟨lt, product⟩ := within whole
        rw [Structs.size, UInt32.toNat_mul, Nat.mod_eq_of_lt product, inner.size lt, extent]
      · obtain ⟨lt, product⟩ := within whole
        exact .array (inner.sized lt) product

def shapes (σ : Structs) (fields : List Field) : List (Field × Shape) :=
  fields.map fun field => (field, σ.shape field.ty)

/-- Alignments of placed members are exact, and offsets as long as they fit a word. -/
theorem Exact.place (exact : σ.Exact) (laid : σ.Laid) :
    ∀ {members : List (String × CType)} {offset align last widest : UInt32} {fields : List Field},
    offset.toNat ≤ maxObjectSize.toNat →
    Layout.place σ offset align members = some (fields, last, widest) →
    (1 ≤ align.toNat → widest.toNat = max align.toNat (strictest (σ.shapes fields))) ∧
    (membersEnd (σ.shapes fields) offset.toNat < 2 ^ 32 →
      last.toNat = membersEnd (σ.shapes fields) offset.toNat ∧ ∀ field ∈ fields, σ.Sized field.ty) := by
  intro members
  induction members with
  | nil =>
    intro offset align last widest fields small placed
    cases placed
    refine ⟨fun pos => ?_, fun _ => ⟨rfl, nofun⟩⟩
    exact (Nat.max_eq_left pos).symm
  | cons member members ih =>
    intro offset align last widest fields small placed
    obtain ⟨name, ty⟩ := member
    simp only [Layout.place, do_eq_some, Option.pure_def] at placed
    obtain ⟨stop, added, ⟨fields', last', widest'⟩, rest, same⟩ := placed
    cases same
    unfold Layout.addSize at added
    split at added
    · rename_i fits
      cases added
      obtain ⟨posTy, leTy⟩ := laid.align ty
      have start := toNat_alignTo small posTy (by omega)
      have sum : (alignTo offset (σ.align ty) + σ.size ty).toNat =
          roundUp offset.toNat (σ.align ty).toNat + (σ.size ty).toNat := by
        rw [UInt32.toNat_add, start]
        have : maxObjectSize.toNat = 2147483647 := rfl
        omega
      obtain ⟨strict, ends⟩ := ih (by rw [sum, ← start]; exact fits) rest
      refine ⟨fun pos => ?_, fun whole => ?_⟩
      · rw [strict (by rw [toNat_max]; omega), toNat_max, (exact ty).align, Nat.max_assoc]
        rfl
      · -- the end of the whole fits a word, so the size of this member does
        have whole : membersEnd (σ.shapes fields') (roundUp offset.toNat (σ.shape ty).alignment +
            (σ.shape ty).extent) < 2 ^ 32 := whole
        have within := Shape.le_membersEnd (σ.shapes fields')
          (roundUp offset.toNat (σ.shape ty).alignment + (σ.shape ty).extent)
        have lt : σ.extent ty < 2 ^ 32 := by unfold extent; omega
        rw [sum, (exact ty).align, (exact ty).size lt] at ends
        obtain ⟨last, others⟩ := ends whole
        exact ⟨last, forall_mem_cons.mpr ⟨(exact ty).sized lt, others⟩⟩
    · cases added

variable {members : List (String × CType)} {layout : Layout} {ref : StructRef}

theorem Exact.compute (exact : σ.Exact) (laid : σ.Laid)
    (complete : ∀ member ∈ members, σ.isComplete member.2)
    (computed : Layout.compute σ members = some layout) (ty : CType) :
    layout.align.toNat = strictest (σ.shapes layout.fields) ∧
    ((Shape.struct (σ.shapes layout.fields) ty).extent < 2 ^ 32 →
      layout.size.toNat = (Shape.struct (σ.shapes layout.fields) ty).extent ∧
      ∀ field ∈ layout.fields, σ.Sized field.ty) := by
  simp only [Layout.compute, do_eq_some] at computed
  obtain ⟨⟨fields, last, align⟩, placed, computed⟩ := computed
  obtain ⟨-, bound, pos, le⟩ := laid.place complete (by decide) (by decide) (by decide) placed
  obtain ⟨strict, ends⟩ := exact.place laid (by decide) placed
  have strict : align.toNat = strictest (σ.shapes fields) :=
    (strict (by decide)).trans (Nat.max_eq_right (Shape.strictest_pos _))
  split at computed
  · cases computed
    refine ⟨strict, fun whole => ?_⟩
    have within : membersEnd (σ.shapes fields) 0 < 2 ^ 32 :=
      Nat.lt_of_le_of_lt (le_roundUp (Shape.strictest_pos _)) whole
    obtain ⟨last, sized⟩ := ends within
    refine ⟨?_, sized⟩
    rw [toNat_alignTo bound pos (by omega), last, strict, Shape.extent]
    rfl
  · cases computed

theorem memberShapes_complete (new : σ.layout? ref = none) (layout : Layout)
    (other : StructRef) : memberShapes (σ.complete ref layout).2.layouts other =
      if ref.index = other.index then σ.shapes layout.fields else memberShapes σ.layouts other := by
  rw [Structs.complete, new]
  rfl

theorem ExactAt.of_same (larger : Extends σ σ') (laid : σ.Laid)
    (same : σ'.layout? ref = σ.layout? ref)
    (members : memberShapes σ'.layouts ref = memberShapes σ.layouts ref)
    (h : σ.ExactAt (.struct ref)) : σ'.ExactAt (.struct ref) := by
  have shape : σ'.shape (.struct ref) = σ.shape (.struct ref) := by
    rw [Structs.shape, shapeWith, members]
    rfl
  have extent : σ'.extent (.struct ref) = σ.extent (.struct ref) := congrArg Shape.extent shape
  refine ⟨?_, fun whole => ?_, fun whole => .struct fun field mem => ?_⟩
  · rw [shape, ← h.align, Structs.align, Structs.align, same]
  · rw [extent] at whole ⊢
    rw [← h.size whole, Structs.size, Structs.size, same]
  · rw [extent] at whole
    have mem : field ∈ σ.fields ref := by rwa [fields, same] at mem
    cases h.sized whole with
    | scalar plain => cases plain
    | struct each => exact (each field mem).extend larger laid (laid.isComplete ref field mem)

/-- An object fits a word of 32 bits. -/
theorem lt_of_le_max {n : Nat} (h : n ≤ maxObjectSize.toNat) : n < 2 ^ 32 :=
  Nat.lt_of_le_of_lt h (by decide)

theorem exact_empty : Exact {} := by
  refine .of_structs fun ref => ⟨rfl, fun _ => ?_, fun _ => .struct nofun⟩
  have extent : extent {} (.struct ref) = roundUp 0 1 := by
    rw [extent, shape, shapeWith, memberShapes, Shape.extent, Shape.membersEnd, Shape.strictest]
  rw [extent]
  rfl

theorem Exact.declare (exact : σ.Exact) (laid : σ.Laid) (tag : Option String) :
    (σ.declare tag).2.Exact :=
  .of_structs fun ref => (exact (.struct ref)).of_same (extends_declare σ tag) laid rfl rfl

/-- Sizes stay exact when a struct is completed. -/
theorem Exact.complete (exact : σ.Exact) (laid : σ.Laid) (ref : StructRef)
    (complete : ∀ member ∈ members, σ.isComplete member.2)
    (computed : Layout.compute σ members = some layout) : (σ.complete ref layout).2.Exact := by
  have larger := extends_complete σ ref layout
  cases new : σ.layout? ref with
  | some _ =>
    rw [Structs.complete, new]
    exact exact
  | none =>
    have known := layout?_complete new layout
    have shapes := memberShapes_complete new layout
    refine .of_structs fun other => ?_
    by_cases same : ref.index = other.index
    · have found := (known other).trans (if_pos same)
      have shape : (σ.complete ref layout).2.shape (.struct other) =
          .struct (σ.shapes layout.fields) (.struct other) := by
        rw [Structs.shape, shapeWith, shapes, if_pos same]
      obtain ⟨align, whole⟩ := exact.compute laid complete computed (.struct other)
      rw [← shape] at whole
      refine ⟨?_, fun small => ?_, fun small => .struct fun field mem => ?_⟩
      · rw [shape, Structs.align, found]
        exact align
      · rw [Structs.size, found]
        exact (whole small).1
      · have mem : field ∈ layout.fields := by rwa [fields, found] at mem
        have known := (laid.compute complete computed).1.isComplete field mem
        exact ((whole small).2 field mem).extend larger laid known
    · exact (exact (.struct other)).of_same larger laid ((known other).trans (if_neg same))
        ((shapes other).trans (if_neg same))

end Structs

end MiniC
