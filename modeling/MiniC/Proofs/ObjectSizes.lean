import MiniC.Proofs.DataSection
import MiniC.Proofs.Grammar.Functions

/-!
# How large objects are

A limit on the size of objects is checked in two places: an array type is checked when it is
written, and a struct when its layout is fixed. An array may be written before the struct it is made
of is complete. It is then checked with elements of no bytes, and never again.

So the limit holds of exactly those objects whose arrays pass the check once their elements are
complete. `Structs.Contains` says which arrays an object is made of; along a parse the table of
struct types stays `Measured`, which is what the sums and products of sizes rely on.
-/

namespace MiniC

open List

namespace Structs

open Shape (strictest membersEnd)

variable {σ : Structs}

/-! ## Parts of a type -/

/-- The types that the bytes of a type are made of. An array without elements is made of nothing
else. -/
inductive Contains (σ : Structs) : CType → CType → Prop
  | self (ty : CType) : Contains σ ty ty
  | element {element part : CType} {length : UInt32} : length ≠ 0 → Contains σ element part →
    Contains σ (.array element length) part
  | member {ref : StructRef} {field : Field} {part : CType} : field ∈ σ.fields ref →
    Contains σ field.ty part → Contains σ (.struct ref) part

theorem Contains.isComplete (laid : σ.Laid) {ty part : CType} (h : σ.Contains ty part) :
    σ.isComplete ty → σ.isComplete part := by
  induction h with
  | self => exact id
  | element _ _ ih => exact fun complete => ih complete
  | @member ref field _ mem _ ih => exact fun _ => ih (laid.isComplete ref field mem)

theorem Contains.checked (fields : ∀ ref, ∀ field ∈ σ.fields ref, σ.Checked field.ty)
    {ty part : CType} (h : σ.Contains ty part) : σ.Checked ty → σ.Checked part := by
  induction h with
  | self => exact id
  | element _ _ ih => exact fun checked => ih checked.1
  | @member ref field _ mem _ ih => exact fun _ => ih (fields ref field mem)

theorem mem_layouts_of_mem_fields {ref : StructRef} {field : Field} (h : field ∈ σ.fields ref) :
    ∃ entry ∈ σ.layouts, field ∈ entry.2.fields := by
  unfold fields at h
  split at h
  · rename_i layout found
    obtain ⟨entry, here, rfl⟩ := Option.map_eq_some_iff.mp found
    exact ⟨entry, mem_of_find?_eq_some here, h⟩
  · cases h

/-! ## Tables -/

theorem shape_complete {ref : StructRef} (new : σ.layout? ref = none) (layout : Layout) :
    ∀ {ty : CType}, σ.isComplete ty → (σ.complete ref layout).2.shape ty = σ.shape ty
  | .void, _ | .char, _ | .int, _ | .long, _ | .ptr _, _ => rfl
  | .array element length, complete =>
    congrArg (Shape.array · length (.array element length))
      (shape_complete new layout (show σ.isComplete element from complete))
  | .struct other, complete => by
    have different : ref.index ≠ other.index := by
      intro same
      have unknown : σ.layout? other = none := by rw [layout?, ← same]; exact new
      rw [Structs.isComplete, unknown] at complete
      cases complete
    rw [shape, shapeWith, memberShapes_complete new, if_neg different]
    rfl

theorem shapes_complete {ref : StructRef} (new : σ.layout? ref = none) (layout : Layout)
    {fields : List Field} (complete : ∀ field ∈ fields, σ.isComplete field.ty) :
    (σ.complete ref layout).2.shapes fields = σ.shapes fields :=
  map_congr_left fun field mem => by rw [shape_complete new layout (complete field mem)]

/-- A table in which sizes can be added up: the shape of a struct is made of the shapes of its
members, and the struct is no larger than the limit if no member is. -/
structure Measured (σ : Structs) : Prop where
  laid : σ.Laid
  exact : σ.Exact
  unfolds : ∀ ref, memberShapes σ.layouts ref = σ.shapes (σ.fields ref)
  whole : ∀ ref, σ.isComplete (.struct ref) →
    (∀ field ∈ σ.fields ref, σ.extent field.ty ≤ maxObjectSize.toNat) →
    σ.extent (.struct ref) ≤ maxObjectSize.toNat

theorem measured_empty : Measured {} :=
  ⟨⟨nofun, nofun⟩, exact_empty, fun _ => rfl, fun _ complete => nomatch complete⟩

theorem Measured.declare (h : σ.Measured) (tag : Option String) : (σ.declare tag).2.Measured := by
  refine ⟨⟨fun ref layout found => ?_, h.laid.aligned⟩, h.exact.declare h.laid tag, h.unfolds, h.whole⟩
  exact (h.laid.placed ref layout found).of_extends (extends_declare σ tag)

theorem Exact.membersEnd_le (exact : σ.Exact) (laid : σ.Laid) :
    ∀ {members : List (String × CType)} {offset align last widest : UInt32} {fields : List Field},
    offset.toNat ≤ maxObjectSize.toNat →
    Layout.place σ offset align members = some (fields, last, widest) →
    (∀ field ∈ fields, σ.extent field.ty ≤ maxObjectSize.toNat) →
    membersEnd (σ.shapes fields) offset.toNat ≤ maxObjectSize.toNat := by
  intro members
  induction members with
  | nil =>
    intro offset align last widest fields small placed _
    cases placed
    exact small
  | cons member members ih =>
    intro offset align last widest fields small placed each
    obtain ⟨name, ty⟩ := member
    simp only [Layout.place, do_eq_some, Option.pure_def] at placed
    obtain ⟨stop, added, ⟨fields', last', widest'⟩, rest, same⟩ := placed
    cases same
    rw [forall_mem_cons] at each
    unfold Layout.addSize at added
    split at added
    · rename_i fits
      cases added
      obtain ⟨pos, le⟩ := laid.align ty
      have start := toNat_alignTo small pos (by omega)
      have stop : (alignTo offset (σ.align ty) + σ.size ty).toNat =
          roundUp offset.toNat (σ.shape ty).alignment + (σ.shape ty).extent := by
        have bound : maxObjectSize.toNat = 2147483647 := rfl
        rw [UInt32.toNat_add, Nat.mod_eq_of_lt (by omega), start, (exact ty).align,
          (exact ty).size (lt_of_le_max each.1)]
        rfl
      have sum : (alignTo offset (σ.align ty) + σ.size ty).toNat ≤ maxObjectSize.toNat := by
        rw [UInt32.toNat_add]
        exact Nat.le_trans (Nat.mod_le _ _) fits
      have others := ih sum rest each.2
      rw [stop] at others
      exact others
    · cases added

theorem Exact.extent_compute_le (exact : σ.Exact) (laid : σ.Laid) {members : List (String × CType)}
    {layout : Layout} (complete : ∀ member ∈ members, σ.isComplete member.2)
    (computed : Layout.compute σ members = some layout)
    (each : ∀ field ∈ layout.fields, σ.extent field.ty ≤ maxObjectSize.toNat) (ty : CType) :
    (Shape.struct (σ.shapes layout.fields) ty).extent ≤ maxObjectSize.toNat := by
  have strict := (exact.compute laid complete computed ty).1
  simp only [Layout.compute, do_eq_some] at computed
  obtain ⟨⟨fields, last, align⟩, placed, computed⟩ := computed
  obtain ⟨-, bound, pos, le⟩ := laid.place complete (by decide) (by decide) (by decide) placed
  split at computed
  · rename_i checked
    cases computed
    have inside := exact.membersEnd_le laid (by decide) placed each
    have last := ((exact.place laid (by decide) placed).2 (lt_of_le_max inside)).1
    have rounded := toNat_alignTo bound pos (by omega)
    rw [last, strict] at rounded
    rw [UInt32.le_iff_toNat_le, rounded] at checked
    exact checked
  · cases computed

/-- Sizes can still be added up when a struct is completed. -/
theorem Measured.complete (h : σ.Measured) (ref : StructRef) {members : List (String × CType)}
    {layout : Layout} (complete : ∀ member ∈ members, σ.isComplete member.2)
    (computed : Layout.compute σ members = some layout) : (σ.complete ref layout).2.Measured := by
  have laid := h.laid.complete ref complete computed
  have exact := h.exact.complete h.laid ref complete computed
  cases new : σ.layout? ref with
  | some _ =>
    rw [Structs.complete, new]
    exact h
  | none =>
    have known := layout?_complete new layout
    have placed := (h.laid.compute complete computed).1.isComplete
    have unfolds : ∀ other, memberShapes (σ.complete ref layout).2.layouts other =
        (σ.complete ref layout).2.shapes ((σ.complete ref layout).2.fields other) := by
      intro other
      rw [memberShapes_complete new, fields, known]
      split
      · exact (shapes_complete new layout placed).symm
      · rw [h.unfolds]
        exact (shapes_complete new layout (h.laid.isComplete other)).symm
    refine ⟨laid, exact, unfolds, fun other whole each => ?_⟩
    rw [extent, shape, shapeWith, unfolds]
    rw [fields, known] at each ⊢
    by_cases same : ref.index = other.index
    · rw [if_pos same] at each ⊢
      rw [shapes_complete new layout placed]
      refine h.exact.extent_compute_le h.laid complete computed (fun field mem => ?_) _
      have small := each field mem
      rwa [extent, shape_complete new layout (placed field mem)] at small
    · rw [if_neg same] at each ⊢
      have inside := h.laid.isComplete other
      rw [Structs.isComplete, known, if_neg same] at whole
      have old := h.whole other whole fun field mem => by
        have small := each field mem
        rwa [extent, shape_complete new layout (inside field mem)] at small
      rw [extent, shape, shapeWith, h.unfolds, ← shapes_complete new layout inside] at old
      exact old

/-! ## Extents -/

theorem extent_array (σ : Structs) (element : CType) (length : UInt32) :
    σ.extent (.array element length) = σ.extent element * length.toNat := rfl

theorem toNat_pos_of_ne_zero {length : UInt32} (some : length ≠ 0) : 1 ≤ length.toNat := by
  have := mt UInt32.toNat_inj.mp some
  rw [UInt32.toNat_zero] at this
  omega

theorem extent_le_membersEnd {field : Field} : ∀ {fields : List Field} {offset : Nat},
    field ∈ fields → σ.extent field.ty ≤ membersEnd (σ.shapes fields) offset := by
  intro fields
  induction fields with
  | nil => exact fun mem => nomatch mem
  | cons first rest ih =>
    intro offset mem
    change _ ≤ membersEnd (σ.shapes rest)
      (roundUp offset (σ.shape first.ty).alignment + σ.extent first.ty)
    rcases mem_cons.mp mem with rfl | mem
    · exact Nat.le_trans (Nat.le_add_left _ _) (Shape.le_membersEnd _ _)
    · exact ih mem

theorem Measured.extent_struct (h : σ.Measured) (ref : StructRef) :
    σ.extent (.struct ref) = (Shape.struct (σ.shapes (σ.fields ref)) (.struct ref)).extent := by
  rw [extent, shape, shapeWith, h.unfolds]

theorem Contains.extent_le (h : σ.Measured) {ty part : CType} (contains : σ.Contains ty part) :
    σ.extent part ≤ σ.extent ty := by
  induction contains with
  | self => exact Nat.le_refl _
  | element some _ ih =>
    rw [extent_array]
    exact Nat.le_trans ih (Nat.le_mul_of_pos_right _ (toNat_pos_of_ne_zero some))
  | @member ref field _ mem _ ih =>
    rw [h.extent_struct, Shape.extent]
    exact Nat.le_trans ih (Nat.le_trans (extent_le_membersEnd mem) (le_roundUp (Shape.strictest_pos _)))

/-- An array passes the check of its size in a table in which its element is complete. -/
def Passes (σ : Structs) (element : CType) (length : UInt32) : Prop :=
  σ.isComplete element ∧ σ.checkedArray element length = some (.array element length)

theorem checkedArray_eq_some_iff {element : CType} {length : UInt32} :
    σ.checkedArray element length = some (.array element length) ↔
      (σ.size element).toNat * length.toNat ≤ maxObjectSize.toNat := by
  unfold checkedArray
  split <;> simp_all

theorem Measured.passes (h : σ.Measured) {element : CType} {length : UInt32}
    (complete : σ.isComplete element)
    (small : σ.extent (.array element length) ≤ maxObjectSize.toNat) : σ.Passes element length := by
  refine ⟨complete, checkedArray_eq_some_iff.mpr ?_⟩
  by_cases none : length = 0
  · subst none
    exact Nat.zero_le _
  · rw [extent_array] at small
    have inner := Nat.le_trans (Nat.le_mul_of_pos_right _ (toNat_pos_of_ne_zero none)) small
    rwa [(h.exact element).size (lt_of_le_max inner)]

/-- An object keeps to the limit if each of its arrays has passed the check. -/
theorem Measured.extent_le (h : σ.Measured) {ty : CType} (complete : σ.isComplete ty)
    (passed : ∀ element length, σ.Contains ty (.array element length) →
      ∃ earlier : Structs, earlier.Extends σ ∧ earlier.Passes element length) :
    σ.extent ty ≤ maxObjectSize.toNat := by
  -- shapes are finite, and the shape of a part is smaller than that of the whole
  induction size : sizeOf (σ.shape ty) using Nat.strongRecOn generalizing ty with
  | ind n ih =>
    subst size
    cases ty with
    | void | char | int | long | ptr => exact Nat.le_of_ble_eq_true rfl
    | array element length =>
      rw [extent_array]
      by_cases none : length = 0
      · subst none
        exact Nat.zero_le _
      · have smaller : sizeOf (σ.shape element) < sizeOf (σ.shape (.array element length)) := by
          change _ < sizeOf (Shape.array (σ.shape element) length _)
          simp
          omega
        have inner : σ.extent element ≤ maxObjectSize.toNat :=
          ih _ smaller (show σ.isComplete element from complete)
            (fun e l part => passed e l (.element none part)) rfl
        obtain ⟨earlier, extended, known, checked⟩ := passed element length (.self _)
        rw [checkedArray_eq_some_iff, ← (extended.same known).2.1] at checked
        rwa [← (h.exact element).size (lt_of_le_max inner)]
    | struct ref =>
      refine h.whole ref complete fun field mem => ?_
      have smaller : sizeOf (σ.shape field.ty) < sizeOf (σ.shape (.struct ref)) := by
        have part : (field, σ.shape field.ty) ∈ σ.shapes (σ.fields ref) := mem_map_of_mem mem
        have := sizeOf_lt_of_mem part
        change _ < sizeOf (Shape.struct (memberShapes σ.layouts ref) _)
        rw [h.unfolds]
        simp at this ⊢
        omega
      exact ih _ smaller (h.laid.isComplete ref field mem)
        (fun e l part => passed e l (.member mem part)) rfl

end Structs

/-! ## Parsed programs -/

namespace ParseState

theorem Target.measured {s t : ParseState} {ref : StructRef} (target : Target s ref t)
    (h : s.structs.Measured) : t.structs.Measured := by
  cases target with
  | known => exact h
  | fresh tag => exact h.declare tag

theorem Change.measured {s s' : ParseState} (change : Change s s') (h : s.structs.Measured) :
    s'.structs.Measured := by
  cases change with
  | intern bytes =>
    unfold ParseState.intern
    split <;> exact h
  | declareStruct tag => exact h.declare tag
  | define global _ _ defined => rwa [defineGlobal_structs defined]
  | _ => exact h

theorem Reaches.measured {s s' : ParseState} (reaches : s.Reaches s') :
    s.structs.Measured → s'.structs.Measured := by
  induction reaches with
  | refl => exact id
  | tail _ change ih => exact fun h => change.measured (ih h)
  | block _ _ before inside => exact fun h => inside (before h)
  | body _ target _ members computed before inside =>
    exact fun h => (inside (target.measured (before h))).complete _ members computed

end ParseState

namespace Program

/-- The types of the objects of a program: its globals, the locals of its functions, and the members
of its structs. -/
def objects (p : Program) : List CType :=
  p.globals.map (·.ty) ++ p.functions.flatMap (fun f => f.locals.map (·.ty)) ++
    p.structs.layouts.flatMap fun entry => entry.2.fields.map (·.ty)

theorem Built.objects {constants : List Int64} {p : Program} (h : p.Built constants) :
    ∀ ty ∈ p.objects, p.structs.Checked ty := by
  intro ty mem
  rcases mem_append.mp mem with mem | mem
  · rcases mem_append.mp mem with mem | mem
    · obtain ⟨global, inside, rfl⟩ := mem_map.mp mem
      exact h.globals global inside
    · obtain ⟨f, inside, mem⟩ := mem_flatMap.mp mem
      obtain ⟨v, declared, rfl⟩ := mem_map.mp mem
      exact (h.functions f inside).checked v declared
  · obtain ⟨entry, inside, mem⟩ := mem_flatMap.mp mem
    obtain ⟨field, declared, rfl⟩ := mem_map.mp mem
    exact h.fields entry inside field declared

/-- **Which objects keep to the limit.** Every array in an object of a program that parses passed the
check of its size in an earlier table of struct types; that says little of an array of structs, as a
struct has no size in a table in which it is not complete, and the rest is about those. If the object has a complete type, it is no
larger than the limit if and only if every array in it passes the check in a table in which its
element is complete. So only an array that was written before its element was complete can exceed the
limit. An object that keeps to the limit has exactly the size that is computed for it, and no product
in that size is too large for a word. -/
theorem within_limit_iff {source : Source} {tokens : List Lexed} {p : Program}
    (parsed : Program.parse source tokens = .ok p) : ∀ ty ∈ p.objects,
    (∀ element length, p.structs.Contains ty (.array element length) →
      ∃ earlier : Structs, earlier.Extends p.structs ∧
        earlier.checkedArray element length = some (.array element length)) ∧
    (p.structs.isComplete ty → (p.structs.extent ty ≤ maxObjectSize.toNat ↔
        ∀ element length, p.structs.Contains ty (.array element length) →
          ∃ earlier : Structs, earlier.Extends p.structs ∧ earlier.Passes element length) ∧
      (p.structs.extent ty ≤ maxObjectSize.toNat →
        (p.structs.size ty).toNat = p.structs.extent ty ∧ p.structs.Sized ty)) := by
  intro ty object
  obtain ⟨s, reaches, -, -, -, structs⟩ := Program.parse_reaches parsed
  have measured : p.structs.Measured := structs ▸ reaches.measured Structs.measured_empty
  have built := Program.parse_built parsed
  refine ⟨fun element length contains => ?_, fun complete => ⟨⟨fun small element length contains => ?_,
    measured.extent_le complete⟩, fun small => ?_⟩⟩
  · refine (contains.checked (fun ref field mem => ?_) (built.objects ty object)).2
    obtain ⟨entry, inside, mem⟩ := Structs.mem_layouts_of_mem_fields mem
    exact built.fields entry inside field mem
  · refine ⟨p.structs, .refl _, measured.passes (contains.isComplete measured.laid complete) ?_⟩
    exact Nat.le_trans (contains.extent_le measured) small
  · have small := Structs.lt_of_le_max small
    exact ⟨(measured.exact ty).size small, (measured.exact ty).sized small⟩

/-! ## Examples -/

def extents? (source : Source) : Option (List (CType × Nat)) :=
  (Program.parse source source.tokens).toOption.map fun p =>
    (p.objects.filter p.structs.isComplete).map fun ty => (ty, p.structs.extent ty)

theorem extents?_eq_some {source : Source} {sizes : List (CType × Nat)}
    (h : extents? source = some sizes) : ∃ p, Program.parse source source.tokens = .ok p ∧
      ∀ entry ∈ sizes, entry.1 ∈ p.objects ∧ p.structs.isComplete entry.1 ∧
        p.structs.extent entry.1 = entry.2 := by
  obtain ⟨p, parsed, rfl⟩ := Option.map_eq_some_iff.mp h
  refine ⟨p, ?_, fun entry mem => ?_⟩
  · cases made : Program.parse source source.tokens with
    | error e => rw [made] at parsed; cases parsed
    | ok q => rw [made] at parsed; cases parsed; rfl
  · obtain ⟨ty, kept, rfl⟩ := mem_map.mp mem
    obtain ⟨object, complete⟩ := mem_filter.mp kept
    exact ⟨object, complete, rfl⟩

/-- An array of structs that is written before the struct is complete, and is small enough. -/
def early : Source := ⟨"s.c", "struct S; typedef struct S T[1000]; struct S \x7b char b[3]; \x7d; T x;"⟩

theorem early_extents : extents? early =
    some [(.array (.struct ⟨0, some "S"⟩) 1000, 3000), (.array .char 3, 3)] := by decide +kernel

theorem within_limit_early : ∃ p, Program.parse early early.tokens = .ok p ∧
    .array (.struct ⟨0, some "S"⟩) 1000 ∈ p.objects ∧
    (p.structs.size (.array (.struct ⟨0, some "S"⟩) 1000)).toNat = 3000 ∧
    ∃ earlier : Structs, earlier.Extends p.structs ∧
      earlier.Passes (.struct ⟨0, some "S"⟩) 1000 := by
  obtain ⟨p, parsed, sizes⟩ := extents?_eq_some early_extents
  obtain ⟨object, complete, extent⟩ := sizes _ mem_cons_self
  have small : p.structs.extent (.array (.struct ⟨0, some "S"⟩) 1000) ≤ maxObjectSize.toNat := by
    rw [extent]
    decide
  obtain ⟨limit, exact⟩ := (within_limit_iff parsed _ object).2 complete
  exact ⟨p, parsed, object, (exact small).1.trans extent, limit.mp small _ _ (.self _)⟩

def oversized : Source :=
  ⟨"s.c", "struct S; typedef struct S T[1000000000]; struct S \x7b char b[3]; \x7d; T x;"⟩

theorem oversized_extents : extents? oversized =
    some [(.array (.struct ⟨0, some "S"⟩) 1000000000, 3000000000), (.array .char 3, 3)] := by
  decide +kernel

/-- An object that is larger than the limit. -/
theorem limit_exceeded : ∃ p ty, Program.parse oversized oversized.tokens = .ok p ∧
    ty ∈ p.objects ∧ p.structs.isComplete ty ∧ maxObjectSize.toNat < p.structs.extent ty := by
  obtain ⟨p, parsed, sizes⟩ := extents?_eq_some oversized_extents
  obtain ⟨object, complete, extent⟩ := sizes _ mem_cons_self
  refine ⟨p, _, parsed, object, complete, ?_⟩
  rw [extent]
  decide

end Program

end MiniC
