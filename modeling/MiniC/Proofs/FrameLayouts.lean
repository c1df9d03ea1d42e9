import MiniC.Proofs.ObjectSizes
import MiniC.Proofs.StructLayouts
import MiniC.Proofs.Typing.Typed
import Mathlib

/-!
# The layout of stack frames

Locals are placed below the frame pointer in 32-bit words. The end of each one is checked against a
limit that is sixteen bytes below the largest object, so what is rounded up afterwards stays a
distance that an instruction can hold: alignments are one, four or eight, which all divide the number
after the limit.

`Frame.ends` are the ends before they are rounded, in numbers without a bound. A frame is refused
exactly if one of them is beyond the limit. Every other frame is `Lawful`: its locals are aligned,
apart from each other and inside.
-/

namespace MiniC

open List

/-! ## Alignments -/

namespace Shape

mutual
theorem alignment_options : (shape : Shape) →
    shape.alignment = 1 ∨ shape.alignment = 4 ∨ shape.alignment = 8
  | .scalar ty => by cases ty <;> simp [alignment, scalarExtent]
  | .array element _ _ => element.alignment_options
  | .struct members _ => strictest_options members
theorem strictest_options : (members : List (Field × Shape)) →
    strictest members = 1 ∨ strictest members = 4 ∨ strictest members = 8
  | [] => .inl rfl
  | (_, shape) :: members => by
    have := shape.alignment_options
    have := strictest_options members
    rw [strictest]
    omega
end

end Shape

def Structs.Aligned (σ : Structs) : Prop :=
  ∀ ty, (σ.align ty).toNat = 1 ∨ (σ.align ty).toNat = 4 ∨ (σ.align ty).toNat = 8

theorem Structs.Exact.aligned {σ : Structs} (exact : σ.Exact) : σ.Aligned := fun ty => by
  rw [(exact ty).align]
  exact Shape.alignment_options _

theorem Program.parse_measured {source : Source} {tokens : List Lexed} {p : Program}
    (parsed : Program.parse source tokens = .ok p) : p.structs.Measured := by
  obtain ⟨s, reaches, -, -, -, structs⟩ := Program.parse_reaches parsed
  exact structs ▸ reaches.measured Structs.measured_empty

namespace Frame

variable {σ : Structs}

def highest : Nat := 2 ^ 31 - 16

theorem next_offset (aligned : σ.Aligned) {offset : UInt32} {ty : CType}
    (fits : offset.toNat + (σ.size ty).toNat ≤ limit.toNat) :
    (offset + σ.size ty).toNat = offset.toNat + (σ.size ty).toNat ∧
    Checked.alignTo (offset + σ.size ty) (σ.align ty) = .ok (alignTo (offset + σ.size ty) (σ.align ty)) ∧
    (alignTo (offset + σ.size ty) (σ.align ty)).toNat =
      roundUp (offset.toNat + (σ.size ty).toNat) (σ.align ty).toNat ∧
    roundUp (offset.toNat + (σ.size ty).toNat) (σ.align ty).toNat ≤ highest := by
  have bound : maxObjectSize.toNat = 2147483647 := rfl
  have most : limit.toNat = 2147483631 := rfl
  have options := aligned ty
  have sum : (offset + σ.size ty).toNat = offset.toNat + (σ.size ty).toNat := by
    rw [UInt32.toNat_add]
    omega
  refine ⟨sum, Checked.alignTo_eq (by omega) (by omega) (by omega), ?_, ?_⟩
  · rw [toNat_alignTo (by omega) (by omega) (by omega), sum]
  · refine (isNext_roundUp (by omega) _).2 ⟨?_, ?_⟩
    · rw [highest]
      omega
    · rcases options with same | same | same <;> rw [same] <;> decide

/-- Locals are placed one after the other, each aligned, and none overlap. -/
theorem place_apart (aligned : σ.Aligned) (vars : List Var) :
    ∀ ⦃offset last : UInt32⦄ ⦃placed : List Var⦄, place σ offset vars = some (placed, last) →
      offset.toNat ≤ highest →
      placed.map (·.ty) = vars.map (·.ty) ∧ offset.toNat ≤ last.toNat ∧ last.toNat ≤ highest ∧
      (∀ v ∈ placed, (σ.align v.ty).toNat ∣ v.offset.toNat ∧
        offset.toNat + (σ.size v.ty).toNat ≤ v.offset.toNat ∧ v.offset.toNat ≤ last.toNat) ∧
      placed.Pairwise fun v w => v.offset.toNat + (σ.size w.ty).toNat ≤ w.offset.toNat := by
  induction vars with
  | nil =>
    intro offset last placed h small
    cases h
    exact ⟨rfl, Nat.le_refl _, small, forall_mem_nil _, .nil⟩
  | cons v rest ih =>
    intro offset last placed h small
    rw [place] at h
    split at h
    next fits =>
      simp only [do_eq_some] at h
      obtain ⟨⟨rest', last'⟩, found, same⟩ := h
      cases same
      dsimp only
      obtain ⟨-, -, rounded, low⟩ := next_offset aligned fits
      rw [← rounded] at low
      obtain ⟨types, first, bound, each, apart⟩ := ih found low
      have pos : 1 ≤ (σ.align v.ty).toNat := by
        have := aligned v.ty
        omega
      obtain ⟨⟨above, multiple⟩, -⟩ :=
        isNext_roundUp pos (offset.toNat + (σ.size v.ty).toNat)
      rw [← rounded] at above multiple
      refine ⟨by rw [map_cons, map_cons, types], by omega, bound,
        forall_mem_cons.mpr ⟨⟨multiple, above, first⟩, fun w mem => ?_⟩,
        .cons (fun w mem => (each w mem).2.1) apart⟩
      obtain ⟨multiple, below, le⟩ := each w mem
      exact ⟨multiple, by omega, le⟩
    next => cases h

def ends (σ : Structs) : Nat → List Var → List Nat
  | _, [] => []
  | offset, v :: rest =>
    let stop := offset + σ.extent v.ty
    stop :: ends σ (roundUp stop (σ.align v.ty).toNat) rest

theorem place_eq_none_iff (aligned : σ.Aligned) (vars : List Var)
    (exact : ∀ v ∈ vars, (σ.size v.ty).toNat = σ.extent v.ty) : ∀ offset : UInt32,
    place σ offset vars = none ↔ ∃ stop ∈ ends σ offset.toNat vars, limit.toNat < stop := by
  induction vars with
  | nil => simp [place, ends]
  | cons v rest ih =>
    intro offset
    obtain ⟨here, others⟩ := forall_mem_cons.mp exact
    rw [place, ends]
    simp only [exists_mem_cons_iff, ← here]
    split
    next fits =>
      obtain ⟨-, -, rounded, -⟩ := next_offset aligned fits
      rw [← rounded, ← ih others]
      cases place σ (alignTo (offset + σ.size v.ty) (σ.align v.ty)) rest with
      | none => simp
      | some answer => simpa using fits
    next beyond => exact ⟨fun _ => .inl (Nat.lt_of_not_le beyond), fun _ => rfl⟩

end Frame

/-! ## Nothing is out of range -/

namespace Checked

/-- Places locals below the first `offset` bytes of a frame, with a check of every operation. -/
def placeLocals (σ : Structs) (offset : UInt32) :
    List Var → Except Fault (Option (List Var × UInt32))
  | [] => return some ([], offset)
  | v :: rest =>
    if offset.toNat + (σ.size v.ty).toNat ≤ Frame.limit.toNat then do
      let stop ← add offset (σ.size v.ty)
      let offset ← alignTo stop (σ.align v.ty)
      let some (rest, last) ← placeLocals σ offset rest | return none
      return some ({ v with offset } :: rest, last)
    else return none

def frame (σ : Structs) (f : Function) : Except Fault (Option Function) := do
  let some (locals, last) ← placeLocals σ 0 f.locals | return none
  let stackSize ← alignTo last 16
  return some { f with locals, stackSize }

variable {σ : Structs}

theorem placeLocals_eq (aligned : σ.Aligned) (vars : List Var) : ∀ offset : UInt32,
    placeLocals σ offset vars = .ok (Frame.place σ offset vars) := by
  induction vars with
  | nil => exact fun _ => rfl
  | cons v rest ih =>
    intro offset
    rw [placeLocals, Frame.place]
    split
    next fits =>
      obtain ⟨sum, rounded, -, -⟩ := Frame.next_offset aligned fits
      have most : Frame.limit.toNat = 2147483631 := rfl
      have added : add offset (σ.size v.ty) = .ok (offset + σ.size v.ty) := if_pos (by omega)
      simp only [added, rounded, ih, bind, Except.bind]
      cases Frame.place σ (MiniC.alignTo (offset + σ.size v.ty) (σ.align v.ty)) rest <;> rfl
    next => rfl

theorem frame_eq (aligned : σ.Aligned) (f : Function) : frame σ f = .ok (Frame.layout σ f) := by
  simp only [frame, Frame.layout, placeLocals_eq aligned, bind, Except.bind]
  cases placed : Frame.place σ 0 f.locals with
  | none => rfl
  | some answer =>
    obtain ⟨locals, last⟩ := answer
    obtain ⟨-, -, low, -⟩ := Frame.place_apart aligned f.locals placed (by decide)
    have bound : maxObjectSize.toNat = 2147483647 := rfl
    have rounded : alignTo last 16 = .ok (MiniC.alignTo last 16) :=
      alignTo_eq (by rw [Frame.highest] at low; omega) (by decide) (by decide)
    simp only [rounded, Option.bind_some]
    rfl

end Checked

/-! ## The law of frames -/

namespace Frame

def bytes (σ : Structs) (base : Int) (v : Var) : Set Int :=
  Set.Ico (base - v.offset.toNat) (base - v.offset.toNat + σ.extent v.ty)

/-- The locals of a function are aligned, apart from each other and inside its frame, which is aligned
and has only distances that fit into four bytes with a sign. -/
structure Lawful (σ : Structs) (f : Function) : Prop where
  aligned : ∀ v ∈ f.locals, (σ.align v.ty).toNat ∣ v.offset.toNat
  apart : ∀ (base : Int) (i j : Nat) (v w : Var), i ≠ j → f.locals[i]? = some v →
    f.locals[j]? = some w → Disjoint (bytes σ base v) (bytes σ base w)
  inside : ∀ base, ∀ v ∈ f.locals, bytes σ base v ⊆ Set.Ico (base - f.stackSize.toNat) base
  multiple : 16 ∣ f.stackSize.toNat
  bounded : f.stackSize.toNat ≤ 2 ^ 31 - 16
  reachable : ∀ v ∈ f.locals, -2 ^ 31 ≤ -(v.offset.toNat : Int)

variable {σ : Structs}

/-- A layout that is found keeps the law. -/
theorem lawful_of_layout (aligned : σ.Aligned) {f g : Function}
    (exact : ∀ v ∈ f.locals, (σ.size v.ty).toNat = σ.extent v.ty) (made : layout σ f = some g) :
    g.locals.map (·.ty) = f.locals.map (·.ty) ∧ Lawful σ g := by
  simp only [layout, do_eq_some] at made
  obtain ⟨⟨locals, last⟩, placed, same⟩ := made
  cases same
  obtain ⟨types, -, low, each, apart⟩ := place_apart aligned f.locals placed (by decide)
  have exact : ∀ v ∈ locals, (σ.size v.ty).toNat = σ.extent v.ty := by
    intro v mem
    have known : v.ty ∈ f.locals.map (·.ty) := types ▸ mem_map_of_mem mem
    obtain ⟨w, declared, same⟩ := mem_map.mp known
    rw [← same]
    exact exact w declared
  have bound : maxObjectSize.toNat = 2147483647 := rfl
  have size : (alignTo last 16).toNat = roundUp last.toNat 16 :=
    toNat_alignTo (by rw [highest] at low; omega) (by decide) (by decide)
  obtain ⟨⟨above, multiple⟩, least⟩ := isNext_roundUp (by decide : 1 ≤ 16) last.toNat
  have most : roundUp last.toNat 16 ≤ 2 ^ 31 - 16 := least ⟨low, by decide⟩
  refine ⟨types, fun v mem => (each v mem).1, fun base => ?_, fun base v mem => ?_, ?_, ?_,
    fun v mem => ?_⟩
  · -- of two locals, the one that was placed later ends where the other one starts, or below
    have later : ∀ (i j : Nat) (v w : Var), i < j → locals[i]? = some v → locals[j]? = some w →
        Disjoint (bytes σ base v) (bytes σ base w) := by
      intro i j v w lt found found'
      obtain ⟨first, rfl⟩ := List.getElem?_eq_some_iff.mp found
      obtain ⟨second, rfl⟩ := List.getElem?_eq_some_iff.mp found'
      have below := pairwise_iff_getElem.mp apart i j first second lt
      rw [exact _ (getElem_mem _)] at below
      refine Set.disjoint_left.mpr fun a first second => ?_
      have := first.1
      have := second.2
      omega
    intro i j v w ne found found'
    rcases Nat.lt_or_gt_of_ne ne with lt | gt
    · exact later i j v w lt found found'
    · exact (later j i w v gt found' found).symm
  · obtain ⟨-, below, le⟩ := each v mem
    rw [exact v mem] at below
    rintro a ⟨first, second⟩
    change _ ≤ a ∧ a < base
    dsimp only
    rw [size]
    change (0 : Nat) + _ ≤ _ at below
    omega
  · exact size ▸ multiple
  · exact size ▸ most
  · have := (each v mem).2.2
    rw [highest] at low
    omega

/-- **The law of frames.** In a frame with the locals of a parsed program, none of them larger than
the largest object, the locals are aligned, apart from each other and inside, and no operation on
words is out of range. There is no such frame exactly if some local ends beyond the limit before it is
rounded; the function is then refused as too large. -/
theorem layout_law {source : Source} {tokens : List Lexed} {p : Program}
    (parsed : Program.parse source tokens = .ok p) (f : Function)
    (small : ∀ v ∈ f.locals, p.structs.extent v.ty ≤ maxObjectSize.toNat) :
    (∀ g, layout p.structs f = some g →
      g.locals.map (·.ty) = f.locals.map (·.ty) ∧ Lawful p.structs g) ∧
    (layout p.structs f = none ↔ ∃ stop ∈ ends p.structs 0 f.locals, limit.toNat < stop) ∧
    Checked.frame p.structs f = .ok (layout p.structs f) ∧
    (f.params.length ≤ maxArguments → Typing.passesStruct f = false →
      ∀ Γ : Typing.Context, Γ.structs = p.structs → layout p.structs f = none →
        Typing.function Γ f = Typing.fail (.frameTooLarge f.name) f.loc) := by
  have measured := Program.parse_measured parsed
  have aligned := measured.exact.aligned
  have exact : ∀ v ∈ f.locals, (p.structs.size v.ty).toNat = p.structs.extent v.ty :=
    fun v mem => (measured.exact v.ty).size (Structs.lt_of_le_max (small v mem))
  refine ⟨fun g made => lawful_of_layout aligned exact made, ?_, Checked.frame_eq aligned f,
    fun few plain Γ structs none => ?_⟩
  · rw [← UInt32.toNat_zero, ← place_eq_none_iff aligned f.locals exact, layout]
    cases place p.structs 0 f.locals <;> simp
  · rw [Typing.function, if_neg (Nat.not_lt.mpr few), plain, structs, none]
    rfl

/-! ## An example -/

def mixed : Source := ⟨"f.c", "int main() \x7b char c; int i; long l; char s[3]; return 0; \x7d"⟩

def laidOut? (source : Source) : Option (Program × Function × Function) := do
  let p ← (Program.parse source source.tokens).toOption
  let f ← p.functions.head?
  return (p, f, ← layout p.structs f)

theorem laidOut?_mixed : ((laidOut? mixed).map fun x =>
    (x.2.1.locals.map fun v => x.1.structs.extent v.ty, x.2.2.locals.map fun v => v.offset,
      x.2.2.stackSize)) = some ([1, 4, 8, 3], [1, 8, 16, 19], 32) := by decide +kernel

theorem layout_law_mixed : ∃ p f g, Program.parse mixed mixed.tokens = .ok p ∧ f ∈ p.functions ∧
    (∀ v ∈ f.locals, p.structs.extent v.ty ≤ maxObjectSize.toNat) ∧ layout p.structs f = some g ∧
    (g.locals.map fun v => v.offset) = [1, 8, 16, 19] ∧ g.stackSize = 32 ∧ Lawful p.structs g := by
  obtain ⟨_, found, same⟩ := Option.map_eq_some_iff.mp laidOut?_mixed
  simp only [laidOut?, do_eq_some, Option.pure_def,
    Option.some.injEq] at found
  obtain ⟨p, parsed, f, first, g, made, rfl⟩ := found
  simp only [Prod.mk.injEq] at same
  have parsed := eq_ok_of_toOption parsed
  have small : ∀ v ∈ f.locals, p.structs.extent v.ty ≤ maxObjectSize.toNat := by
    intro v mem
    have size : p.structs.extent v.ty ∈ [1, 4, 8, 3] := same.1 ▸ mem_map_of_mem mem
    revert size
    generalize p.structs.extent v.ty = n
    revert n
    decide
  exact ⟨p, f, g, parsed, mem_of_head? first, small, made, same.2.1, same.2.2,
    ((layout_law parsed f small).1 g made).2⟩

end Frame

end MiniC
