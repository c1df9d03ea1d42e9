import Mathlib.Data.List.Nodup
import MiniC.Proofs.DataSection

/-!
# What the body of a struct says

`DeclaredMembers` reads the members of a body from front to back. The layout of a struct comes
from the members of its body, in order, and it stays as long as there are struct types.

A struct is known inside its own body, and a body that is nested there may complete it first. The
members of the outer body are then lost, since a struct is completed only once. Two members of one
name are allowed, and the name stands for the first of them. And a tag that names a complete struct
may get another body once an enumeration has taken the tag.
-/

namespace MiniC

open Parse Grammar

/-! ## Members -/

/-- Declarators of members of a type, from `s` to `t`. -/
inductive DeclaredLine (below : Below) (base : CType) :
    ParseState → List (String × CType) → ParseState → Prop
  | last {s t u : ParseState} {name : Located String} {ty : CType} :
    declarator below base s = .ok (name, ty) t → t.structs.isComplete ty →
    eat .comma t = .ok false u → DeclaredLine below base s [(name.value, ty)] u
  | more {s t u v : ParseState} {name : Located String} {ty : CType}
      {members : List (String × CType)} :
    declarator below base s = .ok (name, ty) t → t.structs.isComplete ty →
    eat .comma t = .ok true u → DeclaredLine below base u members v →
    DeclaredLine below base s ((name.value, ty) :: members) v

/-- Lines of members up to the closing brace, from `s` to `t`. -/
inductive DeclaredMembers (below : Below) :
    ParseState → List (String × CType) → ParseState → Prop
  | close {s t : ParseState} : eat .closeCurly s = .ok true t → DeclaredMembers below s [] t
  | line {s t u v w x : ParseState} {spec : DeclSpec} {line rest : List (String × CType)} :
    eat .closeCurly s = .ok false t → below.declSpec t = .ok spec u →
    DeclaredLine below spec.ty u line v → expect .semicolon v = .ok () w →
    DeclaredMembers below w rest x → DeclaredMembers below s (line ++ rest) x

namespace Grammar

variable {below : Below}

variable {base : CType} {members : List (String × CType)}
  {r : Round (List (String × CType)) (List (String × CType))} {s t : ParseState}

theorem memberDeclarator_ok (run : memberDeclarator below base members s = .ok r t) :
    ∃ name ty u comma, declarator below base s = .ok (name, ty) u ∧ u.structs.isComplete ty ∧
      eat .comma u = .ok comma t ∧
      r = if comma then .more ((name.value, ty) :: members) else .done ((name.value, ty) :: members) := by
  obtain ⟨⟨name, ty⟩, u, declared, run⟩ := bind_ran.mp run
  obtain ⟨_, _, got, run⟩ := bind_ran.mp run
  cases got
  by_cases complete : u.structs.isComplete ty = true
  · simp only [complete, if_true] at run
    obtain ⟨comma, v, eaten, run⟩ := bind_ran.mp run
    refine ⟨name, ty, u, comma, declared, complete, ?_⟩
    cases comma <;> cases run <;> exact ⟨eaten, rfl⟩
  · simp only [complete] at run
    cases run

theorem memberDeclarators_ok {stuck : SyntaxError} (rounds : Nat) {all : List (String × CType)}
    (run : iterate stuck rounds (memberDeclarator below base) members s = .ok all t) :
    ∃ line, DeclaredLine below base s line t ∧ all = line.reverse ++ members := by
  induction rounds generalizing members s with
  | zero => cases run
  | succ rounds ih =>
    obtain ⟨r, u, round, run⟩ := bind_ran.mp run
    obtain ⟨name, ty, v, comma, declared, complete, eaten, rfl⟩ := memberDeclarator_ok round
    cases comma with
    | false =>
      cases run
      exact ⟨_, .last declared complete eaten, rfl⟩
    | true =>
      obtain ⟨line, rest, rfl⟩ := ih run
      exact ⟨_, .more declared complete eaten rest, by simp⟩

theorem memberLine_ok (run : memberLine below members s = .ok r t) :
    (eat .closeCurly s = .ok true t ∧ r = .done members.reverse) ∨
    ∃ u v w spec line, eat .closeCurly s = .ok false u ∧ below.declSpec u = .ok spec v ∧
      DeclaredLine below spec.ty v line w ∧ expect .semicolon w = .ok () t ∧
      r = .more (line.reverse ++ members) := by
  obtain ⟨close, u, eaten, run⟩ := bind_ran.mp run
  cases close with
  | true =>
    cases run
    exact .inl ⟨eaten, rfl⟩
  | false =>
    obtain ⟨spec, v, read, run⟩ := bind_ran.mp run
    obtain ⟨all, w, collected, run⟩ := bind_ran.mp run
    obtain ⟨_, x, semicolon, run⟩ := bind_ran.mp run
    obtain ⟨line, declared, rfl⟩ := memberDeclarators_ok _ collected
    cases run
    exact .inr ⟨u, v, w, spec, line, eaten, read, declared, semicolon, rfl⟩

/-- The members of a body are those that its lines declare. -/
theorem structMembers_declared
    (run : structMembers below s = .ok members t) : DeclaredMembers below s members t := by
  suffices all : ∀ (rounds : Nat) {before : List (String × CType)} {s : ParseState},
      iterate below.stuck rounds (memberLine below) before s = .ok members t →
      ∃ rest, DeclaredMembers below s rest t ∧ members = before.reverse ++ rest by
    obtain ⟨rest, declared, rfl⟩ := all _ run
    exact declared
  intro rounds
  induction rounds with
  | zero =>
    intro before s run
    cases run
  | succ rounds ih =>
    intro before s run
    obtain ⟨r, u, round, run⟩ := bind_ran.mp run
    obtain ⟨closed, rfl⟩ | ⟨_, _, _, spec, line, eaten, read, declared, semicolon, rfl⟩ :=
      memberLine_ok round
    · cases run
      exact ⟨[], .close closed, by simp⟩
    · obtain ⟨rest, others, rfl⟩ := ih run
      exact ⟨line ++ rest, .line eaten read declared semicolon others, by simp⟩

end Grammar

/-! ## Layouts -/

namespace Structs

variable {σ σ' : Structs} {ref : StructRef} {layout : Layout}

/-- A struct is what a layout says: it has the members of the layout, and the name of each of them
stands for it. -/
structure IsLaid (σ : Structs) (ref : StructRef) (layout : Layout) : Prop where
  fields : σ.fields ref = layout.fields
  field : ∀ field ∈ layout.fields, σ.field? ref field.name = some field

theorem find?_name_iff {fields : List Field} :
    (∀ field ∈ fields, fields.find? (·.name == field.name) = some field) ↔
      ∀ field ∈ fields, ∀ other ∈ fields, field.name = other.name → field = other := by
  refine ⟨fun found field mem other mem' same => ?_, fun distinct field mem => ?_⟩
  · have first := found field mem
    rw [same, found other mem'] at first
    exact (Option.some.inj first).symm
  · obtain ⟨other, found⟩ : ∃ other, fields.find? (·.name == field.name) = some other :=
      Option.isSome_iff_exists.mp (List.find?_isSome.mpr ⟨field, mem, by simp⟩)
    have same : other.name = field.name := by simpa using List.find?_some found
    rw [found, distinct other (List.mem_of_find?_eq_some found) field mem same]

theorem fields_of_layout? (known : σ.layout? ref = some layout) : σ.fields ref = layout.fields := by
  rw [fields, known]

theorem fields_complete (later : (σ.complete ref layout).2.Extends σ') :
    σ'.fields ref = ((σ.layout? ref).getD layout).fields := by
  cases known : σ.layout? ref with
  | none => exact fields_of_layout? (later ref layout ((layout?_complete known layout ref).trans (if_pos rfl)))
  | some old => exact fields_of_layout? (later ref old (extends_complete σ ref layout ref old known))

theorem isLaid_iff (later : (σ.complete ref layout).2.Extends σ') :
    σ'.IsLaid ref layout ↔
      (∀ old, σ.layout? ref = some old → old.fields = layout.fields) ∧
      ∀ field ∈ layout.fields, ∀ other ∈ layout.fields, field.name = other.name → field = other := by
  have fields := fields_complete later
  have kept : σ'.fields ref = layout.fields ↔
      ∀ old, σ.layout? ref = some old → old.fields = layout.fields := by
    rw [fields]
    cases σ.layout? ref <;> simp
  rw [← find?_name_iff, ← kept]
  refine ⟨fun laid => ⟨laid.fields, fun field mem => ?_⟩, fun ⟨same, found⟩ => ⟨same, fun field mem => ?_⟩⟩
  · rw [← laid.fields]
    exact laid.field field mem
  · rw [field?, same]
    exact found field mem

end Structs

/-! ## Bodies -/

namespace Grammar

def IsComplete (s : ParseState) (tag : String) : Prop :=
  ∃ ref, s.scope.innerTag? tag = some (.struct ref) ∧ (s.structs.layout? ref).isSome

/-- A tag is refused if and only if its struct is complete. -/
theorem structTarget_error_iff (name : Located String) (s : ParseState) :
    structTarget (some name) s = .error ⟨.tagRedefinition name.value, name.loc⟩ s ↔
      IsComplete s name.value := by
  have fresh : ¬declareStruct (some name) s = .error ⟨.tagRedefinition name.value, name.loc⟩ s := by
    intro failed
    cases failed
  rw [structTarget, get_bind, IsComplete]
  rcases s.scope.innerTag? name.value with _ | ty
  · refine iff_of_false fresh ?_
    rintro ⟨_, found, -⟩
    cases found
  · cases ty with
    | struct ref =>
      dsimp only
      split
      · rename_i complete
        exact ⟨fun _ => ⟨ref, rfl, complete⟩, fun _ => rfl⟩
      · rename_i incomplete
        constructor
        · intro failed
          cases failed
        · rintro ⟨_, found, complete⟩
          cases found
          exact absurd complete incomplete
    | _ =>
      refine iff_of_false fresh ?_
      rintro ⟨_, found, -⟩
      cases found

/-- **When a struct is what its body says.** A body that is read completes a struct with the layout
of the members it declares, in order. Whatever is declared later, the struct has these members
and each of their names stands for its own member if and only if the struct was not completed
inside of its body with other members, and no two of the members with the same name differ in
type or offset. A body is refused as a second one exactly if its tag names a complete struct of
the innermost block. -/
theorem structBody_says_iff (n : Nat) (tag : Option (Located String)) (start : Location)
    (s : ParseState) :
    (∀ ty t, structBody (.upTo n) tag start s = .ok ty t →
      ∃ ref u members v layout, structTarget tag s = .ok ref u ∧
        structMembers (.upTo n) u = .ok members v ∧ DeclaredMembers (.upTo n) u members v ∧
        Layout.compute v.structs members = some layout ∧ ty = .struct ref ∧
        layout.fields.map (fun field => (field.name, field.ty)) = members ∧
        ∀ σ, t.structs.Extends σ → (σ.IsLaid ref layout ↔
          (∀ old, v.structs.layout? ref = some old → old.fields = layout.fields) ∧
          ∀ field ∈ layout.fields, ∀ other ∈ layout.fields,
            field.name = other.name → field = other)) ∧
    ∀ name, tag = some name →
      (structTarget tag s = .error ⟨.tagRedefinition name.value, name.loc⟩ s ↔
        IsComplete s name.value) ∧
      (IsComplete s name.value → structBody (.upTo n) tag start s =
        .error ⟨.tagRedefinition name.value, name.loc⟩ s) := by
  refine ⟨fun ty t run => ?_, fun name same => ?_⟩
  · obtain ⟨ref, u, members, v, layout, chosen, read, computed, rfl, rfl⟩ := structBody_eq_ok run
    exact ⟨ref, u, members, v, layout, chosen, read, structMembers_declared read, computed, rfl,
      Layout.compute_members computed, fun σ later => Structs.isLaid_iff later⟩
  · subst same
    refine ⟨structTarget_error_iff name s, fun complete => ?_⟩
    exact bind_error ((structTarget_error_iff name s).mpr complete)

/-! ## Examples -/

def startOf (text : String) : ParseState :=
  { tokens := Source.tokens ⟨"s.c", text⟩, last := .atStart ⟨"s.c", text⟩ }

/-- The names and offsets of the members of a body, those of the struct in the end, and whether it
was complete before the end of the body. -/
def bodyOf (tag : Option (Located String)) (s : ParseState) :
    Option (List (String × UInt32) × List (String × UInt32) × Bool) :=
  match structTarget tag s with
  | .ok ref u =>
    match structMembers (.upTo 20) u with
    | .ok members v => do
      let layout ← Layout.compute v.structs members
      let structs := (v.structs.complete ref layout).2
      return (layout.fields.map fun field => (field.name, field.offset),
        (structs.fields ref).map fun field => (field.name, field.offset),
        (v.structs.layout? ref).isSome)
    | .error .. => none
  | .error .. => none

theorem bodyOf_some {tag : Option (Located String)} {s : ParseState} (start : Location)
    {declared kept : List (String × UInt32)} {early : Bool}
    (h : bodyOf tag s = some (declared, kept, early)) :
    ∃ ref u members v layout t, structTarget tag s = .ok ref u ∧
      structMembers (.upTo 20) u = .ok members v ∧ Layout.compute v.structs members = some layout ∧
      structBody (.upTo 20) tag start s = .ok (.struct ref) t ∧
      layout.fields.map (fun field => (field.name, field.offset)) = declared ∧
      (t.structs.fields ref).map (fun field => (field.name, field.offset)) = kept ∧
      (v.structs.layout? ref).isSome = early := by
  unfold bodyOf at h
  split at h
  · rename_i ref u chosen
    split at h
    · rename_i members v read
      simp only [do_eq_some, Option.pure_def, Option.some.injEq,
        Prod.mk.injEq] at h
      obtain ⟨layout, computed, same, same', same''⟩ := h
      refine ⟨ref, u, members, v, layout,
        { v with structs := (v.structs.complete ref layout).2 }, chosen, read, computed, ?_, same,
        same', same''⟩
      rw [structBody, bind_ok chosen, bind_ok read, get_bind, computed]
      rfl
    · cases h
  · cases h

def gaps : ParseState := startOf "int x; char *p; struct B \x7b int y; \x7d q; char c; \x7d"

theorem gaps_body : bodyOf none gaps = some ([("x", 0), ("p", 8), ("q", 16), ("c", 20)],
    [("x", 0), ("p", 8), ("q", 16), ("c", 20)], false) := by decide +kernel

theorem structBody_says_gaps : ∃ ref t layout,
    structBody (.upTo 20) none gaps.last gaps = .ok (.struct ref) t ∧
    layout.fields.map (fun field => (field.name, field.offset)) =
      [("x", 0), ("p", 8), ("q", 16), ("c", 20)] ∧ t.structs.IsLaid ref layout := by
  obtain ⟨ref, u, members, v, layout, t, chosen, read, computed, run, declared, -, early⟩ :=
    bodyOf_some gaps.last gaps_body
  obtain ⟨ref', u', members', v', layout', chosen', read', -, computed', same, -, laid⟩ :=
    (structBody_says_iff 20 none gaps.last gaps).1 _ t run
  rw [chosen] at chosen'
  cases chosen'
  rw [read] at read'
  cases read'
  rw [computed] at computed'
  cases computed'
  refine ⟨ref, t, layout, run, declared, (laid t.structs (.refl _)).mpr ⟨fun old known => ?_, ?_⟩⟩
  · rw [known] at early
    cases early
  · have names : (layout.fields.map (·.name)).Nodup := by
      have := congrArg (List.map Prod.fst) declared
      rw [List.map_map] at this
      change layout.fields.map (·.name) = _ at this
      rw [this]
      decide
    exact fun field mem other mem' same => List.inj_on_of_nodup_map names mem mem' same

def reentered : ParseState := startOf "struct A \x7b int x; \x7d y; int z; \x7d"

theorem reentered_body : bodyOf (some ⟨"A", reentered.last⟩) reentered =
    some ([("y", 0), ("z", 4)], [("x", 0)], true) := by decide +kernel

/-- The members of a body may be lost. -/
theorem structBody_lost : ∃ ref u members v layout t,
    structTarget (some ⟨"A", reentered.last⟩) reentered = .ok ref u ∧
    structMembers (.upTo 20) u = .ok members v ∧ Layout.compute v.structs members = some layout ∧
    layout.fields.map (fun field => (field.name, field.offset)) = [("y", 0), ("z", 4)] ∧
    structBody (.upTo 20) (some ⟨"A", reentered.last⟩) reentered.last reentered = .ok (.struct ref) t ∧
    (t.structs.fields ref).map (fun field => (field.name, field.offset)) = [("x", 0)] ∧
    ¬t.structs.IsLaid ref layout := by
  obtain ⟨ref, u, members, v, layout, t, chosen, read, computed, run, declared, kept, -⟩ :=
    bodyOf_some reentered.last reentered_body
  refine ⟨ref, u, members, v, layout, t, chosen, read, computed, declared, run, kept, fun laid => ?_⟩
  rw [laid.fields, declared] at kept
  exact absurd kept (by decide)

end Grammar

end MiniC
