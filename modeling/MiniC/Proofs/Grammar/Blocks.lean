import MiniC.Proofs.Grammar.Functions

/-!
# What blocks leave behind

A block forgets its names when it is left, however it is left. It does not touch the struct
types declared before it either: a body completes a struct whose tag stands in the innermost
block, or a new one.

Struct types are numbered in the order of their declarations, so those declared before a step
are the ones with a number below the count at its start.
-/

namespace MiniC

namespace Structs

theorem declared_complete (σ : Structs) (ref : StructRef) (layout : Layout) :
    (σ.complete ref layout).2.declared = σ.declared := by
  unfold complete
  split <;> rfl

theorem layout?_complete_of_ne (σ : Structs) {ref other : StructRef} (layout : Layout)
    (different : other.index ≠ ref.index) :
    (σ.complete ref layout).2.layout? other = σ.layout? other := by
  unfold complete
  split
  · rfl
  · simp only [layout?, List.find?_cons, beq_eq_false_iff_ne.mpr different.symm]

end Structs

namespace ParseState

def Owns (s : ParseState) (ref : StructRef) : Prop :=
  ∃ name own, (name, CType.struct own) ∈ s.scope.inner.tags ∧ own.index = ref.index

/-- What the steps inside a block may do: the blocks around it stay as they are, and of the
struct types declared before only those of the block itself may get a layout. -/
structure Contained (s t : ParseState) : Prop where
  outer : t.scope.outer = s.scope.outer
  declared : s.structs.declared ≤ t.structs.declared
  owns : ∀ ref, t.Owns ref → s.Owns ref ∨ s.structs.declared ≤ ref.index
  layouts : ∀ ref, ref.index < s.structs.declared → ¬s.Owns ref →
    t.structs.layout? ref = s.structs.layout? ref

/-- Nothing is left of a step but in the rest of the state: the visible names are as before,
and so is every struct type declared before, complete or not. -/
structure Sealed (s t : ParseState) : Prop where
  scope : t.scope = s.scope
  declared : s.structs.declared ≤ t.structs.declared
  layouts : ∀ ref, ref.index < s.structs.declared → t.structs.layout? ref = s.structs.layout? ref

namespace Contained

variable {s t : ParseState}

theorem of_same (outer : t.scope.outer = s.scope.outer)
    (tags : t.scope.inner.tags = s.scope.inner.tags) (structs : t.structs = s.structs) :
    Contained s t where
  outer := outer
  declared := Nat.le_of_eq (congrArg Structs.declared structs.symm)
  owns := fun ref owned => .inl (by unfold Owns at owned ⊢; rwa [tags] at owned)
  layouts := fun _ _ _ => by rw [structs]

theorem refl (s : ParseState) : Contained s s := of_same rfl rfl rfl

theorem trans {u : ParseState} (first : Contained s t) (rest : Contained t u) :
    Contained s u where
  outer := rest.outer.trans first.outer
  declared := Nat.le_trans first.declared rest.declared
  owns := by
    intro ref owned
    rcases rest.owns ref owned with owned | new
    · exact first.owns ref owned
    · exact .inr (Nat.le_trans first.declared new)
  layouts := by
    intro ref old foreign
    have foreign' : ¬t.Owns ref := by
      intro owned
      rcases first.owns ref owned with owned | new
      · exact foreign owned
      · omega
    rw [rest.layouts ref (Nat.lt_of_lt_of_le old first.declared) foreign']
    exact first.layouts ref old foreign

theorem withStruct (s : ParseState) (tag : Option String) : Contained s (s.withStruct tag) := by
  refine ⟨?_, Nat.le_succ _, fun ref owned => ?_, fun _ _ _ => rfl⟩
  · cases tag <;> rfl
  · cases tag with
    | none => exact .inl owned
    | some tag =>
      obtain ⟨name, own, mem, same⟩ := owned
      rcases List.mem_cons.mp mem with new | mem
      · cases new
        exact .inr (Nat.le_of_eq same)
      · exact .inl ⟨name, own, mem, same⟩

theorem leave (h : Contained s.enter t) : Sealed s t.leave where
  scope := by
    have outer : t.scope.outer = s.scope.inner :: s.scope.outer := h.outer
    change t.scope.leave = s.scope
    rw [Scope.leave, outer]
  declared := h.declared
  layouts := fun ref old => h.layouts ref old fun ⟨_, _, mem, _⟩ => nomatch mem

end Contained

namespace Sealed

variable {s t : ParseState}

theorem trans {u : ParseState} (first : Sealed s t) (rest : Sealed t u) : Sealed s u where
  scope := rest.scope.trans first.scope
  declared := Nat.le_trans first.declared rest.declared
  layouts := by
    intro ref old
    rw [rest.layouts ref (Nat.lt_of_lt_of_le old first.declared)]
    exact first.layouts ref old

theorem of_same (scope : t.scope = s.scope) (structs : t.structs = s.structs) :
    Sealed s t where
  scope := scope
  declared := Nat.le_of_eq (congrArg Structs.declared structs.symm)
  layouts := fun _ _ => by rw [structs]

theorem contained (h : Sealed s t) : Contained s t where
  outer := by rw [h.scope]
  declared := h.declared
  owns := fun ref owned => .inl (by unfold Owns at owned ⊢; rwa [h.scope] at owned)
  layouts := fun ref old _ => h.layouts ref old

end Sealed

variable {s t : ParseState}

theorem Change.contained (change : Change s t) : Contained s t := by
  cases change with
  | intern bytes =>
    unfold ParseState.intern
    split <;> exact .of_same rfl rfl rfl
  | enumTag name =>
    refine ⟨rfl, Nat.le_refl _, fun ref owned => .inl ?_, fun _ _ _ => rfl⟩
    obtain ⟨_, own, mem, same⟩ := owned
    rcases List.mem_cons.mp mem with new | mem
    · cases new
    · exact ⟨_, own, mem, same⟩
  | declareStruct tag => exact .withStruct s tag
  | define global _ _ defined =>
    obtain ⟨globals, rfl⟩ := defineGlobal_eq defined
    exact .of_same rfl rfl rfl
  | _ => exact .of_same rfl rfl rfl

theorem Target.contained {ref : StructRef} (target : Target s ref t) :
    Contained s t ∧ (s.Owns ref ∨ s.structs.declared ≤ ref.index) := by
  cases target with
  | known found =>
    refine ⟨.refl s, .inl ?_⟩
    obtain ⟨⟨tag, ty⟩, listed, same⟩ := Option.map_eq_some_iff.mp found
    cases same
    exact ⟨tag, ref, List.mem_of_find?_eq_some listed, rfl⟩
  | fresh tag => exact ⟨.withStruct s tag, .inr (Nat.le_refl _)⟩

theorem Reaches.contained (reaches : s.Reaches t) : Contained s t := by
  induction reaches with
  | refl => exact .refl _
  | tail _ change ih => exact ih.trans change.contained
  | block _ _ before inside => exact before.trans inside.leave.contained
  | @body s t u v ref members layout _ target _ _ _ before inside =>
    obtain ⟨chosen, own⟩ := target.contained
    have whole := chosen.trans inside
    refine before.trans ⟨whole.outer, ?_, whole.owns, fun other old foreign => ?_⟩
    · rw [Structs.declared_complete]
      exact whole.declared
    · have different : other.index ≠ ref.index := by
        intro same
        rcases own with ⟨name, tagged, mem, index⟩ | new
        · exact foreign ⟨name, tagged, mem, index.trans same.symm⟩
        · omega
      rw [Structs.layout?_complete_of_ne _ _ different]
      exact whole.layouts other old foreign

end ParseState

open ParseState (Sealed)

namespace Parse

variable {α β : Type}

/-- A step leaves the visible names and the struct types as they were, however it ends. -/
def Seals (x : Parse α) : Prop := ∀ s, Sealed s (final x s)

variable {x : Parse α}

theorem Seals.bind {f : α → Parse β} (first : Seals x) (rest : ∀ a, Seals (f a)) :
    Seals (x >>= f) := by
  intro s
  have reached := first s
  cases run : x s with
  | ok a t =>
    rw [final_ok run] at reached
    rw [final, bind_ok run]
    exact reached.trans (rest a t)
  | error e t =>
    rw [final_error run] at reached
    rwa [final_error (bind_error run)]

theorem Seals.pure {a : α} : Seals (Pure.pure a) := fun _ => .of_same rfl rfl

theorem Seals.fail {error : SyntaxError} {loc : Location} : Seals (Parse.fail error loc : Parse α) :=
  fun _ => .of_same rfl rfl

theorem Seals.get : Seals MonadState.get := fun _ => .of_same rfl rfl

theorem Seals.ite {c : Prop} [Decidable c] {y : Parse α} (yes : Seals x) (no : Seals y) :
    Seals (if c then x else y) := by
  split
  · exact yes
  · exact no

theorem here_seals : Seals here := fun _ => .of_same rfl rfl

theorem advance_seals : Seals advance := by
  rintro ⟨tokens, _, _, _, _, _, _, _, _⟩
  cases tokens <;> exact .of_same rfl rfl

theorem eat_seals (mark : Punct) : Seals (eat mark) :=
  Seals.get.bind fun _ => .ite (advance_seals.bind fun _ => .pure) .pure

theorem unexpected_seals (expected : String) : Seals (unexpected expected : Parse α) := by
  refine Seals.get.bind fun s => ?_
  cases s.tokens with
  | nil => exact Seals.get.bind fun _ => .fail
  | cons => exact .fail

theorem expect_seals (mark : Punct) : Seals (expect mark) :=
  (eat_seals mark).bind fun _ => .ite .pure (unexpected_seals _)

theorem inBlock_seals (h : Moves x) : Seals (inBlock x) := by
  intro s
  rw [final_inBlock]
  exact (h.reaches s.enter).contained.leave

end Parse

namespace Grammar

open Parse

/-- **Blocks do not leak.** In whatever state a block, a `for` loop or a function is read, and
whether that succeeds or fails, the visible locals, typedefs and tags are afterwards exactly
the ones from before, block by block; and no struct type that was declared before has been
completed or got another layout. -/
theorem blocks_sealed (n depth : Nat) (spec : DeclSpec) (ret : CType) (name : Located String)
    (s : ParseState) :
    Sealed s (final (compound (.upTo n) (statement (.upTo n) depth)) s) ∧
    Sealed s (final (forStatement (.upTo n) (statement (.upTo n) depth)) s) ∧
    Sealed s (final (function (.upTo n) spec ret name) s) := by
  have h := upTo_builds n
  have place : (Outlook.blind .body).InBody := ⟨rfl, nofun⟩
  have nested : ∀ {P : Prop}, Builds (.blind .body) P (statement (.upTo n) depth) (Stmt.Fits _) :=
    statement_builds h place depth
  refine ⟨?_, ?_, ?_⟩
  · refine Seals.bind (expect_seals _) (fun _ => Seals.get.bind fun start => ?_) s
    exact inBlock_seals (blockRest_builds (P := True) h place nested _).moves
  · refine Seals.bind here_seals (fun start => advance_seals.bind fun _ => ?_) s
    exact (expect_seals _).bind fun _ =>
      inBlock_seals (forRest_builds (P := True) h place nested start).moves
  · refine Seals.bind (x := modify fun s => { s with locals := [] }) (fun _ => .of_same rfl rfl)
      (fun _ => ?_) s
    exact inBlock_seals (functionRest_moves h spec ret name)

end Grammar

end MiniC
