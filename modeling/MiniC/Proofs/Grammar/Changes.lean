import MiniC.Grammar.Unit
import MiniC.Proofs.Grammar.Blame

/-!
# What parsing changes

Everything a parse does to its state is one of a few changes: a token is taken, a name is
declared, a struct type gets its layout, a block is entered or left, a function or a global
is added. A whole parse is a chain of these, so what each of them keeps holds of every
program that parses.

A step *moves* if it makes such changes alone, whether it succeeds or fails, and if its error can
be traced to an initializer when it blames one.
-/

namespace MiniC

open List

/-! ## Changes -/

namespace ParseState

/-- The state with a new struct type, under its tag in the innermost block if it has one. -/
def withStruct (s : ParseState) (tag : Option String) : ParseState :=
  { s with
    structs := (s.structs.declare tag).2
    scope := tag.elim s.scope fun name => s.scope.addTag name (.struct (s.structs.declare tag).1) }

def enter (s : ParseState) : ParseState := { s with scope := s.scope.enter }

def leave (s : ParseState) : ParseState := { s with scope := s.scope.leave }

/-- One change of the state of a parse. -/
inductive Change : ParseState → ParseState → Prop
  | take {s : ParseState} {token : Lexed} {rest : List Lexed} :
    s.tokens = token :: rest → Change s { s with tokens := rest, last := token.loc }
  | intern {s : ParseState} (bytes : List UInt8) : Change s (s.intern bytes).2
  | constant {s : ParseState} (name : String) (value : Int64) :
    Change s { s with enums := (name, value) :: s.enums }
  | enumTag {s : ParseState} (name : String) :
    Change s { s with scope := s.scope.addTag name .int }
  | typedef {s : ParseState} (name : String) (ty : CType) :
    Change s { s with scope := s.scope.addTypedef name ty }
  | declareLocal {s : ParseState} (name : Located String) (ty : CType) :
    Change s (s.declareLocal name ty).2
  | declareStruct {s : ParseState} (tag : Option String) : Change s (s.withStruct tag)
  | forgetLocals {s : ParseState} : Change s { s with locals := [] }
  | addFunction {s : ParseState} (f : Function) : Change s { s with functions := s.functions ++ [f] }
  /-- A global has a complete type unless it is external, and its image is that of an
  initializer. -/
  | define {s s' : ParseState} (global : Global) :
    (global.isExtern ∨ s.structs.isComplete global.ty) →
    (∀ image, global.init = some image → ∃ init : Init, init.Suits s.structs global.ty ∧
      init.image ⟨s.structs, s.globals⟩ global.ty = .ok image) →
    s.defineGlobal global = some s' → Change s s'

/-- The struct that a body completes: one that a tag of the innermost block names, or a new
one. -/
inductive Target : ParseState → StructRef → ParseState → Prop
  | known {s : ParseState} {name : String} {ref : StructRef} :
    s.scope.innerTag? name = some (.struct ref) → Target s ref s
  | fresh {s : ParseState} (tag : Option String) :
    Target s (s.structs.declare tag).1 (s.withStruct tag)

/-- Changes one after the other. A block is left when its own changes are done, and a struct
gets its layout after the changes of its body. -/
inductive Reaches : ParseState → ParseState → Prop
  | refl (s : ParseState) : Reaches s s
  | tail {s t u : ParseState} : Reaches s t → Change t u → Reaches s u
  | block {s t u : ParseState} : Reaches s t → Reaches t.enter u → Reaches s u.leave
  /-- The members of a struct are complete when its layout is fixed. -/
  | body {s t u v : ParseState} {ref : StructRef} {members : List (String × CType)}
      {layout : Layout} : Reaches s t → Target t ref u → Reaches u v →
    (∀ member ∈ members, v.structs.isComplete member.2) →
    Layout.compute v.structs members = some layout →
    Reaches s { v with structs := (v.structs.complete ref layout).2 }

variable {s s' t : ParseState} {global g : Global} {ref : StructRef}

theorem defineGlobal_eq
    (h : s.defineGlobal global = some s') : ∃ globals, s' = { s with globals } := by
  unfold defineGlobal at h
  split at h
  · cases h; exact ⟨_, rfl⟩
  · split at h
    · cases h; exact ⟨_, rfl⟩
    · split at h
      · cases h
      · split at h <;> cases h <;> exact ⟨_, rfl⟩

theorem Reaches.trans {u : ParseState} (first : s.Reaches t) (rest : t.Reaches u) :
    s.Reaches u := by
  induction rest with
  | refl => exact first
  | tail _ change ih => exact (ih first).tail change
  | block _ inside ih _ => exact (ih first).block inside
  | body _ target inside complete computed ih _ => exact (ih first).body target inside complete computed

theorem Reaches.single (change : Change s t) : s.Reaches t :=
  (Reaches.refl s).tail change

theorem Target.reaches (h : Target s ref t) : s.Reaches t := by
  cases h with
  | known => exact .refl s
  | fresh tag => exact .single (.declareStruct tag)

theorem defineGlobal_structs (h : s.defineGlobal global = some s') : s'.structs = s.structs := by
  obtain ⟨globals, rfl⟩ := defineGlobal_eq h
  rfl

theorem mem_replaceGlobal {globals : List Global}
    (mem : g ∈ replaceGlobal globals global) : g ∈ globals ∨ g = global := by
  induction globals with
  | nil => cases mem
  | cons other rest ih =>
    rw [replaceGlobal] at mem
    split at mem
    · rcases mem_cons.mp mem with same | mem
      · exact .inr same
      · exact .inl (mem_cons_of_mem _ mem)
    · rcases mem_cons.mp mem with same | mem
      · exact .inl (same ▸ mem_cons_self)
      · exact (ih mem).imp (mem_cons_of_mem _) id

theorem mem_defineGlobal (defined : s.defineGlobal global = some s') (mem : g ∈ s'.globals) :
    g ∈ s.globals ∨ g = global := by
  unfold defineGlobal at defined
  split at defined
  · cases defined
    exact (mem_append.mp mem).imp id mem_singleton.mp
  · split at defined
    · cases defined
      exact .inl mem
    · split at defined
      · cases defined
      · split at defined
        · cases defined
          exact mem_replaceGlobal mem
        · cases defined
          exact .inl mem

end ParseState

open ParseState (Change Target Reaches)

def Round.Holds {α β : Type} (P : α → Prop) (Q : β → Prop) : Round α β → Prop
  | .more a => P a
  | .done b => Q b

namespace Parse

variable {α β : Type}

/-! ## Runs -/

variable {x : Parse α} {f : α → Parse β} {s s' t : ParseState} {a : α} {e : Located SyntaxError}

theorem bind_ran {b : β} :
    (x >>= f) s = .ok b s' ↔ ∃ a t, x s = .ok a t ∧ f a t = .ok b s' := by
  change EStateM.bind x f s = _ ↔ _
  unfold EStateM.bind
  cases x s with
  | ok a t => exact ⟨fun h => ⟨a, t, rfl, h⟩, fun ⟨_, _, same, h⟩ => by cases same; exact h⟩
  | error e t => exact ⟨nofun, fun ⟨_, _, same, _⟩ => by cases same⟩

def final (x : Parse α) (s : ParseState) : ParseState :=
  match x s with
  | .ok _ t => t
  | .error _ t => t

theorem final_ok (run : x s = .ok a t) :
    final x s = t := by
  rw [final, run]

theorem final_error (run : x s = .error e t) : final x s = t := by
  rw [final, run]

theorem bind_ok (run : x s = .ok a t) :
    (x >>= f) s = f a t := by
  change EStateM.bind x f s = _
  rw [EStateM.bind, run]

theorem bind_error (run : x s = .error e t) : (x >>= f) s = .error e t := by
  change EStateM.bind x f s = _
  rw [EStateM.bind, run]

theorem get_bind (f : ParseState → Parse α) (s : ParseState) :
    (MonadState.get >>= f) s = f s s := rfl

theorem inBlock_eq_ok (h : inBlock x s = .ok a s') :
    ∃ t, x { s with scope := s.scope.enter } = .ok a t ∧
      s' = { t with scope := t.scope.leave } := by
  unfold inBlock at h
  split at h
  · rename_i t run
    cases h
    exact ⟨t, run, rfl⟩
  · cases h

theorem final_inBlock (x : Parse α) (s : ParseState) :
    final (inBlock x) s = (final x s.enter).leave := by
  simp only [final, inBlock, ParseState.enter, ParseState.leave]
  cases x { s with scope := s.scope.enter } <;> rfl

/-! ## Steps that move -/

def Traced (e : Located SyntaxError) (t : ParseState) : Prop :=
  ∀ ty, e.value = .overrun ty → ∃ init : Init, init.Suits t.structs ty ∧
    init.image ⟨t.structs, t.globals⟩ ty = .error e

theorem Traced.of_plain (plain : e.value.isPlain = true) :
    Traced e t := by
  intro ty same
  rw [same] at plain
  cases plain

theorem Traced.of_ok {r : EStateM.Result (Located SyntaxError) ParseState α} (run : r = .ok a t)
    (e : Located SyntaxError) (u : ParseState) (failed : r = .error e u) :
    Traced e u := by
  rw [run] at failed
  cases failed

/-- From a state of which `P` holds a step makes changes, and `Q` holds of its answer and the
state at the end, if it has an answer; if not, its error can be traced. -/
def Leads (P : ParseState → Prop) (x : Parse α) (Q : α → ParseState → Prop) : Prop :=
  ∀ s, P s → s.Reaches (final x s) ∧ (∀ a t, x s = .ok a t → Q a t) ∧
    ∀ e t, x s = .error e t → Traced e t

def Moves (x : Parse α) : Prop := Leads (fun _ => True) x fun _ _ => True

theorem Moves.reaches (h : Moves x) (s : ParseState) : s.Reaches (final x s) :=
  (h s trivial).1

theorem Moves.of_reaches (h : ∀ s : ParseState, s.Reaches (final x s))
    (traced : ∀ s e t, x s = .error e t → Traced e t) : Moves x :=
  fun s _ => ⟨h s, fun _ _ _ => trivial, traced s⟩

theorem Moves.traced (h : Moves x) (run : x s = .error e t) : Traced e t :=
  (h s trivial).2.2 e t run

section Leads

variable {P : ParseState → Prop} {x y : Parse α} {Q : α → ParseState → Prop}
  {R : β → ParseState → Prop}

variable {f : α → Parse β} {error : SyntaxError} {loc : Location}
  {r : Except (Located SyntaxError) α}

theorem Leads.bind (first : Leads P x Q) (rest : ∀ a, Leads (Q a) (f a) R) :
    Leads P (x >>= f) R := by
  intro s known
  obtain ⟨reached, holds, traced⟩ := first s known
  cases run : x s with
  | ok a t =>
    rw [final_ok run] at reached
    obtain ⟨reached', holds'⟩ := rest a t (holds a t run)
    rw [final, bind_ok run]
    exact ⟨reached.trans reached', holds'⟩
  | error e t =>
    rw [final_error run] at reached
    rw [final_error (bind_error run), bind_error run]
    refine ⟨reached, nofun, fun e' t' same => ?_⟩
    cases same
    exact traced e t run

theorem Leads.pure {a : α} (h : ∀ s, P s → Q a s) : Leads P (Pure.pure a) Q := by
  intro s known
  refine ⟨.refl s, fun b t run => ?_, Traced.of_ok rfl⟩
  cases run
  exact h s known

theorem Leads.fail (plain : error.isPlain = true := by rfl) : Leads P (Parse.fail error loc) Q := by
  refine fun s _ => ⟨.refl s, nofun, fun e t run => ?_⟩
  cases run
  exact .of_plain plain

theorem Leads.get : Leads P MonadState.get fun t s => t = s ∧ P s := by
  intro s known
  refine ⟨.refl s, fun a t run => ?_, Traced.of_ok rfl⟩
  cases run
  exact ⟨rfl, known⟩

theorem Leads.check {c : Prop} [Decidable c] {rest : Unit → Parse α} (h : c → Leads P (rest ()) Q)
    (plain : error.isPlain = true := by rfl) :
    Leads P (if c then rest () else Parse.fail error loc >>= rest) Q := by
  split
  · exact h (by assumption)
  · exact Leads.bind (Q := fun _ _ => False) (.fail plain) fun _ _ known => known.elim

theorem Leads.moves (h : Leads (fun _ => True) x Q) : Moves x :=
  .of_reaches (fun s => (h s trivial).1) fun s => (h s trivial).2.2

theorem Moves.bind (first : Moves x) (rest : ∀ a, Moves (f a)) :
    Moves (x >>= f) :=
  Leads.bind first rest

theorem Moves.modifyGet {f : ParseState → α × ParseState} (changed : ∀ s, Reaches s (f s).2) :
    Moves (MonadStateOf.modifyGet f) := .of_reaches changed fun _ => Traced.of_ok rfl

theorem ofExcept_leads (traced : ∀ s, P s → ∀ e, r = .error e → Traced e s) :
    Leads P (ofExcept r) fun a s => r = .ok a ∧ P s := by
  cases r with
  | ok a => exact .pure fun _ known => ⟨rfl, known⟩
  | error e =>
    refine fun s known => ⟨.refl s, nofun, fun e' t run => ?_⟩
    cases run
    exact traced s known e rfl

theorem ofExcept_moves (plain : Plain r) : Moves (ofExcept r) :=
  (ofExcept_leads fun _ _ e failed => .of_plain (plain e failed)).moves

theorem inBlock_moves (h : Moves x) : Moves (inBlock x) := by
  refine .of_reaches (fun s => ?_) fun s e t run => ?_
  · rw [final_inBlock]
    exact (Reaches.refl s).block (h.reaches s.enter)
  · cases inner : x s.enter with
    | ok a u =>
      rw [inBlock, show x { s with scope := s.scope.enter } = _ from inner] at run
      cases run
    | error e' u =>
      rw [inBlock, show x { s with scope := s.scope.enter } = _ from inner] at run
      cases run
      exact (h.traced inner : Traced e u)

end Leads

end Parse

/-! ## Struct types -/

namespace Grammar

open Parse

theorem declareStruct_target (tag : Option (Located String)) (s : ParseState) :
    ∃ ref t, declareStruct tag s = .ok ref t ∧ Target s ref t := by
  cases tag with
  | none => exact ⟨_, _, rfl, .fresh none⟩
  | some name => exact ⟨_, _, rfl, .fresh (some name.value)⟩

theorem structTarget_target (tag : Option (Located String)) (s : ParseState) :
    (∃ e, structTarget tag s = .error e s ∧ e.value.isPlain = true) ∨
      ∃ ref t, structTarget tag s = .ok ref t ∧ Target s ref t := by
  cases tag with
  | none => exact .inr (declareStruct_target none s)
  | some name =>
    have fresh := declareStruct_target (some name) s
    rw [structTarget, get_bind]
    rcases found : s.scope.innerTag? name.value with _ | ty
    · exact .inr fresh
    · cases ty with
      | struct ref =>
        dsimp only
        split
        · exact .inl ⟨_, rfl, rfl⟩
        · exact .inr ⟨ref, s, rfl, .known found⟩
      | _ => exact .inr fresh

end Grammar

end MiniC
