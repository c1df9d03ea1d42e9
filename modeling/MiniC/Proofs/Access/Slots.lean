import MiniC.Proofs.Access.Widths
import MiniC.Proofs.DataSection

/-!
# Accesses fit their objects

Every load and store of a function, in either form of its code, touches as many bytes as its object
has, unless the object is of type `void`. Such an object is a parameter or an external global. So an
access to a local, or to a member of one, stays inside the slot that the local has in the frame,
unless it is to a parameter that was declared `void`: that one has one byte, of which eight are
written.
-/

namespace MiniC

theorem bytes_eq_size_iff {σ : Structs} {ty : CType} (scalar : ty.isAggregate = false) :
    (Width.ofType ty).bytes = (σ.size ty).toNat ↔ ty ≠ .void := by
  cases ty with
  | array | struct => cases scalar
  | _ => simp [Width.ofType, Width.bytes, Structs.size, pointerSize]

theorem Tree.address_of_slot (ctx : Tree.Context) : (x : Expr) → ∀ {place : Nat × Nat} {v : Var},
    x.slot? = some place → ctx.locals[place.1]? = some v →
    Tree.expr ctx .address x = pure (ctx.place v + .ofNat 64 place.2)
  | .var note index, _, v, found, listed => by
    cases found
    simp only [Tree.expr, listed, BitVec.add_zero]
    rfl
  | .member note base name offset, _, v, found, listed => by
    obtain ⟨outer, inner, rfl⟩ := Option.map_eq_some_iff.mp found
    rw [Tree.expr, address_of_slot ctx base inner listed, pure_bind, BitVec.add_assoc,
      ← BitVec.ofNat_add]
    rfl

/-- What is so of an access of a function of a program. -/
structure Access.Fits (q : Program) (f : Function) (a : Access) : Prop where
  /-- The bytes that are touched are those of the object. -/
  exact : (Width.ofType a.object.ty).bytes = (q.structs.size a.object.ty).toNat ↔ a.object.ty ≠ .void
  void : a.object.ty = .void → (∃ note, ∃ index ∈ f.params, a.object = .var note index) ∨
    ∃ note name, a.object = .global note name ∧
      ∃ g ∈ q.globals, g.name = name ∧ g.isExtern = true ∧ g.ty = .void
  /-- The bytes that are touched lie in the slot of a local. -/
  inside : ∀ place, a.object.slot? = some place → ∃ v, f.locals[place.1]? = some v ∧
    (place.2 + (Width.ofType a.object.ty).bytes ≤ (q.structs.size v.ty).toNat ↔
      a.object.ty ≠ .void) ∧
    ∀ host base, Tree.expr ⟨host, q.structs, f.locals, base⟩ .address a.object =
      pure (base - .ofNat 64 v.offset.toNat + .ofNat 64 place.2)

namespace Program

variable {source : Source} {tokens : List Lexed} {p : Program}

theorem parse_extern (parsed : Program.parse source tokens = .ok p) {g : Global} (mem : g ∈ p.globals)
    (void : g.ty = .void) : g.isExtern = true := by
  obtain ⟨s, reaches, -, globals, -, structs⟩ := Program.parse_reaches parsed
  rcases (reaches.sound (.start source tokens)).globals g (globals ▸ mem) with isExtern | ⟨complete, -⟩
  · exact isExtern
  · rw [void] at complete
    cases complete

end Program

variable {source : Source} {p q : Program} {f : Function}

/-- An access to an object of a typed function stays inside of it. -/
theorem Typing.Typed.fits {tokens : List Lexed} {f' : Function} {Γ : Typing.Context}
    {constants : List Int64} (known : Typing.Typed p f f' Γ)
    (parsed : Program.parse source tokens = .ok p) (structs : q.structs = p.structs)
    (globals : q.globals = p.globals) (built : f.Built ⟨p.structs, constants⟩) {x : Expr}
    (accessible : Typing.Accessible Γ x) (formed : x.Formed f'.locals.length) (stores : Bool) :
    Access.Fits q f' ⟨stores, x⟩ := by
  have laid := (Program.parse_measured parsed).laid
  have object := Typing.lvalue_object (known.structs ▸ laid) x accessible.settled accessible.lvalue
  have exact' := bytes_eq_size_iff (σ := q.structs) accessible.scalar
  refine ⟨exact', fun void => ?_, fun place slot => ?_⟩
  · rcases object.void void with ⟨note, index, rfl⟩ | ⟨note, name, rfl, g, mem, named, ty⟩
    · refine .inl ⟨note, index, ?_, rfl⟩
      obtain ⟨v, listed⟩ : ∃ v, f'.locals[index]? = some v := ⟨_, List.getElem?_eq_getElem formed⟩
      obtain ⟨w, found, same⟩ := known.local_ty listed
      by_contra other
      have complete := built.complete index w found (known.params ▸ other)
      rw [same, object.named note index _ rfl (known.locals ▸ listed)] at complete
      rw [show (Expr.var note index).ty = .void from void] at complete
      cases complete
    · rw [known.globals] at mem
      exact .inr ⟨note, name, rfl, g, globals ▸ mem, named, Program.parse_extern parsed mem ty, ty⟩
  · obtain ⟨v, listed⟩ : ∃ v, f'.locals[place.1]? = some v :=
      ⟨_, List.getElem?_eq_getElem (x.slot?_lt formed slot)⟩
    have inside := object.inside place _ slot (known.locals ▸ listed)
    rw [known.structs, ← structs] at inside
    refine ⟨_, listed, ⟨fun fits void => ?_, fun notVoid => ?_⟩, fun host base => ?_⟩
    · -- the object is the local itself, and has one byte
      rcases object.void void with ⟨note, index, rfl⟩ | ⟨_, _, rfl, _⟩
      · cases slot
        rw [object.named note index _ rfl (known.locals ▸ listed), void] at fits
        simp [Width.ofType, Width.bytes, Structs.size] at fits
      · cases slot
    · rw [exact'.mpr notVoid]
      exact inside
    · exact Tree.address_of_slot ⟨host, q.structs, f'.locals, base⟩ x slot listed

/-- **Accesses fit their objects.** In both forms of the code of a function, the loads and stores are
those of its accesses, in order. An access touches exactly the bytes of its object, unless that is
of type `void`, which only a parameter and an external global can be. Under the same condition an
access to a local, or to a member of one, stays inside the slot of the local; and the slots of
different locals lie apart in the frame. -/
theorem accesses_fit_iff {source : Source} {tokens : List Lexed} {implicitDecls : Bool}
    {p q : Program} {f : Function} {body : Stmt} (parsed : parse source tokens = .ok p)
    (analyzed : analyze implicitDecls p = .ok q) (listed : f ∈ q.functions)
    (defined : f.body = some body) :
    (∃ code, Emit.Stack.function q.structs f body = some code ∧
      Asm.touches code = Access.touches (f.accesses body)) ∧
    (∃ g, Ir.lowerFunction q.structs f body = some g ∧
      ∀ code, Emit.Allocated.function g = .ok code →
        Asm.touches code = Access.touches (f.accesses body)) ∧
    (∀ a ∈ f.accesses body, a.Fits q f) ∧ f.Framed q.structs := by
  have formed := analyze_formed parsed analyzed f listed body defined
  have parsed := parse_eq_ok.mp parsed
  obtain ⟨structs, globals, functions⟩ := Typing.program_typed (analyze_eq_ok.mp analyzed)
  obtain ⟨f₀, listed₀, Γ, known⟩ := exists_of_forall₂ functions listed
  have built := (Program.parse_built parsed).functions f₀ listed₀
  refine ⟨?_, ?_, fun a mem => ?_, structs ▸ known.framed (Program.parse_measured parsed).exact.aligned⟩
  · obtain ⟨code, made⟩ := Emit.Stack.function_total q.structs formed
    exact ⟨code, made, Emit.Stack.function_touches formed.count made⟩
  · obtain ⟨g, made, -⟩ := Ir.lowerFunction_implements q.structs formed
    refine ⟨g, made, fun code emitted => ?_⟩
    rw [Emit.Allocated.function_touches emitted, Ir.lowerFunction_touches made]
  · exact known.fits parsed structs globals built (known.accessible built defined a mem)
      (f.accesses_formed formed a mem) a.stores

/-! ## Examples -/

def firstFunction? (source : Source) : Option (Program × Program × Function × Stmt) := do
  let p ← (parse source source.tokens).toOption
  let q ← (analyze false p).toOption
  let f ← q.functions.head?
  return (p, q, f, ← f.body)

theorem firstFunction?_eq_some {body : Stmt} (h : firstFunction? source = some (p, q, f, body)) :
    parse source source.tokens = .ok p ∧ analyze false p = .ok q ∧ f ∈ q.functions ∧
      f.body = some body := by
  simp only [firstFunction?, do_eq_some] at h
  obtain ⟨p', parsed, q', analyzed, f', head, body', defined, same⟩ := h
  cases same
  exact ⟨eq_ok_of_toOption parsed, eq_ok_of_toOption analyzed, List.mem_of_mem_head? head, defined⟩

def fields : Source := ⟨"s.c", "struct S \x7b char c; long n; \x7d;
int f(char c, int *p) \x7b struct S s; s.n = c; *p = s.n; return *p; \x7d"⟩

/-- The loads and stores of the first function of a source by way of the machine stack. -/
def stackTouches? (source : Source) : Option (List Touch) := do
  let (_, q, f, body) ← firstFunction? source
  return Asm.touches (← Emit.Stack.function q.structs f body)

theorem stackTouches?_fields : stackTouches? fields = some [⟨true, .byte⟩, ⟨true, .qword⟩,
    ⟨false, .byte⟩, ⟨true, .qword⟩, ⟨false, .qword⟩, ⟨false, .qword⟩, ⟨true, .dword⟩, ⟨false, .qword⟩,
    ⟨false, .dword⟩] := by decide +kernel

theorem accesses_fit_fields : ∃ p q f body, parse fields fields.tokens = .ok p ∧
    analyze false p = .ok q ∧ f ∈ q.functions ∧ f.body = some body ∧
    Access.touches (f.accesses body) = [⟨true, .byte⟩, ⟨true, .qword⟩, ⟨false, .byte⟩,
      ⟨true, .qword⟩, ⟨false, .qword⟩, ⟨false, .qword⟩, ⟨true, .dword⟩, ⟨false, .qword⟩,
      ⟨false, .dword⟩] ∧
    ∀ a ∈ f.accesses body, a.Fits q f := by
  obtain ⟨⟨p, q, f, body⟩, found, rest⟩ := Option.bind_eq_some_iff.mp stackTouches?_fields
  obtain ⟨code, made, touches⟩ := Option.bind_eq_some_iff.mp rest
  obtain ⟨parsed, analyzed, listed, defined⟩ := firstFunction?_eq_some found
  obtain ⟨⟨code', made', same⟩, -, fits, -⟩ := accesses_fit_iff parsed analyzed listed defined
  cases made.symm.trans made'
  exact ⟨p, q, f, body, parsed, analyzed, listed, defined, same ▸ Option.some.inj touches, fits⟩

def nothing : Source := ⟨"v.c", "int f(void x) \x7b return 7; \x7d"⟩

/-- The stores of a parameter of type `void`, with the place and the size of the parameter. -/
def nothing? : Option (Bool × List Touch × List (UInt32 × UInt32)) := do
  let (_, q, f, body) ← firstFunction? nothing
  let code ← Emit.Stack.function q.structs f body
  let g ← Ir.lowerFunction q.structs f body
  return (code.contains (.code (.store .qword (.frame 1) .rdi)), Ir.touches g.instructions,
    f.locals.map fun v => (v.offset, q.structs.size v.ty))

theorem nothing?_eq : nothing? = some (true, [⟨true, .qword⟩], [(1, 1)]) := by decide +kernel

/-- A parameter of type `void` has one byte just below the frame pointer, and eight bytes are stored
there. -/
theorem void_parameter_overruns : ∃ p q f body code g, parse nothing nothing.tokens = .ok p ∧
    analyze false p = .ok q ∧ f ∈ q.functions ∧ f.body = some body ∧
    (f.locals.map fun v => (v.offset, q.structs.size v.ty)) = [(1, 1)] ∧
    Emit.Stack.function q.structs f body = some code ∧
    .code (.store .qword (.frame 1) .rdi) ∈ code ∧
    Ir.lowerFunction q.structs f body = some g ∧ Ir.touches g.instructions = [⟨true, .qword⟩] ∧
    ∀ code', Emit.Allocated.function g = .ok code' → Asm.touches code' = [⟨true, .qword⟩] := by
  obtain ⟨⟨p, q, f, body⟩, found, rest⟩ := Option.bind_eq_some_iff.mp nothing?_eq
  obtain ⟨code, made, rest⟩ := Option.bind_eq_some_iff.mp rest
  obtain ⟨g, lowered, same⟩ := Option.bind_eq_some_iff.mp rest
  obtain ⟨parsed, analyzed, listed, defined⟩ := firstFunction?_eq_some found
  obtain ⟨stored, touches, slots⟩ := (by simpa using same :
    .code (.store .qword (.frame 1) .rdi) ∈ code ∧ Ir.touches g.instructions = [⟨true, .qword⟩] ∧
      (f.locals.map fun v => (v.offset, q.structs.size v.ty)) = [(1, 1)])
  refine ⟨p, q, f, body, code, g, parsed, analyzed, listed, defined, slots, made, stored, lowered,
    touches, fun code' emitted => ?_⟩
  rw [Emit.Allocated.function_touches emitted, touches]

end MiniC
