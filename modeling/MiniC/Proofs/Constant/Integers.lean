import MiniC.Grammar.Initializer

/-!
# The two evaluators on integers

The value of a constant is computed in two ways: by `eval`, for array lengths, enumeration
constants and case labels, and by `evalAddress`, for the initial values of globals, which may be
addresses. On an expression without addresses they come to the same, but for one thing:
`evalAddress` looks through the casts around a constant without carrying them out. Casts further in
are carried out by both.

So the two agree exactly if each of the casts around the constant is to a type that holds its value,
and then a scalar global starts with the value that `eval` gives.
-/

namespace MiniC

open List

namespace Expr

def casts : Expr → List CType
  | .cast _ target operand => target :: operand.casts
  | _ => []

def uncast : Expr → Expr
  | .cast _ _ operand => operand.uncast
  | e => e

mutual
def isNumeric : Expr → Bool
  | .str .. | .global .. | .addr .. => false
  | .num .. | .var .. => true
  | .binary _ _ _ lhs rhs | .assign _ lhs rhs | .comma _ lhs rhs => lhs.isNumeric && rhs.isNumeric
  | .cond _ test yes no => test.isNumeric && yes.isNumeric && no.isNumeric
  | .unary _ _ e | .deref _ e | .member _ e _ _ | .cast _ _ e | .sizeof _ e | .update _ _ e =>
    e.isNumeric
  | .call _ _ args => areNumeric args
def areNumeric : List Expr → Bool
  | [] => true
  | arg :: args => arg.isNumeric && areNumeric args
end

end Expr

namespace Constant

/-! ## Casts -/

theorem castTo_castTo (target : CType) (v : Int64) :
    castTo target (castTo target v) = castTo target v := by
  cases target <;> simp [castTo, truncateChar, truncateInt]

theorem castTo_comm (s t : CType) (v : Int64) :
    castTo s (castTo t v) = castTo t (castTo s v) := by
  cases s <;> cases t <;> simp [castTo, truncateChar, truncateInt]

theorem castTo_foldr {target : CType} {targets : List CType} (mem : target ∈ targets) (v : Int64) :
    castTo target (targets.foldr castTo v) = targets.foldr castTo v := by
  induction targets with
  | nil => cases mem
  | cons first rest ih =>
    rw [foldr_cons]
    rcases mem_cons.mp mem with rfl | mem
    · exact castTo_castTo _ _
    · rw [castTo_comm, ih mem]

theorem foldr_castTo_eq_self_iff {targets : List CType} {v : Int64} :
    targets.foldr castTo v = v ↔ ∀ target ∈ targets, castTo target v = v := by
  constructor
  · intro same target mem
    rw [← same]
    exact castTo_foldr mem v
  · intro holds
    induction targets with
    | nil => rfl
    | cons first rest ih =>
      rw [foldr_cons, ih fun target mem => holds target (mem_cons_of_mem _ mem)]
      exact holds first mem_cons_self

theorem eval_uncast (e : Expr) :
    eval e = (eval e.uncast).map (e.casts.foldr castTo ·) := by
  fun_induction Expr.uncast e with
  | case1 note target operand ih =>
    rw [eval, ih, Expr.casts]
    cases eval operand.uncast <;> rfl
  | case2 e other =>
    have none : e.casts = [] := by
      cases e <;> first | rfl | exact absurd rfl (other _ _ _)
    rw [none]
    cases eval e <;> rfl

/-! ## Agreement -/

variable (σ : Structs) (globals : List Global)

private theorem withoutSymbol (x : Except (Located SyntaxError) Int64) :
    (do return (← x, none)) = x.map fun v => (v, (none : Option String)) := by
  cases x <;> rfl

/-- A number is evaluated without its outermost casts. -/
theorem evalAddress_of_isNumeric : (e : Expr) → e.isNumeric = true →
    evalAddress σ globals e = (eval e.uncast).map (·, none)
  | .cast _ _ operand, numeric => evalAddress_of_isNumeric operand numeric
  | .binary note op scaled lhs rhs, numeric => by
    rw [evalAddress]
    split
    next moves =>
      rw [evalAddress_of_isNumeric lhs (Bool.and_eq_true_iff.mp numeric).1]
      cases value : eval lhs.uncast with
      | ok v => exact withoutSymbol (eval (.binary note op scaled lhs rhs))
      | error stop =>
        -- `eval` fails on the left operand in the same way.
        have failed : eval (.binary note op scaled lhs rhs) = .error stop := by
          rw [eval, eval_uncast lhs, value]
          rfl
        change Except.error stop = (eval (.binary note op scaled lhs rhs)).map _
        rw [failed]
        rfl
    next => exact withoutSymbol (eval (.binary note op scaled lhs rhs))
  | .num note value, _ => withoutSymbol (eval (.num note value))
  | .var note index, _ => withoutSymbol (eval (.var note index))
  | .assign note lhs rhs, _ => withoutSymbol (eval (.assign note lhs rhs))
  | .comma note lhs rhs, _ => withoutSymbol (eval (.comma note lhs rhs))
  | .cond note test yes no, _ => withoutSymbol (eval (.cond note test yes no))
  | .unary note op operand, _ => withoutSymbol (eval (.unary note op operand))
  | .deref note operand, _ => withoutSymbol (eval (.deref note operand))
  | .member note base name offset, _ => withoutSymbol (eval (.member note base name offset))
  | .call note callee args, _ => withoutSymbol (eval (.call note callee args))
  | .sizeof note operand, _ => withoutSymbol (eval (.sizeof note operand))
  | .update note dir target, _ => withoutSymbol (eval (.update note dir target))

def CastsHold (e : Expr) : Prop :=
  ∀ v, eval e.uncast = .ok v → ∀ target ∈ e.casts, castTo target v = v

theorem eval_eq_uncast_iff {e : Expr} :
    eval e = eval e.uncast ↔ CastsHold e := by
  unfold CastsHold
  rw [eval_uncast e]
  cases eval e.uncast with
  | error stop => exact ⟨nofun, fun _ => rfl⟩
  | ok v =>
    rw [Except.map, Except.ok.injEq, foldr_castTo_eq_self_iff]
    exact ⟨fun holds _ same => Except.ok.inj same ▸ holds, fun holds => holds v rfl⟩

/-- **The two evaluators agree on integers, up to the casts around them.** On an expression without
strings, globals and address-of, `evalAddress` never finds a symbol and gives what `eval` gives
without the casts around the expression. So both succeed together, and with the same value exactly
if those casts hold it; a scalar global then starts with the value of `eval`. -/
theorem evalAddress_eq_eval_iff {e : Expr} (numeric : e.isNumeric = true) :
    evalAddress σ globals e = (eval e.uncast).map (·, none) ∧
    ((∀ v, evalAddress σ globals e = .ok (v, none) ↔ eval e = .ok v) ↔ CastsHold e) ∧
    (CastsHold e → ∀ ty offset, Init.scalarPart ⟨σ, globals⟩ ty offset e = (eval e).map fun v =>
      .bytes offset.toNat (σ.size ty).toNat ((Image.wordBytes v 8).take (σ.size ty).toNat)) := by
  have value := evalAddress_of_isNumeric σ globals e numeric
  refine ⟨value, ?_, fun holds ty offset => ?_⟩
  · rw [value, ← eval_eq_uncast_iff]
    have found : ∀ v, (eval e.uncast).map (·, (none : Option String)) = .ok (v, none) ↔
        eval e.uncast = .ok v := by
      intro v
      cases eval e.uncast <;> simp [Except.map]
    simp only [found]
    refine ⟨fun agree => ?_, fun same v => by rw [same]⟩
    cases core : eval e.uncast with
    | ok v => exact (agree v).mp core
    | error stop => rw [eval_uncast e, core]; rfl
  · rw [Init.scalarPart, value, eval_eq_uncast_iff.mpr holds]
    cases eval e.uncast <;> rfl

/-- `(int)((char)300 + 300)`: the inner cast cuts its operand, and the outer one holds the sum. -/
def innerCast : Expr :=
  let note : Note := ⟨.void, .atStart ⟨"f.c", ""⟩⟩
  .cast note .int (.binary note .add false (.cast note .char (.num note 300)) (.num note 300))

theorem evalAddress_eq_eval_innerCast : innerCast.isNumeric = true ∧ CastsHold innerCast ∧
    eval innerCast = .ok 344 ∧
    (∀ v, evalAddress {} [] innerCast = .ok (v, none) ↔ eval innerCast = .ok v) := by
  have numeric : innerCast.isNumeric = true := rfl
  have holds : CastsHold innerCast := by
    intro v value target mem
    cases value
    cases mem_singleton.mp mem
    rfl
  exact ⟨numeric, holds, rfl, (evalAddress_eq_eval_iff {} [] numeric).2.1.mpr holds⟩

/-- `(char)300` is 44, but a global that starts with it starts with 300. -/
theorem evalAddress_ne_eval_outerCast :
    let note : Note := ⟨.void, .atStart ⟨"f.c", ""⟩⟩
    let e : Expr := .cast note .char (.num note 300)
    e.isNumeric = true ∧ eval e = .ok 44 ∧ evalAddress {} [] e = .ok (300, none) ∧
      ¬ ∀ v, evalAddress {} [] e = .ok (v, none) ↔ eval e = .ok v :=
  ⟨rfl, rfl, rfl, fun agree => nomatch (agree 300).mp rfl⟩

end Constant

end MiniC
