import MiniC.Proofs.Constant.Addresses
import MiniC.Proofs.Semantics.Extended

/-!
# Folding and running

`eval` computes a constant before it has types, in words that wrap around. At run time the same
expression is computed with its types: in 32 or 64 bits, with casts that cut. The two agree on the
integers that the types hold: `exact` is the value of a constant as an integer without bounds, and
where the exact value of every part fits the type of the part, and shifts and divisions are ones
that the machine carries out, the typed expression has the value that `eval` gives.
-/

namespace MiniC

namespace Constant

/-! ## Exact values -/

/-- A binary operation on integers without bounds; nothing, if it divides by zero. What is done bit
by bit is done on words, which is exact. -/
def exactBinary (op : BinOp) (a b : Int) : Option Int :=
  match op with
  | .add => some (a + b)
  | .sub => some (a - b)
  | .mul => some (a * b)
  | .div => if b = 0 then none else some (a.tdiv b)
  | .mod => if b = 0 then none else some (a.tmod b)
  | .bitAnd => some (Int64.ofInt a &&& Int64.ofInt b).toInt
  | .bitOr => some (Int64.ofInt a ||| Int64.ofInt b).toInt
  | .bitXor => some (Int64.ofInt a ^^^ Int64.ofInt b).toInt
  | .shl => some (a * 2 ^ b.toNat)
  | .shr => some (a / 2 ^ b.toNat)
  | .eq => some (if a = b then 1 else 0)
  | .ne => some (if a ≠ b then 1 else 0)
  | .lt => some (if a < b then 1 else 0)
  | .le => some (if a ≤ b then 1 else 0)
  | .logAnd => some (if a ≠ 0 ∧ b ≠ 0 then 1 else 0)
  | .logOr => some (if a ≠ 0 ∨ b ≠ 0 then 1 else 0)

def exactUnary (op : UnOp) (a : Int) : Int :=
  match op with
  | .neg => -a
  | .not => if a = 0 then 1 else 0
  | .bitNot => -a - 1

/-- An integer after a cast: the one of the type that differs from it by a multiple of the number
of values of the type. -/
def exactCast (target : CType) (a : Int) : Int := a.bmod (2 ^ (Width.ofType target).bits)

def exact : Expr → Option Int
  | .num _ value => some value.toInt
  | .binary _ op _ lhs rhs => do
    let l ← exact lhs
    if op = .logAnd ∧ l = 0 then return 0
    else if op = .logOr ∧ l ≠ 0 then return 1
    else exactBinary op l (← exact rhs)
  | .unary _ op operand => return exactUnary op (← exact operand)
  | .cond _ test yes no => do if (← exact test) ≠ 0 then exact yes else exact no
  | .comma _ _ rhs => exact rhs
  | .cast _ target operand => return exactCast target (← exact operand)
  | _ => none

/-- The parts of a constant that are evaluated: not what `&&`, `||` and `?:` pass by. -/
def evaluated : Expr → List Expr
  | .binary note op scaled lhs rhs =>
    .binary note op scaled lhs rhs :: (evaluated lhs ++
      if op = .logAnd ∧ exact lhs = some 0 ∨ op = .logOr ∧ exact lhs ≠ some 0 then []
      else evaluated rhs)
  | .unary note op operand => .unary note op operand :: evaluated operand
  | .cond note test yes no =>
    .cond note test yes no :: (evaluated test ++
      if exact test ≠ some 0 then evaluated yes else evaluated no)
  | .comma note lhs rhs => .comma note lhs rhs :: (evaluated lhs ++ evaluated rhs)
  | .cast note target operand => .cast note target operand :: evaluated operand
  | e => [e]

variable {v : Int64} {n : Int} {e' p' q' : Expr} {loc : Location}

theorem toInt_of_fits {w : Width} (same : v.toInt = n.bmod (2 ^ 64))
    (h : Word.fits w n = true) : v.toInt = n := by
  rw [same]
  exact Word.bmod_of_fits (w := .qword) (Word.fits_mono w.bits_le h)

/-! ## One operation -/

section

variable {op : BinOp} {l r v : Int64} {w : Width}

theorem toInt_ofBool (b : Bool) : (ofBool b).toInt = if b then 1 else 0 := by
  cases b <;> rfl

theorem toBitVec_ofBool (b : Bool) : (ofBool b).toBitVec = Word.ofBool b := by
  cases b <;> rfl

theorem smod_of_lt {r : Int64} (nonneg : 0 ≤ r.toInt) (small : r.toInt < 64) :
    (r.toBitVec.smod 64).toNat = r.toInt.toNat := by
  have same : (r.toBitVec.smod 64).toInt = r.toInt := by
    rw [BitVec.toInt_smod, Int64.toInt_toBitVec]
    exact Int.fmod_eq_of_lt nonneg small
  have bound : r.toInt.toNat < 2 ^ 63 := by omega
  have toNat := BitVec.toInt_eq_toNat_cond (r.toBitVec.smod 64)
  rw [same] at toNat
  split at toNat <;> omega

theorem shiftCount_of_lt (nonneg : 0 ≤ r.toInt) (small : r.toInt < w.shiftLimit) :
    Word.shiftCount w r.toBitVec = r.toInt.toNat := by
  have toNat := BitVec.toInt_eq_toNat_cond r.toBitVec
  rw [Int64.toInt_toBitVec] at toNat
  have limit : w.shiftLimit ≤ 64 := by cases w <;> decide
  rw [Word.shiftCount]
  split at toNat <;> rw [Nat.mod_eq_of_lt] <;> omega

theorem cut_toBitVec (h : Word.fits w v.toInt = true) : Word.cut w v.toBitVec = v.toBitVec :=
  Word.cut_of_fits (Int64.toInt_toBitVec v ▸ h)

theorem low_toBitVec (h : Word.fits w v.toInt = true) : Word.low w v.toBitVec = v.toInt := by
  rw [Word.low_of_fits (Int64.toInt_toBitVec v ▸ h), Int64.toInt_toBitVec]

theorem toInt_shl (nonneg : 0 ≤ r.toInt) (small : r.toInt < 64) :
    (l <<< r).toBitVec = l.toBitVec <<< r.toInt.toNat ∧
      (l <<< r).toInt = (l.toInt * 2 ^ r.toInt.toNat).bmod (2 ^ 64) := by
  have bits : (l <<< r).toBitVec = l.toBitVec <<< r.toInt.toNat := by
    rw [Int64.toBitVec_shiftLeft, BitVec.shiftLeft_eq', smod_of_lt nonneg small]
  refine ⟨bits, ?_⟩
  rw [← Int64.toInt_toBitVec, bits, BitVec.toInt_shiftLeft, Nat.shiftLeft_eq,
    ← Int64.toInt_toBitVec l, BitVec.toInt_eq_toNat_bmod l.toBitVec, Int.bmod_mul_bmod]
  push_cast
  rfl

theorem toInt_shr (nonneg : 0 ≤ r.toInt) (small : r.toInt < 64) :
    (l >>> r).toBitVec = l.toBitVec.sshiftRight r.toInt.toNat ∧
      (l >>> r).toInt = l.toInt / 2 ^ r.toInt.toNat := by
  have bits : (l >>> r).toBitVec = l.toBitVec.sshiftRight r.toInt.toNat := by
    rw [Int64.toBitVec_shiftRight, BitVec.sshiftRight_eq', smod_of_lt nonneg small]
  refine ⟨bits, ?_⟩
  rw [← Int64.toInt_toBitVec, bits, BitVec.toInt_sshiftRight, Int64.toInt_toBitVec,
    Int.shiftRight_eq_div_pow]
  push_cast
  rfl

theorem eq_zero_iff : r = 0 ↔ r.toInt = 0 := by
  rw [← Int64.toInt_inj]
  rfl

/-- Where nothing overflows, 64 bits give what the width of the type gives. -/
theorem binary_agrees (plain : op.isBoolean = false) (value : binary op l r = some v)
    (left : Word.fits w l.toInt = true)
    (right : op = .div ∨ op = .mod → Word.fits w r.toInt = true ∧
      Word.fits w (l.toInt.tdiv r.toInt) = true)
    (count : op = .shl ∨ op = .shr → 0 ≤ r.toInt ∧ r.toInt < w.shiftLimit)
    (result : ∀ n, exactBinary op l.toInt r.toInt = some n → Word.fits w n = true) :
    exactBinary op l.toInt r.toInt = some v.toInt ∧
      Word.binary op w l.toBitVec r.toBitVec = some v.toBitVec := by
  -- it is enough to know the exact result, since cutting it changes nothing
  suffices exactly : exactBinary op l.toInt r.toInt = some v.toInt ∧
      (Word.fits w v.toInt = true → Word.binary op w l.toBitVec r.toBitVec = some v.toBitVec) from
    ⟨exactly.1, exactly.2 (result _ exactly.1)⟩
  have limit : (w.shiftLimit : Int) ≤ 64 := by cases w <;> decide
  cases op with
  | eq | ne | lt | le | logAnd | logOr => cases plain
  | add =>
    cases value
    refine ⟨congrArg some (toInt_of_fits (Int64.toInt_add l r) (result _ rfl)).symm, fun fits => ?_⟩
    rw [Word.binary, ← Int64.toBitVec_add, cut_toBitVec fits]
  | sub =>
    cases value
    refine ⟨congrArg some (toInt_of_fits (Int64.toInt_sub l r) (result _ rfl)).symm, fun fits => ?_⟩
    rw [Word.binary, ← Int64.toBitVec_sub, cut_toBitVec fits]
  | mul =>
    cases value
    refine ⟨congrArg some (toInt_of_fits (Int64.toInt_mul l r) (result _ rfl)).symm, fun fits => ?_⟩
    rw [Word.binary, ← Int64.toBitVec_mul, cut_toBitVec fits]
  | bitAnd =>
    cases value
    refine ⟨by simp only [exactBinary, Int64.ofInt_toInt], fun fits => ?_⟩
    rw [Word.binary, ← Int64.toBitVec_and, cut_toBitVec fits]
  | bitOr =>
    cases value
    refine ⟨by simp only [exactBinary, Int64.ofInt_toInt], fun fits => ?_⟩
    rw [Word.binary, ← Int64.toBitVec_or, cut_toBitVec fits]
  | bitXor =>
    cases value
    refine ⟨by simp only [exactBinary, Int64.ofInt_toInt], fun fits => ?_⟩
    rw [Word.binary, ← Int64.toBitVec_xor, cut_toBitVec fits]
  | div =>
    obtain ⟨rightFits, quotient⟩ := right (.inl rfl)
    simp only [binary, eq_zero_iff] at value
    split at value
    · cases value
    rename_i nonzero
    cases value
    have same := toInt_of_fits (Int64.toInt_div l r) quotient
    refine ⟨by rw [exactBinary, if_neg nonzero, same], fun fits => ?_⟩
    simp only [Word.binary, Word.divide, low_toBitVec left, low_toBitVec rightFits, nonzero,
      quotient, Bool.not_true, Bool.false_eq_true, or_self, if_false]
    rw [← same, ← Int64.toInt_toBitVec, BitVec.ofInt_toInt]
  | mod =>
    obtain ⟨rightFits, quotient⟩ := right (.inr rfl)
    simp only [binary, eq_zero_iff] at value
    split at value
    · cases value
    rename_i nonzero
    cases value
    have same := Int64.toInt_mod l r
    refine ⟨by rw [exactBinary, if_neg nonzero, same], fun fits => ?_⟩
    simp only [Word.binary, Word.divide, low_toBitVec left, low_toBitVec rightFits, nonzero,
      quotient, Bool.not_true, Bool.false_eq_true, or_self, if_false]
    rw [← same, ← Int64.toInt_toBitVec, BitVec.ofInt_toInt]
  | shl =>
    obtain ⟨nonneg, small⟩ := count (.inl rfl)
    cases value
    obtain ⟨bits, wraps⟩ := toInt_shl (l := l) nonneg (by omega)
    refine ⟨congrArg some (toInt_of_fits wraps (result _ rfl)).symm, fun fits => ?_⟩
    rw [Word.binary, shiftCount_of_lt nonneg small, ← bits, cut_toBitVec fits]
  | shr =>
    obtain ⟨nonneg, small⟩ := count (.inr rfl)
    cases value
    obtain ⟨bits, same⟩ := toInt_shr (l := l) nonneg (by omega)
    refine ⟨congrArg some same.symm, fun fits => ?_⟩
    rw [Word.binary, shiftCount_of_lt nonneg small, cut_toBitVec left, ← bits, cut_toBitVec fits]

theorem compare_agrees (compares : op = .eq ∨ op = .ne ∨ op = .lt ∨ op = .le)
    (value : binary op l r = some v) :
    exactBinary op l.toInt r.toInt = some v.toInt ∧
      Word.binary op .qword l.toBitVec r.toBitVec = some v.toBitVec := by
  rcases compares with rfl | rfl | rfl | rfl
  all_goals
    cases value
    simp only [exactBinary, Word.binary, toInt_ofBool, toBitVec_ofBool, Word.low_qword,
      Int64.toInt_toBitVec, Int64.lt_iff_toInt_lt, Int64.le_iff_toInt_le]
  · by_cases same : l = r
    · simp [same]
    · simp [same, Int64.toInt_inj, beq_eq_false_iff_ne.mpr same]
  · by_cases same : l = r
    · simp [same]
    · simp [same, Int64.toInt_inj, bne_iff_ne.mpr same]
  · simp
  · simp

theorem unary_agrees {op : UnOp} (result : Word.fits w (exactUnary op l.toInt) = true) :
    exactUnary op l.toInt = (unary op l).toInt ∧
      Word.unary op w l.toBitVec = (unary op l).toBitVec := by
  cases op with
  | neg =>
    have same := toInt_of_fits (Int64.toInt_neg l) result
    exact ⟨same.symm, cut_toBitVec (v := -l) (same ▸ result)⟩
  | bitNot =>
    have same := toInt_of_fits (Int64.toInt_not l) result
    exact ⟨same.symm, cut_toBitVec (v := ~~~l) (same ▸ result)⟩
  | not =>
    refine ⟨?_, ?_⟩
    · simp [exactUnary, unary, toInt_ofBool, eq_zero_iff]
    · by_cases zero : l = 0
      · subst zero
        rfl
      · have nonzero : l.toBitVec ≠ 0#64 := fun same => zero (Int64.toBitVec_inj.mp same)
        simp [Word.unary, unary, toBitVec_ofBool, beq_eq_false_iff_ne.mpr zero, nonzero]

end

/-! ## Conditions -/

/-- The conditions under which folding a constant agrees with running it. They concern the parts
that are evaluated: none of them is a pointer; the exact value of each fits its type; a shift is by
less than the number of bits of its type; a quotient fits, also where the remainder is taken; and
what stands left of a comma is a constant too. -/
structure Sound (Γ : Typing.Context) (e : Expr) : Prop where
  plain : ∀ part ∈ evaluated e, ∀ part', Typing.expr Γ part = .ok part' → part'.ty.isPointer = false
  fits : ∀ part ∈ evaluated e, ∀ part' n, Typing.expr Γ part = .ok part' → exact part = some n →
    Word.fits (.ofType part'.ty) n = true
  shifts : ∀ note op scaled lhs rhs, .binary note op scaled lhs rhs ∈ evaluated e →
    op = .shl ∨ op = .shr → ∀ part' n,
    Typing.expr Γ (.binary note op scaled lhs rhs) = .ok part' → exact rhs = some n →
    0 ≤ n ∧ n < (Width.arithmetic part'.ty).bits
  quotients : ∀ note op scaled lhs rhs, .binary note op scaled lhs rhs ∈ evaluated e →
    op = .div ∨ op = .mod → ∀ part' m n,
    Typing.expr Γ (.binary note op scaled lhs rhs) = .ok part' → exact lhs = some m →
    exact rhs = some n → Word.fits (.arithmetic part'.ty) (m.tdiv n) = true
  commas : ∀ note lhs rhs, .comma note lhs rhs ∈ evaluated e → ∃ v, eval lhs = .ok v

variable {Γ : Typing.Context} {e p q r : Expr} {note : Note} {op : BinOp} {scaled : Bool}

theorem self_mem_evaluated (e : Expr) : e ∈ evaluated e := by
  cases e <;> exact List.mem_cons_self

theorem Sound.part (sound : Sound Γ e) (parts : ∀ part ∈ evaluated p, part ∈ evaluated e) :
    Sound Γ p where
  plain := fun part mem => sound.plain part (parts part mem)
  fits := fun part mem => sound.fits part (parts part mem)
  shifts := fun _ _ _ _ _ mem => sound.shifts _ _ _ _ _ (parts _ mem)
  quotients := fun _ _ _ _ _ mem => sound.quotients _ _ _ _ _ (parts _ mem)
  commas := fun _ _ _ mem => sound.commas _ _ _ (parts _ mem)

/-- Where `eval` gives a value, it is the exact one, and the typed expression has it. -/
def Folded (Γ : Typing.Context) (e : Expr) : Prop :=
  ∀ v e', eval e = .ok v → Typing.expr Γ e = .ok e' →
    exact e = some v.toInt ∧ Denotes e' fun _ => v.toBitVec

/-! ## Typed operations -/

theorem typed_binary (typed : Typing.expr Γ (.binary note op scaled p q) = .ok e') :
    ∃ p' q', Typing.expr Γ p = .ok p' ∧ Typing.expr Γ q = .ok q' ∧
      Typing.binary Γ note.loc op scaled p' q' = .ok e' := by
  rw [Typing.expr, bind_eq_ok] at typed
  obtain ⟨p', left, typed⟩ := typed
  obtain ⟨q', right, typed⟩ := bind_eq_ok.mp typed
  exact ⟨p', q', left, right, typed⟩

theorem typed_arithmetic (typed : Typing.binary Γ loc op scaled p' q' = .ok e')
    (plain : op = .logAnd ∨ op = .logOr ∨ p'.ty.isPointer = false ∧ q'.ty.isPointer = false) :
    Typing.operand p' = .ok () ∧ Typing.operand q' = .ok () ∧
      e' = .binary ⟨Typing.arithmeticType Γ op p'.ty q'.ty, loc⟩ op scaled p' q' := by
  obtain ⟨_, left, typed⟩ := bind_eq_ok.mp typed
  obtain ⟨_, right, typed⟩ := bind_eq_ok.mp typed
  refine ⟨left, right, ?_⟩
  rcases plain with rfl | rfl | ⟨plain, plain'⟩
  · cases typed
    rfl
  · cases typed
    rfl
  · rw [plain, plain'] at typed
    cases op <;> cases typed <;> rfl

theorem arithmeticType_holds {s t ty : CType} (type : ty = Typing.arithmeticType Γ op s t)
    (left : s.isInteger = true) (right : t.isInteger = true) (plain : op.isBoolean = false) :
    Width.arithmetic ty = .ofType ty ∧ (Width.arithmetic ty).bits = (Width.arithmetic ty).shiftLimit ∧
    (Width.ofType s).bits ≤ (Width.arithmetic ty).bits ∧
    (¬(op = .shl ∨ op = .shr) → (Width.ofType t).bits ≤ (Width.arithmetic ty).bits) := by
  subst type
  simp only [Typing.arithmeticType, plain, Bool.false_eq_true, if_false]
  by_cases shifts : op = .shl ∨ op = .shr
  · rw [if_pos shifts]
    cases s <;> cases left <;> simp [shifts] <;> decide
  · rw [if_neg shifts]
    cases s <;> cases left <;> cases t <;> cases right <;>
      simp [shifts, Typing.wider, Structs.size] <;> decide

/-! ## Expressions -/

theorem eval_both (both : ¬(op = .logAnd ∨ op = .logOr))
    (value : eval (.binary note op scaled p q) = .ok v) :
    ∃ l r, eval p = .ok l ∧ eval q = .ok r ∧ binary op l r = some v := by
  rw [eval, bind_eq_ok] at value
  obtain ⟨l, left, value⟩ := value
  rw [if_neg (fun h => both (.inl h.1)), if_neg (fun h => both (.inr h.1)), bind_eq_ok] at value
  obtain ⟨r, right, value⟩ := value
  cases found : binary op l r with
  | none =>
    rw [found] at value
    cases value
  | some u =>
    rw [found] at value
    cases value
    exact ⟨l, r, left, right, found⟩

theorem exact_both {m : Int} (both : ¬(op = .logAnd ∨ op = .logOr)) (left : exact p = some m)
    (right : exact q = some n) : exact (.binary note op scaled p q) = exactBinary op m n := by
  rw [exact, left, right]
  change (if op = .logAnd ∧ m = 0 then _ else if op = .logOr ∧ m ≠ 0 then _ else _) = _
  rw [if_neg (fun h => both (.inl h.1)), if_neg (fun h => both (.inr h.1))]
  rfl

theorem evaluated_both (both : ¬(op = .logAnd ∨ op = .logOr)) :
    evaluated (.binary note op scaled p q) =
      .binary note op scaled p q :: (evaluated p ++ evaluated q) := by
  rw [evaluated, if_neg]
  rintro (h | h)
  · exact both (.inl h.1)
  · exact both (.inr h.1)

theorem Denotes.binary {a b c : Word} (both : ¬(op = .logAnd ∨ op = .logOr))
    (left : Denotes p' fun _ => a) (right : Denotes q' fun _ => b)
    (result : Word.binary op (.ofBinary op note.ty) a b = some c) :
    Denotes (.binary note op scaled p' q') fun _ => c := by
  intro ctx w
  rw [Tree.expr_binary ctx both]
  simp only [bind, EStateM.bind, left ctx w, right ctx w, Word.combine, result]
  rfl

theorem folded_binary (both : ¬(op = .logAnd ∨ op = .logOr))
    (sound : Sound Γ (.binary note op scaled p q)) (left : Folded Γ p) (right : Folded Γ q) :
    Folded Γ (.binary note op scaled p q) := by
  intro v e' value typed
  have typed' := typed
  obtain ⟨p', q', leftTyped, rightTyped, made⟩ := typed_binary typed
  obtain ⟨l, r, leftValue, rightValue, value⟩ := eval_both both value
  obtain ⟨leftExact, leftDenotes⟩ := left l p' leftValue leftTyped
  obtain ⟨rightExact, rightDenotes⟩ := right r q' rightValue rightTyped
  have whole := self_mem_evaluated (.binary note op scaled p q)
  have leftMem : p ∈ evaluated (.binary note op scaled p q) := by
    simp [evaluated_both both, self_mem_evaluated]
  have rightMem : q ∈ evaluated (.binary note op scaled p q) := by
    simp [evaluated_both both, self_mem_evaluated]
  have plain := sound.plain p leftMem p' leftTyped
  have plain' := sound.plain q rightMem q' rightTyped
  obtain ⟨leftOk, rightOk, rfl⟩ := typed_arithmetic made (.inr (.inr ⟨plain, plain'⟩))
  rw [exact_both both leftExact rightExact]
  generalize type : Typing.arithmeticType Γ op p'.ty q'.ty = ty at typed'
  suffices agrees : exactBinary op l.toInt r.toInt = some v.toInt ∧
      Word.binary op (.ofBinary op ty) l.toBitVec r.toBitVec = some v.toBitVec from
    ⟨agrees.1, leftDenotes.binary both rightDenotes agrees.2⟩
  by_cases boolean : op.isBoolean = true
  · rw [Width.ofBinary, if_pos boolean]
    refine compare_agrees ?_ value
    cases op <;> simp_all [BinOp.isBoolean]
  · rw [Width.ofBinary, if_neg boolean]
    obtain ⟨same, limit, leftHolds, rightHolds⟩ := arithmeticType_holds type.symm
      (Typing.isInteger_of_operand leftOk plain) (Typing.isInteger_of_operand rightOk plain')
      (Bool.eq_false_iff.mpr boolean)
    refine binary_agrees (Bool.eq_false_iff.mpr boolean) value ?_ (fun divides => ⟨?_, ?_⟩)
      (fun shifts => ?_) (fun n found => ?_)
    · exact Word.fits_mono leftHolds (sound.fits p leftMem p' _ leftTyped leftExact)
    · refine Word.fits_mono (rightHolds ?_) (sound.fits q rightMem q' _ rightTyped rightExact)
      rcases divides with rfl | rfl <;> simp
    · have quotient := sound.quotients _ _ _ _ _ whole divides _ _ _ typed' leftExact rightExact
      exact quotient
    · have count := sound.shifts _ _ _ _ _ whole shifts _ _ typed' rightExact
      rw [← limit]
      exact count
    · have result := sound.fits _ whole _ _ typed'
        ((exact_both both leftExact rightExact).trans found)
      rwa [same]

theorem toBitVec_eq_zero_iff : v.toBitVec = 0 ↔ v = 0 := Int64.toBitVec_inj (b := 0)

theorem toBitVec_ofBool_ne_zero (r : Int64) :
    (ofBool (r != 0)).toBitVec = Word.ofBool (decide (r.toBitVec ≠ 0)) := by
  rw [toBitVec_ofBool]
  by_cases zero : r = 0
  · subst zero
    rfl
  · have nonzero : r.toBitVec ≠ 0 := fun same => zero (toBitVec_eq_zero_iff.mp same)
    rw [bne_iff_ne.mpr zero, decide_eq_true nonzero]

theorem folded_logical (logical : op = .logAnd ∨ op = .logOr) (left : Folded Γ p)
    (right : ¬(op = .logAnd ∧ exact p = some 0 ∨ op = .logOr ∧ exact p ≠ some 0) → Folded Γ q) :
    Folded Γ (.binary note op scaled p q) := by
  intro v e' value typed
  obtain ⟨p', q', leftTyped, rightTyped, made⟩ := typed_binary typed
  obtain ⟨-, -, rfl⟩ := typed_arithmetic made (by rcases logical with rfl | rfl <;> simp)
  rw [eval, bind_eq_ok] at value
  obtain ⟨l, leftValue, value⟩ := value
  obtain ⟨leftExact, leftDenotes⟩ := left l p' leftValue leftTyped
  have zero : exact p = some 0 ↔ l = 0 := by rw [leftExact, Option.some.injEq, ← eq_zero_iff]
  rw [ne_eq, zero] at right
  rcases logical with rfl | rfl
  · by_cases passes : l = 0
    · subst passes
      cases value
      refine ⟨by rw [exact, leftExact]; rfl, fun ctx w => ?_⟩
      simp only [Tree.expr, bind, EStateM.bind, leftDenotes ctx w]
      rfl
    · rw [if_neg (by simp [passes]), if_neg (by simp), bind_eq_ok] at value
      obtain ⟨r, rightValue, value⟩ := value
      cases value
      obtain ⟨rightExact, rightDenotes⟩ := right (by simp [passes]) r q' rightValue rightTyped
      have nonzero : l.toInt ≠ 0 := fun same => passes (eq_zero_iff.mpr same)
      refine ⟨?_, fun ctx w => ?_⟩
      · rw [exact, leftExact, rightExact]
        simp [nonzero, exactBinary, toInt_ofBool, eq_zero_iff]
      · rw [bne_iff_ne.mpr passes, Bool.true_and, toBitVec_ofBool_ne_zero]
        simp only [Tree.expr, bind, EStateM.bind, leftDenotes ctx w, rightDenotes ctx w,
          toBitVec_eq_zero_iff, passes, if_false]
        rfl
  · by_cases passes : l = 0
    · subst passes
      rw [if_neg (by simp), if_neg (by simp), bind_eq_ok] at value
      obtain ⟨r, rightValue, value⟩ := value
      cases value
      obtain ⟨rightExact, rightDenotes⟩ := right (by simp) r q' rightValue rightTyped
      refine ⟨?_, fun ctx w => ?_⟩
      · rw [exact, leftExact, rightExact]
        simp [exactBinary, toInt_ofBool, eq_zero_iff]
      · rw [show ((0 : Int64) != 0) = false from rfl, Bool.false_or, toBitVec_ofBool_ne_zero]
        have falls : ¬Int64.toBitVec 0 ≠ 0 := by decide
        simp only [Tree.expr, bind, EStateM.bind, leftDenotes ctx w, if_neg falls,
          rightDenotes ctx w]
        rfl
    · rw [if_neg (by simp), if_pos ⟨rfl, passes⟩] at value
      cases value
      have nonzero : l.toInt ≠ 0 := fun same => passes (eq_zero_iff.mpr same)
      refine ⟨?_, fun ctx w => ?_⟩
      · rw [exact, leftExact]
        simp [nonzero]
      · simp only [Tree.expr, bind, EStateM.bind, leftDenotes ctx w, ne_eq, toBitVec_eq_zero_iff,
          passes, not_false_eq_true, if_true]
        rfl

theorem folded_cond (test : Folded Γ p)
    (yes : exact p ≠ some 0 → Folded Γ q) (no : exact p = some 0 → Folded Γ r) :
    Folded Γ (.cond note p q r) := by
  intro v e' value typed
  rw [Typing.expr, bind_eq_ok] at typed
  obtain ⟨p', testTyped, typed⟩ := typed
  obtain ⟨_, -, typed⟩ := bind_eq_ok.mp typed
  obtain ⟨q', yesTyped, typed⟩ := bind_eq_ok.mp typed
  obtain ⟨r', noTyped, typed⟩ := bind_eq_ok.mp typed
  obtain ⟨ty, -, made⟩ := bind_eq_ok.mp typed
  cases made
  rw [eval, bind_eq_ok] at value
  obtain ⟨t, testValue, value⟩ := value
  obtain ⟨testExact, testDenotes⟩ := test t p' testValue testTyped
  have zero : exact p = some 0 ↔ t = 0 := by rw [testExact, Option.some.injEq, ← eq_zero_iff]
  rw [ne_eq, zero] at yes
  rw [zero] at no
  by_cases chosen : t = 0
  · rw [if_neg (by simp [chosen])] at value
    obtain ⟨noExact, noDenotes⟩ := no chosen v r' value noTyped
    subst chosen
    refine ⟨by rw [exact, testExact]; exact noExact, fun ctx w => ?_⟩
    simp only [Tree.expr, bind, EStateM.bind, testDenotes ctx w]
    exact noDenotes ctx w
  · rw [if_pos chosen] at value
    obtain ⟨yesExact, yesDenotes⟩ := yes chosen v q' value yesTyped
    have nonzero : t.toInt ≠ 0 := fun same => chosen (eq_zero_iff.mpr same)
    refine ⟨?_, fun ctx w => ?_⟩
    · rw [exact, testExact]
      simp [nonzero, yesExact]
    · simp only [Tree.expr, bind, EStateM.bind, testDenotes ctx w, ne_eq, toBitVec_eq_zero_iff,
        chosen, not_false_eq_true, if_true]
      exact yesDenotes ctx w

theorem folded_comma (constant : ∃ v, eval p = .ok v) (left : Folded Γ p) (right : Folded Γ q) :
    Folded Γ (.comma note p q) := by
  intro v e' value typed
  rw [Typing.expr, bind_eq_ok] at typed
  obtain ⟨p', leftTyped, typed⟩ := typed
  obtain ⟨q', rightTyped, typed⟩ := bind_eq_ok.mp typed
  cases typed
  obtain ⟨u, leftValue⟩ := constant
  obtain ⟨-, leftDenotes⟩ := left u p' leftValue leftTyped
  obtain ⟨rightExact, rightDenotes⟩ := right v q' value rightTyped
  refine ⟨rightExact, fun ctx w => ?_⟩
  simp only [Typing.comma, Tree.expr, bind, EStateM.bind, leftDenotes ctx w]
  exact rightDenotes ctx w

theorem typed_unary {op : UnOp} (typed : Typing.unary loc op p' = .ok e') :
    ∃ ty, Width.arithmetic ty = .ofType ty ∧ e' = .unary ⟨ty, loc⟩ op p' := by
  have kept : ∀ {op}, (if p'.ty.isInteger = true then
      .ok (.unary ⟨p'.ty.promote, loc⟩ op p') else Typing.fail (.invalidOperand p'.ty) loc) =
        (.ok e' : Typing.Result Expr) →
      ∃ ty, Width.arithmetic ty = .ofType ty ∧ e' = .unary ⟨ty, loc⟩ op p' := by
    intro op typed
    split at typed
    · cases typed
      exact ⟨_, Width.arithmetic_promote _, rfl⟩
    · cases typed
  cases op with
  | not =>
    obtain ⟨_, -, made⟩ := bind_eq_ok.mp typed
    cases made
    exact ⟨.int, rfl, rfl⟩
  | neg => exact kept typed
  | bitNot => exact kept typed

theorem folded_unary {op : UnOp} (sound : Sound Γ (.unary note op p)) (inner : Folded Γ p) :
    Folded Γ (.unary note op p) := by
  intro v e' value typed
  have typed' := typed
  rw [Typing.expr, bind_eq_ok] at typed
  obtain ⟨p', innerTyped, made⟩ := typed
  obtain ⟨ty, same, rfl⟩ := typed_unary made
  rw [eval, bind_eq_ok] at value
  obtain ⟨u, innerValue, value⟩ := value
  cases value
  obtain ⟨innerExact, innerDenotes⟩ := inner u p' innerValue innerTyped
  have whole : exact (.unary note op p) = some (exactUnary op u.toInt) := by
    rw [exact, innerExact]
    rfl
  have result := sound.fits _ (self_mem_evaluated _) _ _ typed' whole
  obtain ⟨exactly, bits⟩ := unary_agrees (w := .arithmetic ty) (by rw [same]; exact result)
  refine ⟨by rw [whole, exactly], fun ctx w => ?_⟩
  simp only [Tree.expr, bind, EStateM.bind, innerDenotes ctx w]
  rw [bits]
  rfl

theorem folded_cast {target : CType} (inner : Folded Γ p) : Folded Γ (.cast note target p) := by
  intro v e' value typed
  rw [Typing.expr, bind_eq_ok] at typed
  obtain ⟨p', innerTyped, made⟩ := typed
  rw [eval, bind_eq_ok] at value
  obtain ⟨u, innerValue, value⟩ := value
  cases value
  obtain ⟨innerExact, innerDenotes⟩ := inner u p' innerValue innerTyped
  have bits := toBitVec_castTo target u
  refine ⟨?_, ?_⟩
  · rw [exact, innerExact, ← Int64.toInt_toBitVec (castTo target u), bits, Word.toInt_cut,
      Word.low_eq_bmod, Int64.toInt_toBitVec]
    rfl
  · obtain rfl := Typing.cast_eq_ok made
    rw [bits]
    exact innerDenotes.cast

theorem folded_num {value : Int64} : Folded Γ (.num note value) := by
  intro v e' evaluated typed
  cases evaluated
  cases typed
  refine ⟨rfl, fun ctx w => ?_⟩
  unfold Typing.num
  split <;> rfl

/-! ## Whole constants -/

/-- A sound constant is folded to its value, by induction over the tree. -/
theorem Sound.folded : (e : Expr) → Sound Γ e → Folded Γ e
  | .num _ _, _ => folded_num
  | .binary note op scaled p q, sound => by
    by_cases logical : op = .logAnd ∨ op = .logOr
    · refine folded_logical logical (Sound.folded p (sound.part ?_)) fun evaluates =>
        Sound.folded q (sound.part ?_)
      · intro part mem
        simp [evaluated, mem]
      · intro part mem
        simp only [evaluated, if_neg evaluates]
        simp [mem]
    · refine folded_binary logical sound (Sound.folded p (sound.part ?_))
        (Sound.folded q (sound.part ?_))
      · intro part mem
        simp [evaluated_both logical, mem]
      · intro part mem
        simp [evaluated_both logical, mem]
  | .unary note op p, sound =>
    folded_unary sound (Sound.folded p (sound.part fun _ mem => List.mem_cons_of_mem _ mem))
  | .cond note p q r, sound => by
    refine folded_cond (Sound.folded p (sound.part ?_)) (fun chosen => Sound.folded q (sound.part ?_))
      fun chosen => Sound.folded r (sound.part ?_)
    · intro part mem
      simp [evaluated, mem]
    · intro part mem
      simp [evaluated, chosen, mem]
    · intro part mem
      simp [evaluated, chosen, mem]
  | .comma note p q, sound => by
    refine folded_comma (sound.commas _ _ _ (self_mem_evaluated _)) (Sound.folded p (sound.part ?_))
      (Sound.folded q (sound.part ?_))
    · intro part mem
      simp [evaluated, mem]
    · intro part mem
      simp [evaluated, mem]
  | .cast note target p, sound =>
    folded_cast (Sound.folded p (sound.part fun _ mem => List.mem_cons_of_mem _ mem))
  | .str .., _ | .var .., _ | .global .., _ | .assign .., _ | .addr .., _ | .deref .., _
  | .member .., _ | .call .., _ | .sizeof .., _ | .update .., _ => by
    intro _ _ value
    cases value

/-- **Folding agrees with running.** If `eval` gives a constant a value and the constant has a typed
form, and if no part that is evaluated is a pointer, each of them has an exact value that fits its
type, shifts are by less than the width, quotients fit, and what stands left of a comma is a
constant, then the typed form has the same value in every state of every program, without an
effect; and it is the exact value of the constant. -/
theorem eval_agrees {v : Int64} {e' : Expr} (sound : Sound Γ e) (value : eval e = .ok v)
    (typed : Typing.expr Γ e = .ok e') :
    (∀ ctx w, Tree.expr ctx .value e' w = .ok v.toBitVec w) ∧ exact e = some v.toInt := by
  obtain ⟨exactly, denotes⟩ := sound.folded e v e' value typed
  exact ⟨denotes, exactly⟩

/-! ## Examples -/

def isSound (Γ : Typing.Context) (part : Expr) : Bool :=
  let constant := match part with
    | .comma _ lhs _ => (eval lhs).toOption.isSome
    | _ => true
  let typed := match Typing.expr Γ part with
    | .error _ => true
    | .ok part' =>
      !part'.ty.isPointer && (exact part).all (Word.fits (.ofType part'.ty)) &&
        match part with
        | .binary _ op _ lhs rhs =>
          (exact rhs).all fun n : Int =>
            (!(op = .shl ∨ op = .shr) || (0 ≤ n && n < (Width.arithmetic part'.ty).bits)) &&
            (!(op = .div ∨ op = .mod) ||
              (exact lhs).all fun m => Word.fits (.arithmetic part'.ty) (m.tdiv n))
        | _ => true
  constant && typed

theorem Sound.of_isSound (h : (evaluated e).all (isSound Γ) = true) : Sound Γ e := by
  rw [List.all_eq_true] at h
  refine ⟨fun part mem part' typed => ?_, fun part mem part' n typed found => ?_,
    fun note op scaled lhs rhs mem shifts part' n typed found => ?_,
    fun note op scaled lhs rhs mem divides part' m n typed first second => ?_,
    fun note lhs rhs mem => ?_⟩
  · have := h part mem
    simp only [isSound, typed, Bool.and_eq_true, Bool.not_eq_true'] at this
    exact this.2.1.1
  · have := h part mem
    simp only [isSound, typed, Bool.and_eq_true, found, Option.all_some] at this
    exact this.2.1.2
  · have := h _ mem
    simp only [isSound, typed, Bool.and_eq_true, found, Option.all_some] at this
    simpa [shifts] using this.2.2.1
  · have := h _ mem
    simp only [isSound, typed, Bool.and_eq_true, first, second, Option.all_some] at this
    simpa [divides] using this.2.2.2
  · have := h _ mem
    simp only [isSound, Bool.and_eq_true] at this
    cases value : eval lhs with
    | ok v => exact ⟨v, rfl⟩
    | error stop =>
      rw [value] at this
      cases this.1

private def unplaced : Note := ⟨.void, .atStart ⟨"f.c", ""⟩⟩

def noContext : Typing.Context := ⟨{}, [], [], [], [], false⟩

def shortcut : Expr :=
  .cond unplaced
    (.binary unplaced .logOr false (.num unplaced 1)
      (.binary unplaced .div false (.num unplaced 2) (.num unplaced 0)))
    (.comma unplaced (.num unplaced 5)
      (.binary unplaced .shl false
        (.binary unplaced .mul false (.cast unplaced .char (.num unplaced 300)) (.num unplaced 7))
        (.num unplaced 3)))
    (.binary unplaced .div false (.unary unplaced .neg (.num unplaced 1)) (.num unplaced 0))

theorem eval_agrees_shortcut : ∃ e', Sound noContext shortcut ∧ eval shortcut = .ok 2464 ∧
    Typing.expr noContext shortcut = .ok e' ∧
    (∀ ctx w, Tree.expr ctx .value e' w = .ok 2464 w) ∧ exact shortcut = some 2464 := by
  have sound : Sound noContext shortcut := .of_isSound (by decide +kernel)
  have value : eval shortcut = .ok 2464 := rfl
  obtain ⟨e', typed⟩ : ∃ e', Typing.expr noContext shortcut = .ok e' := ⟨_, rfl⟩
  exact ⟨e', sound, value, typed, eval_agrees sound value typed⟩

end Constant

end MiniC
