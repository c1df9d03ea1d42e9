import MiniC.Proofs.Semantics.Word

/-!
# Words with their sign extended

A word is *extended* from a width if it lies in the range of the numbers with a sign of that width.
Loads, operations of a width and tests give such words, and a word that is extended from a width is
also extended from every larger one.
-/

namespace MiniC

namespace Width

theorem arithmetic_promote (ty : CType) : arithmetic ty.promote = ofType ty.promote := by
  cases ty <;> rfl

theorem ofType_decay (ty : CType) : ofType ty.decay = ofType ty := by cases ty <;> rfl

theorem ofType_of_isAggregate {ty : CType} (h : ty.isAggregate) : ofType ty = .qword := by
  cases ty <;> first | rfl | cases h

theorem ofType_of_isPointer {ty : CType} (h : ty.isPointer) : ofType ty = .qword := by
  cases ty <;> first | rfl | cases h

theorem byte_bits_le (w : Width) : byte.bits ≤ w.bits := by cases w <;> decide

end Width

namespace Word

/-! ## Integers that fit a width -/

variable {w w' : Width} {n : Int} {x : Word}

theorem fits_iff : fits w n = true ↔ -2 ^ (w.bits - 1) ≤ n ∧ n < 2 ^ (w.bits - 1) := by
  simp [fits]

theorem fits_mono (wider : w.bits ≤ w'.bits) (h : fits w n = true) : fits w' n = true := by
  rw [fits_iff] at *
  cases w <;> cases w' <;> simp only [Width.bits, Width.bytes] at * <;> omega

theorem fits_qword_toInt (x : Word) : fits .qword x.toInt = true := by
  rw [fits_iff]
  exact ⟨BitVec.le_toInt x, BitVec.toInt_lt⟩

theorem bmod_of_fits (h : fits w n = true) : n.bmod (2 ^ w.bits) = n := by
  rw [fits_iff] at h
  apply Int.bmod_eq_of_le <;> cases w <;> simp only [Width.bits, Width.bytes] at h ⊢ <;> omega

theorem low_eq_bmod (w : Width) (x : Word) : low w x = x.toInt.bmod (2 ^ w.bits) := by
  rw [low, BitVec.toInt_setWidth, BitVec.toInt_eq_toNat_bmod, Int.bmod_bmod_of_dvd]
  cases w <;> decide

theorem low_of_fits (h : fits w x.toInt = true) : low w x = x.toInt := by
  rw [low_eq_bmod, bmod_of_fits h]

theorem fits_low (w : Width) (x : Word) : fits w (low w x) = true :=
  fits_iff.mpr ⟨BitVec.le_toInt _, BitVec.toInt_lt⟩

theorem toInt_cut (w : Width) (x : Word) : (cut w x).toInt = low w x := by
  have same : (x.setWidth w.bits).toInt = x.toInt.bmod (2 ^ w.bits) := low_eq_bmod w x
  rw [cut, BitVec.toInt_signExtend, same, Nat.min_eq_right w.bits_le, Int.bmod_bmod, low_eq_bmod]

theorem cut_of_fits (h : fits w x.toInt = true) : cut w x = x :=
  BitVec.eq_of_toInt_eq ((toInt_cut w x).trans (low_of_fits h))

theorem fits_tmod {m : Int} (h : fits w n = true) : fits w (n.tmod m) = true := by
  rw [fits_iff] at h ⊢
  have bound : (n.tmod m).natAbs ≤ n.natAbs := by
    rw [Int.natAbs_tmod]
    exact Nat.mod_le _ _
  have sign : n ≤ 0 → n.tmod m ≤ 0 := by
    intro h
    have := Int.tmod_nonneg m (Int.neg_nonneg.mpr h)
    rw [Int.neg_tmod] at this
    omega
  omega

theorem fits_tdiv {m : Int} (pos : 0 < m) (h : fits w n = true) : fits w (n.tdiv m) = true := by
  rw [fits_iff] at h ⊢
  have bound : (n.tdiv m).natAbs ≤ n.natAbs := by
    rw [Int.natAbs_tdiv]
    exact Nat.div_le_self _ _
  have sign : n ≤ 0 → n.tdiv m ≤ 0 := by
    intro h
    have := Int.tdiv_nonneg (Int.neg_nonneg.mpr h) pos.le
    rw [Int.neg_tdiv] at this
    omega
  omega

/-! ## Extended words -/

def Extended (w : Width) (x : Word) : Prop := fits w x.toInt = true

instance (w : Width) (x : Word) : Decidable (Extended w x) := inferInstanceAs (Decidable (_ = true))

theorem cut_extended (w : Width) (x : Word) : Extended w (cut w x) := by
  rw [Extended, toInt_cut]
  exact fits_low w x

theorem extended_iff : Extended w x ↔ cut w x = x :=
  ⟨cut_of_fits, fun same => same ▸ cut_extended w x⟩

theorem Extended.mono (wider : w.bits ≤ w'.bits) (h : Extended w x) : Extended w' x :=
  fits_mono wider h

theorem extended_qword (x : Word) : Extended .qword x := fits_qword_toInt x

theorem ofBool_extended (w : Width) (b : Bool) : Extended w (ofBool b) := by
  cases w <;> cases b <;> decide

theorem ofInt_extended (h : fits w n = true) : Extended w (BitVec.ofInt 64 n) := by
  have whole : n.bmod (2 ^ 64) = n := bmod_of_fits (w := .qword) (fits_mono w.bits_le h)
  rw [Extended, BitVec.toInt_ofInt, whole]
  exact h

theorem divide_extended {part : Int → Int → Int} {a b v : Word}
    (kept : ∀ m n, fits w m = true → fits w (m.tdiv n) = true → fits w (part m n) = true)
    (h : divide part w a b = some v) : Extended w v := by
  unfold divide at h
  split at h
  · cases h
  · rename_i defined
    cases h
    refine ofInt_extended (kept _ _ (fits_low w a) ?_)
    simp only [not_or, Bool.not_eq_true, Bool.not_eq_false'] at defined
    simpa using defined.2

def resultWidth (op : BinOp) (w : Width) : Width := if op.isBoolean then .byte else w

theorem binary_extended {op : BinOp} {a b v : Word} (h : binary op w a b = some v) :
    Extended (resultWidth op w) v := by
  cases op with
  | div => exact divide_extended (fun _ _ _ fits => fits) h
  | mod => exact divide_extended (fun _ _ fits _ => fits_tmod fits) h
  | add | sub | mul | bitAnd | bitOr | bitXor | shl | shr =>
    cases h
    exact cut_extended w _
  | eq | ne | lt | le | logAnd | logOr =>
    cases h
    exact ofBool_extended .byte _

theorem unary_extended (op : UnOp) (w : Width) (a : Word) : Extended w (unary op w a) := by
  cases op with
  | neg | bitNot => exact cut_extended w _
  | not => exact ofBool_extended w _

theorem load_extended (m : Memory) (w : Width) (a : Word) : Extended w (m.load w a) := by
  have whole : (m.load w a).toInt = (BitVec.ofNat w.bits (m.number a w.bytes)).toInt :=
    BitVec.toInt_signExtend_of_le w.bits_le
  rw [Extended, whole]
  exact fits_iff.mpr ⟨BitVec.le_toInt _, BitVec.toInt_lt⟩

end Word

end MiniC
