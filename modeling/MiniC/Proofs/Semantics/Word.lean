import MiniC.Ir
import Mathlib.Data.BitVec

/-!
# Words and memory

The values that programs compute with: words of 64 bits, the low parts of words that
a width selects, and a memory of bytes in which numbers have their lowest byte first.

An operation of a width works on the low part of its operands and gives a word whose
sign is extended from that part. Division has no result where the machine has none: by
zero, and where the quotient does not fit. `Memory.load_store` is what the stack of a
machine relies on: a word that was stored is read back.
-/

namespace MiniC

/-- A machine word. -/
abbrev Word := BitVec 64

namespace Width

def bytes : Width → Nat
  | byte => 1
  | dword => 4
  | qword => 8

def bits (w : Width) : Nat := 8 * w.bytes

/-- Shifts use as many low bits of the count as the machine looks at: six for a whole
word, five for anything less. -/
def shiftLimit : Width → Nat
  | qword => 64
  | _ => 32

theorem bytes_le (w : Width) : w.bytes ≤ 8 := by cases w <;> decide

theorem bits_le (w : Width) : w.bits ≤ 64 := by cases w <;> decide

end Width

namespace Word

def cut (w : Width) (x : Word) : Word := (x.setWidth w.bits).signExtend 64

def low (w : Width) (x : Word) : Int := (x.setWidth w.bits).toInt

def ofBool (b : Bool) : Word := if b then 1 else 0

def shiftCount (w : Width) (x : Word) : Nat := x.toNat % w.shiftLimit

def fits (w : Width) (x : Int) : Bool := -2 ^ (w.bits - 1) ≤ x ∧ x < 2 ^ (w.bits - 1)

/-- A division of low parts, towards zero: the quotient or the remainder, whichever
`part` takes. There is none by zero, nor if the quotient does not fit. -/
def divide (part : Int → Int → Int) (w : Width) (a b : Word) : Option Word :=
  if low w b = 0 ∨ !fits w ((low w a).tdiv (low w b)) then none
  else some (.ofInt 64 (part (low w a) (low w b)))

def binary (op : BinOp) (w : Width) (a b : Word) : Option Word :=
  match op with
  | .add => some (cut w (a + b))
  | .sub => some (cut w (a - b))
  | .mul => some (cut w (a * b))
  | .div => divide Int.tdiv w a b
  | .mod => divide Int.tmod w a b
  | .bitAnd => some (cut w (a &&& b))
  | .bitOr => some (cut w (a ||| b))
  | .bitXor => some (cut w (a ^^^ b))
  | .shl => some (cut w (a <<< shiftCount w b))
  | .shr => some (cut w ((cut w a).sshiftRight (shiftCount w b)))
  | .eq => some (ofBool (low w a = low w b))
  | .ne => some (ofBool (low w a ≠ low w b))
  | .lt => some (ofBool (low w a < low w b))
  | .le => some (ofBool (low w a ≤ low w b))
  | .logAnd => some (ofBool (a ≠ 0 ∧ b ≠ 0))
  | .logOr => some (ofBool (a ≠ 0 ∨ b ≠ 0))

def unary (op : UnOp) (w : Width) (a : Word) : Word :=
  match op with
  | .neg => cut w (-a)
  | .bitNot => cut w (~~~a)
  | .not => ofBool (a = 0)

@[simp] theorem cut_qword (x : Word) : cut .qword x = x := by
  simp [cut, Width.bits, Width.bytes]

@[simp] theorem low_qword (x : Word) : low .qword x = x.toInt := by
  simp [low, Width.bits, Width.bytes]

end Word

def Memory := Word → BitVec 8

namespace Memory

def number (m : Memory) (a : Word) : Nat → Nat
  | 0 => 0
  | n + 1 => (m a).toNat + 256 * number m (a + 1) n

def load (m : Memory) (w : Width) (a : Word) : Word :=
  (BitVec.ofNat w.bits (m.number a w.bytes)).signExtend 64

def store (m : Memory) (w : Width) (a v : Word) : Memory := fun b =>
  if (b - a).toNat < w.bytes then v.extractLsb' (8 * (b - a).toNat) 8 else m b

variable {m m' : Memory} {w : Width} {a v b : Word}

theorem number_congr (n : Nat) : ∀ {a : Word},
    (∀ i, i < n → m (a + BitVec.ofNat 64 i) = m' (a + BitVec.ofNat 64 i)) →
    m.number a n = m'.number a n := by
  induction n with
  | zero => intros; rfl
  | succ n ih =>
    intro a same
    have first := same 0 (Nat.succ_pos n)
    rw [BitVec.add_zero] at first
    have rest : m.number (a + 1) n = m'.number (a + 1) n := ih fun i hi => by
      have := same (i + 1) (Nat.succ_lt_succ hi)
      rwa [BitVec.ofNat_add, BitVec.add_comm (BitVec.ofNat 64 i), ← BitVec.add_assoc] at this
    rw [number, number, first, rest]

theorem load_congr
    (same : ∀ i, i < w.bytes → m (a + BitVec.ofNat 64 i) = m' (a + BitVec.ofNat 64 i)) :
    m.load w a = m'.load w a := by
  rw [load, load, number_congr _ same]

theorem store_of_outside (outside : w.bytes ≤ (b - a).toNat) : m.store w a v b = m b := by
  rw [store, if_neg (Nat.not_lt.mpr outside)]

theorem store_congr (same : m b = m' b) :
    m.store w a v b = m'.store w a v b := by
  simp only [store, same]

theorem number_store (n : Nat) : ∀ {k : Nat}, k + n ≤ w.bytes →
    (m.store w a v).number (a + BitVec.ofNat 64 k) n = v.toNat / 256 ^ k % 256 ^ n := by
  have small := w.bytes_le
  induction n with
  | zero => intro k _; simp [number, Nat.mod_one]
  | succ n ih =>
    intro k le
    have distance : (a + BitVec.ofNat 64 k - a).toNat = k := by
      rw [BitVec.add_comm, BitVec.add_sub_cancel, BitVec.toNat_ofNat]
      omega
    have next : a + BitVec.ofNat 64 k + 1 = a + BitVec.ofNat 64 (k + 1) := by
      rw [BitVec.ofNat_add, ← BitVec.add_assoc]
      rfl
    have byte : (m.store w a v (a + BitVec.ofNat 64 k)).toNat = v.toNat / 256 ^ k % 256 := by
      rw [store, distance, if_pos (by omega), BitVec.extractLsb'_toNat, Nat.shiftRight_eq_div_pow,
        Nat.pow_mul]
    rw [number, next, ih (by omega), byte, Nat.pow_succ' (n := n), Nat.mod_mul,
      Nat.div_div_eq_div_mul, ← Nat.pow_succ]

@[simp] theorem load_store (m : Memory) (a v : Word) :
    (m.store .qword a v).load .qword a = v := by
  have := number_store (m := m) (w := .qword) (a := a) (v := v) 8 (k := 0) (Nat.le_refl 8)
  rw [BitVec.add_zero, Nat.pow_zero, Nat.div_one,
    Nat.mod_eq_of_lt (by have := v.isLt; omega)] at this
  change (BitVec.ofNat 64 ((m.store .qword a v).number a 8)).signExtend 64 = v
  rw [this, BitVec.ofNat_toNat, BitVec.setWidth_eq, BitVec.signExtend_eq]

end Memory

end MiniC
