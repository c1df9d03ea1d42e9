import MiniC.Proofs.Images
import MiniC.Token.Lexer

/-!
# The data section

Directives describe bytes: a number each, or the eight bytes of an address that the linker fills
in. Between the label of a global and the next label the data section describes the image of the
global and nothing else, and no image is ever cut short or read past its end, as long as the types
of the globals are no larger than the largest object.
-/

namespace MiniC

open List

/-! ## What lines describe -/

namespace Asm

/-- One byte of data: a number, or a byte of the address of a symbol plus an addend. -/
inductive Cell where
  | number (byte : UInt8)
  | address (symbol : String) (addend : Int64) (index : Nat)
deriving DecidableEq

namespace Line

def cells : Line → List Cell
  | directive (.byte bytes) => bytes.map .number
  | directive (.quad symbol addend) => (List.range 8).map (.address symbol addend)
  | directive (.zero count) => List.replicate count.toNat (.number 0)
  | _ => []

def isLabel : Line → Bool
  | label _ => true
  | _ => false

def isContents : Line → Bool
  | directive (.byte _) | directive (.quad ..) => true
  | _ => false

theorem isLabel_of_isContents {line : Line} (h : line.isContents = true) : line.isLabel = false := by
  cases line with
  | label => cases h
  | _ => rfl

end Line

def cellsToLabel (lines : List Line) : List Cell :=
  (lines.takeWhile (!·.isLabel)).flatMap Line.cells

theorem cellsToLabel_append {first : List Line} (plain : ∀ line ∈ first, line.isLabel = false)
    (rest : List Line) : cellsToLabel (first ++ rest) = first.flatMap Line.cells ++ cellsToLabel rest := by
  have pass : ∀ line ∈ first, (!line.isLabel) = true := by
    intro line mem
    rw [plain line mem]
    rfl
  rw [cellsToLabel, takeWhile_append_of_pos pass, flatMap_append, cellsToLabel]

end Asm

open Asm (Cell Line cellsToLabel cellsToLabel_append)

/-- Cells from `start` on are what an image says: the address of each relocation in eight bytes
at its offset, and everywhere else the byte of the image at that place. -/
structure Covers (bytes : Array UInt8) (relocations : List Relocation) (start : Nat)
    (cells : List Cell) : Prop where
  size : cells.length = bytes.size
  slot : ∀ r ∈ relocations, ∀ k < 8,
    cells[r.offset.toNat + k]? = some (.address r.symbol r.addend k)
  byte : ∀ i byte, start ≤ i → bytes[i]? = some byte →
    (∀ r ∈ relocations, i < r.offset.toNat ∨ r.offset.toNat + 8 ≤ i) →
    cells[i]? = some (.number byte)

namespace Emit

/-! ## Images -/

theorem byteLines_contents (bytes : List UInt8) :
    ∀ line ∈ byteLines bytes, line.isContents = true := by
  fun_induction byteLines bytes with
  | case1 => exact fun _ mem => absurd mem not_mem_nil
  | case2 bytes _ ih => exact forall_mem_cons.mpr ⟨rfl, ih⟩

theorem byteLines_cells (bytes : List UInt8) :
    (byteLines bytes).flatMap Line.cells = bytes.map .number := by
  fun_induction byteLines bytes with
  | case1 bytes none =>
    rw [isEmpty_iff.mp none]
    rfl
  | case2 bytes _ ih =>
    rw [flatMap_cons, ih, Line.cells, ← map_append, take_append_drop]

variable {bytes : Array UInt8} {relocations : List Relocation} {lines : List Line} {σ : Structs}
  {globals : List Global} {g : Global} {contents : Image} {p : Program}

theorem imageLines_contents {cursor : Nat}
    (made : imageLines bytes cursor relocations = some lines) :
    ∀ line ∈ lines, line.isContents = true := by
  induction relocations generalizing cursor lines with
  | nil =>
    cases made
    exact byteLines_contents _
  | cons r rest ih =>
    simp only [imageLines] at made
    split at made
    · simp only [do_eq_some, Option.pure_def] at made
      obtain ⟨others, made, same⟩ := made
      cases same
      refine forall_mem_append.mpr ⟨byteLines_contents _, ?_⟩
      exact forall_mem_cons.mpr ⟨rfl, ih made⟩
    · cases made

theorem length_extract (bytes : Array UInt8) (start stop : Nat) :
    ((bytes.extract start stop).toList.map Cell.number).length = min stop bytes.size - start :=
  (length_map ..).trans (Array.length_toList.trans Array.size_extract)

theorem getElem?_extract {before : List Cell} {stop i : Nat} {byte : UInt8} (after : List Cell)
    (above : before.length ≤ i) (below : i < stop) (found : bytes[i]? = some byte) :
    (before ++ ((bytes.extract before.length stop).toList.map Cell.number ++ after))[i]? =
      some (.number byte) := by
  have inside : i < bytes.size := (Array.getElem?_eq_some_iff.mp found).1
  have there : (bytes.extract before.length stop)[i - before.length]? = some byte := by
    rw [Array.getElem?_extract, if_pos (by omega), Nat.add_sub_cancel' above, found]
  rw [List.getElem?_append_right above, List.getElem?_append_left, List.getElem?_map,
    Array.getElem?_toList, there]
  · rfl
  · rw [length_extract]
    omega

/-- The lines of an image give its addresses and its bytes, each at its place. -/
theorem imageLines_covers (before : List Cell)
    (spread : Spread before.length relocations bytes.size)
    (made : imageLines bytes before.length relocations = some lines) :
    Covers bytes relocations before.length (before ++ lines.flatMap Line.cells) := by
  induction relocations generalizing before lines with
  | nil =>
    cases made
    have inside : before.length ≤ bytes.size := spread
    rw [byteLines_cells]
    refine ⟨?_, fun r mem => absurd mem not_mem_nil, fun i byte above found _ => ?_⟩
    · rw [length_append, length_extract]
      omega
    · have below : i < bytes.size := (Array.getElem?_eq_some_iff.mp found).1
      have here := getElem?_extract [] above below found
      rwa [append_nil] at here
  | cons r rest ih =>
    obtain ⟨above, others⟩ := spread
    have inside := others.le
    simp only [imageLines, if_pos (show before.length ≤ r.offset.toNat ∧ r.offset.toNat ≤ bytes.size by omega),
      do_eq_some, Option.pure_def] at made
    obtain ⟨lines', made, same⟩ := made
    cases same
    let plain := (bytes.extract before.length r.offset.toNat).toList.map Cell.number
    let slot := (List.range 8).map (Cell.address r.symbol r.addend)
    have plainLength : plain.length = r.offset.toNat - before.length := by
      rw [length_extract]
      omega
    have slotLength : slot.length = 8 := rfl
    have length : (before ++ plain ++ slot).length = r.offset.toNat + 8 := by
      rw [length_append, length_append, plainLength, slotLength]
      omega
    rw [← length] at others made
    obtain ⟨size, slots, byte⟩ := ih (before ++ plain ++ slot) others made
    have cells : before ++ (byteLines (bytes.extract before.length r.offset.toNat).toList ++
        .directive (.quad r.symbol r.addend) :: lines').flatMap Line.cells =
        before ++ plain ++ slot ++ lines'.flatMap Line.cells := by
      rw [flatMap_append, byteLines_cells, flatMap_cons, Line.cells]
      simp only [append_assoc, plain, slot]
    rw [cells]
    refine ⟨size, forall_mem_cons.mpr ⟨fun k small => ?_, slots⟩, fun i value le found free => ?_⟩
    · -- the slot of the first relocation is where the bytes before it end
      have start : (before ++ plain).length = r.offset.toNat := by
        rw [length_append, plainLength]
        omega
      rw [append_assoc, List.getElem?_append_right (by omega), start, Nat.add_sub_cancel_left,
        List.getElem?_append_left (by omega), List.getElem?_map, List.getElem?_range small]
      rfl
    · rw [forall_mem_cons] at free
      rcases free.1 with early | late
      · have here := getElem?_extract (slot ++ lines'.flatMap Line.cells) le early found
        rwa [append_assoc, append_assoc]
      · exact byte i value (by rwa [length]) found free.2

/-! ## The section -/

theorem globalHead_silent (σ : Structs) (g : Global) (rest : List Line) :
    cellsToLabel (globalHead σ g ++ rest) = [] := by
  have split : globalHead σ g ++ rest = (visibility g.name g.isStatic ++
      [.directive (.align (max (σ.align g.ty) 1))]) ++ .label (.symbol g.name) :: rest := by
    simp [globalHead]
  have plain : ∀ line ∈ visibility g.name g.isStatic ++ [.directive (.align (max (σ.align g.ty) 1))],
      line.isLabel = false ∧ line.cells = [] := by
    unfold visibility
    cases g.isStatic <;> simp [Line.isLabel, Line.cells]
  rw [split, cellsToLabel_append fun line mem => (plain line mem).1]
  rw [flatMap_eq_nil_iff.mpr fun line mem => (plain line mem).2]
  rfl

theorem initialized_silent {rest : List Line} (made : initialized σ globals = some lines)
    (silent : cellsToLabel rest = []) :
    cellsToLabel (lines ++ rest) = [] := by
  induction globals generalizing lines with
  | nil =>
    cases made
    exact silent
  | cons g globals ih =>
    simp only [initialized, do_eq_some] at made
    obtain ⟨others, made, here⟩ := made
    split at here
    · obtain ⟨image, -, same⟩ := Option.bind_eq_some_iff.mp here
      cases same
      rw [append_assoc, append_assoc]
      exact globalHead_silent σ g _
    · cases here
      exact ih made

theorem zeroed_silent (σ : Structs) (globals : List Global) (rest : List Line)
    (silent : cellsToLabel rest = []) : cellsToLabel (zeroed σ globals ++ rest) = [] := by
  unfold zeroed
  cases globals.filter (·.init.isNone) with
  | nil => exact silent
  | cons g globals =>
    rw [flatMap_cons, append_assoc, append_assoc]
    exact globalHead_silent σ g _

theorem initialized_block (made : initialized σ globals = some lines) (mem : g ∈ globals)
    (init : g.init = some contents) : ∃ before here after, image contents = some here ∧
      lines = before ++ globalHead σ g ++ (here ++ after) ∧
      ∀ rest, cellsToLabel rest = [] → cellsToLabel (after ++ rest) = [] := by
  induction globals generalizing lines with
  | nil => exact absurd mem not_mem_nil
  | cons g' globals ih =>
    simp only [initialized, do_eq_some] at made
    obtain ⟨others, made, first⟩ := made
    rcases mem_cons.mp mem with rfl | mem
    · rw [init] at first
      obtain ⟨here, written, same⟩ := Option.bind_eq_some_iff.mp first
      cases same
      exact ⟨[], here, others, written, by simp, fun rest silent => initialized_silent made silent⟩
    · obtain ⟨before, here, after, written, split, silent⟩ := ih made mem
      subst split
      split at first
      · obtain ⟨image, -, same⟩ := Option.bind_eq_some_iff.mp first
        cases same
        exact ⟨globalHead σ g' ++ image ++ before, here, after, written, by simp, silent⟩
      · cases first
        exact ⟨before, here, after, written, rfl, silent⟩

/-- Behind the head of a global stands its image. -/
theorem data_head_covers (made : data p = some lines) (mem : g ∈ p.globals)
    (stored : g.isExtern = false) (init : g.init = some contents)
    (spread : Spread 0 contents.relocations contents.bytes.size) :
    ∃ before after, lines = before ++ globalHead p.structs g ++ after ∧
      Covers contents.bytes contents.relocations 0 (cellsToLabel after) := by
  simp only [data, do_eq_some, Option.pure_def] at made
  obtain ⟨images, made, same⟩ := made
  cases same
  have listed : g ∈ p.globals.filter (!·.isExtern) := mem_filter.mpr ⟨mem, by rw [stored]; rfl⟩
  obtain ⟨before, here, after, written, rfl, silent⟩ := initialized_block made listed init
  rw [image_eq_imageLines spread] at written
  have rest : cellsToLabel ([.directive .bss] ++ (zeroed p.structs (p.globals.filter (!·.isExtern)) ++
      [.directive .text])) = [] := by
    rw [cellsToLabel_append (by simp [Line.isLabel])]
    exact zeroed_silent _ _ _ rfl
  refine ⟨[.directive .intel, .directive .data] ++ strings 0 p.strings ++ before, here ++ (after ++
    ([.directive .bss] ++ (zeroed p.structs (p.globals.filter (!·.isExtern)) ++ [.directive .text]))),
    by simp, ?_⟩
  have plain := fun line mem => Line.isLabel_of_isContents (imageLines_contents written line mem)
  rw [cellsToLabel_append plain, silent _ rest, append_nil]
  exact imageLines_covers [] spread written

theorem data_covers (made : data p = some lines) (mem : g ∈ p.globals) (stored : g.isExtern = false)
    (init : g.init = some contents) (spread : Spread 0 contents.relocations contents.bytes.size) :
    ∃ before after, lines = before ++ .label (.symbol g.name) :: after ∧
      Covers contents.bytes contents.relocations 0 (cellsToLabel after) := by
  obtain ⟨before, after, rfl, covers⟩ := data_head_covers made mem stored init spread
  exact ⟨before ++ visibility g.name g.isStatic ++ [.directive (.align (max (p.structs.align g.ty) 1))],
    after, by simp [globalHead], covers⟩

end Emit

/-! ## Names -/

namespace ParseState

theorem replaceGlobal_names (globals : List Global) (global : Global) :
    (replaceGlobal globals global).map (·.name) = globals.map (·.name) := by
  induction globals with
  | nil => rfl
  | cons other rest ih =>
    rw [replaceGlobal]
    split
    · rename_i same
      rw [map_cons, map_cons, eq_of_beq same]
    · rw [map_cons, map_cons, ih]

variable {s s' : ParseState}

/-- Globals have different names. -/
theorem defineGlobal_names {global : Global} (defined : s.defineGlobal global = some s')
    (distinct : (s.globals.map (·.name)).Nodup) :
    (s'.globals.map (·.name)).Nodup := by
  unfold defineGlobal at defined
  split at defined
  · rename_i new
    cases defined
    rw [map_append, nodup_append]
    refine ⟨distinct, nodup_singleton _, fun name old name' mem same => ?_⟩
    obtain ⟨other, listed, rfl⟩ := mem_map.mp old
    rw [map_singleton, mem_singleton] at mem
    exact List.find?_eq_none.mp new other listed (beq_iff_eq.mpr (same.trans mem))
  · split at defined
    · cases defined
      exact distinct
    · split at defined
      · cases defined
      · split at defined
        · cases defined
          rwa [replaceGlobal_names]
        · cases defined
          exact distinct

theorem Change.names (change : Change s s')
    (distinct : (s.globals.map (·.name)).Nodup) : (s'.globals.map (·.name)).Nodup := by
  cases change with
  | intern bytes =>
    unfold ParseState.intern
    split <;> exact distinct
  | define global _ _ defined => exact defineGlobal_names defined distinct
  | _ => exact distinct

theorem Reaches.names (reaches : s.Reaches s')
    (distinct : (s.globals.map (·.name)).Nodup) : (s'.globals.map (·.name)).Nodup := by
  induction reaches with
  | refl => exact distinct
  | tail _ change ih => exact change.names (ih distinct)
  | block _ _ before inside => exact inside (before distinct)
  | body _ target _ _ _ before inside =>
    refine inside ?_
    cases target with
    | known => exact before distinct
    | fresh => exact before distinct

end ParseState

/-! ## Parsed programs -/

variable {source : Source} {ty : CType}

theorem Program.overrun_large {tokens : List Lexed} {e : Located SyntaxError} {s : ParseState}
    (failed : Grammar.topLevels (.upTo tokens.length) { tokens, last := .atStart source } = .error e s)
    (overrun : e.value = .overrun ty) : maxObjectSize.toNat < s.structs.extent ty := by
  have moves := Grammar.topLevels_moves (Grammar.upTo_builds tokens.length)
  have reaches := moves.reaches { tokens, last := .atStart source }
  rw [Parse.final_error failed] at reaches
  have sound := reaches.sound (.start source tokens)
  obtain ⟨init, suits, blamed⟩ := (moves _ trivial).2.2 e s failed ty overrun
  obtain ⟨-, failed⟩ := Init.image_overrun blamed overrun
  by_contra small
  have sized := (sound.exact ty).sized (Structs.lt_of_le_max (Nat.le_of_not_lt small))
  have laid : (Init.Known.mk s.structs s.globals).structs.Laid := sound.laid
  obtain ⟨image, put, -⟩ := Init.put_parts laid sized suits
  cases failed.symm.trans put

theorem Program.parse_exact {tokens : List Lexed} {p : Program}
    (parsed : Program.parse source tokens = .ok p) :
    p.structs.Exact ∧ (p.globals.map (·.name)).Nodup := by
  obtain ⟨s, reaches, -, globals, -, structs⟩ := Program.parse_reaches parsed
  rw [globals, structs]
  exact ⟨(reaches.sound (.start source tokens)).exact, reaches.names .nil⟩

/-- **Global data is emitted exactly.** An initializer can exceed its type only if the type is
larger than the largest object, however the parse goes on. In a program that parses, with globals
no larger than that, the sizes of the globals are exact and the data section can be written. Each
global that is stored and has an image has a label of its own there, and up to the next label the
section describes as many bytes as the size of its type says: the address of each relocation in
the eight bytes at its offset, and the bytes of the image everywhere else. -/
theorem Program.data_exact (source : Source) (tokens : List Lexed) :
    (∀ e s ty,
      Grammar.topLevels (.upTo tokens.length) { tokens, last := .atStart source } = .error e s →
      e.value = .overrun ty → maxObjectSize.toNat < s.structs.extent ty) ∧
    ∀ p, Program.parse source tokens = .ok p →
      (∀ g ∈ p.globals, p.structs.extent g.ty ≤ maxObjectSize.toNat) →
      (p.globals.map (·.name)).Nodup ∧ ∃ lines, Emit.data p = some lines ∧
        ∀ g ∈ p.globals, g.isExtern = false → ∀ contents, g.init = some contents →
          (p.structs.size g.ty).toNat = p.structs.extent g.ty ∧
          contents.bytes.size = (p.structs.size g.ty).toNat ∧
          ∃ before after, lines = before ++ .label (.symbol g.name) :: after ∧
            Covers contents.bytes contents.relocations 0 (cellsToLabel after) := by
  refine ⟨fun e s ty failed overrun => Program.overrun_large failed overrun, fun p parsed small => ?_⟩
  obtain ⟨exact, names⟩ := Program.parse_exact parsed
  have sized : ∀ g ∈ p.globals, p.structs.Sized g.ty :=
    fun g mem => (exact g.ty).sized (Structs.lt_of_le_max (small g mem))
  obtain ⟨lines, made⟩ := Program.parse_data_of_sized parsed sized
  refine ⟨names, lines, made, fun g mem stored contents init => ?_⟩
  obtain ⟨size, spread⟩ := Program.parse_image parsed mem stored init (sized g mem)
  exact ⟨(exact g.ty).size (Structs.lt_of_le_max (small g mem)), size, Emit.data_covers made mem stored init spread⟩

/-! ## Examples -/

/-- A struct with gaps: its data has the address of a string, that of a global, and items that are
left out. -/
def padded : Source := ⟨"d.c", "int x; struct S \x7b char c; char *p; int n; \x7d;
  struct S a[3] = \x7b\x7b1, \"hi\", 2\x7d, \x7b3, &x\x7d\x7d;"⟩

/-- A type that an initializer for it completes, and that is then too large for a word. -/
def outgrown : Source :=
  ⟨"d.c", "struct S a[536870912] = \x7b\x7bsizeof(struct S \x7b long y; \x7d)\x7d\x7d;"⟩

def Source.tokens (source : Source) : List Lexed := (Lexer.tokenize source).toOption.getD []

def overrun? : EStateM.Result (Located SyntaxError) ParseState Unit → Option CType
  | .error ⟨.overrun ty, _⟩ _ => some ty
  | _ => none

theorem eq_error_of_overrun? {r : EStateM.Result (Located SyntaxError) ParseState Unit}
    (h : overrun? r = some ty) : ∃ e s, r = .error e s ∧ e.value = .overrun ty := by
  unfold overrun? at h
  split at h
  · cases h
    exact ⟨_, _, rfl, rfl⟩
  · cases h

theorem outgrown_overrun : overrun? (Grammar.topLevels (.upTo outgrown.tokens.length)
    { tokens := outgrown.tokens, last := .atStart outgrown }) =
      some (.array (.struct ⟨0, some "S"⟩) 536870912) := by decide +kernel

theorem padded_extents : (Program.parse padded padded.tokens).toOption.map (fun p =>
    p.globals.map fun g => (p.structs.extent g.ty, g.isExtern,
      g.init.map fun contents => (contents.bytes.size, contents.relocations.length))) =
      some [(4, false, none), (72, false, some (72, 2))] := by decide +kernel

theorem Program.data_exact_padded :
    (∃ e s, Grammar.topLevels (.upTo outgrown.tokens.length)
        { tokens := outgrown.tokens, last := .atStart outgrown } = .error e s ∧
      e.value = .overrun (.array (.struct ⟨0, some "S"⟩) 536870912) ∧
      maxObjectSize.toNat < s.structs.extent (.array (.struct ⟨0, some "S"⟩) 536870912)) ∧
    ∃ p lines g contents, Program.parse padded padded.tokens = .ok p ∧
      (∀ g ∈ p.globals, p.structs.extent g.ty ≤ maxObjectSize.toNat) ∧ Emit.data p = some lines ∧
      g ∈ p.globals ∧ g.init = some contents ∧ contents.relocations.length = 2 ∧
      contents.bytes.size = 72 ∧
      ∃ before after, lines = before ++ .label (.symbol g.name) :: after ∧
        Covers contents.bytes contents.relocations 0 (cellsToLabel after) := by
  constructor
  · obtain ⟨e, s, failed, overrun⟩ := eq_error_of_overrun? outgrown_overrun
    exact ⟨e, s, failed, overrun,
      (Program.data_exact outgrown outgrown.tokens).1 e s _ failed overrun⟩
  · obtain ⟨p, parsed, globals⟩ := Option.map_eq_some_iff.mp padded_extents
    have parsed : Program.parse padded padded.tokens = .ok p := by
      cases made : Program.parse padded padded.tokens with
      | error e => rw [made] at parsed; cases parsed
      | ok q => rw [made] at parsed; cases parsed; rfl
    have small : ∀ g ∈ p.globals, p.structs.extent g.ty ≤ maxObjectSize.toNat := by
      intro g mem
      have mem := mem_map_of_mem (f := fun g : Global => p.structs.extent g.ty) mem
      have extents : p.globals.map (fun g => p.structs.extent g.ty) = [4, 72] := by
        have := congrArg (List.map Prod.fst) globals
        rwa [map_map] at this
      rw [extents] at mem
      have all : ∀ n ∈ [4, 72], n ≤ maxObjectSize.toNat := by decide
      exact all _ mem
    have listed : ((72, false, some (72, 2)) : Nat × Bool × Option (Nat × Nat)) ∈
        [(4, false, none), (72, false, some (72, 2))] := by decide
    rw [← globals] at listed
    obtain ⟨g, mem, same⟩ := mem_map.mp listed
    simp only [Prod.mk.injEq, Option.map_eq_some_iff] at same
    obtain ⟨-, stored, contents, init, size, count⟩ := same
    obtain ⟨-, lines, made, exact⟩ := (Program.data_exact padded padded.tokens).2 p parsed small
    exact ⟨p, lines, g, contents, parsed, small, made, mem, init, count, size,
      (exact g mem stored contents init).2.2⟩

end MiniC
