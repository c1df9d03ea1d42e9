import MiniC.Emit.Data
import MiniC.Proofs.Grammar.Functions

/-!
# Images of globals

The members of a struct stand one after the other, so the parts of an initializer stand one after
the other as well. They can all be put into an image of the size of the object, and the relocations
of the image are in order and do not overlap, so that it can be written as lines.

All of this is about sizes as 32-bit words. It holds of a type that is `Structs.Sized`: the products
in its size are small enough.
-/

namespace MiniC

open List

theorem Structs.Laid.fields_placed {σ : Structs} (laid : σ.Laid) (ref : StructRef) :
    σ.Placed 0 (σ.fields ref) (σ.size (.struct ref)).toNat := by
  cases found : σ.layout? ref with
  | none => simp [Structs.fields, Structs.size, found, Structs.Placed]
  | some layout =>
    rw [Structs.fields, Structs.size, found]
    exact laid.placed ref layout found

/-! ## Parts of an image -/

/-- Relocations of eight bytes one after the other, from `start` on and up to `stop`. -/
def Spread : Nat → List Relocation → Nat → Prop
  | start, [], stop => start ≤ stop
  | start, r :: rest, stop => start ≤ r.offset.toNat ∧ Spread (r.offset.toNat + 8) rest stop

variable {relocations : List Relocation} {source : Source} {tokens : List Lexed} {p : Program}

theorem Spread.weaken {start start' stop : Nat} (le : start ≤ start')
    (h : Spread start' relocations stop) : Spread start relocations stop := by
  cases relocations with
  | nil => exact Nat.le_trans le h
  | cons r rest => exact ⟨Nat.le_trans le h.1, h.2⟩

theorem Spread.le {start stop : Nat} (h : Spread start relocations stop) : start ≤ stop := by
  induction relocations generalizing start with
  | nil => exact h
  | cons r rest ih => have := ih h.2; have := h.1; omega

namespace Image

@[simp] theorem write_relocations (bytes : List UInt8) : ∀ (image : Image) (offset : Nat),
    (image.write offset bytes).relocations = image.relocations := by
  induction bytes with
  | nil => exact fun _ _ => rfl
  | cons byte rest ih => exact fun image offset => ih _ _

@[simp] theorem write_size (bytes : List UInt8) : ∀ (image : Image) (offset : Nat),
    (image.write offset bytes).bytes.size = image.bytes.size := by
  induction bytes with
  | nil => exact fun _ _ => rfl
  | cons byte rest ih => exact fun image offset => (ih _ _).trans (Array.size_setIfInBounds ..)

namespace Part

def start : Part → Nat
  | bytes offset _ _ => offset
  | address relocation => relocation.offset.toNat

def width : Part → Nat
  | bytes _ size _ => size
  | address _ => 8

def IsFull : Part → Prop
  | bytes _ size content => content.length = size
  | address _ => True

def relocation? : Part → Option Relocation
  | bytes _ _ _ => none
  | address relocation => some relocation

end Part

def Apart : Nat → List Part → Nat → Prop
  | start, [], stop => start ≤ stop
  | start, part :: rest, stop =>
    start ≤ part.start ∧ part.IsFull ∧ Apart (part.start + part.width) rest stop

variable {start middle stop : Nat} {parts rest : List Part}

theorem Apart.nil (le : start ≤ stop) : Apart start [] stop := le

theorem Apart.single (part : Part) (full : part.IsFull) :
    Apart part.start [part] (part.start + part.width) := ⟨Nat.le_refl _, full, Nat.le_refl _⟩

theorem Apart.append (h : Apart start parts middle) (h' : Apart middle rest stop) :
    Apart start (parts ++ rest) stop := by
  induction parts generalizing start with
  | nil =>
    cases rest with
    | nil => exact Nat.le_trans h h'
    | cons part rest => exact ⟨Nat.le_trans h h'.1, h'.2⟩
  | cons part parts ih => exact ⟨h.1, h.2.1, ih h.2.2⟩

theorem Apart.mono {start' stop' : Nat} (h : Apart start parts stop) (first : start' ≤ start)
    (last : stop ≤ stop') : Apart start' parts stop' := by
  have h := (Apart.nil first).append (h.append (.nil last))
  rwa [append_nil] at h

theorem Apart.le (h : Apart start parts stop) : start ≤ stop := by
  induction parts generalizing start with
  | nil => exact h
  | cons part parts ih => have := ih h.2.2; have := h.1; omega

theorem Apart.spread (h : Apart start parts stop) :
    Spread start (parts.filterMap Part.relocation?) stop := by
  induction parts generalizing start with
  | nil => exact h
  | cons part parts ih =>
    obtain ⟨first, -, others⟩ := h
    cases part with
    | bytes offset size bytes => exact (ih others).weaken (by simp only [Part.start, Part.width] at *; omega)
    | address relocation => exact ⟨first, ih others⟩

theorem foldlM_put?_relocations {image image' : Image} (put : parts.foldlM put? image = some image') :
    image'.relocations = image.relocations ++ parts.filterMap Part.relocation? := by
  induction parts generalizing image with
  | nil =>
    cases put
    exact (append_nil _).symm
  | cons part parts ih =>
    obtain ⟨next, first, put⟩ := Option.bind_eq_some_iff.mp put
    rw [ih put]
    cases part with
    | bytes offset size bytes =>
      rw [put?] at first
      split at first <;> cases first
      rw [write_relocations]
      rfl
    | address relocation =>
      cases first
      rw [relocate, append_assoc]
      rfl

theorem foldlM_put?_size {image image' : Image} (put : parts.foldlM put? image = some image') :
    image'.bytes.size = image.bytes.size := by
  induction parts generalizing image with
  | nil =>
    cases put
    rfl
  | cons part parts ih =>
    obtain ⟨next, first, put⟩ := Option.bind_eq_some_iff.mp put
    rw [ih put]
    cases part with
    | bytes offset size bytes =>
      rw [put?] at first
      split at first <;> cases first
      exact write_size ..
    | address relocation =>
      cases first
      rfl

/-- Parts that stand apart inside an image can be put there. -/
theorem Apart.put (image : Image) (h : Apart start parts stop) (inside : stop ≤ image.bytes.size) :
    ∃ image', parts.foldlM put? image = some image' := by
  induction parts generalizing start image with
  | nil => exact ⟨image, rfl⟩
  | cons part parts ih =>
    obtain ⟨first, full, others⟩ := h
    have bound := others.le
    cases part with
    | bytes offset size bytes =>
      have fits : bytes.length = size ∧ offset + size ≤ image.bytes.size :=
        ⟨full, Nat.le_trans bound inside⟩
      obtain ⟨image', put⟩ := ih (image.write offset bytes) others (by rwa [write_size])
      refine ⟨image', ?_⟩
      rw [foldlM_cons, put?, if_pos fits]
      exact put
    | address relocation => exact ih (image.relocate relocation) others inside

end Image

/-! ## The parts of an initializer -/

namespace Init

open Image (Apart)

variable {known : Known}

theorem wordBytes_length (value : Int64) (count : Nat) :
    (Image.wordBytes value count).length = count := by
  induction count generalizing value with
  | zero => rfl
  | succ count ih => exact congrArg (· + 1) (ih _)

variable {ty : CType} {init : Init}

theorem scalarPart_apart {offset : UInt32} {value : Expr} {part : Image.Part}
    (plain : ty.isAggregate = false) (h : scalarPart known ty offset value = .ok part) :
    Apart offset.toNat [part] (offset.toNat + (known.structs.size ty).toNat) := by
  simp only [scalarPart, bind_eq_ok] at h
  obtain ⟨⟨number, symbol⟩, -, h⟩ := h
  cases symbol with
  | none =>
    cases h
    refine .single (.bytes _ _ _) ?_
    have small := Structs.size_le_of_scalar (σ := known.structs) plain
    rw [Image.Part.IsFull, length_take, wordBytes_length]
    omega
  | some symbol =>
    dsimp only at h
    split at h
    · rename_i eight
      cases h
      rw [eight]
      exact .single (.address ⟨offset, symbol, number⟩) trivial
    · cases h

theorem itemType_struct {σ : Structs} {ref : StructRef} {index : Nat} {field : Field}
    {fields : List Field} (rest : (σ.fields ref).drop index = field :: fields) :
    itemType σ (.struct ref) index = field.ty ∧ (σ.fields ref).drop (index + 1) = fields := by
  constructor
  · have found : (σ.fields ref)[index]? = some field := by
      rw [← List.head?_drop, rest, List.head?_cons]
    rw [itemType, found]
    rfl
  · rw [← tail_drop, rest, tail_cons]

theorem Parts.append_apart {start middle stop : Nat} {first rest : Parts}
    (h : Apart start first.made middle) (h' : Apart middle rest.made stop) :
    Apart start (first.append rest).made stop := by
  unfold Parts.append
  split
  · exact h.mono (Nat.le_refl _) h'.le
  · exact h.append h'

theorem ofExcept_apart {start stop : Nat} {x : Except (Located SyntaxError) Image.Part}
    (le : start ≤ stop) (made : ∀ part, x = .ok part → Apart start [part] stop) :
    Apart start (Parts.ofExcept x).made stop := by
  cases x with
  | ok part => exact made part rfl
  | error e => exact .nil le

theorem mismatch_apart {start stop : Nat} (init : Init) (ty : CType) (le : start ≤ stop) :
    Apart start (Parts.ofExcept (init.mismatch ty)).made stop := .nil le

mutual
/-- The parts that are made stand one after the other in the room of the object, also where an error
ends them. -/
theorem parts_apart (laid : known.structs.Laid) : (init : Init) → ∀ ⦃ty : CType⦄ ⦃offset : UInt32⦄,
    known.structs.Sized ty → init.Suits known.structs ty →
    offset.toNat + (known.structs.size ty).toNat < 2 ^ 32 →
    Apart offset.toNat (init.parts known ty offset).made
      (offset.toNat + (known.structs.size ty).toNat)
  | .expr value => by
    intro ty offset _ _ _
    rw [Init.parts]
    split
    · exact mismatch_apart _ _ (Nat.le_add_right _ _)
    · rename_i plain
      exact ofExcept_apart (Nat.le_add_right _ _) fun part made =>
        scalarPart_apart (eq_false_of_ne_true plain) made
  | .str bytes loc => by
    intro ty offset _ suits _
    cases ty with
    | array element length =>
      rw [Init.parts]
      split
      · exact mismatch_apart _ _ (Nat.le_add_right _ _)
      · rename_i few
        -- only an array of `char` takes a string, so the bytes are no more than its size
        have size : (known.structs.size (.array element length)).toNat = length.toNat := by
          cases element <;> cases suits
          rw [Structs.size, Structs.size, UInt32.one_mul]
        refine Image.Apart.mono (.single (.bytes _ _ _) rfl) (Nat.le_refl _) ?_
        rw [size]
        simp only [Image.Part.start, Image.Part.width]
        omega
    | _ => exact mismatch_apart (.str bytes loc) _ (Nat.le_add_right _ _)
  | .list items loc => by
    intro ty offset sized suits small
    cases ty with
    | array element length =>
      rw [Init.parts]
      split
      · exact mismatch_apart _ _ (Nat.le_add_right _ _)
      · rename_i few
        cases sized with
        | scalar plain => cases plain
        | empty =>
          have none : items = [] := eq_nil_of_length_eq_zero (by simpa using few)
          subst none
          exact .nil (Nat.le_add_right _ _)
        | array inner product =>
          -- the elements that are given end no later than the array
          have size : (known.structs.size (.array element length)).toNat =
              (known.structs.size element).toNat * length.toNat := by
            rw [Structs.size, UInt32.toNat_mul, Nat.mod_eq_of_lt product]
          have given : items.length * (known.structs.size element).toNat ≤
              (known.structs.size element).toNat * length.toNat := by
            rw [Nat.mul_comm]
            exact Nat.mul_le_mul_left _ (Nat.not_lt.mp few)
          rw [size] at small ⊢
          refine (elementParts_apart laid items inner suits (by omega)).mono (Nat.le_refl _) ?_
          omega
    | struct ref =>
      rw [Init.parts]
      split
      · exact mismatch_apart _ _ (Nat.le_add_right _ _)
      · cases sized with
        | scalar plain => cases plain
        | struct each =>
          exact memberParts_apart laid items drop_zero each suits (laid.fields_placed ref) small
    | _ =>
      rcases items with _ | ⟨item, _ | _⟩
      · exact .nil (Nat.le_add_right _ _)
      · rw [Init.parts]
        · exact parts_apart laid item sized suits.1 small
        · exact nofun
        · exact nofun
      · exact mismatch_apart _ _ (Nat.le_add_right _ _)
theorem elementParts_apart (laid : known.structs.Laid) : (items : List Init) →
    ∀ ⦃element : CType⦄ ⦃length offset : UInt32⦄ ⦃index : Nat⦄,
    known.structs.Sized element → AllSuit known.structs (.array element length) index items →
    offset.toNat + items.length * (known.structs.size element).toNat < 2 ^ 32 →
    Apart offset.toNat (elementParts known element offset items).made
      (offset.toNat + items.length * (known.structs.size element).toNat)
  | [] => fun _ _ _ _ _ _ _ => .nil (Nat.le_add_right _ _)
  | item :: items => by
    intro element length offset index sized suits small
    rw [length_cons, Nat.succ_mul] at small ⊢
    have next : (offset + known.structs.size element).toNat =
        offset.toNat + (known.structs.size element).toNat := by
      rw [UInt32.toNat_add]
      omega
    have rest : Apart (offset + known.structs.size element).toNat _ _ :=
      elementParts_apart laid items sized suits.2 (by omega)
    rw [next] at rest
    refine Parts.append_apart (parts_apart laid item sized suits.1 (by omega)) ?_
    rwa [Nat.add_assoc, Nat.add_comm (known.structs.size element).toNat] at rest
theorem memberParts_apart (laid : known.structs.Laid) : (items : List Init) →
    ∀ ⦃ref : StructRef⦄ ⦃fields : List Field⦄ ⦃offset : UInt32⦄ ⦃start stop index : Nat⦄,
    (known.structs.fields ref).drop index = fields →
    (∀ field ∈ fields, known.structs.Sized field.ty) →
    AllSuit known.structs (.struct ref) index items → known.structs.Placed start fields stop →
    offset.toNat + stop < 2 ^ 32 →
    Apart (offset.toNat + start) (memberParts known offset fields items).made (offset.toNat + stop)
  | [] => fun _ _ _ _ _ _ _ _ _ placed _ => .nil (Nat.add_le_add_left placed.le _)
  | item :: items => by
    intro ref fields offset start stop index from_ sized suits placed small
    cases fields with
    | nil => exact .nil (Nat.add_le_add_left placed.le _)
    | cons field fields =>
      obtain ⟨after, -, behind⟩ := placed
      obtain ⟨type, from_⟩ := itemType_struct from_
      rw [forall_mem_cons] at sized
      have bound := behind.le
      have place : (offset + field.offset).toNat = offset.toNat + field.offset.toNat := by
        rw [UInt32.toNat_add]
        omega
      have first : Apart (offset + field.offset).toNat _ _ :=
        parts_apart laid item sized.1 (type ▸ suits.1) (by omega)
      have rest := memberParts_apart laid items from_ sized.2 suits.2 behind small
      rw [place, Nat.add_assoc] at first
      exact Parts.append_apart (first.mono (by omega) (Nat.le_refl _)) rest
end

theorem parts_apart_zero (laid : known.structs.Laid) (sized : known.structs.Sized ty)
    (suits : init.Suits known.structs ty) :
    Apart 0 (init.parts known ty 0).made (known.structs.size ty).toNat := by
  have apart : Apart (0 : UInt32).toNat _ _ := parts_apart laid init sized suits (by
    rw [UInt32.toNat_zero, Nat.zero_add]
    exact UInt32.toNat_lt _)
  rwa [UInt32.toNat_zero, Nat.zero_add] at apart

/-- The parts that an initializer gives for a type of exact size fit in its image. -/
theorem put_parts (laid : known.structs.Laid) (sized : known.structs.Sized ty)
    (suits : init.Suits known.structs ty) : ∃ image, (init.parts known ty 0).made.foldlM Image.put?
      (Image.zero (known.structs.size ty).toNat) = some image ∧
      image.bytes.size = (known.structs.size ty).toNat ∧
      Spread 0 image.relocations image.bytes.size := by
  have apart := parts_apart_zero laid sized suits
  have zero : (Image.zero (known.structs.size ty).toNat).bytes.size = (known.structs.size ty).toNat :=
    Array.size_replicate ..
  obtain ⟨image, put⟩ := apart.put _ (Nat.le_of_eq zero.symm)
  have size := (Image.foldlM_put?_size put).trans zero
  refine ⟨image, put, size, ?_⟩
  rw [Image.foldlM_put?_relocations put, size]
  exact apart.spread

theorem image_spread (laid : known.structs.Laid) {image : Image} (sized : known.structs.Sized ty)
    (suits : init.Suits known.structs ty) (h : init.image known ty = .ok image) :
    image.bytes.size = (known.structs.size ty).toNat ∧ Spread 0 image.relocations image.bytes.size := by
  obtain ⟨image', put, spread⟩ := put_parts laid sized suits
  cases (image_eq_ok h).symm.trans put
  exact spread

end Init

/-! ## Lines of an image -/

namespace Emit

variable {relocations : List Relocation} {contents : Image}

theorem spread_pairwise {start stop : Nat} (h : Spread start relocations stop) :
    (∀ r ∈ relocations, start ≤ r.offset.toNat) ∧
      relocations.Pairwise fun a b => a.offset ≤ b.offset := by
  induction relocations generalizing start with
  | nil => exact ⟨nofun, .nil⟩
  | cons r rest ih =>
    obtain ⟨first, others⟩ := h
    obtain ⟨above, sorted⟩ := ih others
    refine ⟨forall_mem_cons.mpr ⟨first, fun r' mem => ?_⟩, .cons (fun r' mem => ?_) sorted⟩
    · have := above r' mem
      omega
    · rw [UInt32.le_iff_toNat_le]
      have := above r' mem
      omega

theorem imageLines_of_spread {bytes : Array UInt8} {cursor : Nat}
    (h : Spread cursor relocations bytes.size) :
    ∃ lines, imageLines bytes cursor relocations = some lines := by
  induction relocations generalizing cursor with
  | nil => exact ⟨_, rfl⟩
  | cons r rest ih =>
    obtain ⟨first, others⟩ := h
    have inside := others.le
    obtain ⟨lines, made⟩ := ih others
    have here : cursor ≤ r.offset.toNat ∧ r.offset.toNat ≤ bytes.size := by omega
    simp only [imageLines, if_pos here, made]
    exact ⟨_, rfl⟩

theorem image_eq_imageLines (h : Spread 0 contents.relocations contents.bytes.size) :
    image contents = imageLines contents.bytes 0 contents.relocations := by
  have sorted : contents.relocations.Pairwise fun a b => decide (a.offset ≤ b.offset) = true :=
    (spread_pairwise h).2.imp decide_eq_true
  rw [image, mergeSort_of_pairwise sorted]

theorem image_of_spread (h : Spread 0 contents.relocations contents.bytes.size) :
    ∃ lines, image contents = some lines := by
  rw [image_eq_imageLines h]
  exact imageLines_of_spread h

theorem initialized_of_images {σ : Structs} {globals : List Global}
    (h : ∀ g ∈ globals, ∀ contents, g.init = some contents → ∃ lines, image contents = some lines) :
    ∃ lines, initialized σ globals = some lines := by
  induction globals with
  | nil => exact ⟨[], rfl⟩
  | cons g rest ih =>
    rw [forall_mem_cons] at h
    obtain ⟨others, made⟩ := ih h.2
    cases contents : g.init with
    | none =>
      refine ⟨others, ?_⟩
      simp only [initialized, made, contents]
      rfl
    | some image =>
      obtain ⟨lines, written⟩ := h.1 image contents
      refine ⟨globalHead σ g ++ lines ++ others, ?_⟩
      simp only [initialized, made, contents, written]
      rfl

end Emit

/-! ## Parsed programs -/

namespace ParseState

/-- The table of struct types is in order, and the image of a global that is stored has the size
of its type and can be written, if the type is not too large. -/
structure Sound (s : ParseState) : Prop where
  laid : s.structs.Laid
  exact : s.structs.Exact
  globals : ∀ g ∈ s.globals, g.isExtern ∨ (s.structs.isComplete g.ty ∧
    ∀ image, g.init = some image → s.structs.Sized g.ty →
      image.bytes.size = (s.structs.size g.ty).toNat ∧ Spread 0 image.relocations image.bytes.size)

variable {s s' : ParseState}

theorem Sound.of_extends (h : s.Sound) (laid : s'.structs.Laid) (exact : s'.structs.Exact)
    (larger : s.structs.Extends s'.structs) (same : s'.globals = s.globals) : s'.Sound := by
  refine ⟨laid, exact, fun g mem => ?_⟩
  rw [same] at mem
  refine (h.globals g mem).imp id fun ⟨complete, spread⟩ => ?_
  obtain ⟨complete', size, -⟩ := larger.same complete
  refine ⟨complete', fun image init sized => ?_⟩
  rw [size]
  exact spread image init (sized.of_extends larger h.laid complete)

theorem Sound.withStruct (h : s.Sound) (tag : Option String) :
    (s.withStruct tag).Sound := by
  have larger := Structs.extends_declare s.structs tag
  refine h.of_extends ⟨fun ref layout found => ?_, h.laid.aligned⟩ (h.exact.declare h.laid tag) larger rfl
  exact (h.laid.placed ref layout found).of_extends larger

theorem Target.sound {t : ParseState} {ref : StructRef} (target : Target s ref t) (h : s.Sound) :
    t.Sound := by
  cases target with
  | known => exact h
  | fresh tag => exact h.withStruct tag

/-- No change of the state makes an image of another size than its type. -/
theorem Change.sound (change : Change s s') (h : s.Sound) : s'.Sound := by
  cases change with
  | intern bytes =>
    unfold ParseState.intern
    split <;> exact ⟨h.laid, h.exact, h.globals⟩
  | declareStruct tag => exact h.withStruct tag
  | define global complete image defined =>
    have table := defineGlobal_structs defined
    refine ⟨table ▸ h.laid, table ▸ h.exact, fun g mem => ?_⟩
    rw [table]
    rcases mem_defineGlobal defined mem with old | rfl
    · exact h.globals g old
    · refine complete.imp id fun complete => ⟨complete, fun contents given sized => ?_⟩
      obtain ⟨init, suits, written⟩ := image contents given
      exact Init.image_spread h.laid sized suits written
  | _ => exact ⟨h.laid, h.exact, h.globals⟩

theorem Reaches.sound (reaches : s.Reaches s') (h : s.Sound) : s'.Sound := by
  induction reaches with
  | refl => exact h
  | tail _ change ih => exact change.sound (ih h)
  | block _ _ before inside =>
    have entered := before h
    have left := inside ⟨entered.laid, entered.exact, entered.globals⟩
    exact ⟨left.laid, left.exact, left.globals⟩
  | body _ target _ members computed before inside =>
    have sound := inside (target.sound (before h))
    exact sound.of_extends (sound.laid.complete _ members computed)
      (sound.exact.complete sound.laid _ members computed) (Structs.extends_complete _ _ _) rfl

theorem Sound.start (source : Source) (tokens : List Lexed) :
    Sound { tokens, last := .atStart source } :=
  ⟨⟨nofun, nofun⟩, Structs.exact_empty, nofun⟩

end ParseState

theorem Program.parse_image {g : Global} {contents : Image}
    (parsed : Program.parse source tokens = .ok p) (mem : g ∈ p.globals)
    (stored : g.isExtern = false) (init : g.init = some contents) (sized : p.structs.Sized g.ty) :
    contents.bytes.size = (p.structs.size g.ty).toNat ∧
      Spread 0 contents.relocations contents.bytes.size := by
  obtain ⟨s, reaches, -, globals, -, structs⟩ := Program.parse_reaches parsed
  rw [structs] at sized ⊢
  rcases (reaches.sound (.start source tokens)).globals g (globals ▸ mem) with isExtern | ⟨-, image⟩
  · rw [stored] at isExtern
    cases isExtern
  · exact image contents init sized

theorem Program.parse_data_of_sized (parsed : Program.parse source tokens = .ok p)
    (sized : ∀ g ∈ p.globals, p.structs.Sized g.ty) :
    ∃ lines, Emit.data p = some lines := by
  have images : ∀ g ∈ p.globals.filter (!·.isExtern), ∀ contents, g.init = some contents →
      ∃ lines, Emit.image contents = some lines := by
    intro g mem contents init
    obtain ⟨mem, stored⟩ := mem_filter.mp mem
    rw [Bool.not_eq_true'] at stored
    exact Emit.image_of_spread (Program.parse_image parsed mem stored init (sized g mem)).2
  obtain ⟨lines, made⟩ := Emit.initialized_of_images (σ := p.structs) images
  simp only [Emit.data, made]
  exact ⟨_, rfl⟩

theorem Program.parse_data (parsed : Program.parse source tokens = .ok p)
    (fits : ∀ g ∈ p.globals, p.structs.Fits g.ty) :
    ∃ lines, Emit.data p = some lines :=
  Program.parse_data_of_sized parsed fun g mem => (fits g mem).sized

end MiniC
