import MiniC.Proofs.Typing.Formed
import Mathlib.Logic.Relation

/-!
# The statements of a `switch`

What a `switch` says by itself, without its list of cases: `entries` are the case and default
statements of its body, in order and without those of a `switch` inside it, and `selected` is the
one among them that a value leads to. In a typed statement the list of cases is made of the labels
of the entries, one for each (`map_label?_entries`), so what `Tree.select` finds in the list is the
label of the selected statement (`select_labels`).
-/

namespace MiniC

open List

namespace Tree

variable {labels : List CaseLabel} {v : Word} {l : CaseLabel}

theorem select_of_value (mem : l ∈ labels) (value : l.value = some (.ofBitVec v)) :
    select labels v = some (some (.ofBitVec v)) := by
  unfold select
  rw [if_pos (any_eq_true.mpr ⟨l, mem, decide_eq_true value⟩)]

theorem select_of_default (others : ∀ l ∈ labels, l.value ≠ some (.ofBitVec v)) (mem : l ∈ labels)
    (value : l.value = none) : select labels v = some none := by
  unfold select
  rw [if_neg (by simpa using others), if_pos (any_eq_true.mpr ⟨l, mem, decide_eq_true value⟩)]

theorem select_of_none (others : ∀ l ∈ labels, l.value ≠ some (.ofBitVec v))
    (valued : ∀ l ∈ labels, l.value ≠ none) : select labels v = none := by
  unfold select
  rw [if_neg (by simpa using others), if_neg (by simpa using valued)]

end Tree

namespace Stmt

def children : Stmt → List Stmt
  | .branch _ _ yes no => yes :: no.toList
  | .whileLoop _ _ body | .doLoop _ body _ | .switch _ _ body _ | .case _ _ _ body
  | .default _ _ body => [body]
  | .forLoop _ init _ _ body => init.toList ++ [body]
  | .block _ body => body
  | .expr .. | .ret .. | .exit _ | .next _ | .null _ => []

/-- A statement has another one somewhere inside it, or is that one. -/
abbrev Contains : Stmt → Stmt → Prop := Relation.ReflTransGen fun s t => t ∈ s.children

mutual
/-- The case and default statements of a statement, in order and without those of a `switch`
inside it. -/
def entries : Stmt → List Stmt
  | .branch _ _ yes no => yes.entries ++ optionalEntries no
  | .whileLoop _ _ body | .doLoop _ body _ => body.entries
  | .forLoop _ init _ _ body => optionalEntries init ++ body.entries
  | .case note value label body => .case note value label body :: body.entries
  | .default note label body => .default note label body :: body.entries
  | .block _ body => allEntries body
  | .expr .. | .ret .. | .switch .. | .exit _ | .next _ | .null _ => []
def optionalEntries : Option Stmt → List Stmt
  | none => []
  | some s => s.entries
def allEntries : List Stmt → List Stmt
  | [] => []
  | s :: rest => s.entries ++ allEntries rest
end

def label? : Stmt → Option CaseLabel
  | .case _ value label _ => label.map (⟨some value, ·⟩)
  | .default _ label _ => label.map (⟨none, ·⟩)
  | _ => none

def isCase (v : Word) : Stmt → Bool
  | .case _ value _ _ => value = .ofBitVec v
  | _ => false

def isDefault : Stmt → Bool
  | .default .. => true
  | _ => false

/-- The statement that a value leads to in the body of a `switch`: the case of the value, or else
the default statement. -/
def selected (body : Stmt) (v : Word) : Option Stmt :=
  (body.entries.find? (·.isCase v)).or (body.entries.find? (·.isDefault))

/-! ## Labels -/

mutual
theorem map_label?_entries : (s : Stmt) → ∀ {locals : Nat} {inside : Typing.Inside},
    s.Formed locals inside → s.entries.map label? = s.labels.map some
  | .branch _ _ yes no, _, _, formed => by
    simp only [entries, labels, map_append, map_label?_entries yes formed.2.1,
      map_label?_optionalEntries no formed.2.2]
  | .whileLoop _ _ body, _, _, formed => map_label?_entries body formed.2
  | .doLoop _ body _, _, _, formed => map_label?_entries body formed.2
  | .forLoop _ init _ _ body, _, _, formed => by
    simp only [entries, labels, map_append, map_label?_entries body formed.2.2.2,
      map_label?_optionalEntries init formed.1]
  | .case _ value label body, _, _, formed | .default _ label body, _, _, formed => by
    obtain ⟨n, rfl⟩ := Option.isSome_iff_exists.mp formed.1
    simp [entries, labels, label?, map_label?_entries body formed.2]
  | .block _ body, _, _, formed => map_label?_allEntries body formed
  | .expr .., _, _, _ | .ret .., _, _, _ | .switch .., _, _, _ | .exit _, _, _, _
  | .next _, _, _, _ | .null _, _, _, _ => rfl
theorem map_label?_optionalEntries : (s : Option Stmt) → ∀ {locals : Nat} {inside : Typing.Inside},
    OptionalFormed locals inside s → (optionalEntries s).map label? = (optionalLabels s).map some
  | none, _, _, _ => rfl
  | some s, _, _, formed => map_label?_entries s formed
theorem map_label?_allEntries : (body : List Stmt) → ∀ {locals : Nat} {inside : Typing.Inside},
    AllFormed locals inside body → (allEntries body).map label? = (allLabels body).map some
  | [], _, _, _ => rfl
  | s :: rest, _, _, formed => by
    simp only [allEntries, allLabels, map_append, map_label?_entries s formed.1,
      map_label?_allEntries rest formed.2]
end

variable {locals : Nat} {inside : Typing.Inside} {s t : Stmt} {l : CaseLabel} {v : Word}

theorem exists_label_of_mem_entries (formed : s.Formed locals inside) (mem : t ∈ s.entries) :
    ∃ l ∈ s.labels, t.label? = some l := by
  have mapped : t.label? ∈ s.labels.map some := by
    rw [← map_label?_entries s formed]
    exact mem_map_of_mem mem
  obtain ⟨l, mem, same⟩ := mem_map.mp mapped
  exact ⟨l, mem, same.symm⟩

theorem exists_entry_of_mem_labels (formed : s.Formed locals inside) (mem : l ∈ s.labels) :
    ∃ t ∈ s.entries, t.label? = some l := by
  have mapped : some l ∈ s.entries.map label? := by
    rw [map_label?_entries s formed]
    exact mem_map_of_mem mem
  exact mem_map.mp mapped

theorem mem_labels_of_label? (labelled : t.label? = some l) : l ∈ t.labels := by
  cases t with
  | case | default =>
    obtain ⟨n, rfl, rfl⟩ := Option.map_eq_some_iff.mp labelled
    exact mem_cons_self
  | _ => cases labelled

theorem isCase_iff (labelled : t.label? = some l) :
    t.isCase v = true ↔ l.value = some (.ofBitVec v) := by
  cases t with
  | case | default =>
    obtain ⟨n, -, rfl⟩ := Option.map_eq_some_iff.mp labelled
    simp [isCase]
  | _ => cases labelled

theorem isDefault_iff (labelled : t.label? = some l) : t.isDefault = true ↔ l.value = none := by
  cases t with
  | case | default =>
    obtain ⟨n, -, rfl⟩ := Option.map_eq_some_iff.mp labelled
    simp [isDefault]
  | _ => cases labelled

/-- The case that a value selects is that of the statement that it selects. -/
theorem select_labels (formed : s.Formed locals inside) (v : Word) :
    (s.selected v = none ∧ Tree.select s.labels v = none) ∨
      ∃ t ∈ s.entries, ∃ l ∈ s.labels, s.selected v = some t ∧ t.label? = some l ∧
        Tree.select s.labels v = some l.value := by
  cases found : s.entries.find? (·.isCase v) with
  | some t =>
    have mem := mem_of_find?_eq_some found
    obtain ⟨l, listed, labelled⟩ := exists_label_of_mem_entries formed mem
    have value := (isCase_iff labelled).mp (List.find?_some found)
    refine .inr ⟨t, mem, l, listed, ?_, labelled, ?_⟩
    · rw [selected, found, Option.some_or]
    · rw [Tree.select_of_value listed value, value]
  | none =>
    have others : ∀ l ∈ s.labels, l.value ≠ some (.ofBitVec v) := by
      intro l listed value
      obtain ⟨t, mem, labelled⟩ := exists_entry_of_mem_labels formed listed
      exact List.find?_eq_none.mp found t mem ((isCase_iff labelled).mpr value)
    cases fallback : s.entries.find? (·.isDefault) with
    | some t =>
      have mem := mem_of_find?_eq_some fallback
      obtain ⟨l, listed, labelled⟩ := exists_label_of_mem_entries formed mem
      have value := (isDefault_iff labelled).mp (List.find?_some fallback)
      refine .inr ⟨t, mem, l, listed, ?_, labelled, ?_⟩
      · rw [selected, found, fallback, Option.none_or]
      · rw [Tree.select_of_default others listed value, value]
    | none =>
      refine .inl ⟨?_, Tree.select_of_none others fun l listed value => ?_⟩
      · rw [selected, found, fallback, Option.none_or]
      · obtain ⟨t, mem, labelled⟩ := exists_entry_of_mem_labels formed listed
        exact List.find?_eq_none.mp fallback t mem ((isDefault_iff labelled).mpr value)

/-! ## Statements inside a statement -/

theorem numbers_sublist_of_mem {body : List Stmt} (mem : t ∈ body) :
    t.numbers.Sublist (allNumbers body) := by
  induction body with
  | nil => cases mem
  | cons first rest ih =>
    rcases mem_cons.mp mem with rfl | mem
    · exact sublist_append_left _ _
    · exact (ih mem).trans (sublist_append_right _ _)

theorem numbers_sublist_of_mem_children (mem : t ∈ s.children) : t.numbers.Sublist s.numbers := by
  cases s with
  | branch _ _ yes no =>
    rcases mem_cons.mp mem with rfl | mem
    · exact sublist_append_left _ _
    · cases Option.mem_toList.mp mem
      exact sublist_append_right _ _
  | forLoop _ init _ _ body =>
    rcases mem_append.mp mem with mem | mem
    · cases Option.mem_toList.mp mem
      exact sublist_append_left _ _
    · cases mem_singleton.mp mem
      exact sublist_append_right _ _
  | whileLoop | doLoop | switch =>
    cases mem_singleton.mp mem
    exact .refl _
  | case | default =>
    cases mem_singleton.mp mem
    exact sublist_append_right _ _
  | block _ body => exact numbers_sublist_of_mem mem
  | expr | ret | exit | next | null => cases mem

theorem numbers_sublist_of_contains (path : s.Contains t) : t.numbers.Sublist s.numbers := by
  induction path with
  | refl => exact .refl _
  | tail _ mem ih => exact (numbers_sublist_of_mem_children mem).trans ih

theorem AllFormed.mem {body : List Stmt} (formed : AllFormed locals inside body) (mem : t ∈ body) :
    t.Formed locals inside := by
  induction body with
  | nil => cases mem
  | cons first rest ih =>
    rcases mem_cons.mp mem with rfl | mem
    · exact formed.1
    · exact ih formed.2 mem

theorem Formed.child (formed : s.Formed locals inside) (mem : t ∈ s.children) :
    ∃ inside, t.Formed locals inside := by
  cases s with
  | branch _ _ yes no =>
    rcases mem_cons.mp mem with rfl | mem
    · exact ⟨_, formed.2.1⟩
    · cases Option.mem_toList.mp mem
      exact ⟨_, formed.2.2⟩
  | forLoop _ init _ _ body =>
    rcases mem_append.mp mem with mem | mem
    · cases Option.mem_toList.mp mem
      exact ⟨_, formed.1⟩
    · cases mem_singleton.mp mem
      exact ⟨_, formed.2.2.2⟩
  | whileLoop | doLoop | case | default =>
    cases mem_singleton.mp mem
    exact ⟨_, formed.2⟩
  | switch =>
    cases mem_singleton.mp mem
    exact ⟨_, formed.2.1⟩
  | block _ body => exact ⟨_, AllFormed.mem formed mem⟩
  | expr | ret | exit | next | null => cases mem

theorem Formed.contains (formed : s.Formed locals inside) (path : s.Contains t) :
    ∃ inside, t.Formed locals inside := by
  induction path with
  | refl => exact ⟨inside, formed⟩
  | tail _ mem ih =>
    obtain ⟨inside, formed⟩ := ih
    exact formed.child mem

def Passes (s t : Stmt) : Prop := t ∈ s.children ∧ ∀ note e body cases, s ≠ .switch note e body cases

mutual
theorem passes_of_mem_entries : (s : Stmt) → ∀ {t : Stmt}, t ∈ s.entries →
    Relation.ReflTransGen Passes s t
  | .branch _ _ yes no, _, mem => by
    rcases mem_append.mp mem with mem | mem
    · exact .head ⟨mem_cons_self, nofun⟩ (passes_of_mem_entries yes mem)
    · obtain ⟨s, rfl, passes⟩ := passes_of_mem_optionalEntries no mem
      exact .head ⟨mem_cons_of_mem _ mem_cons_self, nofun⟩ passes
  | .whileLoop _ _ body, _, mem =>
    .head ⟨mem_cons_self, nofun⟩ (passes_of_mem_entries body mem)
  | .doLoop _ body _, _, mem =>
    .head ⟨mem_cons_self, nofun⟩ (passes_of_mem_entries body mem)
  | .forLoop _ init _ _ body, _, mem => by
    rcases mem_append.mp mem with mem | mem
    · obtain ⟨s, rfl, passes⟩ := passes_of_mem_optionalEntries init mem
      exact .head ⟨mem_cons_self, nofun⟩ passes
    · exact .head ⟨mem_append_right _ (mem_singleton_self _), nofun⟩
        (passes_of_mem_entries body mem)
  | .case .., _, mem | .default .., _, mem => by
    rcases mem_cons.mp mem with rfl | mem
    · exact .refl
    · exact .head ⟨mem_cons_self, nofun⟩ (passes_of_mem_entries _ mem)
  | .block _ body, _, mem => by
    obtain ⟨s, listed, passes⟩ := passes_of_mem_allEntries body mem
    exact .head ⟨listed, nofun⟩ passes
  | .expr .., _, mem | .ret .., _, mem | .switch .., _, mem | .exit _, _, mem | .next _, _, mem
  | .null _, _, mem => by cases mem
theorem passes_of_mem_optionalEntries : (s : Option Stmt) → ∀ {t : Stmt}, t ∈ optionalEntries s →
    ∃ s', s = some s' ∧ Relation.ReflTransGen Passes s' t
  | none, _, mem => by cases mem
  | some s, _, mem => ⟨s, rfl, passes_of_mem_entries s mem⟩
theorem passes_of_mem_allEntries : (body : List Stmt) → ∀ {t : Stmt}, t ∈ allEntries body →
    ∃ s ∈ body, Relation.ReflTransGen Passes s t
  | [], _, mem => by cases mem
  | s :: rest, _, mem => by
    rcases mem_append.mp mem with mem | mem
    · exact ⟨s, mem_cons_self, passes_of_mem_entries s mem⟩
    · obtain ⟨s', listed, passes⟩ := passes_of_mem_allEntries rest mem
      exact ⟨s', mem_cons_of_mem _ listed, passes⟩
end

theorem contains_of_passes (path : Relation.ReflTransGen Passes s t) : s.Contains t := by
  induction path with
  | refl => exact .refl
  | tail _ passes ih => exact ih.tail passes.1

end Stmt

end MiniC
