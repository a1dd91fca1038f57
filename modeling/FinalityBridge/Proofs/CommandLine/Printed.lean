import FinalityBridge.CommandLine.Report
import FinalityBridge.Proofs.Text.Spelling

/-!
# Reading what is printed

A value that a command prints is looked up by the label at the head of its line
(`HasLines.printed?_eq`). In a value that has parts, the names and numbers are looked up one after the
other, and the marks between them are left out (`atoms_append_cons`).
-/

namespace FinalityBridge.CommandLine

/-! ## Lines -/

/-- What stands after a label. -/
def after? (label : String) (line : List Char) : Option String :=
  (line.dropPrefix? label.toList).map String.ofList

/-- What is printed after a label, on the first line that begins with it. -/
def printed? (label output : String) : Option String :=
  (output.toList.splitOn '\n').findSome? (after? label)

/-- An output consists of lines, each of which ends where the next one begins. -/
structure HasLines (output : String) (lines : List String) : Prop where
  toList_eq : output.toList = lines.flatMap fun line => line.toList ++ ['\n']
  newline_notMem : ∀ line ∈ lines, '\n' ∉ line.toList

-- A text of whole lines ends with an empty piece.
theorem splitOn_lines {lines : List (List Char)} (h : ∀ line ∈ lines, '\n' ∉ line) :
    (lines.flatMap (· ++ ['\n'])).splitOn '\n' = lines ++ [[]] := by
  have hlines : lines.flatMap (· ++ ['\n']) = ['\n'].intercalate (lines ++ [[]]) := by
    clear h
    induction lines with
    | nil => rfl
    | cons line lines ih =>
      rw [List.flatMap_cons, ih]
      cases lines with
      | nil => simp
      | cons next lines =>
        show _ = ['\n'].intercalate (line :: next :: (lines ++ [[]]))
        rw [List.intercalate_cons_cons]
        rfl
  rw [hlines]
  apply List.splitOn_intercalate
  · intro line hline
    obtain hline | hline := List.mem_append.1 hline
    · exact h line hline
    · rw [List.mem_singleton.1 hline]
      exact List.not_mem_nil
  · exact List.append_ne_nil_of_right_ne_nil lines (List.cons_ne_nil _ _)

/-- What is printed after a label is found on the lines that make up the output. -/
theorem HasLines.printed?_eq {label output : String} {lines : List String}
    (h : HasLines output lines) (hlabel : label.toList ≠ []) :
    printed? label output = lines.findSome? fun line => after? label line.toList := by
  have hmap : ∀ line ∈ lines.map String.toList, '\n' ∉ line := by
    intro line hline
    obtain ⟨text, hmem, rfl⟩ := List.mem_map.1 hline
    exact h.newline_notMem text hmem
  have hempty : after? label [] = none := by
    unfold after?
    cases hchars : label.toList with
    | nil => exact absurd hchars hlabel
    | cons c rest => rfl
  have hsplit := splitOn_lines hmap
  rw [List.flatMap_map] at hsplit
  unfold printed?
  rw [h.toList_eq, hsplit, List.findSome?_append, List.findSome?_map, List.findSome?_singleton, hempty,
    Option.or_none]
  rfl

theorem newline_notMem_append {label value : String} (hlabel : '\n' ∉ label.toList)
    (hvalue : '\n' ∉ value.toList) : '\n' ∉ (label ++ value).toList := by
  rw [String.toList_append, List.mem_append, not_or]
  exact ⟨hlabel, hvalue⟩

/-! ## Names and numbers -/

/-- Whether a character belongs to a name or to a number. -/
def isAtomic (c : Char) : Bool := c.isAlphanum || c == '_'

/-- The names and numbers in a text. -/
def atoms (text : List Char) : List String :=
  ((text.splitOnP fun c => !isAtomic c).filter fun part => !part.isEmpty).map String.ofList

/-- A text that is a name or a number as a whole. -/
structure IsAtom (text : String) : Prop where
  ne_nil : text.toList ≠ []
  isAtomic : ∀ c ∈ text.toList, isAtomic c = true

-- A mark separates what is before it from what is after it.
theorem atoms_append_cons {mark : Char} (hmark : isAtomic mark = false) (left right : List Char) :
    atoms (left ++ mark :: right) = atoms left ++ atoms right := by
  unfold atoms
  rw [List.splitOnP_append_cons left right (by rw [hmark]; rfl), List.filter_append, List.map_append]

theorem atoms_cons {mark : Char} (hmark : isAtomic mark = false) (right : List Char) :
    atoms (mark :: right) = atoms right :=
  atoms_append_cons hmark [] right

theorem IsAtom.atoms_eq {text : String} (h : IsAtom text) : atoms text.toList = [text] := by
  unfold atoms
  rw [List.splitOnP_eq_singleton fun c hc => by rw [h.isAtomic c hc]; rfl]
  simp [h.ne_nil]

-- An atom between two marks.
theorem atoms_append_between {before after : Char} (hbefore : isAtomic before = false)
    (hafter : isAtomic after = false) {text : String} (h : IsAtom text) (left right : List Char) :
    atoms (left ++ before :: (text.toList ++ after :: right)) = atoms left ++ text :: atoms right := by
  rw [atoms_append_cons hbefore, atoms_append_cons hafter, h.atoms_eq, List.singleton_append]

-- An atom breaks no line.
theorem IsAtom.newline_notMem {text : String} (h : IsAtom text) : '\n' ∉ text.toList :=
  fun hmem => absurd (h.isAtomic '\n' hmem) (by decide)

theorem isAtom_toString (n : Nat) : IsAtom (toString n) where
  ne_nil := by
    rw [Nat.toString_eq_repr, Nat.repr_eq_ofList_toDigits, String.toList_ofList]
    exact Nat.toDigits_ne_nil
  isAtomic := by
    intro c hc
    rw [Nat.toString_eq_repr, Nat.repr_eq_ofList_toDigits, String.toList_ofList] at hc
    have hdigit : c.isDigit = true := Nat.isDigit_of_mem_toDigits (by decide) (by decide) hc
    rw [CommandLine.isAtomic, Char.isAlphanum, hdigit, Bool.or_true, Bool.true_or]

theorem isAtom_render (bytes : Bytes) : IsAtom (Hex.render bytes) := by
  have htext : (Hex.render bytes).toList = '0' :: 'x' :: Hex.digits bytes := by
    rw [Hex.render, String.toList_append]
    exact congrArg ('0' :: 'x' :: ·) String.toList_ofList
  have hdigit : ∀ n < 16, isAtomic (Hex.digit n) = true := by decide
  constructor
  case ne_nil =>
    rw [htext]
    exact List.cons_ne_nil _ _
  case isAtomic =>
    rw [htext, List.forall_mem_cons, List.forall_mem_cons]
    refine ⟨rfl, rfl, fun c hc => ?_⟩
    obtain ⟨b, -, hc⟩ := List.mem_flatMap.1 hc
    have hb := b.toNat_lt
    obtain rfl | hc := List.mem_cons.1 hc
    · exact hdigit _ (by omega)
    · obtain rfl := List.mem_singleton.1 hc
      exact hdigit _ (by omega)

theorem newline_notMem_render {label : String} (hlabel : '\n' ∉ label.toList) (bytes : Bytes) :
    '\n' ∉ (label ++ Hex.render bytes).toList :=
  newline_notMem_append hlabel (isAtom_render bytes).newline_notMem

/-! ## Lists -/

-- The items of a printed list are its atoms.
theorem atoms_intercalate {texts : List String} (h : ∀ text ∈ texts, IsAtom text) :
    atoms ([',', ' '].intercalate (texts.map String.toList)) = texts := by
  induction texts with
  | nil => rfl
  | cons text texts ih =>
    rw [List.forall_mem_cons] at h
    cases texts with
    | nil =>
      rw [List.map_singleton, List.intercalate_singleton]
      exact h.1.atoms_eq
    | cons next texts =>
      rw [List.map_cons, List.map_cons, List.intercalate_cons_cons, ← List.map_cons, List.append_assoc,
        List.cons_append, List.singleton_append, atoms_append_cons rfl, atoms_cons rfl, h.1.atoms_eq,
        ih h.2, List.singleton_append]

section Items

variable {α : Type} [ToString α]

theorem toList_listText (items : List α) : (Report.listText items).toList =
    '[' :: ([',', ' '].intercalate ((items.map toString).map String.toList) ++ [']']) := by
  unfold Report.listText
  rw [String.toList_append, String.toList_append, String.toList_intercalate]
  rfl

variable {items : List α} (hitems : ∀ item ∈ items, IsAtom (toString item))
include hitems

theorem atoms_listText : atoms (Report.listText items).toList = items.map toString := by
  rw [toList_listText, atoms_cons rfl, atoms_append_cons rfl,
    atoms_intercalate (List.forall_mem_map.2 hitems)]
  exact List.append_nil _

-- The items are read one after the other.
theorem mapM_atoms_listText {reader : String → Except ValueError α}
    (hread : ∀ item ∈ items, reader (toString item) = .ok item) :
    (atoms (Report.listText items).toList).mapM reader = .ok items := by
  rw [atoms_listText hitems]
  apply ValueReader.mapM_eq_ok_of_forall₂
  rw [List.forall₂_map_left_iff, List.forall₂_same]
  exact hread

theorem newline_notMem_listText : '\n' ∉ (Report.listText items).toList := by
  rw [toList_listText, List.mem_cons, List.mem_append]
  rintro (hmark | hmem | hmark)
  · cases hmark
  · obtain hmark | ⟨text, htext, hmem⟩ := Text.mem_intercalate hmem
    · exact absurd hmark (by decide)
    · obtain ⟨_, hshown, rfl⟩ := List.mem_map.1 htext
      obtain ⟨item, hitem, rfl⟩ := List.mem_map.1 hshown
      exact (hitems item hitem).newline_notMem hmem
  · exact absurd hmark (by decide)

end Items

end FinalityBridge.CommandLine
