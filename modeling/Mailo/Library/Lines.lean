import Mathlib.Data.List.Infix
import Mailo.Library.Lists

/-!
# Lines

A text cut after each of the marks that end a line. The last line may have none.
-/

namespace Mailo.Library

variable {α : Type} {ends : α → Bool}

/-- The lines of a text, each with the mark that ends it. -/
def lines (ends : α → Bool) : List α → List (List α)
  | [] => []
  | a :: rest =>
    if ends a then [a] :: lines ends rest
    else match lines ends rest with
      | [] => [[a]]
      | line :: more => (a :: line) :: more

/-- Nothing more can be read on a line: it ends with its mark. -/
def Closed (ends : α → Bool) (line : List α) : Prop := ∀ a ∈ line.getLast?, ends a

variable {text : List α} {texts : List (List α)}

attribute [local simp] lines in
theorem lines_eq_nil : lines ends text = [] ↔ text = [] := by
  cases text with
  | nil => simp [lines]
  | cons a rest =>
    simp only [lines]
    split
    · simp
    · split <;> simp

theorem flatten_lines (text : List α) : (lines ends text).flatten = text := by
  induction text with
  | nil => rfl
  | cons a rest ih =>
    simp only [lines]
    split
    · simp [ih]
    · split
      · rename_i hnil
        simp [lines_eq_nil.mp hnil]
      · rename_i line more hcons
        rw [← ih, hcons]
        simp

theorem lines_single (h : ∀ a ∈ text, ends a = false) (last : α) :
    lines ends (text ++ [last]) = [text ++ [last]] := by
  induction text with
  | nil => simp [lines]
  | cons a rest ih =>
    obtain ⟨ha, hrest⟩ := List.forall_mem_cons.mp h
    simp [lines, ha, ih hrest]

/-- Texts are cut apart where the first ends with a mark. -/
theorem lines_append (h : Closed ends text) (more : List α) :
    lines ends (text ++ more) = lines ends text ++ lines ends more := by
  induction text with
  | nil => rfl
  | cons a rest ih =>
    by_cases hnil : rest = []
    · subst hnil
      simp [lines, show ends a = true from h a rfl]
    · rw [List.cons_append, lines, ih fun b hb => h b (by rwa [List.getLast?_cons_of_ne_nil hnil]),
        lines]
      split
      · rfl
      · cases hlines : lines ends rest with
        | nil => exact absurd (lines_eq_nil.mp hlines) hnil
        | cons line others => rfl

theorem lines_flatten (h : texts.Pairwise fun text _ => Closed ends text) :
    lines ends texts.flatten = (texts.map (lines ends)).flatten := by
  induction texts with
  | nil => rfl
  | cons text rest ih =>
    obtain ⟨hclosed, hrest⟩ := List.pairwise_cons.mp h
    cases rest with
    | nil => simp
    | cons next rest =>
      rw [List.flatten_cons, lines_append (hclosed next (List.mem_cons_self ..)), ih hrest]
      rfl

theorem closed_flatten (h : ∀ text ∈ texts, Closed ends text) :
    Closed ends texts.flatten := by
  induction texts with
  | nil => simp [Closed]
  | cons text rest ih =>
    obtain ⟨htext, hrest⟩ := List.forall_mem_cons.mp h
    intro a ha
    rw [List.flatten_cons, List.getLast?_append] at ha
    cases hlast : rest.flatten.getLast? with
    | none => exact htext a (by simpa [hlast] using ha)
    | some b => exact ih hrest a (by simpa [hlast] using ha)

/-- A line is one line, and every line but the last ends with its mark. -/
theorem lines_apart (ends : α → Bool) (text : List α) :
    (∀ line ∈ lines ends text, lines ends line = [line]) ∧
      (lines ends text).Pairwise fun line _ => Closed ends line := by
  induction text with
  | nil => simp [lines]
  | cons a rest ih =>
    obtain ⟨hone, hclosed⟩ := ih
    simp only [lines]
    split
    · rename_i ha
      have : Closed ends [a] := fun b hb => by
        obtain rfl : b = a := by simpa using hb.symm
        exact ha
      exact ⟨List.forall_mem_cons.mpr ⟨by simp [lines, ha], hone⟩,
        List.pairwise_cons.mpr ⟨fun _ _ => this, hclosed⟩⟩
    · rename_i ha
      split
      · simp [lines, ha]
      · rename_i line more hcons
        rw [hcons] at hone hclosed
        obtain ⟨hline, hmore⟩ := List.forall_mem_cons.mp hone
        obtain ⟨hfirst, hpairs⟩ := List.pairwise_cons.mp hclosed
        refine ⟨List.forall_mem_cons.mpr ⟨by simp [lines, ha, hline], hmore⟩,
          List.pairwise_cons.mpr ⟨fun next hnext b hb => hfirst next hnext b ?_, hpairs⟩⟩
        have hne : line ≠ [] := fun h => by simp [h, lines] at hline
        rwa [List.getLast?_cons_of_ne_nil hne] at hb

/-- Lines taken one after the other from a text are the lines of the text they make up. -/
theorem lines_flatten_of_sublist {piece : List (List α)} (h : piece.Sublist (lines ends text)) :
    lines ends piece.flatten = piece := by
  obtain ⟨hone, hclosed⟩ := lines_apart ends text
  rw [lines_flatten (hclosed.sublist h),
    List.map_congr_left fun line hline => hone line (h.subset hline)]
  induction piece with
  | nil => rfl
  | cons line rest ih => simp [ih ((List.sublist_cons_self ..).trans h)]

theorem head?_lines {line : List α} (h : line ∈ (lines ends text).head?) :
    line.head? = text.head? := by
  cases text with
  | nil => simp [lines] at h
  | cons a rest =>
    simp only [lines] at h
    split at h
    · obtain rfl : [a] = line := by simpa using h
      rfl
    · split at h
      · obtain rfl : [a] = line := by simpa using h
        rfl
      · rename_i first more _
        obtain rfl : a :: first = line := by simpa using h
        rfl

end Mailo.Library
