import Mathlib.Data.List.Count
import Mailo.Domain.Trimming

/-!
# Plain text as flowed text, and back

Text written by a person goes out as `format=flowed`, every line of it hard; a reader of flowed text
joins soft lines and takes off stuffing and quote marks. What is read of a line is what was written
but where taking off its trailing spaces leaves it ending in a carriage return.
-/

namespace Mailo.Editor

open Domain

/-- A line without the carriage return it ends in, if any, and that ending. -/
def stripCr (line : List Char) : List Char × List Char :=
  if line.getLast? = some '\r' then (line.dropLast, ['\r']) else (line, [])

def separator : List Char := ['-', '-', ' ']

/-- A hard line: no trailing space. -/
def hard (line : List Char) : List Char := line.rdropWhile (· == ' ')

/-- A line that would be read as stuffed, quoted or a mailbox separator has a space before it. -/
def stuff (line : List Char) : List Char :=
  if line.head? = some ' ' ∨ line.head? = some '>' ∨ "From ".toList.isPrefixOf line then ' ' :: line
  else line

/-- The quote marks a line begins with, a space between any two of them, and what follows. -/
def marks : List Char → Nat × List Char
  | '>' :: rest => ((marks rest).1 + 1, (marks rest).2)
  | ' ' :: '>' :: rest => ((marks rest).1 + 1, (marks rest).2)
  | rest => (0, rest)

def joinedQuote (line : List Char) : List Char :=
  List.replicate (marks line).1 '>' ++ (marks line).2

def plainBody (line : List Char) : List Char :=
  if line = separator then separator
  else if line.head? = some '>' then hard (joinedQuote line)
  else stuff (hard line)

def plainLine (line : List Char) : List Char := plainBody (stripCr line).1 ++ (stripCr line).2

def plainToFlowed (text : List Char) : List Char :=
  ['\n'].intercalate ((text.splitOn '\n').map plainLine)

/-- Whether the space at a soft line's end is a marker or a space. -/
inductive Delsp where
  | yes | no
deriving DecidableEq

/-- A flowed line's quote depth and its text, marks and stuffing off; `marked` after a mark. -/
def unquotedFrom (marked : Bool) : List Char → Nat × List Char
  | '>' :: rest => ((unquotedFrom true rest).1 + 1, (unquotedFrom true rest).2)
  | ' ' :: '>' :: rest =>
    if marked then ((unquotedFrom true rest).1 + 1, (unquotedFrom true rest).2)
    else (0, '>' :: rest)
  | ' ' :: rest => (0, rest)
  | rest => (0, rest)

def unquoted (raw : List Char) : Nat × List Char := unquotedFrom false raw

def isSoft (body : List Char) : Bool := body != separator && body.getLast? == some ' '

/-- The lines read so far, and whether the last goes on in the next. -/
structure Unflowed where
  out : List (Nat × List Char)
  joining : Bool

/-- One more line read. -/
def Unflowed.line (delsp : Delsp) (read : Unflowed) (raw : List Char) : Unflowed :=
  let (depth, body) := unquoted (stripCr raw).1
  let soft := isSoft body
  let body := if soft ∧ delsp = .yes then body.dropLast else body
  let out := match read.out.getLast? with
    | some (at_, line) =>
      if read.joining ∧ at_ = depth then read.out.dropLast ++ [(at_, line ++ body)]
      else read.out ++ [(depth, body)]
    | none => read.out ++ [(depth, body)]
  ⟨out, soft⟩

def quotedLine (line : Nat × List Char) : List Char :=
  if line.1 = 0 then line.2
  else if line.2 = [] then List.replicate line.1 '>'
  else List.replicate line.1 '>' ++ ' ' :: line.2

/-- Flowed text as the lines its writer meant. -/
def unflow (text : List Char) (delsp : Delsp) : List Char :=
  ['\n'].intercalate
    (((text.splitOn '\n').foldl (Unflowed.line delsp) ⟨[], false⟩).out.map quotedLine)

/-! ## Characters kept -/

section Counts

variable {c : Char} (hspace : c ≠ ' ') (hmark : c ≠ '>')

include hspace in
theorem count_hard (line : List Char) : (hard line).count c = line.count c := by
  have hsplit := @List.rdropWhile_append_rtakeWhile _ (· == ' ') line
  have hnone : (line.rtakeWhile (· == ' ')).count c = 0 := by
    rw [List.count_eq_zero]
    intro h
    exact hspace (by simpa using List.mem_rtakeWhile_imp h)
  conv_rhs => rw [← hsplit]
  rw [List.count_append, hnone, Nat.add_zero, hard]

include hspace in
theorem count_stuff (line : List Char) : (stuff line).count c = line.count c := by
  rw [stuff]
  split
  · rw [List.count_cons_of_ne hspace.symm]
  · rfl

include hspace hmark in
theorem count_marks (line : List Char) : (marks line).2.count c = line.count c := by
  fun_induction marks line with
  | case1 rest ih => rw [ih, List.count_cons_of_ne hmark.symm]
  | case2 rest ih => rw [ih, List.count_cons_of_ne hspace.symm, List.count_cons_of_ne hmark.symm]
  | case3 rest => rfl

include hmark in
theorem count_replicate_mark (n : Nat) : (List.replicate n '>').count c = 0 := by
  rw [List.count_eq_zero]
  intro h
  exact hmark (List.eq_of_mem_replicate h)

include hspace hmark in
theorem count_plainBody (line : List Char) : (plainBody line).count c = line.count c := by
  rw [plainBody]
  split
  · rename_i h
    rw [h]
  · split
    · rw [count_hard hspace, joinedQuote, List.count_append, count_replicate_mark hmark,
        count_marks hspace hmark, Nat.zero_add]
    · rw [count_stuff hspace, count_hard hspace]

include hspace hmark in
theorem count_unquotedFrom (marked : Bool) (raw : List Char) :
    (unquotedFrom marked raw).2.count c = raw.count c := by
  fun_induction unquotedFrom marked raw with
  | case1 marked rest ih => rw [ih, List.count_cons_of_ne hmark.symm]
  | case2 rest ih =>
    rw [ih, List.count_cons_of_ne hspace.symm, List.count_cons_of_ne hmark.symm]
  | case3 marked rest h => rw [List.count_cons_of_ne hspace.symm]
  | case4 marked rest h => rw [List.count_cons_of_ne hspace.symm]
  | case5 => rfl

include hspace hmark in
theorem count_quotedLine (line : Nat × List Char) : (quotedLine line).count c = line.2.count c := by
  rw [quotedLine]
  split
  · rfl
  · split
    · rename_i h
      rw [count_replicate_mark hmark, h, List.count_nil]
    · rw [List.count_append, count_replicate_mark hmark, Nat.zero_add,
        List.count_cons_of_ne hspace.symm]

end Counts

/-- Whether a line ends in a carriage return. -/
def endsCr (line : List Char) : Bool := line.getLast? == some '\r'

theorem stripCr_append (line : List Char) : (stripCr line).1 ++ (stripCr line).2 = line := by
  rw [stripCr]
  split
  · rename_i h
    obtain ⟨before, rfl⟩ := List.getLast?_eq_some_iff.mp h
    rw [List.dropLast_concat]
  · rw [List.append_nil]

theorem stripCr_concat (line : List Char) : stripCr (line ++ ['\r']) = (line, ['\r']) := by
  rw [stripCr, if_pos List.getLast?_concat, List.dropLast_concat]

variable {line text : List Char}

theorem stripCr_of_not (h : endsCr line = false) : stripCr line = (line, []) := by
  rw [stripCr, if_neg]
  rw [endsCr, beq_eq_false_iff_ne] at h
  exact h

theorem count_stripCr (line : List Char) :
    (stripCr line).1.count '\r' + (endsCr line).toNat = line.count '\r' := by
  cases h : endsCr line with
  | false =>
    rw [stripCr_of_not h]
    rfl
  | true =>
    rw [endsCr, beq_iff_eq] at h
    obtain ⟨before, rfl⟩ := List.getLast?_eq_some_iff.mp h
    rw [stripCr_concat, List.count_append]
    rfl

variable {c : Char}

theorem count_intercalate (hc : c ≠ '\n') (lines : List (List Char)) :
    (['\n'].intercalate lines).count c = (lines.map (List.count c)).sum := by
  induction lines with
  | nil => rfl
  | cons line rest ih =>
    cases rest with
    | nil => simp [List.intercalate_singleton]
    | cons next rest =>
      rw [List.intercalate_cons_cons, List.count_append, List.count_append, ih,
        List.count_cons_of_ne hc.symm, List.count_nil, Nat.add_zero]
      rfl

theorem line_no (read : Unflowed) (raw : List Char) : Unflowed.line .no read raw =
      ⟨match read.out.getLast? with
        | some (at_, line) =>
          if read.joining ∧ at_ = (unquoted (stripCr raw).1).1 then
            read.out.dropLast ++ [(at_, line ++ (unquoted (stripCr raw).1).2)]
          else read.out ++ [unquoted (stripCr raw).1]
        | none => read.out ++ [unquoted (stripCr raw).1],
        isSoft (unquoted (stripCr raw).1).2⟩ := by
  simp [Unflowed.line]

theorem count_unflow (text : List Char) :
    (unflow text .no).count '\r' + (text.splitOn '\n').countP endsCr = text.count '\r' := by
  have hread : ∀ (lines : List (List Char)) (read : Unflowed),
      ((lines.foldl (Unflowed.line .no) read).out.map fun line => line.2.count '\r').sum +
        lines.countP endsCr = (read.out.map fun line => line.2.count '\r').sum +
          (lines.map (List.count '\r')).sum := by
    intro lines
    induction lines with
    | nil =>
      intro read
      rfl
    | cons raw lines ih =>
      intro read
      have hone : ((Unflowed.line .no read raw).out.map fun line => line.2.count '\r').sum =
          (read.out.map fun line => line.2.count '\r').sum + (stripCr raw).1.count '\r' := by
        have hbody := count_unquotedFrom (c := '\r') (by decide) (by decide) false (stripCr raw).1
        rw [← hbody, line_no, unquoted]
        split
        · rename_i at_ line hlast
          split
          · obtain ⟨before, hbefore⟩ := List.getLast?_eq_some_iff.mp hlast
            rw [hbefore, List.dropLast_concat]
            simp [Nat.add_assoc]
          · simp
        · simp
      have hraw := count_stripCr raw
      have hrest := ih (Unflowed.line .no read raw)
      rw [List.foldl_cons, List.countP_cons, List.map_cons, List.sum_cons]
      cases hends : endsCr raw with
      | true =>
        rw [hends] at hraw
        simp only [Bool.toNat_true] at hraw
        simp only [if_true]
        omega
      | false =>
        rw [hends] at hraw
        simp only [Bool.toNat_false] at hraw
        simp only [Bool.false_eq_true, if_false]
        omega
  have hcount := hread (text.splitOn '\n') ⟨[], false⟩
  rw [unflow, count_intercalate (by decide), List.map_map]
  have hquoted : (List.count '\r' ∘ quotedLine) = fun line => line.2.count '\r' :=
    funext fun line => count_quotedLine (by decide) (by decide) line
  rw [hquoted, hcount, ← count_intercalate (by decide), List.intercalate_splitOn]
  simp

/-! ## One line read -/

def dropSpace (text : List Char) : List Char := if text.head? = some ' ' then text.tail else text

/-- A line without its trailing spaces, a signature's separator kept, its quote marks run together
and a space after them. -/
def canonical (line : List Char) : List Char :=
  if line = separator then separator
  else if line.head? = some '>' then quotedLine ((marks line).1, dropSpace (hard (marks line).2))
  else hard line

theorem hard_within (line : List Char) : hard line <+: line := List.rdropWhile_prefix _ _

theorem head?_hard (h : (hard line).head? = some c) : line.head? = some c := by
  obtain ⟨more, hmore⟩ := hard_within line
  rw [← hmore, List.head?_append, h]
  rfl

theorem getLast?_hard (line : List Char) : (hard line).getLast? ≠ some ' ' := by
  intro h
  obtain ⟨before, hbefore⟩ := List.getLast?_eq_some_iff.mp h
  have hne : line.rdropWhile (· == ' ') ≠ [] := by
    rw [← hard, hbefore]
    simp
  have hnot := List.rdropWhile_last_not (· == ' ') line hne
  have hlast : (line.rdropWhile (· == ' ')).getLast? = some ' ' := h
  rw [List.getLast?_eq_some_getLast hne, Option.some.injEq] at hlast
  rw [hlast] at hnot
  exact hnot rfl

theorem hard_eq_self (h : line.getLast? ≠ some ' ') : hard line = line := by
  apply List.rdropWhile_eq_self_iff.mpr
  intro hne hspace
  rw [List.getLast?_eq_some_getLast hne] at h
  exact h (congrArg some (by simpa using hspace))

theorem hard_append (before line : List Char) :
    hard (before ++ line) = if hard line = [] then hard before else before ++ hard line := by
  induction line using List.reverseRecOn with
  | nil => rw [List.append_nil]; rfl
  | append_singleton line c ih =>
    rw [← List.append_assoc, hard, hard, List.rdropWhile_concat, List.rdropWhile_concat]
    split
    · exact ih
    · rw [if_neg (by simp), List.append_assoc]

theorem marks_rest (line : List Char) :
    (marks line).2.head? ≠ some '>' ∧ (' ' :: '>' :: []).isPrefixOf (marks line).2 = false := by
  fun_induction marks line with
  | case1 | case2 => assumption
  | case3 rest hmark hspace =>
    cases rest with
    | nil => exact ⟨by simp, rfl⟩
    | cons c rest =>
      refine ⟨fun h => hmark rest (by rw [List.head?_cons] at h; rw [Option.some.inj h]), ?_⟩
      cases rest with
      | nil => simp [List.isPrefixOf]
      | cons d rest =>
        simp only [List.isPrefixOf, Bool.and_true, Bool.and_eq_false_iff, beq_eq_false_iff_ne]
        by_cases hc : ' ' = c
        · exact Or.inr fun hd => hspace rest (by rw [← hc, ← hd])
        · exact Or.inl hc

theorem marks_append (line : List Char) : ∃ before, line = before ++ (marks line).2 ∧
      (before = [] ∨ before.getLast? = some '>') := by
  fun_induction marks line with
  | case1 rest ih =>
    obtain ⟨before, hbefore, hlast⟩ := ih
    refine ⟨'>' :: before, by rw [List.cons_append, ← hbefore], Or.inr ?_⟩
    rcases hlast with rfl | hlast <;> simp [List.getLast?_cons, *]
  | case2 rest ih =>
    obtain ⟨before, hbefore, hlast⟩ := ih
    refine ⟨' ' :: '>' :: before, by rw [List.cons_append, List.cons_append, ← hbefore], Or.inr ?_⟩
    rcases hlast with rfl | hlast <;> simp [List.getLast?_cons, *]
  | case3 => exact ⟨[], rfl, Or.inl rfl⟩

theorem marks_pos (h : line.head? = some '>') : 0 < (marks line).1 := by
  cases line with
  | nil => cases h
  | cons c rest =>
    cases h
    rw [marks]
    exact Nat.succ_pos _

theorem hard_marks (n : Nat) : hard (List.replicate n '>') = List.replicate n '>' := by
  apply hard_eq_self
  intro h
  have hmem := List.mem_of_getLast? h
  exact absurd (List.eq_of_mem_replicate hmem) (by decide)

theorem hard_joinedQuote (line : List Char) :
    hard (joinedQuote line) = List.replicate (marks line).1 '>' ++ hard (marks line).2 := by
  rw [joinedQuote, hard_append]
  split
  · rename_i h
    rw [h, List.append_nil, hard_marks]
  · rfl

theorem unquotedFrom_text (marked : Bool) (hmark : text.head? ≠ some '>')
    (hspace : (' ' :: '>' :: []).isPrefixOf text = false) :
    unquotedFrom marked text = (0, dropSpace text) := by
  fun_cases unquotedFrom marked text with
  | case1 rest => exact absurd rfl hmark
  | case2 rest | case3 rest => exact absurd hspace (by simp [List.isPrefixOf])
  | case4 rest => rfl
  | case5 _ hquote hpair hone =>
    rw [dropSpace, if_neg]
    intro h
    cases text with
    | nil => cases h
    | cons c rest =>
      cases h
      exact hone rest rfl

theorem unquoted_stuffed (line : List Char) : unquoted (' ' :: line) = (0, line) := by
  rw [unquoted]
  cases line with
  | nil => rfl
  | cons c rest =>
    by_cases hc : c = '>'
    · subst hc
      rfl
    · rw [unquotedFrom]
      intro rest' h
      exact hc (List.cons.inj h).1

theorem unquotedFrom_replicate (n : Nat) (marked : Bool)
    (hmark : text.head? ≠ some '>') (hspace : (' ' :: '>' :: []).isPrefixOf text = false) :
    unquotedFrom marked (List.replicate n '>' ++ text) = (n, dropSpace text) := by
  induction n generalizing marked with
  | zero => exact unquotedFrom_text marked hmark hspace
  | succ n ih => rw [List.replicate_succ, List.cons_append, unquotedFrom, ih]

/-- What is left of a text by taking spaces off its end begins like no quote mark either. -/
theorem hard_rest (hmark : text.head? ≠ some '>')
    (hspace : (' ' :: '>' :: []).isPrefixOf text = false) :
    (hard text).head? ≠ some '>' ∧ (' ' :: '>' :: []).isPrefixOf (hard text) = false := by
  refine ⟨fun h => hmark (head?_hard h), ?_⟩
  rw [← Bool.not_eq_true, List.isPrefixOf_iff_prefix] at hspace ⊢
  exact fun h => hspace (h.trans (hard_within text))

theorem getLast?_dropSpace (h : text.getLast? ≠ some ' ') :
    (dropSpace text).getLast? ≠ some ' ' := by
  rw [dropSpace]
  split
  · cases text with
    | nil => exact h
    | cons c rest =>
      intro hlast
      apply h
      rw [List.getLast?_cons]
      rw [List.tail_cons] at hlast
      rw [hlast]
      rfl
  · exact h

theorem read_plainBody (line : List Char) :
    quotedLine (unquoted (plainBody line)) = canonical line ∧
      isSoft (unquoted (plainBody line)).2 = false := by
  rw [plainBody, canonical]
  split
  · exact ⟨rfl, rfl⟩
  · rename_i hsep
    split
    · rename_i hquote
      obtain ⟨hmark, hspace⟩ := marks_rest line
      obtain ⟨hmarkHard, hspaceHard⟩ := hard_rest hmark hspace
      rw [hard_joinedQuote, unquoted, unquotedFrom_replicate _ _ hmarkHard hspaceHard]
      refine ⟨rfl, ?_⟩
      rw [isSoft, Bool.and_eq_false_iff, beq_eq_false_iff_ne]
      exact Or.inr (getLast?_dropSpace (getLast?_hard _))
    · rename_i hquote
      have hhead : (hard line).head? ≠ some '>' := fun h => hquote (head?_hard h)
      have hstuffed : unquoted (stuff (hard line)) = (0, hard line) := by
        rw [stuff]
        split
        · exact unquoted_stuffed _
        · rename_i hnone
          rw [not_or, not_or] at hnone
          have hpair : (' ' :: '>' :: []).isPrefixOf (hard line) = false := by
            rw [← Bool.not_eq_true, List.isPrefixOf_iff_prefix]
            rintro ⟨more, hmore⟩
            exact hnone.1 (by rw [← hmore]; rfl)
          rw [unquoted, unquotedFrom_text false hhead hpair, dropSpace, if_neg hnone.1]
      rw [hstuffed]
      refine ⟨rfl, ?_⟩
      rw [isSoft, Bool.and_eq_false_iff, beq_eq_false_iff_ne]
      exact Or.inr (getLast?_hard _)

/-! ## What is left in canonical form -/

theorem dropSpace_rest (hmark : text.head? ≠ some '>')
    (hspace : (' ' :: '>' :: []).isPrefixOf text = false) : (dropSpace text).head? ≠ some '>' := by
  rw [dropSpace]
  split
  · rename_i h
    cases text with
    | nil => cases h
    | cons c rest =>
      cases h
      intro hrest
      cases rest with
      | nil => cases hrest
      | cons d rest =>
        cases hrest
        simp [List.isPrefixOf] at hspace
  · exact hmark

theorem marks_replicate (n : Nat) (hmark : text.head? ≠ some '>')
    (hspace : (' ' :: '>' :: []).isPrefixOf text = false) :
    marks (List.replicate n '>' ++ text) = (n, text) := by
  induction n with
  | zero =>
    rw [List.replicate_zero, List.nil_append]
    fun_cases marks text with
    | case1 rest => exact absurd rfl hmark
    | case2 rest => exact absurd hspace (by simp [List.isPrefixOf])
    | case3 => rfl
  | succ n ih => rw [List.replicate_succ, List.cons_append, marks, ih]

theorem canonical_marked (n : Nat) (hmark : text.head? ≠ some '>')
    (hspace : (' ' :: '>' :: []).isPrefixOf text = false) :
    canonical (List.replicate (n + 1) '>' ++ text) =
      quotedLine (n + 1, dropSpace (hard text)) := by
  rw [canonical, marks_replicate (n + 1) hmark hspace, List.replicate_succ, List.cons_append,
    if_neg (by simp [separator]), List.head?_cons, if_pos rfl]

theorem canonical_canonical (line : List Char) : canonical (canonical line) = canonical line := by
  by_cases hsep : line = separator
  · subst hsep
    rfl
  · have hnotSep : hard line ≠ separator := fun h => getLast?_hard line (by rw [h]; rfl)
    by_cases hquote : line.head? = some '>'
    · obtain ⟨hmark, hspace⟩ := marks_rest line
      obtain ⟨hmarkHard, hspaceHard⟩ := hard_rest hmark hspace
      have hpos := marks_pos hquote
      have htext := dropSpace_rest hmarkHard hspaceHard
      have hlast := getLast?_dropSpace (getLast?_hard (marks line).2)
      have hform : canonical line =
          quotedLine ((marks line).1, dropSpace (hard (marks line).2)) := by
        rw [canonical, if_neg hsep, if_pos hquote]
      rw [hform]
      generalize dropSpace (hard (marks line).2) = text at *
      generalize (marks line).1 = n at *
      obtain ⟨n, rfl⟩ : ∃ m, n = m + 1 := ⟨n - 1, by omega⟩
      by_cases hempty : text = []
      · subst hempty
        have hline : quotedLine (n + 1, []) = List.replicate (n + 1) '>' ++ [] := by
          rw [quotedLine, if_neg (Nat.succ_ne_zero n), if_pos rfl, List.append_nil]
        rw [hline, canonical_marked n (by simp) rfl, ← hline]
        rfl
      · have hline : quotedLine (n + 1, text) = List.replicate (n + 1) '>' ++ ' ' :: text := by
          rw [quotedLine, if_neg (Nat.succ_ne_zero n), if_neg hempty]
        have hpair : (' ' :: '>' :: []).isPrefixOf (' ' :: text) = false := by
          cases text with
          | nil => rfl
          | cons c rest =>
            rw [List.head?_cons, ne_eq, Option.some.injEq] at htext
            simp [List.isPrefixOf, Ne.symm htext]
        have hwhole : hard (' ' :: text) = ' ' :: text := by
          apply hard_eq_self
          rw [List.getLast?_cons]
          cases hget : text.getLast? with
          | none => exact absurd (List.getLast?_eq_none_iff.mp hget) hempty
          | some c => exact fun h => hlast (hget.trans h)
        rw [hline, canonical_marked n (by simp) hpair, hwhole, ← hline]
        rfl
    · have hform : canonical line = hard line := by
        rw [canonical, if_neg hsep, if_neg hquote]
      rw [hform, canonical, if_neg hnotSep, if_neg fun h => hquote (head?_hard h), hard,
        hard, List.rdropWhile_idempotent]

theorem endsCr_append (before : List Char) (h : text ≠ []) :
    endsCr (before ++ text) = endsCr text := by
  rw [endsCr, endsCr, List.getLast?_append_of_ne_nil _ h]

theorem endsCr_quote (hquote : line.head? = some '>') :
    endsCr (hard line) = endsCr (hard (marks line).2) ∧
      endsCr (plainBody line) = endsCr (hard (marks line).2) := by
  obtain ⟨before, hbefore, hlast⟩ := marks_append line
  have hends : before.getLast? = some '>' := by
    rcases hlast with rfl | hlast
    · rw [List.nil_append] at hbefore
      exact absurd (hbefore ▸ hquote) (marks_rest line).1
    · exact hlast
  have hkept : hard before = before := hard_eq_self (by rw [hends]; decide)
  have hne : line ≠ separator := by
    rintro rfl
    cases hquote
  have hpos := marks_pos hquote
  rw [plainBody, if_neg hne, if_pos hquote, hard_joinedQuote]
  have hwhole : hard line =
      if hard (marks line).2 = [] then before else before ++ hard (marks line).2 := by
    conv_lhs => rw [hbefore]
    rw [hard_append, hkept]
  rw [hwhole]
  by_cases hempty : hard (marks line).2 = []
  · rw [if_pos hempty, hempty, List.append_nil, endsCr, hends]
    refine ⟨rfl, ?_⟩
    obtain ⟨n, hn⟩ : ∃ n, (marks line).1 = n + 1 := ⟨(marks line).1 - 1, by omega⟩
    rw [hn, List.replicate_succ', endsCr, List.getLast?_concat]
    rfl
  · rw [if_neg hempty]
    exact ⟨endsCr_append before hempty, endsCr_append _ hempty⟩

theorem endsCr_plainBody (line : List Char) : endsCr (plainBody line) = endsCr (hard line) := by
  by_cases hquote : line.head? = some '>'
  · rw [(endsCr_quote hquote).1, (endsCr_quote hquote).2]
  · rw [plainBody, if_neg hquote]
    split
    · rename_i h
      rw [h]
      rfl
    · rw [stuff]
      split
      · cases hline : hard line with
        | nil => rfl
        | cons c rest => rw [endsCr, endsCr, List.getLast?_cons_cons]
      · rfl

theorem endsCr_dropSpace (h : text.getLast? ≠ some ' ') :
    endsCr (dropSpace text) = endsCr text := by
  rw [dropSpace]
  split
  · rename_i hspace
    cases text with
    | nil => rfl
    | cons c rest =>
      cases hspace
      cases rest with
      | nil => exact absurd rfl h
      | cons d rest => rw [endsCr, endsCr, List.getLast?_cons_cons, List.tail_cons]
  · rfl

theorem endsCr_canonical (line : List Char) : endsCr (canonical line) = endsCr (hard line) := by
  by_cases hsep : line = separator
  · subst hsep
    rfl
  · by_cases hquote : line.head? = some '>'
    · have hpos := marks_pos hquote
      rw [(endsCr_quote hquote).1, canonical, if_neg hsep, if_pos hquote, quotedLine,
        if_neg (by omega), ← endsCr_dropSpace (getLast?_hard (marks line).2)]
      split
      · rename_i hempty
        replace hempty : dropSpace (hard (marks line).2) = [] := hempty
        rw [hempty]
        apply beq_eq_false_iff_ne.mpr
        intro h
        exact absurd (List.eq_of_mem_replicate (List.mem_of_getLast? h)) (by decide)
      · rename_i hsome
        rw [endsCr_append _ (List.cons_ne_nil _ _), ← List.singleton_append, endsCr_append _ hsome]
    · rw [canonical, if_neg hsep, if_neg hquote]

/-! ## Texts read back -/

theorem count_canonical (hspace : c ≠ ' ') (hmark : c ≠ '>') (line : List Char) :
    (canonical line).count c = line.count c := by
  rw [← (read_plainBody line).1, count_quotedLine hspace hmark, unquoted,
    count_unquotedFrom hspace hmark, count_plainBody hspace hmark]

theorem count_plainLine (hspace : c ≠ ' ') (hmark : c ≠ '>') (line : List Char) :
    (plainLine line).count c = line.count c := by
  conv_rhs => rw [← stripCr_append line]
  rw [plainLine, List.count_append, List.count_append, count_plainBody hspace hmark]

theorem plainToFlowed_lines (text : List Char) :
    (plainToFlowed text).splitOn '\n' = (text.splitOn '\n').map plainLine := by
  apply List.splitOn_intercalate
  · intro line hline
    obtain ⟨written, hwritten, rfl⟩ := List.mem_map.mp hline
    rw [← List.count_eq_zero, count_plainLine (by decide) (by decide), List.count_eq_zero]
    exact (Text.mem_splitOn hwritten).1
  · rw [ne_eq, List.map_eq_nil_iff]
    exact List.splitOn_ne_nil _ _

theorem endsCr_plainLine (line : List Char) :
    endsCr (plainLine line) = (endsCr line || endsCr (hard (stripCr line).1)) := by
  cases h : endsCr line with
  | true =>
    rw [endsCr, beq_iff_eq] at h
    obtain ⟨before, rfl⟩ := List.getLast?_eq_some_iff.mp h
    rw [plainLine, stripCr_concat, endsCr, List.getLast?_concat]
    rfl
  | false =>
    rw [plainLine, stripCr_of_not h, List.append_nil, endsCr_plainBody, Bool.false_or]

/-- A text's lines as its writer left them: a carriage return before a line break is part of the
break. -/
def asWritten : List (List Char) → List (List Char)
  | [] => []
  | [last] => [canonical last]
  | line :: next :: rest => canonical (stripCr line).1 :: asWritten (next :: rest)

/-- No line is left ending in a carriage return when its break and its trailing spaces are off. -/
def Unhidden (lines : List (List Char)) : Prop :=
  (∀ line ∈ lines, endsCr (hard (stripCr line).1) = false) ∧
    ∀ last ∈ lines.getLast?, endsCr last = false

variable {lines : List (List Char)}

theorem asWritten_eq (h : ∀ last ∈ lines.getLast?, endsCr last = false) :
    asWritten lines = lines.map fun line => canonical (stripCr line).1 := by
  fun_induction asWritten lines with
  | case1 => rfl
  | case2 last => rw [List.map_singleton, stripCr_of_not (h last rfl)]
  | case3 line next rest ih =>
    rw [List.getLast?_cons_cons] at h
    rw [ih h]
    rfl

theorem foldl_hard (h : ∀ raw ∈ lines, isSoft (unquoted (stripCr raw).1).2 = false)
    (out : List (Nat × List Char)) :
    (lines.foldl (Unflowed.line .no) ⟨out, false⟩).out =
      out ++ lines.map fun raw => unquoted (stripCr raw).1 := by
  induction lines generalizing out with
  | nil => rw [List.map_nil, List.append_nil]; rfl
  | cons raw lines ih =>
    have hone : Unflowed.line .no ⟨out, false⟩ raw =
        ⟨out ++ [unquoted (stripCr raw).1], false⟩ := by
      rw [line_no, h raw List.mem_cons_self]
      split <;> simp
    rw [List.foldl_cons, hone, ih fun other hother => h other (.tail _ hother),
      List.map_cons, List.append_assoc]
    rfl

theorem read_lines (h : Unhidden (text.splitOn '\n')) :
    (unflow (plainToFlowed text) .no).splitOn '\n' =
      (text.splitOn '\n').map fun line => canonical (stripCr line).1 := by
  have hstrip : ∀ line ∈ text.splitOn '\n',
      (stripCr (plainLine line)).1 = plainBody (stripCr line).1 := by
    intro line hline
    cases hends : endsCr line with
    | true =>
      rw [endsCr, beq_iff_eq] at hends
      obtain ⟨before, rfl⟩ := List.getLast?_eq_some_iff.mp hends
      rw [plainLine, stripCr_concat, stripCr_concat]
    | false =>
      have hnot : endsCr (plainLine line) = false := by
        rw [endsCr_plainLine, hends, h.1 line hline]
        rfl
      rw [stripCr_of_not hnot, plainLine, stripCr_of_not hends, List.append_nil]
  have hread : (((plainToFlowed text).splitOn '\n').foldl (Unflowed.line .no) ⟨[], false⟩).out =
      (text.splitOn '\n').map fun line => unquoted (plainBody (stripCr line).1) := by
    rw [plainToFlowed_lines, foldl_hard, List.map_map, List.nil_append]
    · exact List.map_congr_left fun line hline => congrArg unquoted (hstrip line hline)
    · intro raw hraw
      obtain ⟨line, hline, rfl⟩ := List.mem_map.mp hraw
      rw [hstrip line hline]
      exact (read_plainBody _).2
  rw [unflow, hread, List.map_map, List.splitOn_intercalate]
  · exact List.map_congr_left fun line _ => (read_plainBody _).1
  · intro line hline
    obtain ⟨written, hwritten, rfl⟩ := List.mem_map.mp hline
    rw [Function.comp_apply, (read_plainBody _).1, ← List.count_eq_zero,
      count_canonical (by decide) (by decide), List.count_eq_zero]
    intro hmem
    apply (Text.mem_splitOn hwritten).1
    rw [← stripCr_append written]
    exact List.mem_append_left _ hmem
  · rw [ne_eq, List.map_eq_nil_iff]
    exact List.splitOn_ne_nil _ _

/-- What is read has no line ending in a carriage return where writing and reading it again changes
nothing. -/
theorem endsCr_of_again (h : unflow (plainToFlowed text) .no = text) :
    ∀ line ∈ text.splitOn '\n', endsCr line = false := by
  have hcount := count_unflow (plainToFlowed text)
  have hsum : (plainToFlowed text).count '\r' = text.count '\r' := by
    have hlines : (List.count '\r' ∘ plainLine) = List.count '\r' :=
      funext fun line => count_plainLine (by decide) (by decide) line
    rw [plainToFlowed, count_intercalate (by decide), List.map_map, hlines,
      ← count_intercalate (by decide), List.intercalate_splitOn]
  rw [h, hsum, plainToFlowed_lines] at hcount
  have hnone : ((text.splitOn '\n').map plainLine).countP endsCr = 0 := by omega
  rw [List.countP_eq_zero] at hnone
  intro line hline
  have hplain := hnone _ (List.mem_map_of_mem hline)
  rw [Bool.not_eq_true, endsCr_plainLine, Bool.or_eq_false_iff] at hplain
  exact hplain.1

theorem last_mem_asWritten {last : List Char}
    (h : last ∈ lines.getLast?) : canonical last ∈ asWritten lines := by
  fun_induction asWritten lines with
  | case1 => cases h
  | case2 line =>
    cases h
    exact .head _
  | case3 line next rest ih =>
    rw [List.getLast?_cons_cons] at h
    exact .tail _ (ih h)

theorem endsCr_hard (h : endsCr line = true) : endsCr (hard line) = true := by
  rw [hard_eq_self]
  · exact h
  · rw [endsCr, beq_iff_eq] at h
    rw [h]
    decide

/-- A text is read back line by line, and the same again, exactly where no line of it is left ending
in a carriage return. -/
theorem reads_back_iff (text : List Char) :
    (unflow (plainToFlowed text) .no).splitOn '\n' = asWritten (text.splitOn '\n') ∧
      unflow (plainToFlowed (unflow (plainToFlowed text) .no)) .no =
        unflow (plainToFlowed text) .no ↔
    Unhidden (text.splitOn '\n') := by
  constructor
  · rintro ⟨hread, hagain⟩
    have hends := endsCr_of_again hagain
    rw [hread] at hends
    have hlast : ∀ last ∈ (text.splitOn '\n').getLast?, endsCr last = false := by
      intro last hlast
      rw [← Bool.not_eq_true]
      intro hcr
      have hcanonical := hends _ (last_mem_asWritten hlast)
      rw [endsCr_canonical, endsCr_hard hcr] at hcanonical
      cases hcanonical
    refine ⟨fun line hline => ?_, hlast⟩
    rw [← endsCr_canonical]
    rw [asWritten_eq hlast] at hends
    exact hends _ (List.mem_map_of_mem hline)
  · intro h
    have hread := read_lines h
    have hends : ∀ line ∈ text.splitOn '\n',
        endsCr (canonical (stripCr line).1) = false := by
      intro line hline
      rw [endsCr_canonical]
      exact h.1 line hline
    refine ⟨by rw [hread, asWritten_eq h.2], ?_⟩
    have hagain : Unhidden ((unflow (plainToFlowed text) .no).splitOn '\n') := by
      rw [hread]
      refine ⟨fun line hline => ?_, fun last hlast => ?_⟩
      · obtain ⟨written, hwritten, rfl⟩ := List.mem_map.mp hline
        rw [stripCr_of_not (hends written hwritten), ← endsCr_canonical, canonical_canonical]
        exact hends written hwritten
      · obtain ⟨written, hwritten, rfl⟩ := List.mem_map.mp (List.mem_of_getLast? hlast)
        exact hends written hwritten
    have hlines := read_lines hagain
    rw [hread, List.map_map] at hlines
    have hsame : ((text.splitOn '\n').map
        ((fun line => canonical (stripCr line).1) ∘ fun line => canonical (stripCr line).1)) =
          (text.splitOn '\n').map fun line => canonical (stripCr line).1 := by
      apply List.map_congr_left
      intro line hline
      rw [Function.comp_apply, stripCr_of_not (hends line hline), canonical_canonical]
    rw [hsame, ← hread] at hlines
    have hjoined := congrArg (['\n'].intercalate ·) hlines
    simpa only [List.intercalate_splitOn] using hjoined

/-- A line whose trailing spaces hid a carriage return is read joined to the next. -/
theorem read_joined : ¬∀ text : List Char,
    (unflow (plainToFlowed text) .no).splitOn '\n' = asWritten (text.splitOn '\n') ∧
      unflow (plainToFlowed (unflow (plainToFlowed text) .no)) .no =
        unflow (plainToFlowed text) .no := by
  intro h
  have hread : unflow (plainToFlowed "a \r \nb".toList) .no = "a b".toList := by decide
  have hlines := (h "a \r \nb".toList).1
  rw [hread] at hlines
  exact absurd hlines (by decide)

end Mailo.Editor
