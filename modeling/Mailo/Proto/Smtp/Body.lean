import Mailo.Proto.Smtp.Submission

/-!
# The message as the server receives it

`DATA` sends lines and `BDAT` sends bytes. Both are the message with its breaks made CRLF: the
lines are where that has breaks, and the count is of that.
-/

namespace Mailo.Proto.Smtp

open Library

/-- Bytes that end in CRLF, one put behind them where they do not. -/
def closed (bytes : Bytes) : Bytes := if [13, 10] <:+ bytes then bytes else bytes ++ [13, 10]

variable {byte : UInt8} {bytes line : Bytes}

theorem suffix_cons (hbyte : byte ≠ 13) :
    [13, 10] <:+ byte :: bytes ↔ [13, 10] <:+ bytes := by
  rw [List.suffix_cons_iff]
  apply or_iff_right
  intro h
  exact hbyte (List.cons.inj h).1.symm

theorem closed_cons (hbyte : byte ≠ 13) :
    closed (byte :: bytes) = byte :: closed bytes := by
  unfold closed
  by_cases hends : [13, 10] <:+ bytes
  · rw [if_pos hends, if_pos ((suffix_cons hbyte).mpr hends)]
  · rw [if_neg hends, if_neg (mt (suffix_cons hbyte).mp hends)]
    rfl

theorem closed_crlf (hbytes : bytes ≠ []) :
    closed (13 :: 10 :: bytes) = 13 :: 10 :: closed bytes := by
  have hiff : [13, 10] <:+ 13 :: 10 :: bytes ↔ [13, 10] <:+ bytes := by
    rw [List.suffix_cons_iff, or_iff_right, suffix_cons (by decide)]
    intro h
    exact hbytes (List.cons.inj (List.cons.inj h).2).2.symm
  unfold closed
  by_cases hends : [13, 10] <:+ bytes
  · rw [if_pos hends, if_pos (hiff.mpr hends)]
  · rw [if_neg hends, if_neg (mt hiff.mp hends)]
    rfl

theorem crlf_ne_nil {message : Bytes} (h : message ≠ []) : crlf message ≠ [] := by
  match message with
  | [] => exact absurd rfl h
  | [byte] =>
    rw [crlf]
    split <;> exact List.cons_ne_nil _ _
  | a :: b :: rest =>
    rw [crlf]
    split
    · exact List.cons_ne_nil _ _
    · split <;> exact List.cons_ne_nil _ _

theorem messageLinesFrom_closed (line message : Bytes) :
    ((messageLinesFrom line message).flatMap fun line => line ++ [13, 10]) =
      line ++ closed (crlf message) := by
  fun_induction messageLinesFrom line message with
  | case1 line => simp [crlf, closed]
  | case2 line byte hbreak =>
    rw [crlf, if_pos hbreak]
    simp [closed]
  | case3 line byte hplain =>
    rw [crlf, if_neg hplain, closed_cons (fun h => hplain (.inl h))]
    simp [closed]
  | case4 line a b rest hcrlf ih =>
    rw [crlf, if_pos hcrlf]
    cases rest with
    | nil => simp [crlf, closed]
    | cons c rest =>
      rw [closed_crlf (crlf_ne_nil (List.cons_ne_nil c rest))]
      simpa using ih
  | case5 line a b rest hcrlf hbreak ih =>
    rw [crlf, if_neg hcrlf, if_pos hbreak, closed_crlf (crlf_ne_nil (List.cons_ne_nil b rest)),
      List.flatMap_cons, ih]
    simp
  | case6 line a b rest hcrlf hbreak ih =>
    rw [crlf, if_neg hcrlf, if_neg hbreak, closed_cons (fun h => hbreak (.inl h)), ih]
    simp

variable (message : Bytes)

/-- The lines, each with its CRLF, are the message with its breaks made CRLF and one at its end. -/
theorem messageLines_closed :
    ((messageLines message).flatMap fun line => line ++ [13, 10]) = closed (crlf message) :=
  messageLinesFrom_closed [] message

def Unbroken (line : Bytes) : Prop := 13 ∉ line ∧ 10 ∉ line

theorem Unbroken.snoc (h : Unbroken line) (hbyte : ¬(byte = 13 ∨ byte = 10)) :
    Unbroken (line ++ [byte]) := by
  rw [not_or] at hbyte
  constructor
  · rw [List.mem_append, List.mem_singleton, not_or]
    exact ⟨h.1, Ne.symm hbyte.1⟩
  · rw [List.mem_append, List.mem_singleton, not_or]
    exact ⟨h.2, Ne.symm hbyte.2⟩

theorem unbroken_nil : Unbroken [] := ⟨List.not_mem_nil, List.not_mem_nil⟩

theorem messageLinesFrom_unbroken (h : Unbroken line) (message : Bytes) :
    ∀ each ∈ messageLinesFrom line message, Unbroken each := by
  fun_induction messageLinesFrom line message with
  | case1 | case2 => exact fun _ hmem => List.mem_singleton.mp hmem ▸ h
  | case3 line byte hplain => exact fun _ hmem => List.mem_singleton.mp hmem ▸ h.snoc hplain
  | case4 line a b rest hcrlf ih =>
    apply List.forall_mem_cons.mpr ⟨h, ?_⟩
    split
    · exact fun _ hmem => absurd hmem List.not_mem_nil
    · exact ih unbroken_nil
  | case5 line a b rest hcrlf hbreak ih => exact List.forall_mem_cons.mpr ⟨h, ih unbroken_nil⟩
  | case6 line a b rest hcrlf hbreak ih => exact ih (h.snoc hbreak)

theorem messageLines_unbroken : ∀ line ∈ messageLines message, Unbroken line :=
  messageLinesFrom_unbroken unbroken_nil message

theorem Unbroken.whole (h : Unbroken line) : Crlf.split line = none := by
  cases hsplit : Crlf.split line with
  | none => rfl
  | some pair =>
    obtain ⟨front, rest⟩ := pair
    have hline := Crlf.split_eq hsplit
    exact absurd (hline ▸ List.mem_append_right _ (.head _)) h.1

theorem crlf_paired : Crlf.Paired 13 10 (crlf message) := by
  fun_induction crlf message with
  | case1 => exact Crlf.paired_nil
  | case2 byte hbreak => exact Crlf.paired_nil.crlf (by decide)
  | case3 byte hplain => exact Crlf.paired_nil.cons (not_or.mp hplain)
  | case4 a b rest hcrlf ih => exact ih.crlf (by decide)
  | case5 a b rest hcrlf hbreak ih => exact ih.crlf (by decide)
  | case6 a b rest hcrlf hbreak ih => exact ih.cons (not_or.mp hbreak)

theorem stuffLine_eq (line : Bytes) : stuffLine line = Dotted.stuff line ++ [13, 10] := by
  unfold stuffLine Dotted.stuff
  split <;> rfl

theorem dataLines_flatten : (dataLines message).flatten =
    ((messageLines message).flatMap fun line => Dotted.stuff line ++ [13, 10]) ++ [46, 13, 10] := by
  have hstuff : stuffLine = fun line => Dotted.stuff line ++ [13, 10] := funext stuffLine_eq
  rw [dataLines, List.flatten_append, hstuff, ← List.flatMap_def]
  rfl

theorem stuffed_paired {lines : List Bytes} (h : ∀ line ∈ lines, Unbroken line) :
    Crlf.Paired 13 10 (lines.flatMap fun line => Dotted.stuff line ++ [13, 10]) := by
  have hbreak : Crlf.Paired (13 : UInt8) 10 [13, 10] := Crlf.paired_nil.crlf (by decide)
  induction lines with
  | nil => exact Crlf.paired_nil
  | cons line lines ih =>
    obtain ⟨hline, hlines⟩ := List.forall_mem_cons.mp h
    have hplain : Crlf.Paired 13 10 line := Crlf.paired_plain fun byte hbyte =>
      ⟨fun hcr => hline.1 (hcr ▸ hbyte), fun hlf => hline.2 (hlf ▸ hbyte)⟩
    have hstuffed : Crlf.Paired 13 10 (Dotted.stuff line) := by
      unfold Dotted.stuff
      split
      · exact hplain.cons (by decide)
      · exact hplain
    rw [List.flatMap_cons]
    exact (hstuffed.append hbreak).append (ih hlines)

theorem transmittedOctets_eq :
    transmittedOctets message = (dataLines message).dropLast.flatten.length := by
  have hlength : ∀ line : Bytes,
      (if line.head? = some 46 then 1 else 0) + line.length + 2 = (stuffLine line).length := by
    intro line
    unfold stuffLine
    split
    · simp
      omega
    · simp
  rw [dataLines, List.dropLast_concat, List.length_flatten, List.map_map, transmittedOctets]
  exact congrArg List.sum (List.map_congr_left fun line _ => hlength line)

/-- The message goes over `DATA` as its lines and over `BDAT` as its bytes, and is received with
its breaks made CRLF: up to the one dot that is a line, or as many bytes as were announced. -/
theorem body_received (message : Bytes) :
    Dotted.received (dataLines message).flatten = some (closed (crlf message), []) ∧
    (dataLines message).getLast? = some [46, 13, 10] ∧
    Crlf.Paired 13 10 (dataLines message).flatten ∧
    transmittedOctets message = (dataLines message).dropLast.flatten.length ∧
    ∃ body, bdatWrites message = [cmd ("BDAT " ++ toString body.length ++ " LAST"), body] ∧
      body = crlf message ∧ Crlf.Paired 13 10 body := by
  have hlines := messageLines_unbroken message
  refine ⟨?_, ?_, ?_, transmittedOctets_eq message, _, rfl, rfl, crlf_paired message⟩
  · rw [dataLines_flatten, Dotted.received_lines (fun line h => (hlines line h).whole) [],
      messageLines_closed]
  · exact List.getLast?_concat
  · rw [dataLines_flatten]
    exact (stuffed_paired hlines).append
      ((Crlf.paired_nil.crlf (by decide)).cons (by decide))

end Mailo.Proto.Smtp
