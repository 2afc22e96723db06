import Mathlib.Data.List.TakeWhile
import Mailo.Proto.Machine

/-!
# Push over an event source

Bytes go in as they arrive, and whole events come out: those that the `text/event-stream` grammar
reads from the bytes put together again, wherever the network cut them.
-/

namespace Mailo.Proto.Jmap

open Library

inductive EventKind where
  | state | ping | message
  | other (name : List Char)
deriving DecidableEq

def EventKind.named (name : List Char) : EventKind :=
  if name = [] ∨ name = "message".toList then .message
  else if name = "state".toList then .state
  else if name = "ping".toList then .ping
  else .other name

structure Event where
  kind : EventKind
  data : List Char
deriving DecidableEq

/-- The most an event may hold, its unfinished line or its `data:` lines together. -/
def maxEvent : Nat := 1024 * 1024

/-- An event stream being read. -/
structure EventStream where
  pending : Bytes
  kind : List Char
  data : List (List Char)
  held : Nat

namespace EventStream

def new : EventStream := ⟨[], [], [], 0⟩

def stripSpace (value : List Char) : List Char :=
  if value.head? = some ' ' then value.tail else value

/-- What one line does: the event it ends, if it ends one, and the stream after it. -/
def line (stream : EventStream) (line : List Char) : Option Event × EventStream :=
  if line.isEmpty then
    if stream.data.isEmpty then (none, { stream with kind := [] })
    else
      (some ⟨.named stream.kind, ['\n'].intercalate stream.data⟩,
        { stream with kind := [], data := [], held := 0 })
  else if line.head? = some ':' then (none, stream)
  else
    let (field, value) := match Domain.Text.splitOnce ':' line with
      | some (field, value) => (field, stripSpace value)
      | none => (line, [])
    if field = "event".toList then (none, { stream with kind := value })
    else if field = "data".toList then
      (none, { stream with
        held := stream.held + (Utf8.encode value).length + 1, data := stream.data ++ [value] })
    else (none, stream)

/-- The events that end in the bytes from a place on, `unended` the bytes before it on its line. A
CR at the very end waits for the LF that may follow it. -/
def feedFrom (stream : EventStream) (unended : Bytes) : Bytes → List Event × EventStream
  | [] => ([], { stream with pending := unended })
  | byte :: rest =>
    if byte ≠ 0x0A ∧ byte ≠ 0x0D then feedFrom stream (unended ++ [byte]) rest
    else if byte = 0x0D ∧ rest = [] then ([], { stream with pending := unended ++ [byte] })
    else
      let (event, stream) := stream.line (Utf8.decodeLossy unended)
      match rest with
      | [] => (event.toList, { stream with pending := [] })
      | next :: more =>
        let (events, stream) :=
          if byte = 0x0D ∧ next = 0x0A then feedFrom stream [] more
          else feedFrom stream [] (next :: more)
        (event.toList ++ events, stream)

def grown : ProtoError :=
  .malformed "JMAP: a pushed event grew past 1048576 bytes without ending"

/-- Feed the next bytes: every event they completed, or an error once one grows too large. -/
def feed (stream : EventStream) (bytes : Bytes) : Except ProtoError (List Event) × EventStream :=
  let (events, stream) := stream.feedFrom [] (stream.pending ++ bytes)
  if stream.pending.length > maxEvent ∨ stream.held > maxEvent then (.error grown, stream)
  else (.ok events, stream)

def feedAll (stream : EventStream) : List Bytes → Except ProtoError (List Event)
  | [] => .ok []
  | bytes :: rest => do
    let (events, stream) := stream.feed bytes
    let events ← events
    let more ← stream.feedAll rest
    .ok (events ++ more)

end EventStream

/-! ## What the grammar reads -/

def withoutMark (bytes : Bytes) : Bytes :=
  if [0xEF, 0xBB, 0xBF] <+: bytes then bytes.drop 3 else bytes

/-- The lines of a text that are ended, by a CRLF, a CR or an LF. -/
def endedLines : List Char → List (List Char)
  | [] => []
  | '\r' :: '\n' :: rest => [] :: endedLines rest
  | '\r' :: rest => [] :: endedLines rest
  | '\n' :: rest => [] :: endedLines rest
  | c :: rest =>
    match endedLines rest with
    | [] => []
    | line :: more => (c :: line) :: more

/-- Lines cut after each blank one: those of the events that are ended, without it, and those of
the event that is not, which begin with `open`. -/
def blocksFrom (unended : List (List Char)) :
    List (List Char) → List (List (List Char)) × List (List Char)
  | [] => ([], unended)
  | line :: rest =>
    if line.isEmpty then (unended :: (blocksFrom [] rest).1, (blocksFrom [] rest).2)
    else blocksFrom (unended ++ [line]) rest

/-- A line's field and its value, after the first colon and one space; a comment has none. -/
def fieldOf (line : List Char) : Option (List Char × List Char) :=
  if line.head? = some ':' then none
  else some (line.takeWhile (· ≠ ':'), EventStream.stripSpace (line.dropWhile (· ≠ ':')).tail)

def valuesOf (field : List Char) (block : List (List Char)) : List (List Char) :=
  ((block.filterMap fieldOf).filter fun pair => pair.1 = field).map Prod.snd

def eventOf (block : List (List Char)) : Option Event :=
  if valuesOf "data".toList block = [] then none
  else
    some ⟨.named ((valuesOf "event".toList block).getLastD []),
      ['\n'].intercalate (valuesOf "data".toList block)⟩

def heldOf (block : List (List Char)) : Nat :=
  ((valuesOf "data".toList block).map fun value => (Utf8.encode value).length + 1).sum

def blocksOf (bytes : Bytes) : List (List (List Char)) × List (List Char) :=
  blocksFrom [] (endedLines (Utf8.decodeLossy (withoutMark bytes)))

def eventsOf (bytes : Bytes) : List Event := (blocksOf bytes).1.filterMap eventOf

/-! ## One line -/

theorem valuesOf_append (field : List Char) (block more : List (List Char)) :
    valuesOf field (block ++ more) = valuesOf field block ++ valuesOf field more := by
  simp [valuesOf]

theorem heldOf_append (block more : List (List Char)) :
    heldOf (block ++ more) = heldOf block + heldOf more := by
  simp [heldOf, valuesOf_append]

/-- The stream holds what the lines of a block say. -/
structure Holds (stream : EventStream) (block : List (List Char)) : Prop where
  kind : stream.kind = (valuesOf "event".toList block).getLastD []
  data : stream.data = valuesOf "data".toList block
  held : stream.held = heldOf block

namespace EventStream

variable {stream : EventStream} {block : List (List Char)} {line : List Char}

theorem splitOnce_eq (line : List Char) :
    (match Domain.Text.splitOnce ':' line with
      | some (field, value) => (field, stripSpace value)
      | none => (line, [])) =
      (line.takeWhile (· ≠ ':'), stripSpace (line.dropWhile (· ≠ ':')).tail) := by
  cases hcut : Domain.Text.splitOnce ':' line with
  | none =>
    have hno := Domain.Text.of_splitOnce_none hcut
    have hall : ∀ c ∈ line, decide (c ≠ ':') = true := fun c hc =>
      decide_eq_true fun heq => hno (heq ▸ hc)
    rw [List.takeWhile_eq_self_iff.mpr hall, List.dropWhile_eq_nil_iff.mpr hall]
    rfl
  | some cut =>
    obtain ⟨rfl, hno⟩ := Domain.Text.of_splitOnce hcut
    have hall : ∀ c ∈ cut.1, decide (c ≠ ':') = true := fun c hc =>
      decide_eq_true fun heq => hno (heq ▸ hc)
    rw [List.takeWhile_append_of_pos hall, List.dropWhile_append_of_pos hall]
    simp

theorem valuesOf_singleton (field : List Char) (h : ¬ line.head? = some ':') :
    valuesOf field [line] =
      if line.takeWhile (· ≠ ':') = field then [stripSpace (line.dropWhile (· ≠ ':')).tail]
      else [] := by
  unfold valuesOf fieldOf
  rw [List.filterMap_cons, if_neg h, List.filterMap_nil]
  dsimp only
  split
  · rename_i hfield
    rw [List.filter_cons_of_pos (by simpa using hfield)]
    rfl
  · rename_i hfield
    rw [List.filter_cons_of_neg (by simpa using hfield)]
    rfl

/-- A blank line ends the block's event, and any other line is one more of it. -/
theorem line_spec (h : Holds stream block) (line : List Char) :
    (stream.line line).1 = (if line.isEmpty then eventOf block else none) ∧
      Holds (stream.line line).2 (if line.isEmpty then [] else block ++ [line]) := by
  obtain ⟨hkind, hdata, hheld⟩ := h
  unfold EventStream.line
  split
  · rename_i hblank
    split
    · rename_i hnone
      rw [List.isEmpty_iff] at hnone
      have hvalues : valuesOf "data".toList block = [] := hdata.symm.trans hnone
      refine ⟨by rw [eventOf, if_pos hvalues], rfl, ?_, ?_⟩
      · exact hnone
      · show stream.held = 0
        rw [hheld, heldOf, hvalues]
        rfl
    · rename_i hsome
      rw [List.isEmpty_iff] at hsome
      rw [hdata] at hsome
      exact ⟨by rw [eventOf, if_neg hsome, hkind, hdata], rfl, rfl, rfl⟩
  · split
    · rename_i hcomment
      have hvalues : ∀ field, valuesOf field [line] = [] := by
        intro field
        simp [valuesOf, fieldOf, hcomment]
      refine ⟨rfl, ?_, ?_, ?_⟩
      · rw [valuesOf_append, hvalues, List.append_nil, hkind]
      · rw [valuesOf_append, hvalues, List.append_nil, hdata]
      · rw [heldOf_append, hheld, heldOf, heldOf, hvalues]
        rfl
    · rename_i hfield
      rw [splitOnce_eq]
      dsimp only
      have hvalues := fun field => valuesOf_singleton field hfield
      split
      · rename_i hevent
        have hdatum : line.takeWhile (· ≠ ':') ≠ "data".toList := by
          rw [hevent]
          decide
        refine ⟨rfl, ?_, ?_, ?_⟩
        · rw [valuesOf_append, hvalues, if_pos hevent, List.getLastD_concat]
        · rw [valuesOf_append, hvalues, if_neg hdatum, List.append_nil, hdata]
        · rw [heldOf_append, hheld, heldOf, heldOf, hvalues, if_neg hdatum]
          rfl
      · rename_i hevent
        split
        · rename_i hdatum
          refine ⟨rfl, ?_, ?_, ?_⟩
          · rw [valuesOf_append, hvalues, if_neg hevent, List.append_nil, hkind]
          · rw [valuesOf_append, hvalues, if_pos hdatum, hdata]
          · rw [heldOf_append, hheld, heldOf, heldOf, hvalues, if_pos hdatum]
            rfl
        · rename_i hdatum
          refine ⟨rfl, ?_, ?_, ?_⟩
          · rw [valuesOf_append, hvalues, if_neg hevent, List.append_nil, hkind]
          · rw [valuesOf_append, hvalues, if_neg hdatum, List.append_nil, hdata]
          · rw [heldOf_append, hheld, heldOf, heldOf, hvalues, if_neg hdatum]
            rfl

end EventStream

/-! ## Lines cut from bytes -/

/-- The lines that end in the bytes from a place on, `unended` the bytes before it on its line, and
what is left after them. -/
def cutFrom (unended : Bytes) : Bytes → List Bytes × Bytes
  | [] => ([], unended)
  | byte :: rest =>
    if byte ≠ 0x0A ∧ byte ≠ 0x0D then cutFrom (unended ++ [byte]) rest
    else if byte = 0x0D ∧ rest = [] then ([], unended ++ [byte])
    else
      match rest with
      | [] => ([unended], [])
      | next :: more =>
        if byte = 0x0D ∧ next = 0x0A then (unended :: (cutFrom [] more).1, (cutFrom [] more).2)
        else (unended :: (cutFrom [] (next :: more)).1, (cutFrom [] (next :: more)).2)

def Unmarked (bytes : Bytes) : Prop := ∀ byte ∈ bytes, byte ≠ 0x0A ∧ byte ≠ 0x0D

theorem Unmarked.concat {bytes : Bytes} (h : Unmarked bytes) {byte : UInt8}
    (hbyte : byte ≠ 0x0A ∧ byte ≠ 0x0D) : Unmarked (bytes ++ [byte]) := by
  intro other hother
  rcases List.mem_append.mp hother with hmem | hmem
  · exact h other hmem
  · rw [List.mem_singleton.mp hmem]
    exact hbyte

theorem unmarked_nil : Unmarked [] := fun _ h => absurd h List.not_mem_nil

section Cut

attribute [local simp] cutFrom

variable (unended rest : Bytes)

theorem cutFrom_plain {byte : UInt8} (h : byte ≠ 0x0A ∧ byte ≠ 0x0D) :
    cutFrom unended (byte :: rest) = cutFrom (unended ++ [byte]) rest := by
  cases rest <;> simp [cutFrom, h]

theorem cutFrom_lf : cutFrom unended (0x0A :: rest) =
    (unended :: (cutFrom [] rest).1, (cutFrom [] rest).2) := by
  cases rest <;> simp [cutFrom]

theorem cutFrom_crlf : cutFrom unended (0x0D :: 0x0A :: rest) =
    (unended :: (cutFrom [] rest).1, (cutFrom [] rest).2) := by
  simp [cutFrom]

theorem cutFrom_cr {next : UInt8} (h : next ≠ 0x0A) : cutFrom unended (0x0D :: next :: rest) =
    (unended :: (cutFrom [] (next :: rest)).1, (cutFrom [] (next :: rest)).2) := by
  simp [cutFrom, h]

theorem cutFrom_last : cutFrom unended [0x0D] = ([], unended ++ [0x0D]) := by
  simp [cutFrom]

end Cut

/-- Bytes read from the front on, a line's end at a time. -/
theorem mark_induction {motive : Bytes → Bytes → Prop}
    (nil : ∀ unended, Unmarked unended → motive unended [])
    (plain : ∀ unended byte rest, byte ≠ 0x0A ∧ byte ≠ 0x0D → motive (unended ++ [byte]) rest →
      motive unended (byte :: rest))
    (last : ∀ unended, Unmarked unended → motive unended [0x0D])
    (lf : ∀ unended rest, Unmarked unended → motive [] rest → motive unended (0x0A :: rest))
    (crlf : ∀ unended rest, Unmarked unended → motive [] rest →
      motive unended (0x0D :: 0x0A :: rest))
    (cr : ∀ unended next rest, Unmarked unended → next ≠ 0x0A → motive [] (next :: rest) →
      motive unended (0x0D :: next :: rest))
    {unended : Bytes} (h : Unmarked unended) (bytes : Bytes) : motive unended bytes := by
  induction hlength : bytes.length using Nat.strongRecOn generalizing unended bytes with
  | _ n ih =>
    cases bytes with
    | nil => exact nil unended h
    | cons byte rest =>
      rw [List.length_cons] at hlength
      by_cases hbyte : byte ≠ 0x0A ∧ byte ≠ 0x0D
      · exact plain unended byte rest hbyte (ih _ (by omega) (h.concat hbyte) rest rfl)
      · by_cases hlf : byte = 0x0A
        · rw [hlf]
          exact lf unended rest h (ih _ (by omega) unmarked_nil rest rfl)
        · have hcr : byte = 0x0D := by
            by_contra hcr
            exact hbyte ⟨hlf, hcr⟩
          rw [hcr]
          cases rest with
          | nil => exact last unended h
          | cons next more =>
            rw [List.length_cons] at hlength
            by_cases hnext : next = 0x0A
            · rw [hnext]
              exact crlf unended more h (ih _ (by omega) unmarked_nil more rfl)
            · exact cr unended next more h hnext
                (ih _ (by rw [← hlength]; simp) unmarked_nil (next :: more) rfl)

theorem cutFrom_append {run : Bytes} (hrun : Unmarked run) (unended rest : Bytes) :
    cutFrom unended (run ++ rest) = cutFrom (unended ++ run) rest := by
  induction run generalizing unended with
  | nil => simp
  | cons byte run ih =>
    obtain ⟨hbyte, hrun⟩ := List.forall_mem_cons.mp hrun
    rw [List.cons_append, cutFrom_plain _ _ hbyte, ih hrun, List.append_assoc]
    rfl

theorem cutFrom_left {unended : Bytes} (hunended : Unmarked unended) (bytes : Bytes) :
    ∃ run, Unmarked run ∧ run <:+: unended ++ bytes ∧
      ((cutFrom unended bytes).2 = run ∨ (cutFrom unended bytes).2 = run ++ [0x0D]) := by
  refine mark_induction (motive := fun unended bytes => ∃ run, Unmarked run ∧
    run <:+: unended ++ bytes ∧ ((cutFrom unended bytes).2 = run ∨
      (cutFrom unended bytes).2 = run ++ [0x0D])) ?_ ?_ ?_ ?_ ?_ ?_ hunended bytes
  · exact fun unended h => ⟨unended, h, by simp, .inl rfl⟩
  · intro unended byte rest hbyte ih
    rw [cutFrom_plain _ _ hbyte]
    simpa using ih
  · exact fun unended h => ⟨unended, h, (List.prefix_append ..).isInfix, .inr (by rw [cutFrom_last])⟩
  · rintro unended rest - ⟨run, hrun, hwithin, hleft⟩
    rw [cutFrom_lf]
    have hafter : rest <:+ unended ++ 0x0A :: rest := ⟨unended ++ [0x0A], by simp⟩
    exact ⟨run, hrun, hwithin.trans hafter.isInfix, hleft⟩
  · rintro unended rest - ⟨run, hrun, hwithin, hleft⟩
    rw [cutFrom_crlf]
    have hafter : rest <:+ unended ++ 0x0D :: 0x0A :: rest := ⟨unended ++ [0x0D, 0x0A], by simp⟩
    exact ⟨run, hrun, hwithin.trans hafter.isInfix, hleft⟩
  · rintro unended next rest - hnext ⟨run, hrun, hwithin, hleft⟩
    rw [cutFrom_cr _ _ hnext]
    have hafter : next :: rest <:+ unended ++ 0x0D :: next :: rest := ⟨unended ++ [0x0D], by simp⟩
    exact ⟨run, hrun, hwithin.trans hafter.isInfix, hleft⟩

/-- However the bytes are cut, the same lines end in them and the same is left. -/
theorem cutFrom_cut {unended : Bytes} (hunended : Unmarked unended) (bytes more : Bytes) :
    cutFrom unended (bytes ++ more) =
      ((cutFrom unended bytes).1 ++ (cutFrom [] ((cutFrom unended bytes).2 ++ more)).1,
        (cutFrom [] ((cutFrom unended bytes).2 ++ more)).2) := by
  refine mark_induction (motive := fun unended bytes => cutFrom unended (bytes ++ more) =
      ((cutFrom unended bytes).1 ++ (cutFrom [] ((cutFrom unended bytes).2 ++ more)).1,
        (cutFrom [] ((cutFrom unended bytes).2 ++ more)).2)) ?_ ?_ ?_ ?_ ?_ ?_ hunended bytes
  · intro unended h
    simp [cutFrom, cutFrom_append h]
  · intro unended byte rest hbyte ih
    rw [List.cons_append, cutFrom_plain _ _ hbyte, cutFrom_plain _ _ hbyte, ih]
  · intro unended h
    simp [cutFrom_last, cutFrom_append h]
  · intro unended rest _ ih
    simp [cutFrom_lf, ih]
  · intro unended rest _ ih
    simp [cutFrom_crlf, ih]
  · intro unended next rest _ hnext ih
    rw [List.cons_append] at ih
    simp [cutFrom_cr _ _ hnext, ih]

/-! ## Lines of the text -/

theorem decodeLossy_lf (rest : Bytes) :
    Utf8.decodeLossy (0x0A :: rest) = '\n' :: Utf8.decodeLossy rest :=
  Utf8.decodeLossy_ascii (by decide) rest

theorem decodeLossy_cr (rest : Bytes) :
    Utf8.decodeLossy (0x0D :: rest) = '\r' :: Utf8.decodeLossy rest :=
  Utf8.decodeLossy_ascii (by decide) rest

theorem unmarked_decodeLossy {bytes : Bytes} (h : Unmarked bytes) {c : Char}
    (hc : c ∈ Utf8.decodeLossy bytes) : c ≠ '\n' ∧ c ≠ '\r' := by
  constructor
  · rintro rfl
    exact (h _ (Utf8.mem_of_mem_decodeLossy hc (by decide) (by decide))).1 rfl
  · rintro rfl
    exact (h _ (Utf8.mem_of_mem_decodeLossy hc (by decide) (by decide))).2 rfl

section Ended

attribute [local simp] endedLines

variable {line : List Char} (h : ∀ c ∈ line, c ≠ '\n' ∧ c ≠ '\r') (rest : List Char)

theorem endedLines_cons {c : Char} (hc : c ≠ '\n' ∧ c ≠ '\r') : endedLines (c :: rest) =
    match endedLines rest with
    | [] => []
    | line :: more => (c :: line) :: more := by
  rw [endedLines]
  · exact fun _ hcr _ => hc.2 hcr
  · exact hc.2
  · exact hc.1

include h

theorem endedLines_unended : endedLines line = [] := by
  induction line with
  | nil => rfl
  | cons c line ih =>
    obtain ⟨hc, hline⟩ := List.forall_mem_cons.mp h
    rw [endedLines_cons _ hc, ih hline]

theorem endedLines_append {mark : List Char} {more : List (List Char)}
    (hmark : endedLines mark = [] :: more) : endedLines (line ++ mark) = line :: more := by
  induction line with
  | nil => exact hmark
  | cons c line ih =>
    obtain ⟨hc, hline⟩ := List.forall_mem_cons.mp h
    rw [List.cons_append, endedLines_cons _ hc, ih hline]

end Ended

theorem endedLines_lf (rest : List Char) : endedLines ('\n' :: rest) = [] :: endedLines rest := by
  rw [endedLines]

theorem endedLines_crlf (rest : List Char) :
    endedLines ('\r' :: '\n' :: rest) = [] :: endedLines rest := by
  rw [endedLines]

theorem endedLines_cr {c : Char} (h : c ≠ '\n') (rest : List Char) :
    endedLines ('\r' :: c :: rest) = [] :: endedLines (c :: rest) := by
  rw [endedLines]
  rintro _ heq
  exact h (List.cons.inj heq).1

theorem next_ne_lf {lead : UInt8} (h : lead ≠ 0x0A) (rest : Bytes) :
    (Utf8.next lead rest).1.getD '\uFFFD' ≠ '\n' := by
  intro hlf
  cases hnext : (Utf8.next lead rest).1 with
  | none =>
    rw [hnext] at hlf
    exact absurd hlf (by decide)
  | some c =>
    rw [hnext, Option.getD_some] at hlf
    subst hlf
    exact h (UInt8.toNat_inj.mp (Utf8.next_some_ascii hnext (by decide) (by decide)))

/-- In bytes that do not end in CR, the lines that end are those of the text. -/
theorem endedLines_decodeLossy {unended : Bytes} (hunended : Unmarked unended) (bytes : Bytes) :
    ¬ [0x0D] <:+ bytes → endedLines (Utf8.decodeLossy (unended ++ bytes)) =
      (cutFrom unended bytes).1.map Utf8.decodeLossy := by
  refine mark_induction (motive := fun unended bytes => ¬ [0x0D] <:+ bytes →
    endedLines (Utf8.decodeLossy (unended ++ bytes)) =
      (cutFrom unended bytes).1.map Utf8.decodeLossy) ?_ ?_ ?_ ?_ ?_ ?_ hunended bytes
  · intro unended h _
    rw [List.append_nil, endedLines_unended fun c => unmarked_decodeLossy h]
    rfl
  · intro unended byte rest hbyte ih hend
    rw [cutFrom_plain _ _ hbyte, ← ih fun h => hend (h.trans (List.suffix_cons ..)),
      List.append_assoc]
    rfl
  · exact fun _ _ hend => absurd List.suffix_rfl hend
  · intro unended rest h ih hend
    have hrest := ih fun h => hend (h.trans (List.suffix_cons ..))
    rw [List.nil_append] at hrest
    rw [Utf8.decodeLossy_append_ascii (by decide), decodeLossy_lf, cutFrom_lf, List.map_cons,
      ← hrest]
    exact endedLines_append (fun c => unmarked_decodeLossy h) (endedLines_lf _)
  · intro unended rest h ih hend
    have hrest := ih fun h => hend (h.trans ((List.suffix_cons ..).trans (List.suffix_cons ..)))
    rw [List.nil_append] at hrest
    rw [Utf8.decodeLossy_append_ascii (by decide), decodeLossy_cr, decodeLossy_lf, cutFrom_crlf,
      List.map_cons, ← hrest]
    exact endedLines_append (fun c => unmarked_decodeLossy h) (endedLines_crlf _)
  · intro unended next rest h hnext ih hend
    have hrest := ih fun h => hend (h.trans (List.suffix_cons ..))
    rw [List.nil_append] at hrest
    rw [Utf8.decodeLossy_append_ascii (by decide), decodeLossy_cr, cutFrom_cr _ _ hnext,
      List.map_cons, ← hrest]
    refine endedLines_append (fun c => unmarked_decodeLossy h) ?_
    rw [Utf8.decodeLossy_cons]
    exact endedLines_cr (next_ne_lf hnext rest) _

/-! ## Blocks of lines -/

theorem blocksFrom_append (unended lines more : List (List Char)) :
    blocksFrom unended (lines ++ more) =
      ((blocksFrom unended lines).1 ++ (blocksFrom (blocksFrom unended lines).2 more).1,
        (blocksFrom (blocksFrom unended lines).2 more).2) := by
  induction lines generalizing unended with
  | nil => simp [blocksFrom]
  | cons line lines ih =>
    simp only [List.cons_append, blocksFrom]
    split <;> simp [ih]

/-- What is not ended yet is the front of a block of the whole. -/
theorem exists_block (unended more : List (List Char)) :
    ∃ block ∈ (blocksFrom unended more).1 ++ [(blocksFrom unended more).2], unended <+: block := by
  induction more generalizing unended with
  | nil => exact ⟨unended, by simp [blocksFrom], List.prefix_rfl⟩
  | cons line more ih =>
    rw [blocksFrom]
    split
    · exact ⟨unended, by simp, List.prefix_rfl⟩
    · obtain ⟨block, hmem, hprefix⟩ := ih (unended ++ [line])
      exact ⟨block, hmem, (List.prefix_append ..).trans hprefix⟩

theorem heldOf_le {block more : List (List Char)} (h : block <+: more) :
    heldOf block ≤ heldOf more := by
  obtain ⟨rest, rfl⟩ := h
  rw [heldOf_append]
  exact Nat.le_add_right _ _

/-! ## Reads one after the other -/

namespace EventStream

variable {stream : EventStream}

def takeLines (stream : EventStream) : List (List Char) → List Event × EventStream
  | [] => ([], stream)
  | line :: rest =>
    ((stream.line line).1.toList ++ ((stream.line line).2.takeLines rest).1,
      ((stream.line line).2.takeLines rest).2)

theorem takeLines_spec {block : List (List Char)} (h : Holds stream block)
    (lines : List (List Char)) :
    (stream.takeLines lines).1 = (blocksFrom block lines).1.filterMap eventOf ∧
      Holds (stream.takeLines lines).2 (blocksFrom block lines).2 := by
  induction lines generalizing stream block with
  | nil => exact ⟨rfl, h⟩
  | cons line rest ih =>
    obtain ⟨hevent, hholds⟩ := line_spec h line
    rw [takeLines, blocksFrom]
    split
    · rename_i hblank
      rw [if_pos hblank] at hevent hholds
      obtain ⟨hevents, hlast⟩ := ih hholds
      refine ⟨?_, hlast⟩
      rw [hevent, hevents, List.filterMap_cons]
      cases eventOf block <;> rfl
    · rename_i hline
      rw [if_neg hline] at hevent hholds
      obtain ⟨hevents, hlast⟩ := ih hholds
      refine ⟨?_, hlast⟩
      rw [hevent, hevents]
      rfl

section Feed

variable (stream) (unended rest : Bytes)

def afterLine (rest : Bytes) : List Event × EventStream :=
  ((stream.line (Utf8.decodeLossy unended)).1.toList ++
      ((stream.line (Utf8.decodeLossy unended)).2.feedFrom [] rest).1,
    ((stream.line (Utf8.decodeLossy unended)).2.feedFrom [] rest).2)

attribute [local simp] feedFrom in
theorem feedFrom_nil :
    stream.feedFrom unended [] = ([], { stream with pending := unended }) := by simp

theorem feedFrom_plain {byte : UInt8} (h : byte ≠ 0x0A ∧ byte ≠ 0x0D) :
    stream.feedFrom unended (byte :: rest) = stream.feedFrom (unended ++ [byte]) rest := by
  rw [feedFrom.eq_def]
  exact if_pos h

theorem feedFrom_lf :
    stream.feedFrom unended (0x0A :: rest) = stream.afterLine unended rest := by
  rw [feedFrom.eq_def]
  cases rest <;> simp [afterLine, feedFrom_nil]

theorem feedFrom_crlf :
    stream.feedFrom unended (0x0D :: 0x0A :: rest) = stream.afterLine unended rest := by
  rw [feedFrom.eq_def]
  simp [afterLine]

theorem feedFrom_cr {next : UInt8} (h : next ≠ 0x0A) :
    stream.feedFrom unended (0x0D :: next :: rest) = stream.afterLine unended (next :: rest) := by
  rw [feedFrom.eq_def]
  simp [afterLine, h]

theorem feedFrom_last : stream.feedFrom unended [0x0D] =
    ([], { stream with pending := unended ++ [0x0D] }) := by
  rw [feedFrom.eq_def]
  simp

end Feed

/-- What is fed does what its lines do, and leaves what is left after them. -/
theorem feedFrom_eq {unended : Bytes} (hunended : Unmarked unended) (bytes : Bytes)
    (stream : EventStream) :
    stream.feedFrom unended bytes =
      ((stream.takeLines ((cutFrom unended bytes).1.map Utf8.decodeLossy)).1,
        { (stream.takeLines ((cutFrom unended bytes).1.map Utf8.decodeLossy)).2 with
          pending := (cutFrom unended bytes).2 }) := by
  refine mark_induction (motive := fun unended bytes => ∀ stream : EventStream,
    stream.feedFrom unended bytes =
      ((stream.takeLines ((cutFrom unended bytes).1.map Utf8.decodeLossy)).1,
        { (stream.takeLines ((cutFrom unended bytes).1.map Utf8.decodeLossy)).2 with
          pending := (cutFrom unended bytes).2 })) ?_ ?_ ?_ ?_ ?_ ?_ hunended bytes stream
  · intro unended _ stream
    rfl
  · intro unended byte rest hbyte ih stream
    rw [feedFrom_plain _ _ _ hbyte, cutFrom_plain _ _ hbyte, ih]
  · intro unended _ stream
    rw [feedFrom_last, cutFrom_last]
    rfl
  · intro unended rest _ ih stream
    rw [feedFrom_lf, afterLine, cutFrom_lf, ih]
    rfl
  · intro unended rest _ ih stream
    rw [feedFrom_crlf, afterLine, cutFrom_crlf, ih]
    rfl
  · intro unended next rest _ hnext ih stream
    rw [feedFrom_cr _ _ _ hnext, afterLine, cutFrom_cr _ _ hnext, ih]
    rfl

end EventStream

def textLines (bytes : Bytes) : List (List Char) := (cutFrom [] bytes).1.map Utf8.decodeLossy

/-- What the stream is once it has been fed `bytes`, in however many reads. -/
structure ReadUpTo (stream : EventStream) (bytes : Bytes) : Prop where
  pending : stream.pending = (cutFrom [] bytes).2
  holds : Holds stream (blocksFrom [] (textLines bytes)).2

def endedEvents (bytes : Bytes) : List Event :=
  (blocksFrom [] (textLines bytes)).1.filterMap eventOf

/-- No line in the bytes is too long, and no event holds too much, the one not ended included. -/
structure Bounded (bytes : Bytes) : Prop where
  lines : ∀ run, run <:+: bytes → Unmarked run → run.length < maxEvent
  events : ∀ block ∈ (blocksFrom [] (textLines bytes)).1 ++ [(blocksFrom [] (textLines bytes)).2],
    heldOf block ≤ maxEvent

section Reading

variable {stream : EventStream} {bytes more : Bytes}

theorem textLines_append (bytes more : Bytes) :
    textLines (bytes ++ more) =
      textLines bytes ++ (cutFrom [] ((cutFrom [] bytes).2 ++ more)).1.map Utf8.decodeLossy := by
  rw [textLines, cutFrom_cut unmarked_nil, List.map_append]
  rfl

/-- What has been read of bounded bytes leaves no more than an event may hold. -/
theorem bounded_left (h : Bounded (bytes ++ more)) :
    (cutFrom [] bytes).2.length ≤ maxEvent ∧
      heldOf (blocksFrom [] (textLines bytes)).2 ≤ maxEvent := by
  constructor
  · obtain ⟨run, hrun, hwithin, hleft⟩ := cutFrom_left unmarked_nil bytes
    have hshort := h.lines run (hwithin.trans (List.prefix_append ..).isInfix) hrun
    rcases hleft with hleft | hleft <;> rw [hleft]
    · omega
    · rw [List.length_append, List.length_singleton]
      omega
  · obtain ⟨block, hblock, hprefix⟩ := exists_block (blocksFrom [] (textLines bytes)).2
      ((cutFrom [] ((cutFrom [] bytes).2 ++ more)).1.map Utf8.decodeLossy)
    refine (heldOf_le hprefix).trans (h.events block ?_)
    rw [textLines_append, blocksFrom_append]
    rw [List.append_assoc]
    exact List.mem_append_right _ hblock

theorem ReadUpTo.feed (h : ReadUpTo stream bytes) (read : Bytes)
    (hbounded : Bounded (bytes ++ read ++ more)) :
    ∃ events after, stream.feed read = (.ok events, after) ∧ ReadUpTo after (bytes ++ read) ∧
      endedEvents (bytes ++ read) = endedEvents bytes ++ events := by
  obtain ⟨hpending, hholds⟩ := h
  obtain ⟨ended, hended⟩ : ∃ ended,
      (cutFrom [] ((cutFrom [] bytes).2 ++ read)).1.map Utf8.decodeLossy = ended := ⟨_, rfl⟩
  obtain ⟨hevents, hafter⟩ := EventStream.takeLines_spec hholds ended
  have hblocks := blocksFrom_append [] (textLines bytes) ended
  rw [← hended, ← textLines_append, hended] at hblocks
  have hleft : (cutFrom [] (bytes ++ read)).2 = (cutFrom [] ((cutFrom [] bytes).2 ++ read)).2 := by
    rw [cutFrom_cut unmarked_nil]
  have hread : ReadUpTo
      { (stream.takeLines ended).2 with pending := (cutFrom [] (bytes ++ read)).2 }
      (bytes ++ read) := by
    refine ⟨rfl, ?_⟩
    rw [hblocks]
    exact ⟨hafter.kind, hafter.data, hafter.held⟩
  obtain ⟨hlength, hheld⟩ := bounded_left hbounded
  refine ⟨(stream.takeLines ended).1, _, ?_, hread, ?_⟩
  · rw [EventStream.feed, hpending, EventStream.feedFrom_eq unmarked_nil, ← hleft, hended]
    refine if_neg ?_
    rintro (hlong | hmuch)
    · exact absurd hlength (not_le.mpr hlong)
    · rw [hread.holds.held] at hmuch
      exact absurd hheld (not_le.mpr hmuch)
  · rw [endedEvents, hblocks, List.filterMap_append, hevents]
    rfl

/-- Reads one after another give the events that end in them all, and never fail. -/
theorem ReadUpTo.feedAll (h : ReadUpTo stream bytes) (reads : List Bytes)
    (hbounded : Bounded (bytes ++ reads.flatten)) :
    ∃ events, stream.feedAll reads = .ok events ∧
      endedEvents (bytes ++ reads.flatten) = endedEvents bytes ++ events := by
  induction reads generalizing stream bytes with
  | nil => exact ⟨[], rfl, by simp⟩
  | cons read rest ih =>
    rw [List.flatten_cons, ← List.append_assoc] at hbounded ⊢
    obtain ⟨events, after, hfeed, hread, hevents⟩ := h.feed read hbounded
    obtain ⟨more, hmore, hall⟩ := ih hread hbounded
    refine ⟨events ++ more, ?_, ?_⟩
    · rw [EventStream.feedAll, hfeed]
      simp only [hmore]
      rfl
    · rw [hall, hevents, List.append_assoc]

end Reading

/-- However a stream is cut into reads, they never fail and give the events that the grammar reads
from the whole of it. -/
theorem reads_give_the_events (bytes : Bytes) (reads : List Bytes) (hreads : reads.flatten = bytes)
    (hmark : ¬ [0xEF, 0xBB, 0xBF] <+: bytes) (hend : ¬ [0x0D] <:+ bytes)
    (hlines : ∀ run, run <:+: bytes → Unmarked run → run.length < maxEvent)
    (hheld : ∀ block ∈ (blocksOf bytes).1 ++ [(blocksOf bytes).2], heldOf block ≤ maxEvent) :
    EventStream.new.feedAll reads = .ok (eventsOf bytes) := by
  have hblocks : blocksOf bytes = blocksFrom [] (textLines bytes) := by
    rw [blocksOf, withoutMark, if_neg hmark, textLines, ← endedLines_decodeLossy unmarked_nil _ hend,
      List.nil_append]
  have hnew : ReadUpTo EventStream.new [] := ⟨rfl, rfl, rfl, rfl⟩
  rw [hblocks] at hheld
  obtain ⟨events, hfed, hevents⟩ := hnew.feedAll reads (by
    rw [List.nil_append, hreads]
    exact ⟨hlines, hheld⟩)
  rw [hfed, eventsOf, hblocks, ← hreads]
  exact congrArg _ hevents.symm

/-- `event: state`, `data: x` and a blank line, the first line's CRLF cut in two. -/
theorem reads_give_the_events_of_a_cut_line_end :
    EventStream.new.feedAll
      [[0x65, 0x76, 0x65, 0x6E, 0x74, 0x3A, 0x20, 0x73, 0x74, 0x61, 0x74, 0x65, 0x0D],
        [0x0A, 0x64, 0x61, 0x74, 0x61, 0x3A, 0x20, 0x78, 0x0A, 0x0A]] =
      .ok [⟨.state, ['x']⟩] := by
  refine (reads_give_the_events _ _ rfl (by decide) (by decide) ?_ (by decide)).trans (by decide)
  intro run hrun _
  exact hrun.length_le.trans_lt (by decide)

end Mailo.Proto.Jmap
