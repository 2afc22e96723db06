import Mailo.Proto.Pop3.Dialogue
import Mailo.Proto.Pop3.Maildrop

/-!
# Replies in any number of pieces

A complete reply is a list of lines, and what the session makes of it is decided a line at a time.
How the network cuts the bytes changes that in one place only: between the CR and the LF of a line
as long as a line may be, where what has arrived is already too long.
-/

namespace Mailo.Proto.Pop3

open Domain Library
open Library.Dotted (stuff)

/-- A complete reply as a server composes it: one line, or a status line and the lines under it. -/
inductive Sent where
  | line (text : Bytes)
  | lines (status : Bytes) (body : List Bytes)

/-- The lines of a reply as they are sent. -/
def Sent.wired : Sent → List Bytes
  | .line text => [text]
  | .lines status body => status :: (body.map stuff ++ [[46]])

def Sent.bytes (reply : Sent) : Bytes := joinLines reply.wired

/-- A line the session takes in one piece. -/
def Fits (line : Bytes) : Prop := Crlf.split line = none ∧ line.length ≤ maxLineBytes

/-- A reply of the shape a command has: refused, a reply of several lines is one line. -/
def Completes : ResponseShape → Sent → Prop
  | .single, .line _ => True
  | .multi, .line text => ∀ said, statusOf text ≠ .ok (.ok said)
  | .multi, .lines status _ => ∀ said, statusOf status ≠ .ok (.err said)
  | .single, .lines _ _ => False

def CutAtBound (lines pieces : List Bytes) : Prop :=
  ∃ before line after front back, lines = before ++ line :: after ∧ line.length = maxLineBytes ∧
    pieces = front ++ back ∧ front.flatten = joinLines before ++ line ++ [13]

/-- A reply in pieces, none of them empty. -/
structure Cut (reply : Sent) (pieces : List Bytes) : Prop where
  whole : pieces.flatten = reply.bytes
  some : ∀ piece ∈ pieces, piece ≠ []

def readReply : Phase → List Bytes → Phase × Action
  | phase, [] => (phase, .continue)
  | phase, line :: lines =>
    if (decide phase line).2 = .continue then readReply (decide phase line).1 lines
    else decide phase line

def State.readLines (state : State) (auth : Auth) (lines : List Bytes) : Step :=
  ({ state with buf := [], phase := (readReply state.phase lines).1 } : State).act auth
    (readReply state.phase lines).2

/-- Lines that are a complete reply where a phase waits for one, or fail it before they end. -/
def Awaits : Phase → List Bytes → Prop
  | _, [] => False
  | phase, [line] => (decide phase line).2 ≠ .continue
  | phase, line :: next :: lines =>
    ((decide phase line).2 = .continue ∧ Awaits (decide phase line).1 (next :: lines)) ∨
      ∃ error, (decide phase line).2 = .fail error

variable {lines : List Bytes} {phase : Phase} {line : Bytes}

theorem Awaits.ne_nil (h : Awaits phase lines) : lines ≠ [] := by
  rintro rfl
  exact h

/-- A line that goes on leaves the rest awaited. -/
theorem Awaits.rest (h : Awaits phase (line :: lines)) (hgoes : (decide phase line).2 = .continue) :
    Awaits (decide phase line).1 lines := by
  cases lines with
  | nil => exact absurd hgoes h
  | cons next lines =>
    rcases h with ⟨_, hrest⟩ | ⟨error, hfail⟩
    · exact hrest
    · rw [hgoes] at hfail
      cases hfail

/-- A line that ends the reply is its last, unless it fails it. -/
theorem Awaits.last (h : Awaits phase (line :: lines)) (hends : (decide phase line).2 ≠ .continue) :
    lines = [] ∨ ∃ error, (decide phase line).2 = .fail error := by
  cases lines with
  | nil => exact .inl rfl
  | cons next lines =>
    rcases h with ⟨hgoes, _⟩ | hfail
    · exact absurd hgoes hends
    · exact .inr hfail

@[simp] theorem joinLines_cons (line : Bytes) (lines : List Bytes) :
    joinLines (line :: lines) = line ++ 13 :: 10 :: joinLines lines := by
  simp [joinLines]

/-! ## What has arrived of it -/

/-- The pieces so far end between the CR and the LF of no line that is as long as it may be. -/
def Clear (arrived : Bytes) (lines : List Bytes) : Prop :=
  ∀ before line after, lines = before ++ line :: after → line.length = maxLineBytes →
    arrived ≠ joinLines before ++ line ++ [13]

theorem takeLine_first {buf later : Bytes} (hbytes : buf ++ later = joinLines (line :: lines))
    (hfits : Fits line) (hclear : Clear buf (line :: lines)) :
    (takeLine buf = .ok none ∧ later ≠ []) ∨
      ∃ rest, takeLine buf = .ok (some (line, rest)) ∧ rest ++ later = joinLines lines := by
  rw [joinLines_cons] at hbytes
  unfold takeLine
  cases hsplit : Crlf.split buf with
  | some pair =>
    obtain ⟨found, rest⟩ := pair
    have hfound := Crlf.split_append hsplit later
    rw [hbytes, Crlf.split_line hfits.1] at hfound
    obtain ⟨hline, hrest⟩ := Prod.mk.inj (Option.some.inj hfound)
    subst hline
    exact .inr ⟨rest, if_neg (Nat.not_lt.mpr hfits.2), hrest.symm⟩
  | none =>
    left
    have hlater : later ≠ [] := by
      rintro rfl
      rw [List.append_nil] at hbytes
      rw [hbytes, Crlf.split_line hfits.1] at hsplit
      cases hsplit
    refine ⟨?_, hlater⟩
    apply if_neg
    intro hlong
    have hfit := hfits.2
    have hprefix : buf <+: line ++ [13] := by
      have hleft : buf <+: line ++ [13] ++ (10 :: joinLines lines) := by
        rw [List.append_assoc]
        exact ⟨later, hbytes⟩
      by_cases hshort : buf.length ≤ (line ++ [13]).length
      · exact List.prefix_of_prefix_length_le hleft (List.prefix_append _ _) hshort
      · exfalso
        have hwhole : line ++ [13, 10] <+: buf := by
          apply @List.prefix_of_prefix_length_le _ _ _ (buf ++ later)
          · rw [hbytes]
            exact ⟨joinLines lines, by simp⟩
          · exact List.prefix_append _ _
          · simp only [List.length_append, List.length_cons, List.length_nil] at hshort ⊢
            omega
        obtain ⟨rest, hrest⟩ := hwhole
        rw [← hrest, List.append_assoc, List.cons_append, List.cons_append, List.nil_append,
          Crlf.split_line hfits.1] at hsplit
        cases hsplit
    have hle := hprefix.length_le
    rw [List.length_append, List.length_singleton] at hle
    have hbuf : buf = line ++ [13] := hprefix.eq_of_length (by
      rw [List.length_append, List.length_singleton]
      omega)
    exact hclear [] line lines rfl (by omega) hbuf

theorem readReply_goes {phase : Phase} {line : Bytes} {lines : List Bytes}
    (h : (decide phase line).2 = .continue) :
    readReply phase (line :: lines) = readReply (decide phase line).1 lines := if_pos h

theorem readReply_ends {phase : Phase} {line : Bytes} {lines : List Bytes}
    (h : (decide phase line).2 ≠ .continue) :
    readReply phase (line :: lines) = decide phase line := if_neg h

variable {auth : Auth} {fuel : Nat} {state : State}

theorem pumpLines_goes {rest : Bytes} (htake : takeLine state.buf = .ok (some (line, rest)))
    (hgoes : (decide state.phase line).2 = .continue) :
    state.pumpLines auth (fuel + 1) = State.pumpLines auth fuel
      { state with buf := rest, phase := (decide state.phase line).1 } := by
  rw [State.pumpLines, htake]
  dsimp only
  rw [hgoes]

theorem pumpLines_acts {rest : Bytes} (htake : takeLine state.buf = .ok (some (line, rest)))
    (hends : (decide state.phase line).2 ≠ .continue) :
    state.pumpLines auth (fuel + 1) = State.act
      { state with buf := rest, phase := (decide state.phase line).1 } auth
      (decide state.phase line).2 := by
  rw [State.pumpLines, htake]
  dsimp only
  split
  · rename_i hgoes
    exact absurd hgoes hends
  · rfl

/-- What has arrived of a reply either leaves the session waiting for the rest of it, or has
brought it where the whole reply does. -/
inductive Arrived (auth : Auth) (state : State) (lines : List Bytes) (later : Bytes) : Step → Prop
  | waits (gone rest : List Bytes) (buf : Bytes) (phase : Phase) (hlines : lines = gone ++ rest)
      (hgone : state.buf = joinLines gone ++ buf) (hbytes : buf ++ later = joinLines rest)
      (hopen : phase ≠ .closed) (hawaits : Awaits phase rest) (hlater : later ≠ [])
      (hread : readReply state.phase lines = readReply phase rest) :
      Arrived auth state lines later ({ state with buf := buf, phase := phase }, .need [.read])
  | ends {step : Step} (hlater : later = []) (hstep : step = state.readLines auth lines) :
      Arrived auth state lines later step
  | fails {after : State} {error : ProtoError}
      (hfails : (state.readLines auth lines).2 = .failed error) :
      Arrived auth state lines later (after, .failed error)

theorem Clear.rest {arrived rest : Bytes} (h : Clear arrived (line :: lines))
    (harrived : arrived = line ++ 13 :: 10 :: rest) :
    Clear rest lines := by
  intro before long after hlines hlong hrest
  refine h (line :: before) long after (by rw [hlines, List.cons_append]) hlong ?_
  rw [harrived, hrest]
  simp

theorem open_of_goes (h : (decide phase line).2 = .continue) :
    (decide phase line).1 ≠ .closed := by
  rcases decide_continue (Prod.ext rfl h : decide phase line = ((decide phase line).1, .continue))
    with ⟨cmd, _, hafter, _⟩ | ⟨cmd, lines, held, _, _, hafter⟩
  · rw [hafter]
    exact Phase.noConfusion
  · rw [hafter]
    exact Phase.noConfusion

theorem pumpLines_arrived {auth : Auth} {fuel : Nat} {state : State} {lines : List Bytes}
    {later : Bytes} (henough : state.buf.length < fuel)
    (hbytes : state.buf ++ later = joinLines lines) (hfits : ∀ line ∈ lines, Fits line)
    (hopen : state.phase ≠ .closed) (hawaits : Awaits state.phase lines)
    (hclear : Clear state.buf lines) :
    Arrived auth state lines later (state.pumpLines auth fuel) := by
  induction fuel generalizing state lines with
  | zero => exact absurd henough (Nat.not_lt_zero _)
  | succ fuel ih =>
    obtain ⟨line, more, rfl⟩ := List.exists_cons_of_ne_nil hawaits.ne_nil
    obtain ⟨hline, hmore⟩ := List.forall_mem_cons.mp hfits
    rcases takeLine_first hbytes hline hclear with ⟨htake, hlater⟩ | ⟨rest, htake, hrest⟩
    · rw [State.pumpLines, htake]
      exact .waits [] (line :: more) state.buf state.phase rfl rfl hbytes hopen hawaits hlater rfl
    · have hbuf := takeLine_eq htake
      by_cases hgoes : (decide state.phase line).2 = .continue
      · rw [pumpLines_goes htake hgoes]
        have hlength := congrArg List.length hbuf
        simp only [List.length_append, List.length_cons] at hlength
        have hnext := @ih { state with buf := rest, phase := (decide state.phase line).1 } more
          (by change rest.length < fuel; omega) hrest hmore (open_of_goes hgoes)
          (hawaits.rest hgoes) (hclear.rest hbuf)
        have hread := @readReply_goes state.phase line more hgoes
        generalize State.pumpLines auth fuel
          { state with buf := rest, phase := (decide state.phase line).1 } = step at hnext
        cases hnext with
        | waits gone left buf phase hlines hgone hbytes hopen hawaits hlater hsame =>
          refine .waits (line :: gone) left buf phase (by rw [hlines, List.cons_append]) ?_ hbytes
            hopen hawaits hlater (hread.trans hsame)
          change rest = _ at hgone
          rw [hbuf, hgone, joinLines_cons, List.append_assoc]
          rfl
        | ends hlater hstep =>
          refine .ends hlater (hstep.trans ?_)
          unfold State.readLines
          rw [hread]
        | fails hfails =>
          refine .fails ?_
          rw [← hfails]
          unfold State.readLines
          rw [hread]
      · rw [pumpLines_acts htake hgoes]
        have hread := @readReply_ends state.phase line more hgoes
        rcases hawaits.last hgoes with rfl | ⟨error, hfail⟩
        · obtain ⟨rfl, rfl⟩ := List.append_eq_nil_iff.mp hrest
          refine .ends rfl ?_
          unfold State.readLines
          rw [hread]
        · rw [hfail]
          refine .fails ?_
          unfold State.readLines
          rw [hread, hfail]
          rfl

end Mailo.Proto.Pop3
