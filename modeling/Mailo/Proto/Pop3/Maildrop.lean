import Mailo.Proto.Pop3.Session

/-!
# A maildrop, and a server that keeps to the protocol

Within a session a message number is a place in the maildrop. A message is sent a line at a time,
a dot put before one at the front of a line, and a dot alone comes after the last.
-/

namespace Mailo.Proto.Pop3

open Domain Library
open Library.Dotted (stuff)

/-- A message the server holds, its lines without the CRLF that ends each. -/
structure Held where
  uidl : String
  header : List Bytes
  body : List Bytes
deriving DecidableEq

/-- What a session opens on; an id names one message. -/
structure Maildrop where
  messages : List Held
  distinct : (messages.map Held.uidl).Nodup
  lines : ∀ message ∈ messages, ∀ line ∈ message.header ++ message.body, Crlf.split line = none

/-- The message a number names in this session. -/
def Maildrop.at (drop : Maildrop) (number : UInt32) : Option Held :=
  if number = 0 then none else drop.messages[number.toNat - 1]?

def Maildrop.named (drop : Maildrop) (uidl : String) : Option Held :=
  drop.messages.find? fun message => message.uidl = uidl

theorem Maildrop.mem_at {drop : Maildrop} {number : UInt32} {message : Held}
    (h : drop.at number = some message) : message ∈ drop.messages := by
  unfold Maildrop.at at h
  split at h
  · cases h
  · exact List.mem_of_getElem? h

inductive Part where
  | headers | bodies
deriving DecidableEq

namespace Part

def command (part : Part) (number : UInt32) : Pop3Command :=
  match part with
  | headers => .top number 0
  | bodies => .retr number

/-- The lines sent of a message; the empty one ends its header. -/
def lines (part : Part) (message : Held) : List Bytes :=
  match part with
  | headers => message.header ++ [[]]
  | bodies => message.header ++ [] :: message.body

def reply (part : Part) (bytes : Bytes) : Pop3Reply :=
  match part with
  | headers => .headers bytes
  | bodies => .retrieved bytes

theorem whole {part : Part} {drop : Maildrop} {number : UInt32} {message : Held}
    (h : drop.at number = some message) : ∀ line ∈ part.lines message, Crlf.split line = none := by
  intro line hline
  have hlines := drop.lines message (Maildrop.mem_at h) line
  cases part with
  | headers =>
    rcases List.mem_append.mp hline with hmem | hmem
    · exact hlines (List.mem_append_left _ hmem)
    · rw [List.mem_singleton.mp hmem]
      rfl
  | bodies =>
    rcases List.mem_append.mp hline with hmem | hmem
    · exact hlines (List.mem_append_left _ hmem)
    · rcases List.mem_cons.mp hmem with rfl | hmem
      · rfl
      · exact hlines (List.mem_append_right _ hmem)

end Part

def dotted (lines : List Bytes) : Bytes :=
  (lines.flatMap fun line => stuff line ++ [13, 10]) ++ [46, 13, 10]

theorem wire_dot : wire "." = [46] := by decide

theorem unstuff_eq (line : Bytes) : unstuff line = Dotted.unstuff line := by
  unfold unstuff Dotted.unstuff
  rw [wire_dot]
  cases line with
  | nil => rfl
  | cons byte rest =>
    by_cases hdot : byte = 46
    · subst hdot
      rfl
    · rw [stripPrefix, if_neg (Ne.symm hdot), if_neg (by simpa using hdot)]
      rfl

@[simp] theorem unstuff_stuff (line : Bytes) : unstuff (stuff line) = line := by
  rw [unstuff_eq, Dotted.unstuff_stuff]

theorem dotted_cons (line : Bytes) (rest : List Bytes) :
    dotted (line :: rest) = stuff line ++ 13 :: 10 :: dotted rest := by
  simp [dotted]

theorem dotted_nil : dotted [] = wire "." ++ 13 :: 10 :: [] := by decide

/-- A line that accepts what was asked. -/
def Accepts (line : Bytes) : Prop := ∃ text, statusOf line = .ok (.ok text)

/-- What an honest server may say to what was written: no, in one line; or yes, in one line, with
the message a number names when one was asked for. -/
inductive Says (drop : Maildrop) (auth : Auth) (asked : Bytes) : Bytes → Prop
  | refuses (line : Bytes) (whole : Crlf.split line = none) (no : ¬ Accepts line) :
      Says drop auth asked (line ++ [13, 10])
  | agrees (line : Bytes) (whole : Crlf.split line = none)
      (other : ∀ (part : Part) number, asked ≠ encode (part.command number) auth) :
      Says drop auth asked (line ++ [13, 10])
  | sends (line : Bytes) (whole : Crlf.split line = none) (yes : Accepts line) (part : Part)
      (number : UInt32) (message : Held) (holds : drop.at number = some message)
      (this : asked = encode (part.command number) auth) :
      Says drop auth asked (line ++ 13 :: 10 :: dotted (part.lines message))

theorem wire_toString_inj {a b : Nat} (h : wire (toString a) = wire (toString b)) : a = b := by
  have hrepr : a.repr = b.repr := Utf8.encode_inj h
  have hdigits := congrArg (fun text => Nat.ofDigitChars 10 text.toList 0) hrepr
  simpa using hdigits

theorem wire_number_inj {front : Bytes} {a b : UInt32}
    (h : front ++ wire (toString a.toNat) = front ++ wire (toString b.toNat)) : a = b :=
  UInt32.toNat_inj.mp (wire_toString_inj (List.append_cancel_left h))

theorem top_ne_retr {front back : Bytes} : wire "TOP " ++ front ≠ wire "RETR " ++ back := by
  have htop : wire "TOP " = [84, 79, 80, 32] := by decide
  have hretr : wire "RETR " = [82, 69, 84, 82, 32] := by decide
  rw [htop, hretr]
  simp

/-- What is written names the part and the number asked for. -/
theorem encode_part_inj {part other : Part} {a b : UInt32} {auth : Auth}
    (h : encode (part.command a) auth = encode (other.command b) auth) : part = other ∧ a = b := by
  have hcommand := List.append_cancel_right h
  cases part with
  | headers =>
    cases other with
    | headers =>
      exact ⟨rfl, wire_number_inj (List.append_cancel_right
        (List.append_cancel_right hcommand))⟩
    | bodies =>
      change wire "TOP " ++ _ ++ _ ++ _ = wire "RETR " ++ _ at hcommand
      rw [List.append_assoc, List.append_assoc] at hcommand
      exact absurd hcommand top_ne_retr
  | bodies =>
    cases other with
    | headers =>
      change wire "RETR " ++ _ = wire "TOP " ++ _ ++ _ ++ _ at hcommand
      rw [List.append_assoc, List.append_assoc] at hcommand
      exact absurd hcommand.symm top_ne_retr
    | bodies =>
      exact ⟨rfl, wire_number_inj hcommand⟩

theorem head_part (part : Part) (number : UInt32) (auth : Auth) :
    (encode (part.command number) auth).head? = some (if part = .headers then 84 else 82) := by
  cases part <;> rfl

/-- What draws one line asks for no message. -/
theorem single_ne_part {cmd : Pop3Command} (single : shape cmd = .single) (part : Part)
    (number : UInt32) (auth : Auth) : encode cmd auth ≠ encode (part.command number) auth := by
  have hne : ∀ byte : UInt8, byte ≠ 84 → byte ≠ 82 → (encode cmd auth).head? = some byte →
      encode cmd auth ≠ encode (part.command number) auth := by
    intro byte htop hretr hhead heq
    rw [heq, head_part] at hhead
    split at hhead
    · exact htop (Option.some.inj hhead).symm
    · exact hretr (Option.some.inj hhead).symm
  cases cmd with
  | user | check _ _ => exact hne 85 (by decide) (by decide) rfl
  | pass => exact hne 80 (by decide) (by decide) rfl
  | authPlain => exact hne 65 (by decide) (by decide) rfl
  | stat => exact hne 83 (by decide) (by decide) rfl
  | dele _ => exact hne 68 (by decide) (by decide) rfl
  | quit => exact hne 81 (by decide) (by decide) rfl
  | capa | uidl | list | retr _ | top _ _ => cases single

theorem stls_ne_part (part : Part) (number : UInt32) (auth : Auth) :
    wire "STLS\r\n" ≠ encode (part.command number) auth := by
  intro heq
  have hhead : (wire "STLS\r\n").head? = some 83 := by decide
  rw [heq, head_part] at hhead
  split at hhead <;> exact absurd (Option.some.inj hhead) (by decide)

end Mailo.Proto.Pop3
