import Mathlib.Data.List.Infix
import Mailo.Library.Lists

/-!
# Sieve scripts as they are read

A script is read in two passes: its characters are cut into tokens, and the tokens are read by the
grammar of commands, tests and arguments. Bracketed comments and multi-line strings are not read,
so what is read here is a script, and a script without them is read here.
-/

namespace Mailo.Library.Sieve

inductive Token where
  | word (name : List Char)
  | tag (name : List Char)
  | number (value : Nat)
  | quoted (text : List Char)
  | mark (c : Char)
deriving DecidableEq

def isMark (c : Char) : Bool :=
  c = '(' || c = ')' || c = ',' || c = ';' || c = '[' || c = ']' || c = '{' || c = '}'

def isBlank (c : Char) : Bool := c = ' ' || c = '\t' || c = '\r' || c = '\n'

def isWordStart (c : Char) : Bool := c.isAlpha || c = '_'

def isWordRest (c : Char) : Bool := c.isAlphanum || c = '_'

/-- What is being read when a character comes. -/
inductive Reading where
  | idle
  | comment (cr : Bool)
  | word (name : List Char)
  | tag (name : List Char)
  | number (digits : List Char)
  | quoted (text : List Char)
  | escaped (text : List Char)
deriving DecidableEq

/-- The character that begins something. -/
def begin (c : Char) : Option (Reading × List Token) :=
  if isBlank c then some (.idle, [])
  else if isMark c then some (.idle, [.mark c])
  else if c = '#' then some (.comment false, [])
  else if c = '"' then some (.quoted [], [])
  else if c = ':' then some (.tag [], [])
  else if c.isDigit then some (.number [c], [])
  else if isWordStart c then some (.word [c], [])
  else none

/-- A token that ends before the character `c`. -/
def ending (token : Token) (c : Char) : Option (Reading × List Token) :=
  (begin c).map fun (reading, tokens) => (reading, token :: tokens)

def step : Reading → Char → Option (Reading × List Token)
  | .idle, c => begin c
  | .comment cr, c => if cr && c = '\n' then some (.idle, []) else some (.comment (c = '\r'), [])
  | .word name, c =>
    if isWordRest c then some (.word (name ++ [c]), []) else ending (.word name) c
  | .tag name, c =>
    if isWordRest c then some (.tag (name ++ [c]), [])
    else if name.isEmpty then none
    else ending (.tag name) c
  | .number digits, c =>
    if c.isDigit then some (.number (digits ++ [c]), [])
    else ending (.number (Nat.ofDigitChars 10 digits 0)) c
  | .quoted text, c =>
    if c = '"' then some (.idle, [.quoted text])
    else if c = '\\' then some (.escaped text, [])
    else some (.quoted (text ++ [c]), [])
  | .escaped text, c => some (.quoted (text ++ [c]), [])

/-- The tokens of a text, `out` those already cut, the latest first. -/
def lexFrom (out : List Token) : Reading → List Char → Option (List Token)
  | reading, [] => if reading = .idle then some out.reverse else none
  | reading, c :: rest =>
    match step reading c with
    | none => none
    | some (next, tokens) => lexFrom (tokens.reverse ++ out) next rest

def lex (text : List Char) : Option (List Token) := lexFrom [] .idle text

/-! ## Commands -/

inductive Argument where
  | text (value : List Char)
  | texts (values : List (List Char))
  | number (value : Nat)
  | tag (name : List Char)
deriving DecidableEq

/-- A test, with its arguments, or with the tests it is made of. -/
inductive Test where
  | leaf (name : List Char) (arguments : List Argument)
  | one (name : List Char) (inner : Test)
  | many (name : List Char) (parts : List Test)

/-- An action, or a block that runs where its test holds. -/
inductive Command where
  | action (name : List Char) (arguments : List Argument)
  | control (name : List Char) (test : Test) (body : List Command)

def parseTexts : List Token → Option (List (List Char) × List Token)
  | .quoted text :: .mark ']' :: rest => some ([text], rest)
  | .quoted text :: .mark ',' :: rest =>
    match parseTexts rest with
    | some (texts, rest) => some (text :: texts, rest)
    | none => none
  | _ => none

/-- The arguments at the front; `fuel` above the number of tokens is enough. -/
def parseArguments : Nat → List Token → Option (List Argument × List Token)
  | 0, _ => none
  | fuel + 1, tokens =>
    let more (argument : Argument) (rest : List Token) :=
      (parseArguments fuel rest).map fun (arguments, rest) => (argument :: arguments, rest)
    match tokens with
    | .quoted text :: rest => more (.text text) rest
    | .number value :: rest => more (.number value) rest
    | .tag name :: rest => more (.tag name) rest
    | .mark '[' :: rest =>
      match parseTexts rest with
      | some (texts, rest) => more (.texts texts) rest
      | none => none
    | rest => some ([], rest)

mutual

def parseTest : Nat → List Token → Option (Test × List Token)
  | 0, _ => none
  | fuel + 1, .word name :: tokens =>
    match parseArguments (fuel + 1) tokens with
    | none => none
    | some ([], .mark '(' :: rest) =>
      (parseTests fuel rest).map fun (parts, rest) => (.many name parts, rest)
    | some ([], .word inner :: rest) =>
      (parseTest fuel (.word inner :: rest)).map fun (inner, rest) => (.one name inner, rest)
    | some (arguments, rest) => some (.leaf name arguments, rest)
  | _ + 1, _ => none

def parseTests : Nat → List Token → Option (List Test × List Token)
  | 0, _ => none
  | fuel + 1, tokens =>
    match parseTest fuel tokens with
    | some (test, .mark ')' :: rest) => some ([test], rest)
    | some (test, .mark ',' :: rest) =>
      (parseTests fuel rest).map fun (tests, rest) => (test :: tests, rest)
    | _ => none

end

def expect (c : Char) : List Token → Option (List Token)
  | .mark d :: rest => if d = c then some rest else none
  | _ => none

def parseCommands : Nat → List Token → Option (List Command × List Token)
  | 0, _ => none
  | _ + 1, [] => some ([], [])
  | _ + 1, .mark '}' :: rest => some ([], .mark '}' :: rest)
  | fuel + 1, .word name :: tokens =>
    match parseArguments (fuel + 1) tokens with
    | some (arguments, .mark ';' :: rest) =>
      (parseCommands fuel rest).map fun (commands, rest) =>
        (.action name arguments :: commands, rest)
    | some ([], rest) => do
        let (test, rest) ← parseTest fuel rest
        let rest ← expect '{' rest
        let (body, rest) ← parseCommands fuel rest
        let rest ← expect '}' rest
        let (commands, rest) ← parseCommands fuel rest
        some (.control name test body :: commands, rest)
    | _ => none
  | _ + 1, _ => none

/-- The script a text is; its tokens are more than enough fuel. -/
def parse (text : List Char) : Option (List Command) :=
  match lex text with
  | none => none
  | some tokens =>
    match parseCommands (tokens.length + 1) tokens with
    | some (commands, []) => some commands
    | _ => none

end Mailo.Library.Sieve

/-!
## What a Sieve script does

Tests are over a message's headers and its size; text is compared with ASCII letters folded, the
comparator scripts have without asking for another. Commands run in order, a block where its test
holds, until one of them stops the script.
-/

namespace Mailo.Library.Sieve

/-- A message as it is delivered: each field's decoded value without white space around it, the
addresses in each field, the bytes of the whole, and what tests of extensions say of it. -/
structure Mail where
  fields : List (List Char × List Char)
  addresses : List (List Char × List Char)
  size : Nat
  extended : List Char → List Argument → Bool

/-- Text as the default comparator sees it. -/
def folded (text : List Char) : List Char := text.map Char.toLower

/-- How a value and a key are compared, by the tag that says so. -/
def compare (kind value key : List Char) : Bool :=
  if kind = "contains".toList then decide (folded key <:+: folded value)
  else if kind = "is".toList then folded key = folded value
  else false

def Argument.strings : Argument → List (List Char)
  | .text value => [value]
  | .texts values => values
  | _ => []

def fieldHolds (fields : List (List Char × List Char)) (kind : List Char)
    (names keys : Argument) : Bool :=
  fields.any fun field => (names.strings.map folded).contains (folded field.1) &&
    keys.strings.any (compare kind field.2)

def leafHolds (mail : Mail) (name : List Char) (arguments : List Argument) : Bool :=
  if name = "true".toList then true
  else if name = "false".toList then false
  else if name = "header".toList then
    match arguments with
    | [.tag kind, names, keys] => fieldHolds mail.fields kind names keys
    | _ => false
  else if name = "address".toList then
    match arguments with
    | [.tag part, .tag kind, names, keys] =>
      part = "all".toList && fieldHolds mail.addresses kind names keys
    | _ => false
  else if name = "size".toList then
    match arguments with
    | [.tag side, .number bytes] =>
      if side = "over".toList then bytes < mail.size
      else if side = "under".toList then mail.size < bytes
      else false
    | _ => false
  else mail.extended name arguments

mutual

def Test.holds (mail : Mail) : Test → Bool
  | .leaf name arguments => leafHolds mail name arguments
  | .one name inner => name = "not".toList && !inner.holds mail
  | .many name parts =>
    if name = "allof".toList then allHold mail parts
    else name = "anyof".toList && anyHolds mail parts

def allHold (mail : Mail) : List Test → Bool
  | [] => true
  | test :: rest => test.holds mail && allHold mail rest

def anyHolds (mail : Mail) : List Test → Bool
  | [] => false
  | test :: rest => test.holds mail || anyHolds mail rest

end

theorem allHold_eq (mail : Mail) (tests : List Test) :
    allHold mail tests = tests.all fun test => test.holds mail := by
  induction tests with
  | nil => rfl
  | cons test rest ih => rw [allHold, ih, List.all_cons]

theorem anyHolds_eq (mail : Mail) (tests : List Test) :
    anyHolds mail tests = tests.any fun test => test.holds mail := by
  induction tests with
  | nil => rfl
  | cons test rest ih => rw [anyHolds, ih, List.any_cons]

/-- The blocks a run entered, the actions it took, and whether it stopped the script. -/
structure Ran where
  entered : List Command
  actions : List (List Char × List Argument)
  stopped : Bool

namespace Ran

def nothing : Ran := ⟨[], [], false⟩

/-- A run that goes on where another ended. -/
def andThen (first next : Ran) : Ran :=
  if first.stopped then first
  else ⟨first.entered ++ next.entered, first.actions ++ next.actions, next.stopped⟩

theorem nothing_andThen (ran : Ran) : nothing.andThen ran = ran := by
  simp [andThen, nothing]

theorem andThen_assoc (a b c : Ran) : (a.andThen b).andThen c = a.andThen (b.andThen c) := by
  cases ha : a.stopped with
  | true => simp [andThen, ha]
  | false =>
    cases hb : b.stopped with
    | true | false => simp [andThen, ha, hb]

end Ran

mutual

def Command.run (mail : Mail) : Command → Ran
  | .action name arguments =>
    if name = "stop".toList then ⟨[], [], true⟩ else ⟨[], [(name, arguments)], false⟩
  | .control name test body =>
    if name = "if".toList && test.holds mail then
      { runAll mail body with entered := .control name test body :: (runAll mail body).entered }
    else .nothing

def runAll (mail : Mail) : List Command → Ran
  | [] => .nothing
  | command :: rest => (command.run mail).andThen (runAll mail rest)

end

theorem runAll_append (mail : Mail) (first second : List Command) :
    runAll mail (first ++ second) = (runAll mail first).andThen (runAll mail second) := by
  induction first with
  | nil =>
    rw [List.nil_append]
    exact (Ran.nothing_andThen _).symm
  | cons command rest ih => rw [List.cons_append, runAll, runAll, ih, Ran.andThen_assoc]

end Mailo.Library.Sieve
