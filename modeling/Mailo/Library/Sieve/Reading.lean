import Mailo.Library.Sieve.Grammar

/-!
# Text written so that it is read back

A piece of text is cut into its tokens whatever is read after it, or whatever follows that ends a
word. Commands written as their tokens are read as those commands.
-/

namespace Mailo.Library.Sieve

/-! ## Cutting -/

/-- The text is cut into these tokens, and nothing of it is left to be read on. -/
def Cuts (text : List Char) (tokens : List Token) : Prop :=
  ∀ out rest, lexFrom out .idle (text ++ rest) = lexFrom (tokens.reverse ++ out) .idle rest

/-- The text is cut into these tokens where a character follows that is part of no word. -/
def CutsTo (text : List Char) (tokens : List Token) : Prop :=
  ∀ c, isWordRest c = false → ∀ out rest,
    lexFrom out .idle (text ++ c :: rest) = lexFrom (tokens.reverse ++ out) .idle (c :: rest)

variable {a b : List Char} {s t : List Token}

theorem Cuts.nil : Cuts [] [] := fun _ _ => rfl

theorem Cuts.append (first : Cuts a s) (second : Cuts b t) : Cuts (a ++ b) (s ++ t) := by
  intro out rest
  rw [List.append_assoc, first, second, List.reverse_append, List.append_assoc]

theorem Cuts.to (h : Cuts a s) : CutsTo a s := fun c _ out rest => h out (c :: rest)

theorem Cuts.appendTo (first : Cuts a s) (second : CutsTo b t) : CutsTo (a ++ b) (s ++ t) := by
  intro c hc out rest
  rw [List.append_assoc, first, second c hc, List.reverse_append, List.append_assoc]

variable {c : Char} {text : List Char}

theorem CutsTo.append (first : CutsTo a s) (ends : isWordRest c = false) (second : Cuts (c :: b) t)
    : Cuts (a ++ c :: b) (s ++ t) := by
  intro out rest
  rw [List.append_assoc, List.cons_append, first c ends, ← List.cons_append, second,
    List.reverse_append, List.append_assoc]

theorem step_idle (c : Char) : step .idle c = begin c := rfl

theorem lexFrom_ending {reading : Reading} {token : Token} (ends : step reading c = ending token c)
    (out : List Token) (rest : List Char) :
    lexFrom out reading (c :: rest) = lexFrom (token :: out) .idle (c :: rest) := by
  rw [lexFrom, lexFrom, ends, step_idle, ending]
  cases begin c with
  | none => rfl
  | some pair => simp

theorem lexFrom_word (out : List Token) (name more : List Char) (ends : isWordRest c = false)
    (rest : List Char) (h : ∀ d ∈ more, isWordRest d = true) :
    lexFrom out (.word name) (more ++ c :: rest) =
      lexFrom (.word (name ++ more) :: out) .idle (c :: rest) := by
  induction more generalizing name with
  | nil =>
    rw [List.nil_append, List.append_nil]
    exact lexFrom_ending (by rw [step, ends]; rfl) out rest
  | cons d more ih =>
    have hd := h d (.head _)
    rw [List.cons_append, lexFrom, step, if_pos hd]
    have hmore := ih (name ++ [d]) fun e he => h e (.tail _ he)
    rw [List.append_assoc, List.singleton_append] at hmore
    exact hmore

/-- A word is cut where it ends. -/
theorem cutsTo_word {name : List Char} (starts : begin c = some (.word [c], []))
    (h : ∀ d ∈ name, isWordRest d = true) : CutsTo (c :: name) [.word (c :: name)] := by
  intro d hd out rest
  rw [List.cons_append, lexFrom, step_idle, starts]
  exact lexFrom_word out [c] name hd rest h

theorem lexFrom_number (out : List Token) (digits more : List Char) (ends : c.isDigit = false)
    (rest : List Char) (h : ∀ d ∈ more, d.isDigit = true) :
    lexFrom out (.number digits) (more ++ c :: rest) =
      lexFrom (.number (Nat.ofDigitChars 10 (digits ++ more) 0) :: out) .idle (c :: rest) := by
  induction more generalizing digits with
  | nil =>
    rw [List.nil_append, List.append_nil]
    exact lexFrom_ending (by rw [step, ends]; rfl) out rest
  | cons d more ih =>
    have hd := h d (.head _)
    rw [List.cons_append, lexFrom, step, if_pos hd]
    have hmore := ih (digits ++ [d]) fun e he => h e (.tail _ he)
    rw [List.append_assoc, List.singleton_append] at hmore
    exact hmore

theorem begin_digit (h : c.isDigit = true) : begin c = some (.number [c], []) := by
  have hval : 48 ≤ c.val ∧ c.val ≤ 57 := by simpa [Char.isDigit] using h
  have hne : ∀ d : Char, ¬ (48 ≤ d.val ∧ d.val ≤ 57) → c ≠ d := by
    rintro d hd rfl
    exact hd hval
  unfold begin
  have hblank : isBlank c = false := by
    simp only [isBlank, Bool.or_eq_false_iff, decide_eq_false_iff_not]
    exact ⟨⟨⟨hne _ (by decide), hne _ (by decide)⟩, hne _ (by decide)⟩, hne _ (by decide)⟩
  have hmark : isMark c = false := by
    simp only [isMark, Bool.or_eq_false_iff, decide_eq_false_iff_not]
    exact ⟨⟨⟨⟨⟨⟨⟨hne _ (by decide), hne _ (by decide)⟩, hne _ (by decide)⟩, hne _ (by decide)⟩,
      hne _ (by decide)⟩, hne _ (by decide)⟩, hne _ (by decide)⟩, hne _ (by decide)⟩
  rw [if_neg (by rw [hblank]; simp), if_neg (by rw [hmark]; simp), if_neg (hne _ (by decide)),
    if_neg (hne _ (by decide)), if_neg (hne _ (by decide)), if_pos h]

/-- A number is cut where its digits end. -/
theorem cutsTo_number (value : Nat) :
    CutsTo (toString value).toList [.number value] := by
  intro c hc out rest
  have hdigits : ∀ d ∈ (toString value).toList, d.isDigit = true := by
    intro d hd
    rw [Nat.toString_eq_ofList_toDigits, String.toList_ofList] at hd
    exact Nat.isDigit_of_mem_toDigits (by decide) (by decide) hd
  have hvalue : Nat.ofDigitChars 10 (toString value).toList 0 = value := by
    rw [Nat.toString_eq_ofList_toDigits, String.toList_ofList]
    exact Nat.ofDigitChars_ten_toDigits
  have hend : c.isDigit = false := by
    cases hdigit : c.isDigit with
    | false => rfl
    | true =>
      have hrest : isWordRest c = true := by
        simp [isWordRest, Char.isAlphanum, hdigit]
      rw [hrest] at hc
      cases hc
  cases htext : (toString value).toList with
  | nil =>
    rw [Nat.toString_eq_ofList_toDigits, String.toList_ofList] at htext
    exact absurd htext Nat.toDigits_ne_nil
  | cons d more =>
    rw [htext] at hdigits hvalue
    rw [List.cons_append, lexFrom, step_idle, begin_digit (hdigits d List.mem_cons_self)]
    have hmore := lexFrom_number out [d] more hend rest
      fun e he => hdigits e (.tail _ he)
    rw [List.singleton_append, hvalue] at hmore
    exact hmore

/-- What is skipped from a hash to the end of its line. -/
theorem cuts_comment (h : ∀ c ∈ text, c ≠ '\r' ∧ c ≠ '\n') :
    Cuts ('#' :: (text ++ ['\r', '\n'])) [] := by
  have hskip : ∀ (text : List Char) (cr : Bool), (∀ c ∈ text, c ≠ '\r' ∧ c ≠ '\n') →
      ∀ out rest, lexFrom out (.comment cr) (text ++ '\r' :: '\n' :: rest) =
        lexFrom out .idle rest := by
    intro text
    induction text with
    | nil =>
      intro cr _ out rest
      cases cr <;> rfl
    | cons c text ih =>
      intro cr hall out rest
      obtain ⟨hcr, hlf⟩ := hall c (.head _)
      rw [List.cons_append, lexFrom, step, if_neg (by simp [hlf])]
      exact ih _ (fun d hd => hall d (.tail _ hd)) out rest
  intro out rest
  have hrest := hskip text false h out rest
  rw [List.cons_append, List.append_assoc]
  exact hrest

def textsTokens : List (List Char) → List Token
  | [] => []
  | [text] => [.quoted text, .mark ']']
  | text :: rest => .quoted text :: .mark ',' :: textsTokens rest

def Argument.tokens : Argument → List Token
  | .text value => [.quoted value]
  | .texts values => .mark '[' :: textsTokens values
  | .number value => [.number value]
  | .tag name => [.tag name]

def argumentsTokens (arguments : List Argument) : List Token := arguments.flatMap Argument.tokens

mutual

def Test.tokens : Test → List Token
  | .leaf name arguments => .word name :: argumentsTokens arguments
  | .one name inner => .word name :: inner.tokens
  | .many name parts => .word name :: .mark '(' :: testsTokens parts

def testsTokens : List Test → List Token
  | [] => []
  | [test] => test.tokens ++ [.mark ')']
  | test :: rest => test.tokens ++ .mark ',' :: testsTokens rest

end

mutual

def Command.tokens : Command → List Token
  | .action name arguments => .word name :: argumentsTokens arguments ++ [.mark ';']
  | .control name test body =>
    .word name :: test.tokens ++ .mark '{' :: commandsTokens body ++ [.mark '}']

def commandsTokens : List Command → List Token
  | [] => []
  | command :: rest => command.tokens ++ commandsTokens rest

end

/-- An argument that is not an empty list of strings, which has no written form. -/
def Argument.Written : Argument → Prop
  | .texts values => values ≠ []
  | _ => True

mutual

/-- A test whose lists are not empty. -/
def Test.Written : Test → Prop
  | .leaf _ arguments => ∀ argument ∈ arguments, argument.Written
  | .one _ inner => inner.Written
  | .many _ parts => parts ≠ [] ∧ TestsWritten parts

def TestsWritten : List Test → Prop
  | [] => True
  | test :: rest => test.Written ∧ TestsWritten rest

end

mutual

def Command.Written : Command → Prop
  | .action _ arguments => ∀ argument ∈ arguments, argument.Written
  | .control _ test body => test.Written ∧ CommandsWritten body

def CommandsWritten : List Command → Prop
  | [] => True
  | command :: rest => command.Written ∧ CommandsWritten rest

end

theorem commandsTokens_append (first second : List Command) :
    commandsTokens (first ++ second) = commandsTokens first ++ commandsTokens second := by
  induction first with
  | nil => rfl
  | cons command rest ih => rw [List.cons_append, commandsTokens, commandsTokens, ih,
      List.append_assoc]

theorem commandsWritten_append {first second : List Command} :
    CommandsWritten (first ++ second) ↔ CommandsWritten first ∧ CommandsWritten second := by
  induction first with
  | nil => simp [CommandsWritten]
  | cons command rest ih => rw [List.cons_append, CommandsWritten, CommandsWritten, ih, and_assoc]

attribute [local simp] Argument.tokens in
/-- Commands written one after another. -/
theorem cuts_commands {α : Type} (text : α → List Char) (command : α → Command) {items : List α}
    (h : ∀ item ∈ items, Cuts (text item) (command item).tokens ∧ (command item).Written) :
    Cuts (items.flatMap text) (commandsTokens (items.map command)) ∧
      CommandsWritten (items.map command) := by
  induction items with
  | nil => exact ⟨.nil, trivial⟩
  | cons item rest ih =>
    obtain ⟨hcuts, hwritten⟩ := h item (.head _)
    obtain ⟨hmore, hrest⟩ := ih fun other hother => h other (.tail _ hother)
    rw [List.flatMap_cons, List.map_cons, commandsTokens, CommandsWritten]
    exact ⟨hcuts.append hmore, hwritten, hrest⟩

/-! ## Read back -/

theorem parseTexts_tokens {texts : List (List Char)} (nonempty : texts ≠ []) (rest : List Token) :
    parseTexts (textsTokens texts ++ rest) = some (texts, rest) := by
  induction texts with
  | nil => exact absurd rfl nonempty
  | cons text more ih =>
    cases more with
    | nil => rfl
    | cons next more =>
      have hmore := ih (by simp)
      change parseTexts (.quoted text :: .mark ',' :: (textsTokens (next :: more) ++ rest)) = _
      rw [parseTexts, hmore]

def EndsArguments : List Token → Prop
  | .quoted _ :: _ | .number _ :: _ | .tag _ :: _ | .mark '[' :: _ => False
  | _ => True

theorem parseArguments_tokens {arguments : List Argument}
    (written : ∀ argument ∈ arguments, argument.Written) {rest : List Token}
    (ends : EndsArguments rest) {fuel : Nat} (enough : arguments.length < fuel) :
    parseArguments fuel (argumentsTokens arguments ++ rest) = some (arguments, rest) := by
  induction arguments generalizing fuel with
  | nil =>
    obtain ⟨fuel, rfl⟩ := Nat.exists_eq_add_one_of_ne_zero (Nat.ne_zero_of_lt enough)
    change parseArguments (fuel + 1) rest = _
    unfold parseArguments
    unfold EndsArguments at ends
    split at ends <;> simp_all
  | cons argument more ih =>
    obtain ⟨fuel, rfl⟩ := Nat.exists_eq_add_one_of_ne_zero (Nat.ne_zero_of_lt enough)
    have hmore := ih (fun a ha => written a (.tail _ ha))
      (Nat.lt_of_succ_lt_succ enough)
    have hargument := written argument (.head _)
    unfold argumentsTokens at hmore ⊢
    rw [List.flatMap_cons, List.append_assoc]
    cases argument with
    | text | number | tag =>
      change (parseArguments fuel (more.flatMap Argument.tokens ++ rest)).map _ = _
      rw [hmore]
      rfl
    | texts values =>
      change parseArguments (fuel + 1) (.mark '[' :: (textsTokens values ++
        (more.flatMap Argument.tokens ++ rest))) = _
      rw [parseArguments]
      rw [parseTexts_tokens hargument]
      dsimp only
      rw [hmore]
      rfl

theorem parseArguments_none (rest : List Token) (ends : EndsArguments rest) (fuel : Nat) :
    parseArguments (fuel + 1) rest = some ([], rest) := by
  have hnone : ∀ argument ∈ ([] : List Argument), argument.Written := by simp
  exact parseArguments_tokens hnone ends (Nat.succ_pos fuel)

theorem length_le_argumentsTokens (arguments : List Argument) :
    arguments.length ≤ (argumentsTokens arguments).length := by
  induction arguments with
  | nil => exact Nat.le_refl _
  | cons argument more ih =>
    have hone : 1 ≤ argument.tokens.length := by cases argument <;> simp [Argument.tokens]
    unfold argumentsTokens at ih ⊢
    rw [List.flatMap_cons, List.length_append, List.length_cons]
    omega

theorem Test.tokens_word (test : Test) : ∃ name more, test.tokens = .word name :: more := by
  cases test with
  | leaf name arguments => exact ⟨name, _, by rw [Test.tokens]⟩
  | one name inner => exact ⟨name, _, by rw [Test.tokens]⟩
  | many name parts => exact ⟨name, _, by rw [Test.tokens]⟩

def EndsTest (rest : List Token) : Prop :=
  ∃ c more, rest = .mark c :: more ∧ (c = ',' ∨ c = ')' ∨ c = '{')

theorem EndsTest.arguments {rest : List Token} (h : EndsTest rest) : EndsArguments rest := by
  obtain ⟨c, more, rfl, rfl | rfl | rfl⟩ := h <;> exact trivial

mutual

theorem parseTest_tokens : ∀ (test : Test), test.Written → ∀ (rest : List Token), EndsTest rest →
    ∀ (fuel : Nat), test.tokens.length < fuel →
      parseTest fuel (test.tokens ++ rest) = some (test, rest)
  | .leaf name arguments, written, rest, ends, fuel, enough => by
    rw [Test.tokens] at enough ⊢
    rw [Test.Written] at written
    obtain ⟨fuel, rfl⟩ := Nat.exists_eq_add_one_of_ne_zero (Nat.ne_zero_of_lt enough)
    have hlength := length_le_argumentsTokens arguments
    rw [List.length_cons] at enough
    rw [List.cons_append, parseTest,
      parseArguments_tokens written ends.arguments (by omega)]
    obtain ⟨c, more, rfl, hc⟩ := ends
    cases arguments with
    | cons argument others => rfl
    | nil => rcases hc with rfl | rfl | rfl <;> rfl
  | .one name inner, written, rest, ends, fuel, enough => by
    rw [Test.tokens] at enough ⊢
    rw [Test.Written] at written
    obtain ⟨fuel, rfl⟩ := Nat.exists_eq_add_one_of_ne_zero (Nat.ne_zero_of_lt enough)
    have hinner := parseTest_tokens inner written rest ends fuel (Nat.lt_of_succ_lt_succ enough)
    obtain ⟨word, more, htokens⟩ := inner.tokens_word
    rw [htokens] at hinner ⊢
    rw [List.cons_append, parseTest, parseArguments_none (.word word :: more ++ rest) trivial]
    change (parseTest fuel (.word word :: more ++ rest)).map _ = _
    rw [hinner]
    rfl
  | .many name parts, written, rest, ends, fuel, enough => by
    rw [Test.tokens] at enough ⊢
    rw [Test.Written] at written
    obtain ⟨fuel, rfl⟩ := Nat.exists_eq_add_one_of_ne_zero (Nat.ne_zero_of_lt enough)
    simp only [List.length_cons] at enough
    have hparts := parseTests_tokens parts written.1 written.2 rest fuel (by omega)
    rw [List.cons_append, List.cons_append, parseTest,
      parseArguments_none (.mark '(' :: (testsTokens parts ++ rest)) trivial]
    change (parseTests fuel (testsTokens parts ++ rest)).map _ = _
    rw [hparts]
    rfl

theorem parseTests_tokens : ∀ (parts : List Test), parts ≠ [] → TestsWritten parts →
    ∀ (rest : List Token) (fuel : Nat), (testsTokens parts).length < fuel →
      parseTests fuel (testsTokens parts ++ rest) = some (parts, rest)
  | [], nonempty, _, _, _, _ => absurd rfl nonempty
  | [test], _, written, rest, fuel, enough => by
    rw [testsTokens] at enough ⊢
    rw [TestsWritten] at written
    obtain ⟨fuel, rfl⟩ := Nat.exists_eq_add_one_of_ne_zero (Nat.ne_zero_of_lt enough)
    rw [List.length_append, List.length_singleton] at enough
    have htest := parseTest_tokens test written.1 (.mark ')' :: rest)
      ⟨')', rest, rfl, by simp⟩ fuel (by omega)
    rw [List.append_assoc, List.singleton_append, parseTests, htest]
    rfl
  | test :: next :: more, _, written, rest, fuel, enough => by
    rw [testsTokens] at enough ⊢
    rw [TestsWritten] at written
    obtain ⟨fuel, rfl⟩ := Nat.exists_eq_add_one_of_ne_zero (Nat.ne_zero_of_lt enough)
    rw [List.length_append, List.length_cons] at enough
    have htest := parseTest_tokens test written.1
      (.mark ',' :: (testsTokens (next :: more) ++ rest)) ⟨',', _, rfl, by simp⟩ fuel (by omega)
    have hmore := parseTests_tokens (next :: more) (by simp) written.2 rest fuel (by omega)
    rw [List.append_assoc, List.cons_append, parseTests, htest]
    change (parseTests fuel (testsTokens (next :: more) ++ rest)).map _ = _
    rw [hmore]
    rfl
    all_goals simp

end

def EndsCommands (rest : List Token) : Prop := rest = [] ∨ ∃ more, rest = .mark '}' :: more

theorem parseCommands_tokens {commands : List Command} (written : CommandsWritten commands)
    {rest : List Token} (ends : EndsCommands rest) {fuel : Nat}
    (enough : (commandsTokens commands).length < fuel) :
    parseCommands fuel (commandsTokens commands ++ rest) = some (commands, rest) := by
  induction fuel generalizing commands rest with
  | zero => exact absurd enough (Nat.not_lt_zero _)
  | succ fuel ih =>
    match commands with
    | [] =>
      rcases ends with rfl | ⟨more, rfl⟩ <;> rfl
    | .action name arguments :: more =>
      rw [CommandsWritten, Command.Written] at written
      rw [commandsTokens, Command.tokens] at enough ⊢
      have hlength := length_le_argumentsTokens arguments
      simp only [List.length_append, List.length_cons, List.length_nil] at enough
      have hmore := ih written.2 ends (by omega)
      have hshape : Token.word name :: argumentsTokens arguments ++ [.mark ';'] ++
          commandsTokens more ++ rest = .word name :: (argumentsTokens arguments ++
            .mark ';' :: (commandsTokens more ++ rest)) := by simp
      rw [hshape, parseCommands,
        @parseArguments_tokens arguments written.1
          (.mark ';' :: (commandsTokens more ++ rest)) trivial (fuel + 1) (by omega)]
      change (parseCommands fuel (commandsTokens more ++ rest)).map _ = _
      rw [hmore]
      rfl
    | .control name test body :: more =>
      rw [CommandsWritten, Command.Written] at written
      rw [commandsTokens, Command.tokens] at enough ⊢
      simp only [List.length_append, List.length_cons, List.length_nil] at enough
      have hmore := ih written.2 ends (by omega)
      have hbody := @ih body written.1.2 (.mark '}' :: (commandsTokens more ++ rest))
        (.inr ⟨_, rfl⟩) (by omega)
      have htest := parseTest_tokens test written.1.1
        (.mark '{' :: (commandsTokens body ++ .mark '}' :: (commandsTokens more ++ rest)))
        ⟨'{', _, rfl, by simp⟩ fuel (by omega)
      obtain ⟨word, others, htokens⟩ := test.tokens_word
      have hshape : Token.word name :: test.tokens ++ .mark '{' :: commandsTokens body ++
          [.mark '}'] ++ commandsTokens more ++ rest = .word name :: (test.tokens ++
            .mark '{' :: (commandsTokens body ++ .mark '}' :: (commandsTokens more ++ rest))) := by
        simp
      rw [hshape, parseCommands, parseArguments_none _ (by rw [htokens]; exact trivial)]
      rw [htokens] at htest ⊢
      change (parseTest fuel (.word word :: others ++ .mark '{' ::
        (commandsTokens body ++ .mark '}' :: (commandsTokens more ++ rest)))).bind _ = _
      rw [htest]
      change (parseCommands fuel (commandsTokens body ++
        .mark '}' :: (commandsTokens more ++ rest))).bind _ = _
      rw [hbody]
      change (parseCommands fuel (commandsTokens more ++ rest)).bind _ = _
      rw [hmore]
      rfl

/-- A text cut into the tokens of commands is the script of those commands. -/
theorem parse_tokens {commands : List Command} (cuts : Cuts text (commandsTokens commands))
    (written : CommandsWritten commands) :
    parse text = some commands := by
  have hlex : lex text = some (commandsTokens commands) := by
    have hcut := cuts [] []
    rw [List.append_nil, List.append_nil] at hcut
    unfold lex
    rw [hcut]
    simp [lexFrom]
  have hcommands := @parseCommands_tokens commands written [] (.inl rfl) _
    (Nat.lt_succ_self (commandsTokens commands).length)
  rw [List.append_nil] at hcommands
  unfold parse
  rw [hlex]
  dsimp only
  rw [hcommands]

end Mailo.Library.Sieve
