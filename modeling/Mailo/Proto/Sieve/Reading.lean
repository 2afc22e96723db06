import Mailo.Library.Sieve.Reading
import Mailo.Proto.Machine
import Mailo.Proto.Sieve.Script

/-!
# A compiled script as it is read

Each piece of the script is cut into the tokens of the test or the command it stands for, whatever
is in the names, the texts and the paths it was given.
-/

namespace Mailo.Proto.Sieve

open Domain Library

open Library.Sieve (Cuts CutsTo Token Argument Command argumentsTokens testsTokens textsTokens
  commandsTokens lexFrom)

/-- A string as it is read back: line breaks are CRLF, and there is no NUL. -/
def cleaned : List Char → List Char
  | [] => []
  | '\r' :: '\n' :: rest => '\r' :: '\n' :: cleaned rest
  | c :: rest =>
    if c.toNat = 0 then cleaned rest
    else if c = '\r' ∨ c = '\n' then '\r' :: '\n' :: cleaned rest
    else c :: cleaned rest

theorem lexFrom_quoted {c : Char} (quote : c ≠ '"') (slash : c ≠ '\\') (held rest : List Char)
    (out : List Token) :
    lexFrom out (.quoted held) (c :: rest) = lexFrom out (.quoted (held ++ [c])) rest := by
  rw [lexFrom, Sieve.step, if_neg quote, if_neg slash]
  rfl

theorem lexFrom_escape (text held : List Char) (out : List Token) (rest : List Char) :
    lexFrom out (.quoted held) (escape text ++ '"' :: rest) =
      lexFrom (.quoted (held ++ cleaned text) :: out) .idle rest := by
  induction text using escape.induct generalizing held with
  | case1 =>
    rw [escape, cleaned, List.append_nil]
    rfl
  | case2 more ih =>
    have hmore := ih (held ++ ['\r', '\n'])
    rw [escape, cleaned, List.cons_append, List.cons_append,
      lexFrom_quoted (by decide) (by decide), lexFrom_quoted (by decide) (by decide),
      List.append_assoc, List.singleton_append, hmore, List.append_assoc]
    rfl
  | case3 more alone ih =>
    have hmore := ih (held ++ ['\\'])
    rw [escape, cleaned, if_pos rfl, if_neg (by decide), if_neg (by decide)]
    · rw [List.append_assoc, List.singleton_append] at hmore
      exact hmore
    · exact alone
    · exact alone
  | case4 more alone slash ih =>
    have hmore := ih (held ++ ['"'])
    rw [escape, cleaned, if_neg (by decide), if_pos rfl, if_neg (by decide), if_neg (by decide)]
    · rw [List.append_assoc, List.singleton_append] at hmore
      exact hmore
    · exact alone
    · exact alone
  | case5 c more alone slash quote nul ih =>
    rw [escape, cleaned, if_neg slash, if_neg quote, if_pos nul, if_pos nul]
    · exact ih held
    · exact alone
    · exact alone
  | case6 c more alone slash quote nul breaks ih =>
    have hmore := ih (held ++ ['\r', '\n'])
    rw [escape, cleaned, if_neg slash, if_neg quote, if_neg nul, if_neg nul, if_pos breaks,
      if_pos breaks]
    · rw [List.cons_append, List.cons_append, lexFrom_quoted (by decide) (by decide),
        lexFrom_quoted (by decide) (by decide), List.append_assoc, List.singleton_append, hmore,
        List.append_assoc]
      rfl
    · exact alone
    · exact alone
  | case7 c more alone slash quote nul breaks ih =>
    have hmore := ih (held ++ [c])
    rw [escape, cleaned, if_neg slash, if_neg quote, if_neg nul, if_neg nul, if_neg breaks,
      if_neg breaks]
    · rw [List.cons_append, lexFrom_quoted quote slash, hmore, List.append_assoc,
        List.singleton_append]
    · exact alone
    · exact alone

/-- A string is cut as one token, whatever is in it. -/
theorem cuts_quoted (text : String) : Cuts (quoted text) [.quoted (cleaned text.toList)] := by
  intro out rest
  have hescape := lexFrom_escape text.toList [] out rest
  unfold quoted
  rw [List.cons_append, List.append_assoc]
  exact hescape

theorem joinedWith_cons (separator : String) (one next : List Char) (rest : List (List Char)) :
    joinedWith separator (one :: next :: rest) =
      one ++ (separator.toList ++ joinedWith separator (next :: rest)) := by
  unfold joinedWith
  rw [List.intercalate_cons_cons, List.append_assoc]

theorem cuts_texts {texts : List String} (nonempty : texts ≠ []) :
    Cuts (joinedWith ", " (texts.map quoted) ++ [']'])
      (textsTokens (texts.map fun text => cleaned text.toList)) := by
  induction texts with
  | nil => exact absurd rfl nonempty
  | cons text more ih =>
    have htext := cuts_quoted text
    cases more with
    | nil =>
      have hend : Cuts [']'] [.mark ']'] := fun _ _ => rfl
      have hboth := htext.append hend
      simpa [joinedWith, List.intercalate, textsTokens] using hboth
    | cons next more =>
      have hcomma : Cuts ", ".toList [.mark ','] := fun _ _ => rfl
      have hall := htext.append (hcomma.append (ih (by simp)))
      rw [List.map_cons, List.map_cons, joinedWith_cons]
      rw [List.append_assoc, List.append_assoc]
      exact hall

theorem cuts_bracketed {texts : List String} (nonempty : texts ≠ []) :
    Cuts (bracketed (texts.map quoted))
      (Argument.texts (texts.map fun text => cleaned text.toList)).tokens := by
  have hopen : Cuts "[".toList [.mark '['] := fun _ _ => rfl
  have hall := hopen.append (cuts_texts nonempty)
  unfold bracketed
  rw [List.append_assoc]
  exact hall

/-! ## Tests -/

def joinedOf (name empty : String) (tests : List Sieve.Test) : Sieve.Test :=
  match tests with
  | [] => .leaf empty.toList []
  | [one] => one
  | _ => .many name.toList tests

def headersOf (headers : List String) : Argument :=
  match headers with
  | [one] => .text (cleaned one.toList)
  | _ => .texts (headers.map fun header => cleaned header.toList)

def addressTestOf (headers : List String) (text : TextMatch) : Sieve.Test :=
  match text with
  | .contains s => .leaf "header".toList
      [.tag "contains".toList, headersOf headers, .text (cleaned s.toList)]
  | .exact s => .leaf "address".toList
      [.tag "all".toList, .tag "is".toList, headersOf headers, .text (cleaned s.toList)]

mutual

/-- The test a filter is written as, where it is written at all. -/
def testOf : Filter → AccountId → Sieve.Test
  | .and parts, account => joinedOf "allof" "true" (testsOf parts account)
  | .or parts, account => joinedOf "anyof" "false" (testsOf parts account)
  | .not inner, account => .one "not".toList (testOf inner account)
  | .account id, account => .leaf (if id = account then "true".toList else "false".toList) []
  | .sender text, _ => addressTestOf ["from"] text
  | .fromAddress email, _ => addressTestOf ["from"] (.exact email)
  | .to text, _ => addressTestOf ["to", "cc"] text
  | .cc text, _ => addressTestOf ["cc"] text
  | .subject (.contains s), _ => .leaf "header".toList
      [.tag "contains".toList, .text "subject".toList, .text (cleaned s.toList)]
  | .subject (.exact s), _ => .leaf "header".toList
      [.tag "is".toList, .text "subject".toList, .text (cleaned s.toList)]
  | .larger bytes, _ => .leaf "size".toList [.tag "over".toList, .number bytes]
  | .smaller bytes, _ => .leaf "size".toList [.tag "under".toList, .number bytes]
  | .all, _ => .leaf "true".toList []
  | _, _ => .leaf "false".toList []

def testsOf : List Filter → AccountId → List Sieve.Test
  | [], _ => []
  | part :: rest, account => testOf part account :: testsOf rest account

end

/-- The text is cut into the tokens of the test, where no word goes on. -/
def Spells (text : List Char) (test : Sieve.Test) : Prop := CutsTo text test.tokens ∧ test.Written

theorem spells_true : Spells "true".toList (.leaf "true".toList []) := by
  refine ⟨Sieve.cutsTo_word rfl ?_, ?_⟩
  · decide
  · rw [Sieve.Test.Written]
    simp

theorem spells_false : Spells "false".toList (.leaf "false".toList []) := by
  refine ⟨Sieve.cutsTo_word rfl ?_, ?_⟩
  · decide
  · rw [Sieve.Test.Written]
    simp

variable {headers extensions : List String} {next : Doing} {rule : Rule}

theorem cuts_headers (nonempty : headers ≠ []) :
    Cuts (headerList headers) (headersOf headers).tokens ∧ (headersOf headers).Written := by
  match headers with
  | [] => exact absurd rfl nonempty
  | [one] => exact ⟨cuts_quoted one, trivial⟩
  | one :: next :: rest =>
    refine ⟨cuts_bracketed nonempty, ?_⟩
    change (_ :: _ : List (List Char)) ≠ []
    simp

variable {out : List Char} {doing : Doing} {places : Places}

theorem spells_address (nonempty : headers ≠ []) {text : TextMatch} {clause : String}
    (h : addressTest headers text clause = .ok out) :
    Spells out (addressTestOf headers text) := by
  obtain ⟨hheaders, hwritten⟩ := cuts_headers nonempty
  have hspace : Cuts " ".toList [] := fun _ _ => rfl
  cases text with
  | contains s =>
    unfold addressTest at h
    dsimp only at h
    split at h
    · cases h
    · cases h
      have hlead : Cuts "header :contains ".toList [.word "header".toList, .tag "contains".toList] :=
        fun _ _ => rfl
      have hall := ((hlead.append hheaders).append hspace).append (cuts_quoted s)
      unfold Spells addressTestOf
      rw [Sieve.Test.tokens, Sieve.Test.Written]
      refine ⟨?_, by simpa [Argument.Written] using hwritten⟩
      simpa [argumentsTokens, Argument.tokens] using hall.to
  | exact s =>
    unfold addressTest at h
    dsimp only at h
    split at h
    · cases h
      have hlead : Cuts "address :all :is ".toList
          [.word "address".toList, .tag "all".toList, .tag "is".toList] := fun _ _ => rfl
      have hall := ((hlead.append hheaders).append hspace).append (cuts_quoted s)
      unfold Spells addressTestOf
      rw [Sieve.Test.tokens, Sieve.Test.Written]
      refine ⟨?_, by simpa [Argument.Written] using hwritten⟩
      simpa [argumentsTokens, Argument.tokens] using hall.to
    · cases h

theorem spells_subject (kind : String) (s : String)
    (lead : Cuts out [.word "header".toList, .tag kind.toList, .quoted "subject".toList]) :
    Spells (out ++ quoted s) (.leaf "header".toList
      [.tag kind.toList, .text "subject".toList, .text (cleaned s.toList)]) := by
  have hall := lead.append (cuts_quoted s)
  unfold Spells
  rw [Sieve.Test.tokens, Sieve.Test.Written]
  refine ⟨hall.to, ?_⟩
  simp [Argument.Written]

theorem spells_size (side : String) (bytes : Nat)
    (lead : Cuts out [.word "size".toList, .tag side.toList]) :
    Spells (out ++ (toString bytes).toList)
      (.leaf "size".toList [.tag side.toList, .number bytes]) := by
  have hall := lead.appendTo (Sieve.cutsTo_number bytes)
  unfold Spells
  rw [Sieve.Test.tokens, Sieve.Test.Written]
  refine ⟨hall, ?_⟩
  simp [Argument.Written]

theorem spells_not {inner : Sieve.Test} (h : Spells out inner) :
    Spells ("not ".toList ++ out) (.one "not".toList inner) := by
  have hlead : Cuts "not ".toList [.word "not".toList] := fun _ _ => rfl
  unfold Spells
  rw [Sieve.Test.tokens, Sieve.Test.Written]
  exact ⟨hlead.appendTo h.1, h.2⟩

theorem cuts_tests {texts : List (List Char)} {tests : List Sieve.Test} (nonempty : texts ≠ [])
    (h : List.Forall₂ Spells texts tests) :
    Cuts (joinedWith ", " texts ++ [')']) (testsTokens tests) ∧ Sieve.TestsWritten tests := by
  have hclose : Cuts [')'] [.mark ')'] := fun _ _ => rfl
  have hcomma : Cuts [',', ' '] [.mark ','] := fun _ _ => rfl
  induction h with
  | nil => exact absurd rfl nonempty
  | @cons text test texts tests hone hmore ih =>
    cases hmore with
    | nil =>
      rw [testsTokens, Sieve.TestsWritten, Sieve.TestsWritten]
      refine ⟨?_, hone.2, trivial⟩
      have hall := hone.1.append rfl hclose
      simpa [joinedWith, List.intercalate] using hall
    | @cons next other nexts others hnext hrest =>
      obtain ⟨hcuts, hwritten⟩ := ih (by simp)
      rw [testsTokens, Sieve.TestsWritten, joinedWith_cons]
      · refine ⟨?_, hone.2, hwritten⟩
        have hall := hone.1.append rfl (hcomma.append hcuts)
        rw [List.append_assoc, List.append_assoc]
        exact hall
      · simp

theorem spells_joined {name empty : String} {texts : List (List Char)} {tests : List Sieve.Test}
    (identity : Spells empty.toList (.leaf empty.toList []))
    (lead : Cuts (name.toList ++ " (".toList) [.word name.toList, .mark '('])
    (h : List.Forall₂ Spells texts tests) :
    Spells (joined name empty texts) (joinedOf name empty tests) := by
  match h with
  | .nil => exact identity
  | .cons hone .nil => exact hone
  | .cons hone (.cons hnext hrest) =>
    have hall := List.Forall₂.cons hone (.cons hnext hrest)
    obtain ⟨hcuts, hwritten⟩ := cuts_tests (by simp) hall
    unfold Spells joinedOf
    rw [Sieve.Test.tokens, Sieve.Test.Written]
    refine ⟨?_, by simp, hwritten⟩
    have hboth := (lead.append hcuts).to
    unfold joined
    rw [List.append_assoc]
    exact hboth

mutual

theorem test_spells : ∀ (filter : Filter) (account : AccountId) {out : List Char},
    test filter account = .ok out → Spells out (testOf filter account)
  | .all, account, out, h => by
    cases h
    exact spells_true
  | .nothing, account, out, h => by
    cases h
    exact spells_false
  | .and parts, account, out, h => by
    obtain ⟨texts, htexts, rfl⟩ := map_eq_ok h
    exact spells_joined spells_true (fun _ _ => rfl) (tests_spell parts account htexts)
  | .or parts, account, out, h => by
    obtain ⟨texts, htexts, rfl⟩ := map_eq_ok h
    exact spells_joined spells_false (fun _ _ => rfl) (tests_spell parts account htexts)
  | .not inner, account, out, h => by
    obtain ⟨text, htext, rfl⟩ := map_eq_ok h
    exact spells_not (test_spells inner account htext)
  | .account id, account, out, h => by
    cases h
    rw [testOf]
    split
    · exact spells_true
    · exact spells_false
  | .sender text, account, out, h => spells_address (by simp) h
  | .fromAddress email, account, out, h => spells_address (by simp) h
  | .to text, account, out, h => spells_address (by simp) h
  | .cc text, account, out, h => spells_address (by simp) h
  | .subject (.contains s), account, out, h => by
    cases h
    exact spells_subject "contains" s fun _ _ => rfl
  | .subject (.exact s), account, out, h => by
    cases h
    exact spells_subject "is" s fun _ _ => rfl
  | .larger bytes, account, out, h => by
    cases h
    exact spells_size "over" bytes fun _ _ => rfl
  | .smaller bytes, account, out, h => by
    cases h
    exact spells_size "under" bytes fun _ _ => rfl
  | .vip, _, _, h | .text _, _, _, h | .inMailbox _, _, _, h | .inFolder _, _, _, h
  | .read _, _, _, h | .starred _, _, _, h | .hasLabel _, _, _, h | .date _, _, _, h
  | .newerThan _, _, _, h | .olderThan _, _, _, h | .hasAttachment, _, _, h | .snoozed, _, _, h
  | .snoozeDue, _, _, h | .pinned, _, _, h | .category _, _, _, h => by cases h

theorem tests_spell : ∀ (parts : List Filter) (account : AccountId) {out : List (List Char)},
    tests parts account = .ok out → List.Forall₂ Spells out (testsOf parts account)
  | [], account, out, h => by
    cases h
    exact .nil
  | part :: rest, account, out, h => by
    rw [tests] at h
    cases hpart : test part account with
    | error why =>
      rw [hpart] at h
      cases h
    | ok text =>
      rw [hpart] at h
      obtain ⟨texts, htexts, rfl⟩ := map_eq_ok h
      exact .cons (test_spells part account hpart) (tests_spell rest account htexts)

end

/-! ## Blocks -/

def flagOf (flag : String × String) : Command :=
  .action flag.1.toList [.text (cleaned flag.2.toList)]

def fileOf (path : String) : Command := .action "fileinto".toList [.text (cleaned path.toList)]

def stopOf : Command := .action "stop".toList []

/-- The commands of a block. -/
def bodyOf (doing : Doing) (after : AfterMatch) : List Command :=
  doing.flags.map flagOf ++ doing.destination.toList.map fileOf ++
    if after = .stop then [stopOf] else []

/-- The block a rule is written as, where it is written at all. -/
def blockOf (places : Places) (extensions : List String) (rule : Rule) : Option Command :=
  match block rule places extensions, rule.actions.foldlM (act places) ⟨[], none⟩ with
  | .ok _, .ok doing =>
    some (.control "if".toList (testOf rule.filter rule.account) (bodyOf doing rule.after))
  | _, _ => none

def FlagCommands (doing : Doing) : Prop :=
  ∀ flag ∈ doing.flags, flag.1 = "addflag" ∨ flag.1 = "removeflag"

theorem act_flags {action : RuleAction} (h : act places doing action = .ok next)
    (flags : FlagCommands doing) : FlagCommands next := by
  have hadd : ∀ flag : String × String, flag.1 = "addflag" ∨ flag.1 = "removeflag" →
      FlagCommands { doing with flags := doing.flags ++ [flag] } := by
    intro flag hflag other hother
    rcases List.mem_append.mp hother with hother | hother
    · exact flags other hother
    · rw [List.mem_singleton.mp hother]
      exact hflag
  cases action with
  | markRead | star =>
    cases h
    exact hadd _ (.inl rfl)
  | markUnread =>
    cases h
    exact hadd _ (.inr rfl)
  | file path =>
    cases h
    exact flags
  | archive | trash | spam =>
    obtain ⟨path, _, rfl⟩ := map_eq_ok h
    exact flags
  | label | notify | forward | reply => cases h

theorem foldlM_flags {actions : List RuleAction} (h : actions.foldlM (act places) doing = .ok next)
    (flags : FlagCommands doing) :
    FlagCommands next := by
  induction actions generalizing doing with
  | nil =>
    cases h
    exact flags
  | cons action rest ih =>
    rw [List.foldlM_cons] at h
    cases hact : act places doing action with
    | error why =>
      rw [hact] at h
      cases h
    | ok middle =>
      rw [hact] at h
      exact ih h (act_flags hact flags)

theorem cuts_flag {flag : String × String} (h : flag.1 = "addflag" ∨ flag.1 = "removeflag") :
    Cuts (flagText flag) (flagOf flag).tokens ∧ (flagOf flag).Written := by
  have hend : Cuts ";\r\n".toList [.mark ';'] := fun _ _ => rfl
  have hlead : Cuts ("    ".toList ++ flag.1.toList ++ " ".toList) [.word flag.1.toList] := by
    rcases h with h | h <;> rw [h] <;> exact fun _ _ => rfl
  have hall := (hlead.append (cuts_quoted flag.2)).append hend
  unfold flagOf
  rw [Command.tokens, Command.Written]
  exact ⟨hall, by simp [Argument.Written]⟩

theorem cuts_file (path : String) :
    Cuts ("    fileinto ".toList ++ quoted path ++ ";\r\n".toList) (fileOf path).tokens ∧
      (fileOf path).Written := by
  have hend : Cuts ";\r\n".toList [.mark ';'] := fun _ _ => rfl
  have hlead : Cuts "    fileinto ".toList [.word "fileinto".toList] := fun _ _ => rfl
  have hall := (hlead.append (cuts_quoted path)).append hend
  unfold fileOf
  rw [Command.tokens, Command.Written]
  exact ⟨hall, by simp [Argument.Written]⟩

theorem comment_breakless (name : String) : ∀ c ∈ ' ' :: comment name, c ≠ '\r' ∧ c ≠ '\n' := by
  intro c hc
  rcases List.mem_cons.mp hc with rfl | hc
  · decide
  · obtain ⟨d, _, rfl⟩ := List.mem_map.mp hc
    split
    · decide
    · rename_i hcontrol
      refine ⟨?_, ?_⟩
      · rintro rfl
        exact hcontrol (by decide)
      · rintro rfl
        exact hcontrol (by decide)

theorem cuts_body (flags : FlagCommands doing) (after : AfterMatch) :
    Cuts (doing.flags.flatMap flagText ++
      (match doing.destination with
        | some path => "    fileinto ".toList ++ quoted path ++ ";\r\n".toList
        | none => []) ++
      (if after = .stop then "    stop;\r\n".toList else []))
      (commandsTokens (bodyOf doing after)) ∧ Sieve.CommandsWritten (bodyOf doing after) := by
  obtain ⟨hflags, hflagsWritten⟩ := Sieve.cuts_commands flagText flagOf
    fun flag hflag => cuts_flag (flags flag hflag)
  have hfile : Cuts (match doing.destination with
        | some path => "    fileinto ".toList ++ quoted path ++ ";\r\n".toList
        | none => []) (commandsTokens (doing.destination.toList.map fileOf)) ∧
      Sieve.CommandsWritten (doing.destination.toList.map fileOf) := by
    cases doing.destination with
    | none => exact ⟨.nil, trivial⟩
    | some path =>
      obtain ⟨hcuts, hwritten⟩ := cuts_file path
      refine ⟨?_, hwritten, trivial⟩
      change Cuts _ ((fileOf path).tokens ++ [])
      rw [List.append_nil]
      exact hcuts
  have hstop : Cuts (if after = .stop then "    stop;\r\n".toList else [])
        (commandsTokens (if after = .stop then [stopOf] else [])) ∧
      Sieve.CommandsWritten (if after = .stop then [stopOf] else []) := by
    split
    · exact ⟨fun _ _ => rfl, by simp [Sieve.CommandsWritten, Command.Written, stopOf]⟩
    · exact ⟨.nil, trivial⟩
  unfold bodyOf
  rw [Sieve.commandsTokens_append, Sieve.commandsTokens_append, Sieve.commandsWritten_append,
    Sieve.commandsWritten_append]
  exact ⟨(hflags.append hfile.1).append hstop.1, ⟨hflagsWritten, hfile.2⟩, hstop.2⟩

theorem cuts_frame {name condition flags file stop : List Char} {test body : List Token}
    (named : ∀ c ∈ ' ' :: name, c ≠ '\r' ∧ c ≠ '\n') (tested : CutsTo condition test)
    (does : Cuts (flags ++ file ++ stop) body) :
    Cuts ("\r\n# ".toList ++ name ++ "\r\nif ".toList ++ condition ++ " \x7b\r\n".toList ++ flags ++
        file ++ stop ++ "\x7d\r\n".toList)
      (.word "if".toList :: test ++ .mark '{' :: body ++ [.mark '}']) := by
  have hbreak : Cuts "\r\n".toList [] := fun _ _ => rfl
  have hname := Sieve.cuts_comment named
  have hif : Cuts "if ".toList [.word "if".toList] := fun _ _ => rfl
  have hopen : Cuts (' ' :: "\x7b\r\n".toList) [.mark '{'] := fun _ _ => rfl
  have hclose : Cuts "\x7d\r\n".toList [.mark '}'] := fun _ _ => rfl
  have hall := (((hbreak.append hname).append hif).append (tested.append rfl hopen)).append
    (does.append hclose)
  simp only [List.append_assoc, List.cons_append, List.nil_append] at hall ⊢
  exact hall

/-- A rule's block is cut as one command, whatever the rule is called. -/
theorem cuts_block {text : List Char} {needs : List String}
    (h : block rule places extensions = .ok (text, needs)) :
    ∃ command, blockOf places extensions rule = some command ∧ Cuts text command.tokens ∧
      command.Written := by
  unfold blockOf
  rw [h]
  unfold block at h
  split at h
  · cases h
  · rename_i condition hcondition
    split at h
    · cases h
    · rename_i doing hdoing
      rw [hdoing]
      refine ⟨_, rfl, ?_⟩
      obtain ⟨hspells, hwritten⟩ := test_spells rule.filter rule.account hcondition
      have hflags := foldlM_flags hdoing fun flag hflag => by cases hflag
      obtain ⟨hbody, hbodyWritten⟩ := cuts_body hflags rule.after
      have htext : text = blockText rule.name condition doing rule.after := by
        split at h
        · cases h
        · split at h
          · cases h
          · cases h
            rfl
      rw [Command.tokens, Command.Written, htext]
      exact ⟨cuts_frame (comment_breakless rule.name) hspells hbody, hwritten, hbodyWritten⟩

theorem blockOf_error {why : Unmappable} (h : block rule places extensions = .error why) :
    blockOf places extensions rule = none := by
  unfold blockOf
  rw [h]

def blocksOf (rules : List Rule) (places : Places) (extensions : List String) : List Command :=
  (ordered rules).filterMap (blockOf places extensions)

theorem cuts_written {places : Places} {extensions : List String} (rules : List Rule)
    {written : Written} {commands : List Command}
    (body : Cuts written.body (commandsTokens commands)) (whole : Sieve.CommandsWritten commands) :
    Cuts (rules.foldl (write places extensions) written).body
        (commandsTokens (commands ++ rules.filterMap (blockOf places extensions))) ∧
      Sieve.CommandsWritten (commands ++ rules.filterMap (blockOf places extensions)) := by
  induction rules generalizing written commands with
  | nil =>
    rw [List.filterMap_nil, List.append_nil]
    exact ⟨body, whole⟩
  | cons rule rest ih =>
    rw [List.foldl_cons]
    cases hblock : block rule places extensions with
    | error why =>
      rw [List.filterMap_cons_none (blockOf_error hblock)]
      apply ih _ whole
      unfold write
      rw [hblock]
      exact body
    | ok pair =>
      obtain ⟨text, needs⟩ := pair
      obtain ⟨command, hcommand, hcuts, hwritten⟩ := cuts_block hblock
      rw [List.filterMap_cons_some hcommand, ← List.singleton_append, ← List.append_assoc]
      apply ih
      · unfold write
        rw [hblock, Sieve.commandsTokens_append]
        refine body.append ?_
        change Cuts text (command.tokens ++ [])
        rw [List.append_nil]
        exact hcuts
      · rw [Sieve.commandsWritten_append]
        exact ⟨whole, hwritten, trivial⟩

/-! ## The vacation reply -/

section Vacation

variable [IsoDate]

def boundOf (relation : String) (instant : DateTime) : Sieve.Test :=
  .leaf "currentdate".toList [.tag "zone".toList, .text "+0000".toList, .tag "value".toList,
    .text (cleaned relation.toList), .text "iso8601".toList, .text (cleaned (IsoDate.format instant))]

def vacationOf (vacation : Vacation) : Command :=
  .action "vacation".toList ([.tag "days".toList, .number (max vacation.days 1),
    .tag "subject".toList, .text (cleaned vacation.subject.toList)] ++
    (vacation.sender.toList.flatMap fun sender =>
      [.tag "from".toList, .text (cleaned sender.toList)]) ++
    (if vacation.addresses.isEmpty then []
      else [.tag "addresses".toList,
        .texts (vacation.addresses.map fun address => cleaned address.toList)]) ++
    [.text (cleaned vacation.body.toList)])

def boundsOf (vacation : Vacation) (dated : Bool) : List Sieve.Test :=
  if dated then
    (vacation.during.from?.map (boundOf "ge")).toList ++
      (vacation.during.to?.map (boundOf "lt")).toList
  else []

/-- The reply, in a block where it is tested against its dates. -/
def replyOf (vacation : Vacation) (dated : Bool) : Command :=
  match boundsOf vacation dated with
  | [] => vacationOf vacation
  | [one] => .control "if".toList one [vacationOf vacation]
  | many => .control "if".toList (.many "allof".toList many) [vacationOf vacation]

theorem spells_bound (relation : String) (instant : DateTime) :
    Spells (bound relation instant) (boundOf relation instant) := by
  have hlead : Cuts "currentdate :zone \"+0000\" :value ".toList
      [.word "currentdate".toList, .tag "zone".toList, .quoted "+0000".toList,
        .tag "value".toList] := fun _ _ => rfl
  have hiso : Cuts " \"iso8601\" ".toList [.quoted "iso8601".toList] := fun _ _ => rfl
  have hdate := cuts_quoted (String.ofList (IsoDate.format instant))
  rw [String.toList_ofList] at hdate
  have hall := ((hlead.append (cuts_quoted relation)).append hiso).append hdate
  unfold Spells bound boundOf
  rw [Sieve.Test.tokens, Sieve.Test.Written]
  refine ⟨hall.to, ?_⟩
  simp [Argument.Written]

omit [IsoDate] in
theorem cuts_sender (sender : Option String) :
    Cuts (match sender with
        | some sender => " :from ".toList ++ quoted sender
        | none => [])
      (argumentsTokens (sender.toList.flatMap fun sender =>
        [.tag "from".toList, .text (cleaned sender.toList)])) := by
  cases sender with
  | none => exact .nil
  | some sender =>
    have hlead : Cuts " :from ".toList [.tag "from".toList] := fun _ _ => rfl
    exact hlead.append (cuts_quoted sender)

omit [IsoDate] in
theorem cuts_addresses (addresses : List String) :
    Cuts (if addresses.isEmpty then []
        else " :addresses ".toList ++ bracketed (addresses.map quoted))
      (argumentsTokens (if addresses.isEmpty then []
        else [.tag "addresses".toList,
          .texts (addresses.map fun address => cleaned address.toList)])) := by
  cases addresses with
  | nil => exact .nil
  | cons address rest =>
    have hlead : Cuts " :addresses ".toList [.tag "addresses".toList] := fun _ _ => rfl
    have hall := hlead.append (@cuts_bracketed (address :: rest) (by simp))
    rw [if_neg (by simp), if_neg (by simp)]
    simpa [argumentsTokens, Argument.tokens] using hall

variable (vacation : Vacation)

omit [IsoDate] in
theorem cuts_vacation :
    Cuts (vacationCommand vacation) (vacationOf vacation).tokens ∧ (vacationOf vacation).Written := by
  have hlead : Cuts "vacation :days ".toList [.word "vacation".toList, .tag "days".toList] :=
    fun _ _ => rfl
  have hsubject : Cuts (' ' :: ":subject ".toList) [.tag "subject".toList] := fun _ _ => rfl
  have hspace : Cuts " ".toList [] := fun _ _ => rfl
  have hend : Cuts ";".toList [.mark ';'] := fun _ _ => rfl
  have hdays := (hlead.appendTo (Sieve.cutsTo_number (max vacation.days 1))).append rfl hsubject
  have hhead := (hdays.append (cuts_quoted vacation.subject)).append (cuts_sender vacation.sender)
  have hbody := ((hhead.append (cuts_addresses vacation.addresses)).append hspace).append
    (cuts_quoted vacation.body)
  unfold vacationCommand vacationOf
  rw [Command.tokens, Command.Written]
  refine ⟨?_, ?_⟩
  · have hall := hbody.append hend
    simp only [argumentsTokens, List.flatMap_append, List.flatMap_cons, List.flatMap_nil,
      Argument.tokens, List.append_assoc, List.cons_append, List.nil_append,
      List.append_nil] at hall ⊢
    exact hall
  · intro argument hargument
    simp only [List.mem_append, List.mem_flatMap, List.mem_cons, List.not_mem_nil, or_false] at hargument
    rcases hargument with ((hargument | ⟨sender, _, hargument⟩) | hargument) | rfl
    · rcases hargument with rfl | rfl | rfl | rfl <;> exact trivial
    · rcases hargument with rfl | rfl <;> exact trivial
    · split at hargument
      · cases hargument
      · rename_i hsome
        simp only [List.mem_cons, List.not_mem_nil, or_false] at hargument
        rcases hargument with rfl | rfl
        · exact trivial
        · simpa [Argument.Written] using hsome
    · exact trivial

theorem spells_bounds (dated : Bool) :
    List.Forall₂ Spells (bounds vacation dated) (boundsOf vacation dated) := by
  have hone : ∀ (relation : String) (instant : Option DateTime),
      List.Forall₂ Spells (instant.map (bound relation)).toList
        (instant.map (boundOf relation)).toList := by
    intro relation instant
    cases instant with
    | none => exact .nil
    | some instant => exact .cons (spells_bound relation instant) .nil
  unfold bounds boundsOf
  split
  · exact List.rel_append (hone "ge" _) (hone "lt" _)
  · exact .nil

theorem cuts_reply (dated : Bool) :
    Cuts (vacationBlock vacation dated) (replyOf vacation dated).tokens ∧
      (replyOf vacation dated).Written := by
  obtain ⟨hcommand, hwritten⟩ := cuts_vacation vacation
  have hbounds := spells_bounds vacation dated
  have hname : Cuts "\r\n# Vacation reply\r\n".toList [] := fun _ _ => rfl
  have hbreak : Cuts "\r\n".toList [] := fun _ _ => rfl
  have hif : Cuts "if ".toList [.word "if".toList] := fun _ _ => rfl
  have hopen : Cuts (' ' :: "\x7b\r\n    ".toList) [.mark '{'] := fun _ _ => rfl
  have hclose : Cuts "\r\n\x7d\r\n".toList [.mark '}'] := fun _ _ => rfl
  unfold vacationBlock replyOf
  generalize bounds vacation dated = texts at hbounds ⊢
  generalize boundsOf vacation dated = tests at hbounds ⊢
  cases hbounds with
  | nil =>
    refine ⟨?_, hwritten⟩
    have hall := hname.append (hcommand.append hbreak)
    rw [List.nil_append] at hall
    simpa using hall
  | @cons text test texts tests hone hmore =>
    cases hmore with
    | nil =>
      have hall := hname.append ((hif.append (hone.1.append rfl hopen)).append
        (hcommand.append hclose))
      rw [Command.tokens, Command.Written]
      refine ⟨?_, hone.2, hwritten, trivial⟩
      rw [commandsTokens, commandsTokens, List.append_nil]
      simp only [List.append_assoc, List.cons_append, List.nil_append] at hall ⊢
      exact hall
    | @cons next other nexts others hnext hrest =>
      have hboth := List.Forall₂.cons hone (.cons hnext hrest)
      obtain ⟨hcuts, hwhole⟩ := cuts_tests (by simp) hboth
      have hlead : Cuts "if allof (".toList [.word "if".toList, .word "allof".toList, .mark '('] :=
        fun _ _ => rfl
      have hspace : Cuts " \x7b\r\n    ".toList [.mark '{'] := fun _ _ => rfl
      have hall := hname.append (((hlead.append hcuts).append hspace).append
        (hcommand.append hclose))
      rw [Command.tokens, Command.Written, Sieve.Test.tokens, Sieve.Test.Written]
      refine ⟨?_, ⟨by simp, hwhole⟩, hwritten, trivial⟩
      rw [commandsTokens, commandsTokens, List.append_nil]
      simp only [List.append_assoc, List.cons_append, List.nil_append] at hall ⊢
      exact hall

end Vacation

/-! ## The script -/

def requireOf (needs : List String) : List Command :=
  if (requireNames needs).isEmpty then []
  else [.action "require".toList
    [.texts ((requireNames needs).map fun name => cleaned name.toList)]]

theorem cuts_require (needs : List String) :
    Cuts (requireText needs) (commandsTokens (requireOf needs)) ∧
      Sieve.CommandsWritten (requireOf needs) := by
  unfold requireText requireOf
  split
  · exact ⟨.nil, trivial⟩
  · rename_i hsome
    have hnonempty : requireNames needs ≠ [] := by simpa using hsome
    have hlead : Cuts "require ".toList [.word "require".toList] := fun _ _ => rfl
    have hend : Cuts ";\r\n".toList [.mark ';'] := fun _ _ => rfl
    have hall := (hlead.append (cuts_bracketed hnonempty)).append hend
    rw [commandsTokens, commandsTokens, Command.tokens, Sieve.CommandsWritten, Command.Written]
    refine ⟨?_, by simpa [Argument.Written] using hnonempty, trivial⟩
    simpa [argumentsTokens] using hall

variable [IsoDate]

def repliesOf (vacation : Option Vacation) (extensions : List String) (now : DateTime) :
    List Command :=
  match vacation with
  | none => []
  | some vacation =>
    if !has extensions "vacation" then []
    else
      let dated := has extensions "date" && has extensions "relational"
      let bounded := vacation.during.from?.isSome || vacation.during.to?.isSome
      if bounded && !dated && !vacation.activeAt now then []
      else [replyOf vacation (bounded && dated)]

theorem cuts_placed (vacation : Option Vacation) (extensions : List String) (now : DateTime) :
    Cuts (placeVacation vacation extensions now).1
        (commandsTokens (repliesOf vacation extensions now)) ∧
      Sieve.CommandsWritten (repliesOf vacation extensions now) := by
  unfold placeVacation repliesOf
  cases vacation with
  | none => exact ⟨.nil, trivial⟩
  | some vacation =>
    dsimp only
    split
    · exact ⟨.nil, trivial⟩
    · split
      · exact ⟨.nil, trivial⟩
      · obtain ⟨hcuts, hwritten⟩ := cuts_reply vacation
          ((vacation.during.from?.isSome || vacation.during.to?.isSome) &&
            (has extensions "date" && has extensions "relational"))
        refine ⟨?_, hwritten, trivial⟩
        rw [commandsTokens, commandsTokens, List.append_nil]
        exact hcuts

omit [IsoDate] in
/-- What says who wrote the script is one comment. -/
theorem cuts_opening {client : List Char} (breakless : ∀ c ∈ client, c ≠ '\r' ∧ c ≠ '\n') :
    Cuts ("# Written by ".toList ++ client ++
      ", and replaced whenever its rules change: edit them there.\r\n".toList) [] := by
  have hopening : ∀ c ∈ " Written by ".toList, c ≠ '\r' ∧ c ≠ '\n' := by decide
  have hrest : ∀ c ∈ ", and replaced whenever its rules change: edit them there.".toList,
      c ≠ '\r' ∧ c ≠ '\n' := by decide
  have hhash : "# Written by ".toList = '#' :: " Written by ".toList := by decide
  have hend : ", and replaced whenever its rules change: edit them there.\r\n".toList =
      ", and replaced whenever its rules change: edit them there.".toList ++ ['\r', '\n'] := by
    decide
  rw [hhash, hend, List.cons_append, List.cons_append, ← List.append_assoc]
  apply Sieve.cuts_comment
  intro c hc
  rcases List.mem_append.mp hc with hc | hc
  · rcases List.mem_append.mp hc with hc | hc
    · exact hopening c hc
    · exact breakless c hc
  · exact hrest c hc

def neededBy (rules : List Rule) (vacation : Option Vacation) (extensions : List String)
    (places : Places) (now : DateTime) : List String :=
  ((ordered rules).foldl (write places extensions) ⟨[], [], [], []⟩).needs ++
    (placeVacation vacation extensions now).2.1

/-- A script is read as the extensions it asks for, one block for each rule it says, in the order
they run, and the reply. -/
theorem parse_compile (rules : List Rule) (vacation : Option Vacation) (extensions : List String)
    (places : Places) {client : String} (now : DateTime)
    (breakless : ∀ c ∈ client.toList, c ≠ '\r' ∧ c ≠ '\n') :
    Sieve.parse (compile rules vacation extensions places client now).script =
      some (requireOf (neededBy rules vacation extensions places now) ++
        blocksOf rules places extensions ++ repliesOf vacation extensions now) := by
  obtain ⟨hreply, hreplyWritten⟩ := cuts_placed vacation extensions now
  obtain ⟨hbody, hbodyWritten⟩ := @cuts_written places extensions (ordered rules)
    ⟨[], [], [], []⟩ [] .nil trivial
  have hneeds := cuts_require (neededBy rules vacation extensions places now)
  refine Sieve.parse_tokens ?_ ?_
  · rw [Sieve.commandsTokens_append, Sieve.commandsTokens_append]
    exact (((cuts_opening breakless).append hneeds.1).append hbody).append hreply
  · rw [Sieve.commandsWritten_append, Sieve.commandsWritten_append]
    exact ⟨⟨hneeds.2, hbodyWritten⟩, hreplyWritten⟩

end Mailo.Proto.Sieve
