import Mailo.Proto.Sieve.Neat
import Mailo.Proto.Sieve.Running

/-!
# Nothing escapes its place in a script

A compiled script is read as the extensions it asks for, a block for each rule it says and the
reply, each text where it was put. Its comments are the opening one, one with the name of each rule
it says, and one over the reply.
-/

namespace Mailo.Proto.Sieve

open Domain Library

open Library.Sieve (Command)

/-- The command a rule the script says is written as. -/
def SaidAs (places : Places) (rule : Rule) (command : Command) : Prop :=
  ∃ doing, rule.actions.foldlM (act places) ⟨[], none⟩ = .ok doing ∧
    command = .control "if".toList (testOf rule.filter rule.account) (bodyOf doing rule.after)

theorem blockOf_said {places : Places} {extensions : List String} {rule : Rule} {command : Command}
    (h : blockOf places extensions rule = some command) : SaidAs places rule command := by
  unfold blockOf at h
  split at h
  · rename_i doing _ hdoing
    exact ⟨doing, hdoing, (Option.some.inj h).symm⟩
  · cases h

theorem blocks_said (rules : List Rule) (places : Places) (extensions : List String) :
    List.Forall₂ (SaidAs places) (rules.filter (isMapped places extensions))
      (rules.filterMap (blockOf places extensions)) := by
  induction rules with
  | nil => exact .nil
  | cons rule rest ih =>
    cases hblock : blockOf places extensions rule with
    | none =>
      rw [List.filter_cons_of_neg (isMapped_of_none hblock), List.filterMap_cons_none hblock]
      exact ih
    | some command =>
      rw [List.filter_cons_of_pos (isMapped_of_some hblock), List.filterMap_cons_some hblock]
      exact .cons (blockOf_said hblock) ih

/-- The extensions one rule needs where it is said. -/
def needsOf (places : Places) (extensions : List String) (rule : Rule) : List String :=
  match block rule places extensions with
  | .ok (_, needs) => needs
  | .error _ => []

/-- The comment over a rule's block. -/
def noteOf (rule : Rule) : List Char := ' ' :: comment rule.name

theorem written_rules {places : Places} {extensions : List String} (rules : List Rule)
    {written : Written} {found : List (List Char)} (h : Neat written.body found) :
    (rules.foldl (write places extensions) written).needs =
        written.needs ++ rules.flatMap (needsOf places extensions) ∧
      Neat (rules.foldl (write places extensions) written).body
        (found ++ (rules.filter (isMapped places extensions)).map noteOf) := by
  induction rules generalizing written found with
  | nil =>
    rw [List.foldl_nil, List.flatMap_nil, List.append_nil, List.filter_nil, List.map_nil,
      List.append_nil]
    exact ⟨rfl, h⟩
  | cons rule rest ih =>
    rw [List.foldl_cons, List.flatMap_cons]
    cases hblock : block rule places extensions with
    | error why =>
      have hnot : ¬isMapped places extensions rule = true := by
        rw [isMapped_iff, hblock]
        rintro ⟨_, _, heq⟩
        cases heq
      have hwrite : write places extensions written rule =
          { written with localOnly := written.localOnly ++ [(rule.name, why)] } := by
        rw [write, hblock]
      have hneeds : needsOf places extensions rule = [] := by rw [needsOf, hblock]
      rw [List.filter_cons_of_neg hnot, hwrite, hneeds, List.nil_append]
      exact ih h
    | ok pair =>
      have hmapped : isMapped places extensions rule = true :=
        isMapped_iff.mpr ⟨pair.1, pair.2, hblock⟩
      have hwrite : write places extensions written rule =
          { written with
            body := written.body ++ pair.1
            needs := written.needs ++ pair.2
            mapped := written.mapped ++ [rule.name] } := by
        rw [write, hblock]
      have hneeds : needsOf places extensions rule = pair.2 := by rw [needsOf, hblock]
      rw [List.filter_cons_of_pos hmapped, hwrite, hneeds, List.map_cons]
      obtain ⟨hall, hneat⟩ := @ih { written with
        body := written.body ++ pair.1
        needs := written.needs ++ pair.2
        mapped := written.mapped ++ [rule.name] } _ (h.append (neat_block hblock))
      refine ⟨by rw [hall, List.append_assoc], ?_⟩
      rw [List.append_assoc, List.singleton_append] at hneat
      exact hneat

/-! ## The reply -/

section Vacation

variable [IsoDate]

theorem neat_bound (relation : String) (instant : DateTime) : Neat (bound relation instant) [] := by
  have hzone : Neat "currentdate :zone ".toList [] := neat_of rfl
  have hvalue : Neat " :value ".toList [] := neat_of rfl
  have hspace : Neat " ".toList [] := neat_of rfl
  have hall := ((((((hzone.append (neat_quoted "+0000")).append hvalue).append
    (neat_quoted relation)).append hspace).append (neat_quoted "iso8601")).append hspace).append
      (neat_quoted (String.ofList (IsoDate.format instant)))
  have hlead : "currentdate :zone \"+0000\" :value ".toList =
      "currentdate :zone ".toList ++ quoted "+0000" ++ " :value ".toList := by decide
  have hiso : " \"iso8601\" ".toList = " ".toList ++ quoted "iso8601" ++ " ".toList := by decide
  unfold bound
  rw [hlead, hiso]
  simp only [List.append_assoc, List.append_nil] at hall ⊢
  exact hall

variable (vacation : Vacation)

omit [IsoDate] in
theorem neat_vacation : Neat (vacationCommand vacation) [] := by
  have hdays : Neat "vacation :days ".toList [] := neat_of rfl
  have hsubject : Neat " :subject ".toList [] := neat_of rfl
  have hspace : Neat " ".toList [] := neat_of rfl
  have hend : Neat ";".toList [] := neat_of rfl
  have hlead : Neat " :from ".toList [] := neat_of rfl
  have haddresses : Neat (if vacation.addresses.isEmpty then []
      else " :addresses ".toList ++ bracketed (vacation.addresses.map quoted)) [] := by
    split
    · exact neat_nil
    · have hlead : Neat " :addresses ".toList [] := neat_of rfl
      exact hlead.append (neat_bracketed (neat_strings _))
  have hall (sender : List Char) (hsender : Neat sender []) :=
    (((((((hdays.append (neat_number (max vacation.days 1))).append hsubject).append
      (neat_quoted vacation.subject)).append hsender).append haddresses).append hspace).append
        (neat_quoted vacation.body)).append hend
  unfold vacationCommand
  cases vacation.sender with
  | none => exact hall [] neat_nil
  | some sender => exact hall (" :from ".toList ++ quoted sender) (hlead.append (neat_quoted sender))

theorem neat_bounds (dated : Bool) :
    ∀ part ∈ bounds vacation dated, Neat part [] := by
  have hone : ∀ (relation : String) (instant : Option DateTime),
      ∀ part ∈ (instant.map (bound relation)).toList, Neat part [] := by
    intro relation instant part hpart
    cases instant with
    | none => exact absurd hpart List.not_mem_nil
    | some instant =>
      rw [List.mem_singleton.mp hpart]
      exact neat_bound relation instant
  unfold bounds
  split
  · intro part hpart
    rcases List.mem_append.mp hpart with hpart | hpart
    · exact hone _ _ part hpart
    · exact hone _ _ part hpart
  · exact fun _ h => absurd h List.not_mem_nil

def replyNote : List Char := " Vacation reply".toList

theorem neat_reply (dated : Bool) :
    Neat (vacationBlock vacation dated) [replyNote] := by
  have hbreak : Neat "\r\n".toList [] := neat_of rfl
  have hnote : Neat ('#' :: (replyNote ++ "\r\n".toList)) [replyNote] :=
    neat_note (by decide) (by decide)
  have hlead : "\r\n# Vacation reply\r\n".toList =
      "\r\n".toList ++ '#' :: (replyNote ++ "\r\n".toList) := by decide
  have hcommand := neat_vacation vacation
  have hclose : Neat "\r\n\x7d\r\n".toList [] := neat_of rfl
  have hbounds := neat_bounds vacation dated
  unfold vacationBlock
  rw [hlead]
  refine (hbreak.append hnote).append (?_ : Neat _ [])
  generalize bounds vacation dated = parts at hbounds
  split
  · exact hcommand.append hbreak
  · rename_i one
    have hif : Neat "if ".toList [] := neat_of rfl
    have hopen : Neat " \x7b\r\n    ".toList [] := neat_of rfl
    exact (((hif.append (hbounds one (.head _))).append hopen).append hcommand).append
      hclose
  · have hif : Neat "if allof (".toList [] := neat_of rfl
    have hopen : Neat ") \x7b\r\n    ".toList [] := neat_of rfl
    exact (((hif.append (neat_joined (neat_of rfl) hbounds)).append hopen).append hcommand).append
      hclose

theorem neat_placed (vacation : Option Vacation) (extensions : List String) (now : DateTime) :
    Neat (placeVacation vacation extensions now).1
      ((repliesOf vacation extensions now).map fun _ => replyNote) := by
  unfold placeVacation repliesOf
  cases vacation with
  | none => exact neat_nil
  | some vacation =>
    dsimp only
    split
    · exact neat_nil
    · split
      · exact neat_nil
      · exact neat_reply vacation _

end Vacation

/-! ## The script -/

theorem neat_require (needs : List String) : Neat (requireText needs) [] := by
  unfold requireText
  split
  · exact neat_nil
  · have hlead : Neat "require ".toList [] := neat_of rfl
    have hend : Neat ";\r\n".toList [] := neat_of rfl
    exact (hlead.append (neat_bracketed (neat_strings _))).append hend

def openingNote (client : List Char) : List Char :=
  " Written by ".toList ++ client ++
    ", and replaced whenever its rules change: edit them there.".toList

theorem neat_opening {client : List Char} (breakless : ∀ c ∈ client, c ≠ '\r' ∧ c ≠ '\n')
    (nulless : ∀ c ∈ client, c.toNat ≠ 0) :
    Neat ("# Written by ".toList ++ client ++
      ", and replaced whenever its rules change: edit them there.\r\n".toList)
      [openingNote client] := by
  have hfront : ∀ c ∈ " Written by ".toList, (c ≠ '\r' ∧ c ≠ '\n') ∧ c.toNat ≠ 0 := by decide
  have hback : ∀ c ∈ ", and replaced whenever its rules change: edit them there.".toList,
      (c ≠ '\r' ∧ c ≠ '\n') ∧ c.toNat ≠ 0 := by decide
  have hall : ∀ c ∈ openingNote client, (c ≠ '\r' ∧ c ≠ '\n') ∧ c.toNat ≠ 0 := by
    intro c hc
    rcases List.mem_append.mp hc with hc | hc
    · rcases List.mem_append.mp hc with hc | hc
      · exact hfront c hc
      · exact ⟨breakless c hc, nulless c hc⟩
    · exact hback c hc
  have hhash : "# Written by ".toList = '#' :: " Written by ".toList := by decide
  have hend : ", and replaced whenever its rules change: edit them there.\r\n".toList =
      ", and replaced whenever its rules change: edit them there.".toList ++ "\r\n".toList := by
    decide
  have hnote := neat_note (fun c hc => (hall c hc).1) (fun c hc => (hall c hc).2)
  rw [hhash, hend, List.cons_append, List.cons_append, ← List.append_assoc]
  exact hnote

variable [IsoDate]

/-- A script is read as one request for the extensions it needs, where it needs any, one block for
each rule it says, in order, and the reply; each string denotes its text, each comment is one this
client wrote, and no text it was given ends one or begins another. -/
theorem compile_whole (rules : List Rule) (vacation : Option Vacation) (extensions : List String)
    (places : Places) {client : String} (now : DateTime)
    (breakless : ∀ c ∈ client.toList, c ≠ '\r' ∧ c ≠ '\n')
    (nulless : ∀ c ∈ client.toList, c.toNat ≠ 0) :
    ∃ said blocks replies needs,
      said = (ordered rules).filter (isMapped places extensions) ∧
      (compile rules vacation extensions places client now).mapped = said.map Rule.name ∧
      List.Forall₂ (SaidAs places) said blocks ∧
      replies = repliesOf vacation extensions now ∧
      needs = (ordered rules).flatMap (needsOf places extensions) ++
        (placeVacation vacation extensions now).2.1 ∧
      Sieve.parse (compile rules vacation extensions places client now).script =
        some (requireOf needs ++ blocks ++ replies) ∧
      Sieve.notes (compile rules vacation extensions places client now).script =
        openingNote client.toList :: said.map noteOf ++ replies.map (fun _ => replyNote) ∧
      Crlf.Paired '\r' '\n' (compile rules vacation extensions places client now).script ∧
      ∀ c ∈ (compile rules vacation extensions places client now).script, c.toNat ≠ 0 := by
  have hparse := parse_compile rules vacation extensions places now breakless
  obtain ⟨hneeds, hbody⟩ := @written_rules places extensions (ordered rules) ⟨[], [], [], []⟩ []
    neat_nil
  have hneat := (((neat_opening breakless nulless).append (neat_require
    (neededBy rules vacation extensions places now))).append hbody).append
    (neat_placed vacation extensions now)
  have hread : Sieve.lex (compile rules vacation extensions places client now).script ≠ none := by
    intro hnone
    rw [Sieve.parse, hnone] at hparse
    cases hparse
  have hnotes := Sieve.notes_eq hneat.noted hread
  rw [neededBy, hneeds, List.nil_append] at hparse
  rw [List.append_nil, List.nil_append] at hnotes
  exact ⟨_, _, _, _, rfl, compile_mapped rules vacation extensions places client now,
    blocks_said (ordered rules) places extensions, rfl, rfl, hparse, hnotes, hneat.paired,
    hneat.nulless⟩

omit [IsoDate]

/-- A rule whose name, text and folder are written like parts of a script. -/
def oddRule : Rule :=
  ruleOn 1 "a\r\nkeep; # \"" (.subject (.contains "\"; stop; # \\")) [.file "In\"box"] .stop

theorem oddRule_notes :
    Sieve.notes (@compile ⟨fun _ => []⟩ [oddRule] none ["fileinto"] annsPlaces "mailo" 0).script =
      [openingNote "mailo".toList, " a  keep; # \"".toList] := by
  obtain ⟨said, _, replies, _, hsaid, _, _, hreplies, _, _, hnotes, _, _⟩ :=
    @compile_whole ⟨fun _ => []⟩ [oddRule] none ["fileinto"] annsPlaces "mailo" 0 (by decide)
      (by decide)
  rw [hnotes, hsaid, hreplies]
  decide +kernel

/-- A script with a rule holds a second comment, and the client's name is written as it is. -/
theorem script_otherwise :
    (Sieve.notes (@compile ⟨fun _ => []⟩ [oddRule] none ["fileinto"] annsPlaces "mailo"
        0).script).length = 2 ∧
      (∀ c ∈ "mail\x00o".toList, c ≠ '\r' ∧ c ≠ '\n') ∧
      '\x00' ∈ (@compile ⟨fun _ => []⟩ [] none [] annsPlaces "mail\x00o" 0).script := by
  decide +kernel

end Mailo.Proto.Sieve
