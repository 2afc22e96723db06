import Mailo.Proto.Sieve.Acting

/-!
# A script does what its rules do

A rule left to this client is not in the script, so a script runs as the rules written into it
would run alone. Those are the ones a run of every rule applies, up to where a rule left to this
client stops it.
-/

namespace Mailo.Proto.Sieve

open Domain Library

open Library.Sieve (Command Ran runAll)

def isMapped (places : Places) (extensions : List String) (rule : Rule) : Bool :=
  (blockOf places extensions rule).isSome

variable {extensions : List String} {rule : Rule}

variable {places : Places}

variable {command : Command}

theorem isMapped_of_some (h : blockOf places extensions rule = some command) :
    isMapped places extensions rule = true := by
  unfold isMapped
  rw [h]
  rfl

theorem isMapped_of_none (h : blockOf places extensions rule = none) :
    ¬isMapped places extensions rule = true := by
  unfold isMapped
  rw [h]
  simp

theorem isMapped_iff :
    isMapped places extensions rule = true ↔
      ∃ text needs, block rule places extensions = .ok (text, needs) := by
  unfold isMapped
  cases hblock : block rule places extensions with
  | error why =>
    rw [blockOf_error hblock]
    simp
  | ok pair =>
    obtain ⟨text, needs⟩ := pair
    obtain ⟨command, hcommand, _⟩ := cuts_block hblock
    rw [hcommand]
    simp

theorem foldl_write_mapped (places : Places) (extensions : List String) (rules : List Rule)
    (written : Written) :
    (rules.foldl (write places extensions) written).mapped =
      written.mapped ++ (rules.filter (isMapped places extensions)).map Rule.name := by
  induction rules generalizing written with
  | nil => simp
  | cons rule rest ih =>
    rw [List.foldl_cons, ih]
    cases hblock : block rule places extensions with
    | error why =>
      have hnot : ¬isMapped places extensions rule = true := by
        rw [isMapped_iff, hblock]
        simp
      rw [List.filter_cons_of_neg hnot]
      unfold write
      rw [hblock]
    | ok pair =>
      have hmapped : isMapped places extensions rule = true :=
        isMapped_iff.mpr ⟨pair.1, pair.2, hblock⟩
      rw [List.filter_cons_of_pos hmapped]
      unfold write
      rw [hblock]
      simp

/-- The rules a compilation names as written are the ones with a block. -/
theorem compile_mapped [IsoDate] (rules : List Rule) (vacation : Option Vacation)
    (extensions : List String) (places : Places) (client : String) (now : DateTime) :
    (compile rules vacation extensions places client now).mapped =
      ((ordered rules).filter (isMapped places extensions)).map Rule.name :=
  foldl_write_mapped places extensions (ordered rules) ⟨[], [], [], []⟩

theorem blockOf_eq_some (h : blockOf places extensions rule = some command) :
    ∃ condition doing, test rule.filter rule.account = .ok condition ∧ FlagCommands doing ∧
      command = .control "if".toList (testOf rule.filter rule.account)
        (bodyOf doing rule.after) := by
  unfold blockOf at h
  split at h
  · rename_i pair doing hblock hdoing
    cases htest : test rule.filter rule.account with
    | error why =>
      unfold block at hblock
      rw [htest] at hblock
      cases hblock
    | ok condition =>
      refine ⟨condition, doing, rfl, ?_, (Option.some.inj h).symm⟩
      exact foldlM_flags hdoing fun flag hflag => by cases hflag
  · cases h

theorem runAll_actions {mail : Sieve.Mail} {commands : List Command}
    (quiet : ∀ command ∈ commands, ∃ name arguments, command = .action name arguments ∧
      name ≠ "stop".toList) :
    ∃ actions, runAll mail commands = ⟨[], actions, false⟩ := by
  induction commands with
  | nil => exact ⟨[], rfl⟩
  | cons command rest ih =>
    obtain ⟨name, arguments, rfl, hname⟩ := quiet command (.head _)
    obtain ⟨actions, hrest⟩ := ih fun command h => quiet command (.tail _ h)
    refine ⟨(name, arguments) :: actions, ?_⟩
    rw [Sieve.runAll, Sieve.Command.run, if_neg hname, hrest]
    rfl

theorem runAll_body (mail : Sieve.Mail) {doing : Doing} (flags : FlagCommands doing)
    (after : AfterMatch) :
    (runAll mail (bodyOf doing after)).entered = [] ∧
      (runAll mail (bodyOf doing after)).stopped = decide (after = .stop) := by
  have hquiet : ∀ command ∈ doing.flags.map flagOf ++ doing.destination.toList.map fileOf,
      ∃ name arguments, command = .action name arguments ∧ name ≠ "stop".toList := by
    intro command hcommand
    rcases List.mem_append.mp hcommand with h | h
    · obtain ⟨flag, hflag, rfl⟩ := List.mem_map.mp h
      refine ⟨_, _, rfl, ?_⟩
      rcases flags flag hflag with hname | hname
      · rw [hname]
        decide
      · rw [hname]
        decide
    · obtain ⟨path, _, rfl⟩ := List.mem_map.mp h
      exact ⟨_, _, rfl, by decide⟩
  obtain ⟨actions, hactions⟩ := @runAll_actions mail _ hquiet
  unfold bodyOf
  rw [Sieve.runAll_append, hactions]
  cases after with
  | «continue» | stop => exact ⟨rfl, rfl⟩

theorem run_block {mail : Sieve.Mail} {places : Places} {extensions : List String} {rule : Rule}
    {command : Command} (h : blockOf places extensions rule = some command) :
    ((testOf rule.filter rule.account).holds mail = true →
      (command.run mail).entered = [command] ∧
        (command.run mail).stopped = decide (rule.after = .stop)) ∧
    ((testOf rule.filter rule.account).holds mail = false → command.run mail = .nothing) := by
  obtain ⟨_, doing, _, hflags, rfl⟩ := blockOf_eq_some h
  obtain ⟨hentered, hstopped⟩ := runAll_body mail hflags rule.after
  constructor
  · intro hholds
    rw [Sieve.Command.run, hholds, if_pos (by decide)]
    rw [hentered]
    exact ⟨rfl, hstopped⟩
  · intro hholds
    rw [Sieve.Command.run, hholds, if_neg (by simp)]

/-! ## The rules written, and all of them -/

theorem runAll_requireOf (mail : Sieve.Mail) (needs : List String) :
    (runAll mail (requireOf needs)).entered = [] ∧
      (runAll mail (requireOf needs)).stopped = false := by
  unfold requireOf
  split
  · exact ⟨rfl, rfl⟩
  · exact ⟨rfl, rfl⟩

theorem entered_andThen (first next : Ran) :
    (first.andThen next).entered =
      first.entered ++ if first.stopped then [] else next.entered := by
  unfold Ran.andThen
  split
  · rw [List.append_nil]
  · rfl

section Running

variable [Unicode] [FoldTable] {mail : Sieve.Mail} {message : Message} {places : Places}
  {extensions : List String} {leaves : Rule → MatchCtx → MatchCtx}

/-- A rule of the message's account that runs, and reads as the server does where it is written. -/
structure Runs (mail : Sieve.Mail) (message : Message) (places : Places) (extensions : List String)
    (rule : Rule) : Prop where
  enabled : rule.state = .enabled
  account : rule.account = message.account
  readable : isMapped places extensions rule = true → Readable mail message rule.filter

variable {ctx : MatchCtx}

/-- A written rule's test holds where the rule fits, whatever rules before it have done. -/
theorem holds_fits (delivered : Delivered mail message) {command : Command}
    (runs : Runs mail message places extensions rule)
    (h : blockOf places extensions rule = some command) (about : About message ctx) :
    (testOf rule.filter rule.account).holds mail = rule.fits ctx := by
  obtain ⟨condition, _, htest, _⟩ := blockOf_eq_some h
  rw [runs.account] at htest
  unfold Rule.fits
  rw [runs.account, test_holds delivered about rule.filter htest (runs.readable (isMapped_of_some h)),
    runs.enabled]
  rfl

variable {rules : List Rule}

/-- The blocks a script enters are those of the rules written that a run of them applies. -/
theorem runAll_blocks (delivered : Delivered mail message)
    (keeps : ∀ rule ctx, About message ctx → About message (leaves rule ctx))
    (runs : ∀ rule ∈ rules, Runs mail message places extensions rule) (about : About message ctx) :
    (runAll mail (rules.filterMap (blockOf places extensions))).entered =
      (rulesOver leaves ctx (rules.filter (isMapped places extensions))).filterMap
        (blockOf places extensions) := by
  induction rules generalizing ctx with
  | nil => rfl
  | cons rule rest ih =>
    have hrule := runs rule (.head _)
    have hrest := fun rule h => runs rule (.tail _ h)
    cases hblock : blockOf places extensions rule with
    | none =>
      have hnot := isMapped_of_none hblock
      rw [List.filterMap_cons_none hblock, List.filter_cons_of_neg hnot]
      exact ih hrest about
    | some command =>
      have hmapped := isMapped_of_some hblock
      have hfits := holds_fits delivered hrule hblock about
      obtain ⟨hentered, hpassed⟩ := @run_block mail _ _ _ _ hblock
      rw [List.filterMap_cons_some hblock, List.filter_cons_of_pos hmapped, Sieve.runAll, rulesOver]
      cases hholds : rule.fits ctx with
      | false =>
        rw [hpassed (hfits.trans hholds), Ran.nothing_andThen, if_neg (by simp)]
        exact ih hrest about
      | true =>
        obtain ⟨hone, hstopped⟩ := hentered (hfits.trans hholds)
        rw [if_pos rfl, List.filterMap_cons_some hblock]
        unfold Ran.andThen
        rw [hstopped]
        cases hafter : rule.after with
        | stop =>
          rw [if_pos (by decide), hone, if_pos rfl]
          rfl
        | «continue» =>
          rw [if_neg (by decide), if_neg (by decide)]
          rw [hone, ih hrest (keeps rule ctx about)]
          rfl

/-- A rule left to this client stops the run of every rule short of one written that fits. -/
inductive CutShort (leaves : Rule → MatchCtx → MatchCtx) (places : Places)
    (extensions : List String) : MatchCtx → List Rule → Prop where
  | stopped {ctx : MatchCtx} {rule later : Rule} {rest : List Rule} (fits : rule.fits ctx = true)
      (stop : rule.after = .stop) (left : isMapped places extensions rule = false)
      (later_mem : later ∈ rest) (written : isMapped places extensions later = true)
      (later_fits : later.fits ctx = true) : CutShort leaves places extensions ctx (rule :: rest)
  | passed {ctx : MatchCtx} {rule : Rule} {rest : List Rule} (misses : rule.fits ctx = false)
      (h : CutShort leaves places extensions ctx rest) :
      CutShort leaves places extensions ctx (rule :: rest)
  | went {ctx : MatchCtx} {rule : Rule} {rest : List Rule} (fits : rule.fits ctx = true)
      (goes : rule.after = .continue) (h : CutShort leaves places extensions (leaves rule ctx) rest) :
      CutShort leaves places extensions ctx (rule :: rest)

omit [Unicode] in
theorem cutShort_missed {rest : List Rule} (misses : rule.fits ctx = false) :
    CutShort leaves places extensions ctx (rule :: rest) ↔
      CutShort leaves places extensions ctx rest := by
  refine ⟨fun hcut => ?_, .passed misses⟩
  cases hcut with
  | stopped fits | went fits =>
    rw [misses] at fits
    cases fits
  | passed _ h => exact h

omit [Unicode] in
theorem cutShort_stopped {rest : List Rule} (fits : rule.fits ctx = true)
    (stop : rule.after = .stop) : CutShort leaves places extensions ctx (rule :: rest) ↔
      isMapped places extensions rule = false ∧
        ∃ later ∈ rest, isMapped places extensions later = true ∧ later.fits ctx = true := by
  constructor
  · intro hcut
    cases hcut with
    | stopped _ _ left later_mem written later_fits =>
      exact ⟨left, _, later_mem, written, later_fits⟩
    | passed misses =>
      rw [fits] at misses
      cases misses
    | went _ goes =>
      rw [stop] at goes
      cases goes
  · rintro ⟨left, _, later_mem, written, later_fits⟩
    exact .stopped fits stop left later_mem written later_fits

omit [Unicode] in
theorem cutShort_went {rest : List Rule} (fits : rule.fits ctx = true)
    (goes : rule.after = .continue) : CutShort leaves places extensions ctx (rule :: rest) ↔
      CutShort leaves places extensions (leaves rule ctx) rest := by
  refine ⟨fun hcut => ?_, .went fits goes⟩
  cases hcut with
  | stopped _ stop =>
    rw [goes] at stop
    cases stop
  | passed misses =>
    rw [fits] at misses
    cases misses
  | went _ _ h => exact h

theorem fits_same (delivered : Delivered mail message)
    (runs : Runs mail message places extensions rule)
    (mapped : isMapped places extensions rule = true) {other : MatchCtx}
    (about : About message ctx) (same : About message other) : rule.fits ctx = rule.fits other := by
  obtain ⟨command, hblock⟩ := Option.isSome_iff_exists.mp mapped
  exact (holds_fits delivered runs hblock about).symm.trans (holds_fits delivered runs hblock same)

omit [Unicode] in
theorem rulesOver_eq_nil {rules : List Rule} :
    rulesOver leaves ctx rules = [] ↔ ∀ rule ∈ rules, rule.fits ctx = false := by
  induction rules with
  | nil => simp [rulesOver]
  | cons rule rest ih =>
    rw [rulesOver]
    cases hfits : rule.fits ctx with
    | true => simp [hfits]
    | false => simp [hfits, ih]

/-- The rules written that a run of every rule applies are applied in a run of them alone, which
goes further exactly where a rule left to this client cuts the other short. -/
theorem rulesOver_mapped (delivered : Delivered mail message)
    (keeps : ∀ rule ctx, About message ctx → About message (leaves rule ctx))
    (runs : ∀ rule ∈ rules, Runs mail message places extensions rule) {other : MatchCtx}
    (about : About message ctx) (same : About message other) :
    (rulesOver leaves ctx rules).filter (isMapped places extensions) <+:
        rulesOver leaves other (rules.filter (isMapped places extensions)) ∧
      (rulesOver leaves other (rules.filter (isMapped places extensions)) =
          (rulesOver leaves ctx rules).filter (isMapped places extensions) ↔
        ¬ CutShort leaves places extensions ctx rules) := by
  induction rules generalizing ctx other with
  | nil => exact ⟨List.nil_prefix, fun _ h => (by cases h), fun _ => rfl⟩
  | cons rule rest ih =>
    have hrule := runs rule (.head _)
    have hrest := fun rule h => runs rule (.tail _ h)
    cases hmapped : isMapped places extensions rule with
    | false =>
      rw [List.filter_cons_of_neg (by simp [hmapped]), rulesOver]
      cases hholds : rule.fits ctx with
      | false =>
        rw [if_neg (by simp), cutShort_missed hholds]
        exact ih hrest about same
      | true =>
        rw [if_pos rfl, List.filter_cons_of_neg (by simp [hmapped])]
        cases hafter : rule.after with
        | stop =>
          rw [if_pos rfl, List.filter_nil, cutShort_stopped hholds hafter]
          refine ⟨List.nil_prefix, rulesOver_eq_nil.trans ⟨?_, fun hcut => ?_⟩⟩
          · rintro hnone ⟨-, later, hmem, hwritten, hfits⟩
            have hlater := hnone later (List.mem_filter.mpr ⟨hmem, hwritten⟩)
            rw [fits_same delivered (hrest later hmem) hwritten about same, hlater] at hfits
            cases hfits
          · intro later hlater
            obtain ⟨hmem, hwritten⟩ := List.mem_filter.mp hlater
            by_contra hfits
            rw [Bool.not_eq_false, ← fits_same delivered (hrest later hmem) hwritten about same]
              at hfits
            exact hcut ⟨hmapped, later, hmem, hwritten, hfits⟩
        | «continue» =>
          rw [if_neg (by decide), cutShort_went hholds hafter]
          exact ih hrest (keeps rule ctx about) same
    | true =>
      have hsame := fits_same delivered hrule hmapped about same
      rw [List.filter_cons_of_pos hmapped, rulesOver, rulesOver, ← hsame]
      cases hholds : rule.fits ctx with
      | false =>
        rw [if_neg (by simp), if_neg (by simp), cutShort_missed hholds]
        exact ih hrest about same
      | true =>
        rw [if_pos rfl, if_pos rfl, List.filter_cons_of_pos hmapped]
        cases hafter : rule.after with
        | stop =>
          rw [if_pos rfl, if_pos rfl, cutShort_stopped hholds hafter]
          refine ⟨List.prefix_rfl, fun _ hcut => ?_, fun _ => rfl⟩
          rw [hmapped] at hcut
          cases hcut.1
        | «continue» =>
          rw [if_neg (by decide), if_neg (by decide), cutShort_went hholds hafter]
          obtain ⟨hfront, hiff⟩ := ih hrest (keeps rule ctx about) (keeps rule other same)
          refine ⟨List.cons_prefix_cons.mpr ⟨rfl, hfront⟩, ?_⟩
          rw [List.cons_inj_right]
          exact hiff

omit [Unicode] [FoldTable] in
/-- What begins with some rules of a list is among the whole list only where it is just those. -/
theorem sublist_iff_eq {applied whole : List Rule} {written : Rule → Bool}
    (hall : ∀ rule ∈ applied, written rule = true) (hfront : whole.filter written <+: applied) :
    applied.Sublist whole ↔ applied = whole.filter written := by
  constructor
  · intro hsub
    have hfiltered := hsub.filter written
    rw [List.filter_eq_self.mpr hall] at hfiltered
    exact hfiltered.antisymm hfront.sublist
  · intro heq
    rw [heq]
    exact List.filter_sublist

variable [IsoDate]

omit [Unicode] [IsoDate] in
theorem rulesOver_subset {rules : List Rule} {ctx : MatchCtx} :
    ∀ rule ∈ rulesOver leaves ctx rules, rule ∈ rules := by
  induction rules generalizing ctx with
  | nil => exact fun _ h => absurd h List.not_mem_nil
  | cons first rest ih =>
    intro rule hrule
    rw [rulesOver] at hrule
    split at hrule
    · rcases List.mem_cons.mp hrule with rfl | hrule
      · exact .head _
      · split at hrule
        · cases hrule
        · exact .tail _ (ih rule hrule)
    · exact .tail _ (ih rule hrule)

end Running

def annsLetter : Message :=
  { Message.plain ⟨1⟩ ⟨1⟩ .inbox with sender := ⟨some "Ann", "ann@example.org"⟩, subject := "Hi" }

def annsMail : Sieve.Mail :=
  ⟨[("From".toList, "Ann <ann@example.org>".toList), ("Subject".toList, "Hi".toList)],
    [("From".toList, "ann@example.org".toList)], 60, fun _ _ => false⟩

def annsCtx : MatchCtx :=
  ⟨@oneMessage .ascii annsLetter, none, [], [messageSize annsLetter], [], [], 0⟩

def ruleOn (position : Nat) (name : String) (filter : Filter) (actions : List RuleAction)
    (after : AfterMatch) : Rule :=
  ⟨⟨position⟩, ⟨0⟩, name, position, .enabled, filter, actions, after, 0, 4⟩

def annsRules : List Rule :=
  [ruleOn 1 "Ann" (.sender (.contains "ann")) [.trash] .continue,
    ruleOn 2 "Unread" (.read .unread) [] .stop]

def annsPlaces : Places := ⟨none, some "Trash", none⟩

theorem anns_delivered : Delivered annsMail annsLetter := by
  have hspelled := Spelled.named "Ann" "ann@example.org"
  have hvalue : valuesOf annsMail.fields "from".toList =
      [("Ann".toList ++ [' ']) ++ '<' :: ("ann@example.org".toList ++ ['>'])] := by decide
  exact ⟨by decide, ⟨.inr ⟨_, hvalue, .one hspelled⟩, by decide⟩,
    ⟨.inl ⟨rfl, by decide⟩, by decide⟩, ⟨.inl ⟨rfl, by decide⟩, by decide⟩⟩

/-- The names of the rules applied here, and the number of blocks the script enters. -/
def bothRuns (rules : List Rule) : List String × Option Nat :=
  ((@rulesOver .ascii (fun _ ctx => ctx) annsCtx (ordered rules)).map Rule.name,
    (Sieve.parse (@compile ⟨fun _ => []⟩ rules none ["fileinto"] annsPlaces "mailo"
      0).script).map fun commands => (runAll annsMail commands).entered.length)

end Mailo.Proto.Sieve
