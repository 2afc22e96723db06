import Mailo.Logic.Query

/-!
# Dates counted back from the clock

A count of days is read from text, kept in the filter, and taken from the clock only when the filter
is asked or sent. The clock goes no further back than the first instant there is.
-/

namespace Mailo.Logic.Query

open Domain

/-- The first instant a date and time can be, in nanoseconds as every instant. -/
def minUtc : DateTime := -8334601228800 * 1000000000

def daysBefore? (now : DateTime) (days : Nat) : Option DateTime :=
  if minUtc ≤ daysBefore now days then some (daysBefore now days) else none

mutual

/-- A filter with each relative date fixed against the clock. -/
def «at» (now : DateTime) : Filter → Option Filter
  | .and parts => (atAll now parts).map .and
  | .or parts => (atAll now parts).map .or
  | .not inner => («at» now inner).map .not
  | .newerThan days => (daysBefore? now days).map fun day => .date ⟨some day, none⟩
  | .olderThan days => (daysBefore? now days).map fun day => .date ⟨none, some day⟩
  | other => some other

def atAll (now : DateTime) : List Filter → Option (List Filter)
  | [] => some []
  | part :: rest => («at» now part).bind fun part => (atAll now rest).map (part :: ·)

end

mutual

/-- Whether the conversation matches, a clause asked only where those before it leave it open. -/
def fits [FoldTable] (ctx : MatchCtx) : Filter → Option Bool
  | .and parts => fitsAll ctx parts
  | .or parts => fitsAny ctx parts
  | .not inner => (fits ctx inner).map (!·)
  | .newerThan days => (daysBefore? ctx.now days).map fun day => day ≤ ctx.summary.lastDate
  | .olderThan days => (daysBefore? ctx.now days).map fun day => ctx.summary.lastDate < day
  | other => some (other.fit ctx)

def fitsAll [FoldTable] (ctx : MatchCtx) : List Filter → Option Bool
  | [] => some true
  | part :: rest => (fits ctx part).bind fun fit => if fit then fitsAll ctx rest else some false

def fitsAny [FoldTable] (ctx : MatchCtx) : List Filter → Option Bool
  | [] => some false
  | part :: rest => (fits ctx part).bind fun fit => if fit then some true else fitsAny ctx rest

end

mutual

/-- The days each relative date of a filter counts back. -/
def counts : Filter → List Nat
  | .and parts | .or parts => allCounts parts
  | .not inner => counts inner
  | .newerThan days | .olderThan days => [days]
  | _ => []

def allCounts : List Filter → List Nat
  | [] => []
  | part :: rest => counts part ++ allCounts rest

end

/-- The days a token counts back, where it is a relative date. -/
def counted (token : Token) : Option Nat :=
  (field token).bind fun asked =>
    if asked.1 ∈ ["newer", "newer_than", "older", "older_than"] then span asked.2 else none

/-- What a line is read as is asked of every conversation, and resolved, without overflow. -/
def Resolves [FoldTable] (names : Names) (line : List Char) (now : DateTime) : Prop :=
  («at» now (parseWith names line)).isSome = true ∧
    ∀ ctx : MatchCtx, ctx.now = now →
      fits ctx (parseWith names line) = some ((parseWith names line).fit ctx)

theorem daysBefore?_isSome (now : DateTime) (days : Nat) :
    (daysBefore? now days).isSome = true ↔ minUtc ≤ daysBefore now days := by
  unfold daysBefore?
  by_cases h : minUtc ≤ daysBefore now days
  · simp [h]
  · simp [h]

mutual

theorem at_isSome (now : DateTime) : ∀ filter : Filter,
    («at» now filter).isSome = true ↔ ∀ days ∈ counts filter, minUtc ≤ daysBefore now days
  | .and parts => by rw [«at», counts, Option.isSome_map, atAll_isSome now parts]
  | .or parts => by rw [«at», counts, Option.isSome_map, atAll_isSome now parts]
  | .not inner => by rw [«at», counts, Option.isSome_map, at_isSome now inner]
  | .newerThan days => by
    rw [«at», counts, Option.isSome_map, daysBefore?_isSome, List.forall_mem_singleton]
  | .olderThan days => by
    rw [«at», counts, Option.isSome_map, daysBefore?_isSome, List.forall_mem_singleton]
  | .all | .nothing | .account _ | .inMailbox _ | .inFolder _ | .read _ | .starred _
  | .hasLabel _ | .sender _ | .fromAddress _ | .vip | .to _ | .cc _ | .subject _ | .text _
  | .date _ | .hasAttachment | .snoozed | .snoozeDue | .pinned | .larger _ | .smaller _
  | .category _ => by simp [«at», counts]

theorem atAll_isSome (now : DateTime) : ∀ parts : List Filter,
    (atAll now parts).isSome = true ↔ ∀ days ∈ allCounts parts, minUtc ≤ daysBefore now days
  | [] => by simp [atAll, allCounts]
  | part :: rest => by
    rw [atAll, allCounts, List.forall_mem_append, ← at_isSome now part, ← atAll_isSome now rest]
    cases «at» now part <;> simp

end

mutual

theorem fits_eq [FoldTable] (ctx : MatchCtx) : ∀ filter : Filter,
    (∀ days ∈ counts filter, minUtc ≤ daysBefore ctx.now days) →
      fits ctx filter = some (filter.fit ctx)
  | .and parts, h => by
    rw [counts] at h
    rw [fits, fitsAll_eq ctx parts h, Filter.fit]
  | .or parts, h => by
    rw [counts] at h
    rw [fits, fitsAny_eq ctx parts h, Filter.fit]
  | .not inner, h => by
    rw [counts] at h
    rw [fits, fits_eq ctx inner h, Filter.fit, Option.map_some]
  | .newerThan days, h => by
    rw [fits, daysBefore?, if_pos (h days (by simp [counts])), Filter.fit, Option.map_some]
  | .olderThan days, h => by
    rw [fits, daysBefore?, if_pos (h days (by simp [counts])), Filter.fit, Option.map_some]
  | .all, _ | .nothing, _ | .account _, _ | .inMailbox _, _ | .inFolder _, _ | .read _, _
  | .starred _, _ | .hasLabel _, _ | .sender _, _ | .fromAddress _, _ | .vip, _ | .to _, _
  | .cc _, _ | .subject _, _ | .text _, _ | .date _, _ | .hasAttachment, _ | .snoozed, _
  | .snoozeDue, _ | .pinned, _ | .larger _, _ | .smaller _, _ | .category _, _ => rfl

theorem fitsAll_eq [FoldTable] (ctx : MatchCtx) : ∀ parts : List Filter,
    (∀ days ∈ allCounts parts, minUtc ≤ daysBefore ctx.now days) →
      fitsAll ctx parts = some (Filter.fitAll parts ctx)
  | [], _ => rfl
  | part :: rest, h => by
    rw [allCounts, List.forall_mem_append] at h
    rw [fitsAll, fits_eq ctx part h.1, fitsAll_eq ctx rest h.2, Filter.fitAll, Option.bind_some]
    cases part.fit ctx <;> rfl

theorem fitsAny_eq [FoldTable] (ctx : MatchCtx) : ∀ parts : List Filter,
    (∀ days ∈ allCounts parts, minUtc ≤ daysBefore ctx.now days) →
      fitsAny ctx parts = some (Filter.fitAny parts ctx)
  | [], _ => rfl
  | part :: rest, h => by
    rw [allCounts, List.forall_mem_append] at h
    rw [fitsAny, fits_eq ctx part h.1, fitsAny_eq ctx rest h.2, Filter.fitAny, Option.bind_some]
    cases part.fit ctx <;> rfl

end

/-! ## The counts of a line -/

theorem allCounts_append (parts more : List Filter) :
    allCounts (parts ++ more) = allCounts parts ++ allCounts more := by
  induction parts with
  | nil => rfl
  | cons part parts ih => rw [List.cons_append, allCounts, allCounts, ih, List.append_assoc]

theorem counts_wrap (token : Token) (filter : Filter) : counts (wrap token filter) = counts filter := by
  unfold wrap
  split
  · rw [counts]
  · rfl

variable {filter : Filter}

theorem counts_oneOf {clause : α → Filter} (plain : ∀ a, counts (clause a) = []) {found : List α} (h : oneOf clause found = some filter) : counts filter = [] := by
  have hall : ∀ found : List α, allCounts (found.map clause) = [] := by
    intro found
    induction found with
    | nil => rfl
    | cons a found ih => rw [List.map_cons, allCounts, plain, ih, List.append_nil]
  unfold oneOf at h
  split at h
  · cases h
  · cases h
    exact plain _
  · cases h
    rw [counts]
    exact hall _

variable {value : List Char}

theorem counts_state (h : state value = some filter) : counts filter = [] := by
  unfold state at h
  split at h <;> cases h <;> rfl

variable {names : Names}

theorem counts_asks {name : String} (h : asks names name value = some filter) :
    counts filter = if name ∈ ["newer", "newer_than", "older", "older_than"]
      then (span value).toList else [] := by
  unfold asks at h
  split at h
  case h_1 | h_2 | h_3 | h_4 =>
    cases h
    rfl
  case h_5 => split at h <;> cases h <;> rfl
  case h_6 => exact counts_state h
  case h_9 | h_16 => exact counts_oneOf (fun _ => rfl) h
  case h_12 | h_13 | h_14 | h_15 =>
    obtain ⟨days, hdays, rfl⟩ := Option.map_eq_some_iff.mp h
    rw [hdays]
    rfl
  case h_7 | h_8 | h_10 | h_11 | h_17 | h_18 =>
    obtain ⟨_, _, rfl⟩ := Option.map_eq_some_iff.mp h
    rfl
  case h_19 =>
    split at h
    · obtain ⟨_, _, rfl⟩ := Option.map_eq_some_iff.mp h
      rfl
    · obtain ⟨_, _, rfl⟩ := Option.map_eq_some_iff.mp h
      rfl
    · cases h
  case h_20 => cases h

theorem span_of_asks {name : String} (h : asks names name value = none)
    (hname : name ∈ ["newer", "newer_than", "older", "older_than"]) : span value = none := by
  simp only [List.mem_cons, List.not_mem_nil, or_false] at hname
  rcases hname with rfl | rfl | rfl | rfl
  · exact Option.map_eq_none_iff.mp h
  · exact Option.map_eq_none_iff.mp h
  · exact Option.map_eq_none_iff.mp h
  · exact Option.map_eq_none_iff.mp h

variable {token : Token}

theorem field_phrase (h : (token.quoted && !token.text.contains ':') = true) :
    field token = none := if_pos h

theorem counts_term
    (h : term names token = some filter) : counts filter = (counted token).toList := by
  unfold term at h
  unfold counted
  split at h
  · rename_i hphrase
    cases h
    rw [counts_wrap, field_phrase hphrase]
    rfl
  · cases hfield : field token with
    | none =>
      rw [hfield] at h
      cases h
    | some asked =>
      rw [hfield, Option.bind_some] at h
      obtain ⟨inner, hasks, rfl⟩ := Option.map_eq_some_iff.mp h
      rw [counts_wrap, counts_asks hasks, Option.bind_some]
      split <;> rfl

theorem counted_of_term (h : term names token = none) : counted token = none := by
  unfold term at h
  unfold counted
  split at h
  · cases h
  · cases hfield : field token with
    | none => rfl
    | some asked =>
      rw [hfield, Option.bind_some, Option.map_eq_none_iff] at h
      rw [Option.bind_some]
      split
      · exact span_of_asks h ‹_›
      · rfl

theorem counts_termOrText (names : Names) (token : Token) :
    counts (termOrText names token) = (counted token).toList := by
  unfold termOrText
  cases h : term names token with
  | none =>
    rw [counted_of_term h]
    rfl
  | some filter => exact counts_term h

theorem group_flatten (state : List (List Token) × Bool) (token : Token) :
    (group state token).1.flatten = state.1.flatten ++ if isEither token then [] else [token] := by
  unfold group
  split
  · simp
  · split
    · rename_i last hlast _
      have hback : state.1.dropLast ++ [last] = state.1 := List.dropLast_append_getLast? last hlast
      rw [← hback]
      simp
    · simp

theorem eitherGroups_flatten (tokens : List Token) :
    (eitherGroups tokens).flatten = tokens.filter fun token => !isEither token := by
  have hfold : ∀ (tokens : List Token) (state : List (List Token) × Bool),
      (tokens.foldl group state).1.flatten =
        state.1.flatten ++ tokens.filter fun token => !isEither token := by
    intro tokens
    induction tokens with
    | nil => simp
    | cons token tokens ih =>
      intro state
      rw [List.foldl_cons, ih, group_flatten, List.filter_cons, List.append_assoc]
      cases isEither token <;> rfl
  exact hfold tokens ([], false)

theorem counted_of_isEither (h : isEither token = true) : counted token = none := by
  have hword : token.text = "OR".toList ∨ token.text = "|".toList := by
    simpa [isEither, joins] using (Bool.and_eq_true_iff.mp h).2
  unfold counted field Text.splitOnce
  rcases hword with hword | hword
  · rw [hword]
    split <;> rfl
  · rw [hword]
    split <;> rfl

theorem allCounts_read (names : Names) (state : List Filter × List (List Char))
    (tokens : List Token) : allCounts (read names state tokens).1 =
      allCounts state.1 ++ tokens.flatMap fun token => (counted token).toList := by
  unfold read
  split
  · rename_i one
    rw [List.flatMap_singleton]
    split
    · rename_i filter h
      rw [allCounts_append, allCounts, counts_term h]
      simp [allCounts]
    · rename_i h
      rw [counted_of_term h]
      simp
  · have hall : ∀ tokens : List Token, allCounts (tokens.map (termOrText names)) =
        tokens.flatMap fun token => (counted token).toList := by
      intro tokens
      induction tokens with
      | nil => rfl
      | cons token tokens ih =>
        rw [List.map_cons, allCounts, counts_termOrText, ih, List.flatMap_cons]
    rw [allCounts_append, allCounts, counts, hall]
    simp [allCounts]

theorem counts_parseWith (names : Names) (line : List Char) : counts (parseWith names line) =
      (tokenize line).flatMap fun token => (counted token).toList := by
  have hread : ∀ (groups : List (List Token)) (state : List Filter × List (List Char)),
      allCounts (groups.foldl (read names) state).1 =
        allCounts state.1 ++ groups.flatten.flatMap fun token => (counted token).toList := by
    intro groups
    induction groups with
    | nil => simp
    | cons tokens groups ih =>
      intro state
      rw [List.foldl_cons, ih, allCounts_read, List.flatten_cons, List.flatMap_append,
        List.append_assoc]
  have hjoins : ∀ tokens : List Token, ((tokens.filter fun token => !isEither token).flatMap
      fun token => (counted token).toList) = tokens.flatMap fun token => (counted token).toList := by
    intro tokens
    induction tokens with
    | nil => rfl
    | cons token tokens ih =>
      rw [List.filter_cons, List.flatMap_cons, ← ih]
      cases h : isEither token with
      | false => simp
      | true => simp [counted_of_isEither h]
  unfold parseWith
  generalize hfold : (eitherGroups (tokenize line)).foldl (read names) ([], []) = out
  have hout : allCounts out.1 = (tokenize line).flatMap fun token => (counted token).toList := by
    rw [← hfold, hread, eitherGroups_flatten, hjoins]
    rfl
  rw [← hout]
  have hwords : allCounts (if out.2.isEmpty then out.1
      else out.1 ++ [.text (contains (Text.joinWords out.2))]) = allCounts out.1 := by
    split
    · rfl
    · rw [allCounts_append]
      simp [allCounts, counts]
  rw [← hwords]
  dsimp only
  split
  · rename_i h
    rw [h]
    rfl
  · rename_i h
    rw [h, allCounts, allCounts, List.append_nil]
  · rw [counts]

/-- A line is asked and resolved without overflow exactly where no relative date of it counts back
past the first instant. -/
theorem resolves_iff [FoldTable] (names : Names) (line : List Char) (now : DateTime) :
    Resolves names line now ↔ ∀ token ∈ tokenize line, ∀ days ∈ counted token,
      minUtc ≤ daysBefore now days := by
  have hcounts : (∀ days ∈ counts (parseWith names line), minUtc ≤ daysBefore now days) ↔
      ∀ token ∈ tokenize line, ∀ days ∈ counted token, minUtc ≤ daysBefore now days := by
    simp only [counts_parseWith, List.mem_flatMap, Option.mem_toList]
    constructor
    · intro h token htoken days hdays
      exact h days ⟨token, htoken, hdays⟩
    · intro h days hdays
      obtain ⟨token, htoken, hdays⟩ := hdays
      exact h token htoken days hdays
  rw [← hcounts]
  constructor
  · intro h
    exact (at_isSome now _).mp h.1
  · intro h
    refine ⟨(at_isSome now _).mpr h, fun ctx hnow => fits_eq ctx _ ?_⟩
    rw [hnow]
    exact h

/-- A count the parser takes, from a clock of the first day of 1970. -/
theorem newer_overflows : ¬∀ (names : Names) (line : List Char) (now : DateTime), 0 ≤ now →
    now < 253402300800 * 1000000000 → @Resolves .ascii names line now := by
  intro h
  have hresolves := h ⟨fun _ => [], fun _ => [], fun _ => none⟩ "newer:4294967295".toList 0
    (by decide) (by decide)
  exact absurd hresolves.1 (by decide +kernel)

end Mailo.Logic.Query
