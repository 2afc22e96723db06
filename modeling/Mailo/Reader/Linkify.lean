import Mathlib.Data.List.DropRight
import Mailo.Domain.Text

/-!
# Links in plain text

An address starts where a word does, runs to what no address holds, and leaves what ends the
sentence around it. No text is lost, and each link opens the address it shows.
-/

namespace Mailo.Reader

open Domain

/-- Text, or a link and the text it shows. -/
inductive Span (Url : Type) where
  | text (text : List Char)
  | link (url : Url) (shown : List Char)

def Span.shown {Url : Type} : Span Url → List Char
  | text shown => shown
  | link _ shown => shown

/-- The text that spans show, end to end. -/
def shownBy {Url : Type} (spans : List (Span Url)) : List Char := spans.flatMap Span.shown

/-! ## The end of an address -/

inductive Bracket where
  | round | square | curly
deriving DecidableEq

def opens : Char → Option Bracket
  | '(' => some .round
  | '[' => some .square
  | '\x7b' => some .curly
  | _ => none

def closes : Char → Option Bracket
  | ')' => some .round
  | ']' => some .square
  | '\x7d' => some .curly
  | _ => none

def endsSentence (c : Char) : Bool := ['.', ',', ';', ':', '!', '?', '\x27', '*'].contains c

def opened (text : List Char) (kind : Bracket) : Nat := text.countP fun c => opens c = some kind

def closed (text : List Char) (kind : Bracket) : Nat := text.countP fun c => closes c = some kind

/-- An address from its end, each kind of bracket counted before: a close comes off its count as it
is trimmed. -/
def trimEnd (opened closed : Bracket → Nat) : List Char → List Char
  | [] => []
  | last :: rest =>
    match closes last with
    | some kind =>
      if opened kind < closed kind then
        trimEnd opened (fun other => if other = kind then closed other - 1 else closed other) rest
      else last :: rest
    | none => if endsSentence last then trimEnd opened closed rest else last :: rest

/-- `address` without what ends the sentence around it rather than the address. -/
def trimmed (address : List Char) : List Char :=
  (trimEnd (opened address) (closed address) address.reverse).reverse

/-- Whether the end of an address comes off it: it ends a sentence, or closes what the address did
not open. -/
def comesOff (address : List Char) : Bool :=
  address.getLast?.any fun last =>
    match closes last with
    | some kind => opened address kind < closed address kind
    | none => endsSentence last

section Trimming

variable {last : Char} {rest : List Char}

theorem opened_concat_of_closes {kind other : Bracket} (h : closes last = some kind) :
    opened (rest ++ [last]) other = opened rest other := by
  have hnone : opens last = none := by
    unfold closes at h
    split at h <;> first | rfl | cases h
  simp [opened, hnone]

theorem opened_concat_of_endsSentence {kind : Bracket} (h : endsSentence last = true) :
    opened (rest ++ [last]) kind = opened rest kind := by
  have hnone : opens last = none := by
    unfold opens
    split <;> first | rfl | (revert h; decide)
  simp [opened, hnone]

theorem closed_concat (kind : Bracket) : closed (rest ++ [last]) kind =
    closed rest kind + if closes last = some kind then 1 else 0 := by
  by_cases h : closes last = some kind <;> simp [closed, h]

/-- What was counted once is what would be counted again before the end comes off. -/
theorem trimmed_concat (rest : List Char) (last : Char) : trimmed (rest ++ [last]) =
    if comesOff (rest ++ [last]) then trimmed rest else rest ++ [last] := by
  simp only [trimmed, comesOff, List.reverse_append, List.reverse_singleton, List.singleton_append,
    trimEnd, List.getLast?_append, List.getLast?_singleton, Option.some_or, Option.any_some]
  cases hcloses : closes last with
  | some kind =>
    have hopened : opened (rest ++ [last]) = opened rest :=
      funext fun other => opened_concat_of_closes hcloses
    have hclosed : (fun other => if other = kind then closed (rest ++ [last]) other - 1
        else closed (rest ++ [last]) other) = closed rest := by
      funext other
      by_cases hother : other = kind
      · simp [closed_concat, hcloses, hother]
      · simp [closed_concat, hcloses, hother, Ne.symm hother]
    by_cases hlt : opened (rest ++ [last]) kind < closed (rest ++ [last]) kind
    · simp only [hlt, if_true, hclosed, decide_true]
      rw [hopened]
    · simp [hlt]
  | none =>
    cases hends : endsSentence last with
    | true =>
      have hopened : opened (rest ++ [last]) = opened rest :=
        funext fun other => opened_concat_of_endsSentence hends
      have hclosed : closed (rest ++ [last]) = closed rest := by
        funext other
        simp [closed_concat, hcloses]
      simp [hopened, hclosed]
    | false => simp

/-- An address keeps its start, up to the last character that does not come off it. -/
theorem trimmed_spec (address : List Char) :
    comesOff (trimmed address) = false ∧ ∃ dropped, address = trimmed address ++ dropped ∧
      ∀ front c back, dropped = front ++ c :: back →
        comesOff (trimmed address ++ front ++ [c]) = true := by
  induction address using List.reverseRecOn with
  | nil => exact ⟨rfl, [], rfl, by simp⟩
  | append_singleton rest last ih =>
    rw [trimmed_concat]
    split
    · rename_i hcomes
      obtain ⟨hstays, dropped, hall, hoff⟩ := ih
      refine ⟨hstays, dropped ++ [last], by rw [← List.append_assoc, ← hall], ?_⟩
      intro front c back hsplit
      rcases List.eq_nil_or_concat back with rfl | ⟨more, final, rfl⟩
      · obtain ⟨rfl, hlast⟩ := List.append_inj' hsplit rfl
        rw [← hall, ← (List.cons.inj hlast).1]
        exact hcomes
      · rw [List.concat_eq_append, ← List.cons_append, ← List.append_assoc] at hsplit
        exact hoff front c more (List.append_inj' hsplit rfl).1
    · rename_i hstays
      exact ⟨by simpa using hstays, [], by simp, by simp⟩

theorem trimmed_isPrefix (address : List Char) : trimmed address <+: address := by
  induction address using List.reverseRecOn with
  | nil => exact List.nil_prefix
  | append_singleton rest last ih =>
    rw [trimmed_concat]
    split
    · exact ih.trans (List.prefix_append ..)
    · exact List.prefix_rfl

end Trimming

/-! ## Where an address starts -/

/-- The characters an address may hold just before the place: a word goes on there. -/
def startsWord (before : List Char) : Bool :=
  before.getLast?.all fun c =>
    !(c.isAlphanum || ['.', '-', '_', '@', '/', '+', '%'].contains c)

def isLocal (c : Char) : Bool := c.isAlphanum || ['.', '_', '%', '+', '-'].contains c

def run (rest : List Char) : List Char :=
  rest.takeWhile fun c => '!' ≤ c && c ≤ '~' && !(['<', '>', '"', '\x60'].contains c)

structure Address where
  shown : List Char
  href : List Char

def www : List Char := "www.".toList

def schemes : List (List Char) := ["https://".toList, "http://".toList, www]

def webAt (before rest : List Char) : Option Address :=
  if startsWord before then
    (schemes.find? fun scheme =>
      Text.eqIgnoreAsciiCase (rest.take scheme.length) scheme).bind fun scheme =>
        let shown := trimmed (run rest)
        if shown.length ≤ scheme.length then none
        else some ⟨shown, if scheme = www then "https://".toList ++ shown else shown⟩
  else none

def labels : List Char → List (List Char)
  | [] => [[]]
  | c :: rest =>
    if c = '.' then [] :: labels rest
    else match labels rest with
      | [] => [[c]]
      | label :: more => (c :: label) :: more

def emailAt (before rest : List Char) : Option Address :=
  if startsWord before then
    let name := rest.takeWhile isLocal
    if name.isEmpty then none
    else match rest.drop name.length with
      | '@' :: after =>
        let domain := (after.takeWhile fun c => c.isAlphanum || c = '.' || c = '-').rdropWhile
          fun c => c = '.' || c = '-'
        if (labels domain).length < 2 || (labels domain).any List.isEmpty then none
        else
          let shown := name ++ '@' :: domain
          some ⟨shown, "mailto:".toList ++ shown⟩
      | _ => none
  else none

/-- The address that begins at the start of `rest`, `before` being what stands before it. -/
def addressAt (before rest : List Char) : Option Address :=
  (webAt before rest).or (emailAt before rest)

/-- The next link in `rest`: the text before it, and the address. -/
def nextLink (before : List Char) : List Char → Option (List Char × Address)
  | [] => none
  | c :: rest =>
    match addressAt before (c :: rest) with
    | some found => some ([], found)
    | none => (nextLink (before ++ [c]) rest).map fun next => (c :: next.1, next.2)

section Found

variable {before rest skipped : List Char} {found : Address}

theorem addressAt_shown (h : addressAt before rest = some found) :
    found.shown <+: rest ∧ found.shown ≠ [] := by
  rw [addressAt, Option.or_eq_some_iff] at h
  rcases h with hweb | ⟨-, hemail⟩
  · unfold webAt at hweb
    split at hweb
    · obtain ⟨scheme, -, hshown⟩ := Option.bind_eq_some_iff.mp hweb
      dsimp only at hshown
      split at hshown
      · cases hshown
      · rename_i hlong
        cases hshown
        refine ⟨(trimmed_isPrefix _).trans (List.takeWhile_prefix _), ?_⟩
        intro hnil
        have hempty : trimmed (run rest) = [] := hnil
        simp [hempty] at hlong
    · cases hweb
  · unfold emailAt at hemail
    split at hemail
    · dsimp only at hemail
      split at hemail
      · cases hemail
      · split at hemail
        · rename_i after hafter
          split at hemail
          · cases hemail
          · cases hemail
            refine ⟨?_, by simp⟩
            have hall := List.prefix_iff_eq_append.mp (List.takeWhile_prefix (l := rest) isLocal)
            have hpart : rest.takeWhile isLocal ++ '@' ::
                (after.takeWhile fun c => c.isAlphanum || c = '.' || c = '-').rdropWhile
                  (fun c => c = '.' || c = '-') <+: rest.takeWhile isLocal ++ '@' :: after :=
              (List.prefix_append_right_inj _).mpr (List.cons_prefix_cons.mpr
                ⟨rfl, (List.rdropWhile_prefix ..).trans (List.takeWhile_prefix _)⟩)
            rwa [← hafter, hall] at hpart
        · cases hemail
    · cases hemail

theorem nextLink_some (h : nextLink before rest = some (skipped, found)) :
    ∃ after, rest = skipped ++ after ∧ addressAt (before ++ skipped) after = some found ∧
      ∀ front c back, skipped = front ++ c :: back →
        addressAt (before ++ front) (c :: back ++ after) = none := by
  induction rest generalizing before skipped with
  | nil => cases h
  | cons c rest ih =>
    unfold nextLink at h
    split at h
    · rename_i hfound
      cases h
      exact ⟨c :: rest, rfl, by simpa using hfound, by simp⟩
    · rename_i hnone
      obtain ⟨⟨later, address⟩, hnext, heq⟩ := Option.map_eq_some_iff.mp h
      cases heq
      obtain ⟨after, rfl, hfound, hfirst⟩ := ih hnext
      refine ⟨after, rfl, by simpa using hfound, ?_⟩
      intro front d back hsplit
      cases front with
      | nil =>
        cases hsplit
        simpa using hnone
      | cons e front =>
        cases hsplit
        simpa using hfirst front d back rfl

theorem nextLink_none (h : nextLink before rest = none) : ∀ front c back,
    rest = front ++ c :: back → addressAt (before ++ front) (c :: back) = none := by
  induction rest generalizing before with
  | nil => simp
  | cons c rest ih =>
    unfold nextLink at h
    split at h
    · cases h
    · rename_i hnone
      intro front d back hsplit
      cases front with
      | nil =>
        cases hsplit
        simpa using hnone
      | cons e front =>
        cases hsplit
        simpa using ih (Option.map_eq_none_iff.mp h) front d back rfl

end Found

/-! ## Text as spans -/

section Linked

variable {Url : Type} (link : List Char → Option Url)

/-- The spans of `rest`, after those of `before`, the last of whose text is `plain`. -/
def linkedFrom (spans : List (Span Url)) (before plain rest : List Char) : List (Span Url) :=
  match h : nextLink before rest with
  | none =>
    if (plain ++ rest).isEmpty && !spans.isEmpty then spans
    else spans ++ [.text (plain ++ rest)]
  | some (skipped, found) =>
    let past := skipped ++ found.shown
    match link found.href with
    | none => linkedFrom spans (before ++ past) (plain ++ past) (rest.drop past.length)
    | some url =>
      let told := if (plain ++ skipped).isEmpty then spans else spans ++ [.text (plain ++ skipped)]
      linkedFrom (told ++ [.link url found.shown]) (before ++ past) [] (rest.drop past.length)
termination_by rest.length
decreasing_by
  all_goals
    obtain ⟨after, rfl, hfound, -⟩ := nextLink_some h
    have hlong := (addressAt_shown hfound).1.length_le
    have hshown := List.length_pos_iff.mpr (addressAt_shown hfound).2
    simp
    omega

def linked (text : List Char) : List (Span Url) := linkedFrom link [] [] [] text

/-- Each link shows an address that begins where it stands, and opens it. -/
def Honest (text : List Char) (spans : List (Span Url)) : Prop :=
  ∀ front url shown back, spans = front ++ .link url shown :: back → ∃ href,
    addressAt (shownBy front) (text.drop (shownBy front).length) = some ⟨shown, href⟩ ∧
      link href = some url

/-- No address that could be opened begins after `skipped`, or one that could not runs over it. -/
def Passed (text front skipped : List Char) : Prop :=
  addressAt (front ++ skipped) (text.drop (front ++ skipped).length) = none ∨
    ∃ start inside found, skipped = start ++ inside ∧ inside.length < found.shown.length ∧
      addressAt (front ++ start) (text.drop (front ++ start).length) = some found ∧
      link found.href = none

/-- Each place in a span of text is passed over rightly. -/
def NoneMissed (text : List Char) (spans : List (Span Url)) : Prop :=
  ∀ front told back, spans = front ++ .text told :: back →
    ∀ skipped c rest, told = skipped ++ c :: rest → Passed link text (shownBy front) skipped

variable {link} {whole before plain rest told : List Char} {found : Address}
  {spans front back : List (Span Url)} {span : Span Url}

@[simp] theorem shownBy_append (front back : List (Span Url)) :
    shownBy (front ++ back) = shownBy front ++ shownBy back := by
  simp [shownBy]

@[simp] theorem shownBy_singleton (span : Span Url) : shownBy [span] = span.shown := by
  simp [shownBy]

theorem honest_nil : Honest link whole [] := by
  intro front url shown back h
  simp at h

theorem noneMissed_nil : NoneMissed link whole [] := by
  intro front told back h
  simp at h

theorem split_concat {other : Span Url} (h : spans ++ [span] = front ++ other :: back) :
    front = spans ∧ other = span ∨ ∃ more, spans = front ++ other :: more := by
  rcases List.eq_nil_or_concat back with rfl | ⟨more, last, rfl⟩
  · obtain ⟨hspans, hlast⟩ := List.append_inj' h rfl
    exact .inl ⟨hspans.symm, (List.cons.inj hlast).1.symm⟩
  · rw [List.concat_eq_append, ← List.cons_append, ← List.append_assoc] at h
    exact .inr ⟨more, (List.append_inj' h rfl).1⟩

theorem Honest.concat_text (h : Honest link whole spans) :
    Honest link whole (spans ++ [.text told]) := by
  intro front url shown back hsplit
  rcases split_concat hsplit with ⟨-, hlast⟩ | ⟨more, hmore⟩
  · cases hlast
  · exact h front url shown more hmore

theorem Honest.concat_link {url : Url} (h : Honest link whole spans)
    (hfound : addressAt (shownBy spans) (whole.drop (shownBy spans).length) = some found)
    (hurl : link found.href = some url) : Honest link whole (spans ++ [.link url found.shown]) := by
  intro front url shown back hsplit
  rcases split_concat hsplit with ⟨rfl, hlast⟩ | ⟨more, hmore⟩
  · cases hlast
    exact ⟨found.href, hfound, hurl⟩
  · exact h front url shown more hmore

theorem NoneMissed.concat_link {url : Url} {shown : List Char} (h : NoneMissed link whole spans) :
    NoneMissed link whole (spans ++ [.link url shown]) := by
  intro front told back hsplit
  rcases split_concat hsplit with ⟨-, hlast⟩ | ⟨more, hmore⟩
  · cases hlast
  · exact h front told more hmore

theorem NoneMissed.concat_text (h : NoneMissed link whole spans)
    (htold : ∀ skipped c rest, told = skipped ++ c :: rest →
      Passed link whole (shownBy spans) skipped) :
    NoneMissed link whole (spans ++ [.text told]) := by
  intro front other back hsplit
  rcases split_concat hsplit with ⟨rfl, hlast⟩ | ⟨more, hmore⟩
  · cases hlast
    exact htold
  · exact h front other more hmore

/-- More plain text, none of whose places begins an address. -/
theorem passed_append {front skipped : List Char} (after : List Char)
    (hplain : ∀ skipped c rest, plain = skipped ++ c :: rest → Passed link whole front skipped)
    (hwhole : whole = front ++ plain ++ skipped ++ after)
    (hfirst : ∀ before c rest, skipped = before ++ c :: rest →
      addressAt (front ++ plain ++ before) (c :: rest ++ after) = none) :
    ∀ part c rest, plain ++ skipped = part ++ c :: rest → Passed link whole front part := by
  intro part c rest hsplit
  rcases List.append_eq_append_iff.mp hsplit with ⟨start, rfl, hskipped⟩ | ⟨more, hpart, hrest⟩
  · have hnone := hfirst start c rest hskipped
    refine .inl ?_
    rw [hwhole, hskipped, ← List.append_assoc front, ← List.append_assoc (front ++ plain),
      List.append_assoc (front ++ plain ++ start), List.drop_left]
    exact hnone
  · cases more with
    | nil =>
      have hnone := hfirst [] c rest (by simpa using hrest.symm)
      rw [List.append_nil] at hpart
      refine .inl ?_
      rw [← hpart, hwhole, List.append_assoc (front ++ plain), List.drop_left]
      rw [List.nil_append] at hrest
      rw [← hrest]
      simpa using hnone
    | cons d more =>
      rw [List.cons_append] at hrest
      cases hrest
      exact hplain part c more hpart

/-- What the loop has read: its spans and its plain text are what stands before. -/
structure Read (link : List Char → Option Url) (spans : List (Span Url))
    (before plain rest : List Char) : Prop where
  shown : shownBy spans ++ plain = before
  honest : Honest link (before ++ rest) spans
  missed : NoneMissed link (before ++ rest) spans
  passed : ∀ skipped c more, plain = skipped ++ c :: more →
    Passed link (before ++ rest) (shownBy spans) skipped

theorem linkedFrom_spec (h : Read link spans before plain rest) :
    shownBy (linkedFrom link spans before plain rest) = before ++ rest ∧
      Honest link (before ++ rest) (linkedFrom link spans before plain rest) ∧
      NoneMissed link (before ++ rest) (linkedFrom link spans before plain rest) := by
  fun_induction linkedFrom link spans before plain rest with
  | case1 spans before plain rest hnone hempty =>
    obtain ⟨rfl, rfl⟩ : plain = [] ∧ rest = [] := by
      simpa using (Bool.and_eq_true_iff.mp hempty).1
    exact ⟨by simpa using h.shown, h.honest, h.missed⟩
  | case2 spans before plain rest hnone hfull =>
    refine ⟨by simp [Span.shown, ← h.shown], h.honest.concat_text, h.missed.concat_text ?_⟩
    refine passed_append [] h.passed (by simp [← h.shown]) ?_
    intro front c back hsplit
    rw [h.shown, List.append_nil]
    exact nextLink_none hnone front c back hsplit
  | case3 spans before plain rest skipped found hnext past hrefused ih =>
    obtain ⟨after, rfl, hfound, hfirst⟩ := nextLink_some hnext
    obtain ⟨more, rfl⟩ := (addressAt_shown hfound).1
    have hleft : (skipped ++ (found.shown ++ more)).drop past.length = more := by simp [past]
    have hall : before ++ past ++ more = before ++ (skipped ++ (found.shown ++ more)) := by
      simp [past]
    rw [hleft, hall] at ih
    rw [hleft]
    have hpassed := passed_append (found.shown ++ more) h.passed (by simp [← h.shown])
      (h.shown ▸ hfirst)
    refine ih ⟨by simp [← h.shown, past], hall ▸ h.honest, hall ▸ h.missed, ?_⟩
    rw [hall]
    intro part c later hsplit
    simp only [past, ← List.append_assoc plain] at hsplit
    rcases List.append_eq_append_iff.mp hsplit with ⟨inside, rfl, hshown⟩ | ⟨rest, hpart, hrest⟩
    · -- Inside an address that cannot be opened.
      refine .inr ⟨plain ++ skipped, inside, found, rfl, by simp [hshown], ?_, hrefused⟩
      rw [← List.append_assoc, h.shown, ← List.append_assoc before, List.drop_left]
      exact hfound
    · cases rest with
      | nil =>
        rw [List.append_nil] at hpart
        refine .inr ⟨part, [], found, by simp, ?_, ?_, hrefused⟩
        · exact List.length_pos_iff.mpr (addressAt_shown hfound).2
        · rw [← hpart, ← List.append_assoc, h.shown, ← List.append_assoc before, List.drop_left]
          exact hfound
      | cons d rest =>
        rw [List.cons_append] at hrest
        cases hrest
        exact hpassed part c rest hpart
  | case4 spans before plain rest skipped found hnext past url hurl told ih =>
    obtain ⟨after, rfl, hfound, hfirst⟩ := nextLink_some hnext
    obtain ⟨more, rfl⟩ := (addressAt_shown hfound).1
    have hleft : (skipped ++ (found.shown ++ more)).drop past.length = more := by simp [past]
    have hall : before ++ past ++ more = before ++ (skipped ++ (found.shown ++ more)) := by
      simp [past]
    rw [hleft, hall] at ih
    rw [hleft]
    have htold : shownBy told = before ++ skipped ∧
        Honest link (before ++ (skipped ++ (found.shown ++ more))) told ∧
        NoneMissed link (before ++ (skipped ++ (found.shown ++ more))) told := by
      simp only [told]
      split
      · rename_i hnil
        obtain ⟨rfl, rfl⟩ : plain = [] ∧ skipped = [] := by simpa using hnil
        exact ⟨by simpa using h.shown, h.honest, h.missed⟩
      · refine ⟨by simp [Span.shown, ← h.shown], h.honest.concat_text, h.missed.concat_text ?_⟩
        refine passed_append (found.shown ++ more) h.passed (by simp [← h.shown]) ?_
        rw [h.shown]
        exact hfirst
    refine ih ⟨?_, ?_, ?_, by simp⟩
    · simp [htold.1, Span.shown, past]
    · rw [hall]
      refine htold.2.1.concat_link ?_ hurl
      rw [htold.1, ← List.append_assoc, List.drop_left]
      exact hfound
    · rw [hall]
      exact htold.2.2.concat_link

theorem read_nil (link : List Char → Option Url) (text : List Char) : Read link [] [] [] text :=
  ⟨rfl, honest_nil, noneMissed_nil, by simp⟩

/-- No text is lost; each link shows an address that begins where it stands, in the order of the
text, and opens it; and no address that could be opened is left in the text, but within one that
could not. -/
theorem linked_spec (link : List Char → Option Url) (text : List Char) :
    shownBy (linked link text) = text ∧ Honest link text (linked link text) ∧
      NoneMissed link text (linked link text) :=
  linkedFrom_spec (read_nil link text)

/-! ## Where links begin -/

/-- A link begins after `before`. -/
def BeginsLink (spans : List (Span Url)) (before : List Char) (url : Url) (shown : List Char) :
    Prop :=
  ∃ front back, spans = front ++ .link url shown :: back ∧ shownBy front = before

/-- A link begins earlier and runs over the end of `before`. -/
def WithinLink (spans : List (Span Url)) (before : List Char) : Prop :=
  ∃ start inside url shown, before = start ++ inside ∧ inside ≠ [] ∧ inside.length < shown.length ∧
    BeginsLink spans start url shown

/-- An address that could not be opened runs over the end of `before`. -/
def WithinRefused (link : List Char → Option Url) (text before : List Char) : Prop :=
  ∃ start inside found, before = start ++ inside ∧ inside.length < found.shown.length ∧
    addressAt start (text.drop start.length) = some found ∧ link found.href = none

/-- Each place of a text lies in one span. -/
theorem exists_span {spans : List (Span Url)} {before rest : List Char} {c : Char}
    (h : shownBy spans = before ++ c :: rest) : ∃ front span back inside more,
      spans = front ++ span :: back ∧ before = shownBy front ++ inside ∧
        span.shown = inside ++ c :: more := by
  induction spans generalizing before with
  | nil => simp [shownBy] at h
  | cons span spans ih =>
    have hall : span.shown ++ shownBy spans = before ++ c :: rest := h
    rcases List.append_eq_append_iff.mp hall with ⟨later, rfl, hlater⟩ | ⟨inside, hshown, hrest⟩
    · obtain ⟨front, other, back, inside, more, rfl, rfl, hother⟩ := ih hlater
      exact ⟨span :: front, other, back, inside, more, rfl, (List.append_assoc ..).symm, hother⟩
    · cases inside with
      | nil =>
        have hstart : shownBy spans = [] ++ c :: rest := hrest.symm
        obtain ⟨front, other, back, inside, more, rfl, hnil, hother⟩ := ih hstart
        refine ⟨span :: front, other, back, inside, more, rfl, ?_, hother⟩
        change before = span.shown ++ shownBy front ++ inside
        rw [List.append_assoc, ← hnil]
        simpa using hshown.symm
      | cons d more =>
        cases hrest
        exact ⟨[], span, spans, before, more, rfl, rfl, hshown⟩

theorem begins_or_within {link : List Char → Option Url} {text before rest : List Char}
    {found : Address} {url : Url} (htext : text = before ++ rest)
    (hfound : addressAt before rest = some found) (hurl : link found.href = some url) :
    BeginsLink (linked link text) before url found.shown ∨ WithinLink (linked link text) before ∨
      WithinRefused link text before := by
  obtain ⟨hshows, hhonest, hmissed⟩ := linkedFrom_spec (read_nil link text)
  have hdrop : addressAt before (text.drop before.length) = some found := by
    rw [htext, List.drop_left, hfound]
  obtain ⟨c, more, rfl⟩ : ∃ c more, rest = c :: more := by
    refine List.exists_cons_of_ne_nil fun hnil => (addressAt_shown hfound).2 ?_
    exact List.prefix_nil.mp (hnil ▸ (addressAt_shown hfound).1)
  obtain ⟨front, span, back, inside, later, hspans, rfl, hspan⟩ := exists_span (hshows.trans htext)
  cases span with
  | text told =>
    rcases hmissed front told back hspans inside c later hspan with hnone | hrefused
    · cases hnone.symm.trans hdrop
    · obtain ⟨start, more, other, rfl, hlong, hother, hlink⟩ := hrefused
      exact .inr (.inr ⟨_, more, other, (List.append_assoc ..).symm, hlong, hother, hlink⟩)
  | link opened shown =>
    by_cases hinside : inside = []
    · subst hinside
      obtain ⟨href, hhere, hopens⟩ := hhonest front opened shown back hspans
      rw [List.append_nil] at hdrop
      cases hhere.symm.trans hdrop
      cases hopens.symm.trans hurl
      exact .inl ⟨front, back, hspans, (List.append_nil _).symm⟩
    · refine .inr (.inl ⟨_, inside, opened, shown, rfl, hinside, ?_, front, back, hspans, rfl⟩)
      simp [show shown = _ from hspan]

end Linked

def onlyMail (href : List Char) : Option Unit := if href.head? = some 'm' then some () else none

theorem linked_hidden : linked onlyMail ("www.a:x/,".toList ++ "b@c.d".toList) =
    [.text "www.a:x/,b@c.d".toList] := by
  have hnext : nextLink [] ("www.a:x/,".toList ++ "b@c.d".toList) =
      some ([], ⟨"www.a:x/,b@c.d".toList, "https://www.a:x/,b@c.d".toList⟩) := rfl
  rw [linked, linkedFrom]
  split
  · rename_i hnone
    cases hnone.symm.trans hnext
  · rename_i hfound
    cases hfound.symm.trans hnext
    simp [onlyMail, linkedFrom, nextLink]

end Mailo.Reader
