import Mailo.Mime.Fields

/-!
# The date a message leaves with

The bytes of a message are frozen when the user presses Send. As it leaves, its date is set to that
moment: `Date`, or for a redirected message the newest `Resent-Date`.
-/

namespace Mailo.Mime

open Library Proto

/-- How an instant is written in a header, which is one line of it. None is written where the year
has not four digits: the code panics. -/
class Rfc2822 where
  text : Int → Option Bytes
  oneLine : ∀ {at_ written}, text at_ = some written → 10 ∉ written

/-- `"Date"` -/
def date : Bytes := [68, 97, 116, 101]

def resentMark : Bytes := [82, 101, 115, 101, 110, 116, 45]

def resentDate : Bytes := resentMark ++ date

/-- A field of its own line. -/
def stamped (name written : Bytes) : Bytes :=
  name ++ 58 :: 32 :: (written ++ [13, 10])

def isDate (field : Bytes) : Bool := goesBy date field

def isResentDate (field : Bytes) : Bool := goesBy resentDate field

def opensBlock (field : Bytes) : Bool :=
  (named field).any fun name => 7 < name.length && eqIgnoreAsciiCase (name.take 7) resentMark

/-- Whether a message is one this client redirects: its first field opens a `Resent-` block. -/
def isResent (message : Bytes) : Bool := (headerFields message).head?.any opensBlock

def replaceFirst (picks : Bytes → Bool) (keeps : Bool) (stamp : Bytes) :
    Bool → List Bytes → List Bytes
  | _, [] => []
  | placed, field :: rest =>
    if picks field then
      if placed then
        if keeps then field :: replaceFirst picks keeps stamp placed rest
        else replaceFirst picks keeps stamp placed rest
      else stamp :: replaceFirst picks keeps stamp true rest
    else field :: replaceFirst picks keeps stamp placed rest

/-- The fields with one of them replaced, or put at the top where there is none to replace. -/
def stampedFields (picks : Bytes → Bool) (keeps : Bool) (stamp : Bytes) (all : List Bytes) :
    List Bytes :=
  let replaced := replaceFirst picks keeps stamp false all
  if all.any picks then replaced else stamp :: replaced

def withStamp (picks : Bytes → Bool) (keeps : Bool) (stamp message : Bytes) : Bytes :=
  (stampedFields picks keeps stamp (headerFields message)).flatten ++ (splitHead message).2

def restampResent [Rfc2822] (message : Bytes) (at_ : Int) : Option Bytes :=
  (Rfc2822.text at_).map fun written =>
    withStamp isResentDate true (stamped resentDate written) message

/-- A message with its date field saying an instant. -/
def restamp [Rfc2822] (message : Bytes) (at_ : Int) : Option Bytes :=
  if isResent message then restampResent message at_
  else (Rfc2822.text at_).map fun written => withStamp isDate false (stamped date written) message

/-! ## The fields of what leaves -/

section Fields

variable {picks : Bytes → Bool} {keeps : Bool} {stamp : Bytes} {all : List Bytes}

theorem replaceFirst_true : replaceFirst picks keeps stamp true all =
    if keeps then all else all.filter (!picks ·) := by
  induction all with
  | nil => simp [replaceFirst]
  | cons field rest ih =>
    simp only [replaceFirst, ih]
    cases keeps <;> cases hfield : picks field <;> simp [hfield]

theorem replaceFirst_none (h : ∀ field ∈ all, picks field = false) :
    replaceFirst picks keeps stamp false all = all := by
  induction all with
  | nil => rfl
  | cons field rest ih =>
    obtain ⟨hfield, hrest⟩ := List.forall_mem_cons.mp h
    simp [replaceFirst, hfield, ih hrest]

theorem replaceFirst_append {field : Bytes} {rest : List Bytes}
    (h : ∀ field ∈ all, picks field = false) (hfield : picks field) :
    replaceFirst picks keeps stamp false (all ++ field :: rest) =
      all ++ stamp :: replaceFirst picks keeps stamp true rest := by
  induction all with
  | nil => simp [replaceFirst, hfield]
  | cons first others ih =>
    obtain ⟨hfirst, hothers⟩ := List.forall_mem_cons.mp h
    simp [replaceFirst, hfirst, ih hothers]

theorem stampedFields_cases (picks : Bytes → Bool) (keeps : Bool) (stamp : Bytes)
    (all : List Bytes) :
    ((∀ field ∈ all, picks field = false) ∧ stampedFields picks keeps stamp all = stamp :: all) ∨
    ∃ above field rest, all = above ++ field :: rest ∧ (∀ field ∈ above, picks field = false) ∧
      picks field ∧ stampedFields picks keeps stamp all =
        above ++ stamp :: if keeps then rest else rest.filter (!picks ·) := by
  cases hfind : all.find? picks with
  | none =>
    have hnone : ∀ field ∈ all, picks field = false := by simpa using hfind
    have hany : all.any picks = false := by simpa using hnone
    exact .inl ⟨hnone, by simp [stampedFields, hany, replaceFirst_none hnone]⟩
  | some field =>
    obtain ⟨hfield, above, rest, rfl, habove⟩ := List.find?_eq_some_iff_append.mp hfind
    have hnone : ∀ field ∈ above, picks field = false := by simpa using habove
    refine .inr ⟨above, field, rest, rfl, hnone, hfield, ?_⟩
    simp [stampedFields, hfield, replaceFirst_append hnone hfield, replaceFirst_true]

theorem stampedFields_again (hpicks : picks stamp) :
    stampedFields picks keeps stamp (stampedFields picks keeps stamp all) =
      stampedFields picks keeps stamp all := by
  rcases stampedFields_cases picks keeps stamp all with
    ⟨hnone, hall⟩ | ⟨above, field, rest, -, hnone, -, hall⟩
  · have hrest : all.filter (!picks ·) = all := by simpa using hnone
    rw [hall, stampedFields, replaceFirst, replaceFirst_true, hrest]
    simp [hpicks]
  · rw [hall, stampedFields, replaceFirst_append hnone hpicks, replaceFirst_true]
    cases keeps <;> simp [hpicks]

theorem stampedFields_first (hpicks : picks stamp) :
    (stampedFields picks true stamp all).find? picks = some stamp ∧
      (stampedFields picks true stamp all).eraseP picks = all.eraseP picks := by
  rcases stampedFields_cases picks true stamp all with
    ⟨hnone, hall⟩ | ⟨above, field, rest, rfl, hnone, hfield, hall⟩
  · rw [hall, List.find?_cons_of_pos hpicks, List.eraseP_cons_of_pos hpicks,
      List.eraseP_of_forall_not fun field hmem => by simp [hnone field hmem]]
    exact ⟨rfl, rfl⟩
  · have habove : above.find? picks = none := by simpa using hnone
    have hnot : ∀ field ∈ above, ¬ picks field := by simpa using hnone
    rw [hall, List.find?_append, habove, List.eraseP_append_right _ hnot,
      List.eraseP_append_right _ hnot]
    simp [hpicks, hfield]

theorem stampedFields_only (hpicks : picks stamp) :
    (stampedFields picks false stamp all).filter picks = [stamp] ∧
      (stampedFields picks false stamp all).filter (!picks ·) = all.filter (!picks ·) := by
  rcases stampedFields_cases picks false stamp all with
    ⟨hnone, hall⟩ | ⟨above, field, rest, rfl, hnone, hfield, hall⟩
  · rw [hall]
    simpa [hpicks] using hnone
  · rw [hall]
    simpa [hpicks, hfield, List.filter_filter] using hnone

/-- The fields stamped make up a header again, where the stamp put at the top has nothing below it
to swallow. -/
theorem Header.stamped {body : Bytes} (h : Header all body) (keeps : Bool) (hstamp : Field stamp)
    (hclosed : Closed feed stamp) (hopens : continues stamp = false)
    (hfirst : all.any picks ∨ ∀ field ∈ all, continues field = false) :
    Header (stampedFields picks keeps stamp all) body := by
  have hput : ∀ above below, (above ++ below).Sublist all →
      (∀ field ∈ above, Closed feed field) → (∀ field ∈ below, continues field = false) →
      Header (above ++ stamp :: below) body := by
    intro above below hsub habove hbelow
    have hmem : ∀ field ∈ above ++ stamp :: below, field = stamp ∨ field ∈ all := by
      intro field hfield
      rcases List.mem_append.mp hfield with hfield | hfield
      · exact .inr (hsub.subset (List.mem_append_left _ hfield))
      · exact (List.mem_cons.mp hfield).imp_right fun hfield =>
          hsub.subset (List.mem_append_right _ hfield)
    obtain ⟨hleft, hright, hacross⟩ := List.pairwise_append.mp (h.apart.sublist hsub)
    refine ⟨fun field hfield => ?_, List.pairwise_append.mpr ⟨hleft, List.pairwise_cons.mpr
      ⟨fun field hfield => ⟨hclosed, hbelow field hfield⟩, hright⟩, fun a ha b hb => ?_⟩,
      h.body.imp_right fun hbody => ⟨fun field hfield => ?_, hbody.2⟩⟩
    · rcases hmem field hfield with rfl | hfield
      · exact hstamp
      · exact h.field field hfield
    · rcases List.mem_cons.mp hb with rfl | hb
      · exact ⟨habove a ha, hopens⟩
      · exact hacross a ha b hb
    · rcases hmem field hfield with rfl | hfield
      · exact hclosed
      · exact hbody.1 field hfield
  rcases stampedFields_cases picks keeps stamp all with
    ⟨hnone, hall⟩ | ⟨above, field, rest, rfl, -, -, hall⟩
  · have hnot : all.any picks = false := by simpa using hnone
    rw [hall]
    exact hput [] all (List.Sublist.refl _) (by simp) (hfirst.resolve_left (by simp [hnot]))
  · obtain ⟨-, hright, hacross⟩ := List.pairwise_append.mp h.apart
    have hrest : (if keeps then rest else rest.filter (!picks ·)).Sublist rest := by
      cases keeps
      · exact List.filter_sublist
      · exact List.Sublist.refl _
    rw [hall]
    exact hput _ _ ((List.Sublist.refl above).append (hrest.trans (List.sublist_cons_self ..)))
      (fun a ha => (hacross a ha field (.head _ ..)).1)
      fun b hb => ((List.pairwise_cons.mp hright).1 b (hrest.subset hb)).2

end Fields

/-! ## The stamps -/

variable {name message stamp : Bytes} {picks : Bytes → Bool}

theorem named_append (hcolon : 58 ∉ name) (htrim : name.rdropWhile Utf8.isAsciiWhitespace = name)
    (more : Bytes) :
    named (name ++ 58 :: more) = some name := by
  have hnot : ∀ b ∈ name, (b != 58) = true := fun b hb => by
    simpa using fun h : b = 58 => hcolon (h ▸ hb)
  simp [named, List.takeWhile_append_of_pos hnot, htrim]

theorem goesBy_append (hcolon : 58 ∉ name) (htrim : name.rdropWhile Utf8.isAsciiWhitespace = name)
    (more : Bytes) :
    goesBy name (name ++ 58 :: more) := by
  rw [goesBy, named_append hcolon htrim]
  simp [eqIgnoreAsciiCase]

theorem closed_stamped (name written : Bytes) : Closed feed (stamped name written) := by
  have hlast : (stamped name written).getLast? = some 10 := by
    rw [stamped, ← List.cons_append, ← List.cons_append, ← List.append_assoc]
    exact List.getLast?_append_of_ne_nil _ (List.cons_ne_nil 13 [10])
  intro b hb
  obtain rfl : 10 = b := by simpa [hlast] using hb
  rfl

theorem line_stamped {written : Bytes} (hname : 10 ∉ name) (hwritten : 10 ∉ written) :
    lines feed (stamped name written) = [stamped name written] := by
  have hfree : ∀ b ∈ name ++ 58 :: 32 :: (written ++ [13]), feed b = false := by
    intro b hb
    simp only [feed, beq_eq_false_iff_ne]
    rintro rfl
    simp_all
  simpa [stamped] using lines_single hfree 10

theorem field_stamped {written : Bytes} (hname : 10 ∉ name) (hwritten : 10 ∉ written) :
    Field (stamped name written) := by
  have hline := line_stamped hname hwritten
  refine ⟨by rw [fields, hline]; rfl, fun line h => ?_⟩
  obtain rfl : line = stamped name written := by simpa [hline] using h
  have hlong : 3 < (stamped name written).length := by simp [stamped]; omega
  simp only [isBlank, Bool.or_eq_false_iff, beq_eq_false_iff_ne]
  constructor
  · intro h
    simp [h] at hlong
  · intro h
    simp [h] at hlong

theorem stampedFields_head (picks : Bytes → Bool) (keeps : Bool) (stamp : Bytes)
    (all : List Bytes) : (stampedFields picks keeps stamp all).head? = some stamp ∨
      (stampedFields picks keeps stamp all).head? = all.head? := by
  rcases stampedFields_cases picks keeps stamp all with
    ⟨-, hall⟩ | ⟨above, field, rest, rfl, -, -, hall⟩
  · exact .inl (by rw [hall]; rfl)
  · cases above with
    | nil => exact .inl (by rw [hall]; rfl)
    | cons first others => exact .inr (by rw [hall]; rfl)

/-- A message stamped is cut into its fields stamped and its body, and stamped again it is the
same. -/
theorem withStamp_cut (keeps : Bool) (hpicks : picks stamp) (hstamp : Field stamp)
    (hclosed : Closed feed stamp) (hopens : continues stamp = false)
    (hfirst : continues message = true → (headerFields message).any picks) :
    headerFields (withStamp picks keeps stamp message) =
        stampedFields picks keeps stamp (headerFields message) ∧
      (splitHead (withStamp picks keeps stamp message)).2 = (splitHead message).2 ∧
      withStamp picks keeps stamp (withStamp picks keeps stamp message) =
        withStamp picks keeps stamp message := by
  have hcut := (Header.stamped (header_splitHead message) keeps hstamp hclosed hopens (by
    by_cases hopens : continues message = true
    · exact .inl (hfirst hopens)
    · exact .inr (continues_headerFields (by simpa using hopens)))).cut
  have hfields : headerFields (withStamp picks keeps stamp message) =
      stampedFields picks keeps stamp (headerFields message) := by
    rw [headerFields, withStamp, hcut.1]
    exact hcut.2
  have hbody : (splitHead (withStamp picks keeps stamp message)).2 = (splitHead message).2 := by
    rw [withStamp, hcut.1]
  refine ⟨hfields, hbody, ?_⟩
  rw [withStamp, hfields, hbody, stampedFields_again hpicks]
  rfl

theorem headerFields_swallowed (keeps : Bool) (hstamp : Field stamp)
    (hline : lines feed stamp = [stamp]) (hclosed : Closed feed stamp)
    (hopens : continues message = true) (hnone : (headerFields message).any picks = false) :
    ∃ field rest, field ≠ [] ∧
      headerFields (withStamp picks keeps stamp message) = (stamp ++ field) :: rest := by
  have hput : withStamp picks keeps stamp message = stamp ++ message := by
    rw [withStamp, stampedFields, hnone, replaceFirst_none (by simpa using hnone)]
    simp [headerFields, flatten_fields, append_splitHead]
  have hhead : (splitHead (stamp ++ message)).1 = stamp ++ (splitHead message).1 := by
    rw [splitHead, splitHead, lines_append hclosed, List.takeWhile_append_of_pos
      (fun line h => by simp [hstamp.noBlank line h]), List.flatten_append, flatten_lines]
  cases hall : headerFields message with
  | nil =>
    have hnil := flatten_fields (splitHead message).1
    rw [← headerFields, hall] at hnil
    rw [← continues_head, ← hnil] at hopens
    simp [continues] at hopens
  | cons field rest =>
    have hfield : continues field = true := by
      rw [continues_first (by rw [← headerFields, hall]; rfl), continues_head, hopens]
    have hgather : gather (lines feed (splitHead message).1) = field :: rest := hall
    refine ⟨field, rest, fun hnil => by simp [hnil, continues] at hfield, ?_⟩
    rw [hput, headerFields, hhead, fields, lines_append hclosed, hline, List.singleton_append,
      gather, hgather]
    simp [hfield]

/-! ## What leaves -/

/-- A message whose date is said, and no other field touched. -/
def Dated (message out written : Bytes) : Prop :=
  if isResent message then
    (headerFields out).find? isResentDate = some (stamped resentDate written) ∧
      (headerFields out).eraseP isResentDate = (headerFields message).eraseP isResentDate
  else
    (headerFields out).filter isDate = [stamped date written] ∧
      (headerFields out).filter (!isDate ·) = (headerFields message).filter (!isDate ·)

theorem continues_of_isResent (h : isResent message) :
    continues message = false := by
  rw [isResent] at h
  cases hall : headerFields message with
  | nil => simp [hall] at h
  | cons field rest =>
    have hfield : continues field = continues message := by
      rw [continues_first (by rw [← headerFields, hall]; rfl), continues_head]
    have hopens : opensBlock field := by simpa [hall] using h
    rw [← hfield]
    cases field with
    | nil => simp [opensBlock, named] at hopens
    | cons b text =>
      rw [opensBlock, named] at hopens
      split at hopens
      · obtain ⟨hlong, hname⟩ : 7 < List.length _ ∧ eqIgnoreAsciiCase (List.take 7 _) _ := by
          simpa using hopens
        -- The name is what the field begins with, so the field begins with its first letter.
        obtain ⟨c, more, hc⟩ := List.exists_cons_of_length_pos (Nat.lt_trans (by decide) hlong)
        have hprefix := (List.rdropWhile_prefix Utf8.isAsciiWhitespace _).trans
          (List.takeWhile_prefix (· != 58) (l := b :: text))
        rw [hc] at hname hprefix
        obtain rfl : c = b := (List.cons_prefix_cons.mp hprefix).1
        have hletter : toAsciiLowercase c = 114 := by
          simp only [eqIgnoreAsciiCase, beq_iff_eq, List.take_succ_cons, List.map_cons] at hname
          exact (List.cons.inj hname).1
        simp only [continues, List.head?_cons, Option.any_some, Bool.or_eq_false_iff,
          beq_eq_false_iff_ne]
        constructor
        · rintro rfl
          simp [toAsciiLowercase] at hletter
        · rintro rfl
          simp [toAsciiLowercase] at hletter
      · simp at hopens

theorem isResent_withStamp {keeps : Bool}
    (hfields : headerFields (withStamp picks keeps stamp message) =
      stampedFields picks keeps stamp (headerFields message))
    (hstamp : opensBlock stamp = isResent message) :
    isResent (withStamp picks keeps stamp message) = isResent message := by
  rw [isResent, hfields]
  rcases stampedFields_head picks keeps stamp (headerFields message) with h | h
  · simp [h, hstamp]
  · rw [h]
    rfl

section

variable [Rfc2822]

/-- Restamping a message changes only its date, and restamping it again changes nothing. -/
def OnlyDated (message : Bytes) (at_ : Int) : Prop :=
  ∃ written out, Rfc2822.text at_ = some written ∧ restamp message at_ = some out ∧
    Dated message out written ∧ (splitHead out).2 = (splitHead message).2 ∧
    restamp out at_ = some out

/-- Only the date changes, unless the date that is missing is put above a line that continues
it. -/
theorem restamp_iff (message : Bytes) (at_ : Int) : OnlyDated message at_ ↔
    (Rfc2822.text at_).isSome ∧
      (continues message = true → (headerFields message).any isDate) := by
  constructor
  · rintro ⟨written, out, hwritten, hout, hdated, -, -⟩
    refine ⟨by simp [hwritten], fun hopens => ?_⟩
    by_contra hnone
    have hresent : isResent message = false := by
      by_contra h
      simp [continues_of_isResent (by simpa using h)] at hopens
    have hout : withStamp isDate false (stamped date written) message = out := by
      simpa [restamp, hresent, hwritten] using hout
    have hstamp : Field (stamped date written) :=
      field_stamped (by decide) (Rfc2822.oneLine hwritten)
    obtain ⟨field, rest, hfield, hall⟩ := headerFields_swallowed false hstamp
      (line_stamped (by decide) (Rfc2822.oneLine hwritten)) (closed_stamped _ _) hopens
      (by simpa using hnone)
    have hdate : isDate (stamped date written ++ field) := by
      rw [stamped, List.append_assoc]
      exact goesBy_append (by decide) (by decide) _
    rw [Dated, hresent, ← hout, hall] at hdated
    simp [hdate, hfield] at hdated
  · rintro ⟨hsome, hfirst⟩
    obtain ⟨written, hwritten⟩ := Option.isSome_iff_exists.mp hsome
    by_cases hresent : isResent message
    · have hstamp : Field (stamped resentDate written) :=
        field_stamped (by decide) (Rfc2822.oneLine hwritten)
      have hpicks : isResentDate (stamped resentDate written) :=
        goesBy_append (by decide) (by decide) _
      obtain ⟨hfields, hbody, hagain⟩ := withStamp_cut true hpicks hstamp (closed_stamped _ _) rfl
        (fun h : continues message = true => by simp [continues_of_isResent hresent] at h)
      have hblock : opensBlock (stamped resentDate written) = isResent message := by
        rw [hresent, opensBlock, stamped, named_append (by decide) (by decide)]
        decide
      refine ⟨written, _, hwritten, by simp [restamp, hresent, restampResent, hwritten],
        ?_, hbody, ?_⟩
      · rw [Dated, if_pos hresent, hfields]
        exact stampedFields_first hpicks
      · simp [restamp, isResent_withStamp hfields hblock, hresent, restampResent, hwritten, hagain]
    · have hstamp : Field (stamped date written) :=
        field_stamped (by decide) (Rfc2822.oneLine hwritten)
      have hpicks : isDate (stamped date written) :=
        goesBy_append (by decide) (by decide) _
      obtain ⟨hfields, hbody, hagain⟩ := withStamp_cut false hpicks hstamp (closed_stamped _ _) rfl
        hfirst
      have hblock : opensBlock (stamped date written) = isResent message := by
        rw [Bool.eq_false_iff.mpr hresent, opensBlock, stamped,
          named_append (by decide) (by decide)]
        decide
      refine ⟨written, _, hwritten, by simp [restamp, hresent, hwritten], ?_, hbody, ?_⟩
      · rw [Dated, if_neg hresent, hfields]
        exact stampedFields_only hpicks
      · simp [restamp, isResent_withStamp hfields hblock, hresent, hwritten, hagain]

end

/-- The first instant there is a date for, and no other. -/
@[reducible] def epoch : Rfc2822 where
  text at_ := if at_ = 0 then
    some ("Thu, 1 Jan 1970 00:00:00 +0000".toList.map fun c => c.toNat.toUInt8) else none
  oneLine h := by
    split at h
    · obtain rfl := Option.some.inj h
      decide
    · contradiction

/-- A line that opens the message with white space is taken into the date put above it, and lost
when the message is stamped again. -/
theorem restamp_swallows : ¬ @OnlyDated epoch [32, 120, 10] 0 := by
  rintro ⟨_, out, _, hout, _, _, hagain⟩
  have hlost : (@restamp epoch [32, 120, 10] 0).bind (@restamp epoch · 0) ≠
      @restamp epoch [32, 120, 10] 0 := by decide
  exact hlost (by rw [hout]; exact hagain)

end Mailo.Mime
