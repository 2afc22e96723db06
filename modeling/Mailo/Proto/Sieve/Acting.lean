import Mailo.Library.Lists
import Mailo.Proto.Sieve.Reading

/-!
# A script acts as this client would

A message is read by the server from its headers and by this client from what it parsed of them.
Where both read the same, a block is entered where its rule fits, so a script does what a run of
the rules it says does.
-/

namespace Mailo.Proto.Sieve

open Domain Library

open Library.Sieve (Argument Command folded fieldHolds)

def valuesOf (fields : List (List Char × List Char)) (name : List Char) : List (List Char) :=
  (fields.filter fun field => folded name = folded field.1).map Prod.snd

/-- An address as it may stand in a header. -/
inductive Spelled : Address → List Char → Prop
  | bare (email : String) : Spelled ⟨none, email⟩ email.toList
  | angled (email : String) : Spelled ⟨none, email⟩ ('<' :: (email.toList ++ ['>']))
  | named (name email : String) :
      Spelled ⟨some name, email⟩ ((name.toList ++ [' ']) ++ '<' :: (email.toList ++ ['>']))
  | quoted (name email : String) :
      Spelled ⟨some name, email⟩
        ('"' :: (name.toList ++ '"' :: ' ' :: '<' :: (email.toList ++ ['>'])))

/-- Addresses with commas between them. -/
inductive SpelledAll : List Address → List Char → Prop
  | one {address : Address} {value : List Char} (h : Spelled address value) :
      SpelledAll [address] value
  | more {address : Address} {value : List Char} {rest : List Address} {others : List Char}
      (h : Spelled address value) (ih : SpelledAll rest others) :
      SpelledAll (address :: rest) (value ++ ',' :: ' ' :: others)

/-- The field of this name holds these addresses, and there is none where there are none. -/
structure Lists (mail : Sieve.Mail) (name : String) (addresses : List Address) : Prop where
  text : (addresses = [] ∧ valuesOf mail.fields name.toList = []) ∨
    ∃ value, valuesOf mail.fields name.toList = [value] ∧ SpelledAll addresses value
  emails : valuesOf mail.addresses name.toList = addresses.map fun address => address.email.toList

/-- What the server was given is the message this client parsed: one field for each of what a
script tests. -/
structure Delivered (mail : Sieve.Mail) (message : Message) : Prop where
  subject : valuesOf mail.fields "subject".toList = [message.subject.toList]
  sender : Lists mail "from" [message.sender]
  «to» : Lists mail "to" message.«to»
  cc : Lists mail "cc" message.cc

/-- A filter is asked about this message, whatever rules before have done to it. -/
structure About [Unicode] (message : Message) (ctx : MatchCtx) : Prop where
  account : ctx.summary.account = message.account
  subject : ctx.summary.subject = message.subject
  sender : ctx.summary.sender = message.sender
  participants : ctx.summary.participants = [message.sender]
  recipients : ctx.summary.recipients =
    (message.«to» ++ message.cc).foldl ThreadSummary.addAddress []
  cc : ctx.cc = message.cc
  sizes : ctx.sizes = [messageSize message]

/-- Text that is written into a script unchanged. -/
def Clean (text : String) : Prop := cleaned text.toList = text.toList

def InAddress (needle : List Char) (address : Address) : Prop :=
  needle <:+: folded address.email.toList ∨
    ∃ name ∈ address.name, needle <:+: folded name.toList

/-- A text that is found alike in these headers and in the addresses they list: one that does not
begin or end with a space, or stands in no header but within a name or an address; or one that is
no display name, or an address too. -/
def ReadableText (mail : Sieve.Mail) (headers : List String) (addresses : List Address) :
    TextMatch → Prop
  | .contains s => Clean s ∧ (s.toList.head? ≠ some ' ' ∧ s.toList.getLast? ≠ some ' ' ∨
      ∀ header ∈ headers, ∀ value ∈ valuesOf mail.fields header.toList,
        folded s.toList <:+: folded value → ∃ address ∈ addresses, InAddress (folded s.toList) address)
  | .exact s => Clean s ∧ ∀ address ∈ addresses, ∀ name ∈ address.name,
      folded name.toList = folded s.toList →
        ∃ other ∈ addresses, folded other.email.toList = folded s.toList

section Readable

variable [Unicode]

mutual

/-- The texts of a filter are found alike, and the message falls on one side of each size. -/
def Readable (mail : Sieve.Mail) (message : Message) : Filter → Prop
  | .and parts | .or parts => AllReadable mail message parts
  | .not inner => Readable mail message inner
  | .sender text => ReadableText mail ["from"] [message.sender] text
  | .to text => ReadableText mail ["to", "cc"] (message.«to» ++ message.cc) text ∧
      ((message.«to» ++ message.cc).map fun address => Unicode.toLowercase address.email).Nodup
  | .cc text => ReadableText mail ["cc"] message.cc text
  | .fromAddress email => Clean email ∧ Text.trim email.toList = email.toList
  | .subject (.contains s) | .subject (.exact s) => Clean s
  | .larger bytes => bytes < mail.size ↔ bytes < messageSize message
  | .smaller bytes => mail.size < bytes ↔ messageSize message < bytes
  | _ => True

def AllReadable (mail : Sieve.Mail) (message : Message) : List Filter → Prop
  | [] => True
  | part :: rest => Readable mail message part ∧ AllReadable mail message rest

end

end Readable

section About

variable [Unicode]

theorem foldl_addAddress {addresses out : List Address}
    (distinct : ((out ++ addresses).map fun address => Unicode.toLowercase address.email).Nodup) :
    addresses.foldl ThreadSummary.addAddress out = out ++ addresses := by
  induction addresses generalizing out with
  | nil => rw [List.foldl_nil, List.append_nil]
  | cons address rest ih =>
    have hnew : ThreadSummary.addAddress out address = out ++ [address] := by
      unfold ThreadSummary.addAddress
      apply if_neg
      intro hheld
      rw [List.map_append, List.map_cons, List.nodup_middle, List.nodup_cons] at distinct
      exact distinct.1 (List.mem_append_left _ (List.contains_iff_mem.mp hheld))
    rw [List.foldl_cons, hnew, ih (by rw [List.append_assoc]; exact distinct),
      List.append_assoc]
    rfl

theorem about_oneMessage {message : Message} {ctx : MatchCtx}
    (summary : ctx.summary = oneMessage message) (cc : ctx.cc = message.cc)
    (sizes : ctx.sizes = [messageSize message]) : About message ctx where
  account := by rw [summary]; rfl
  subject := by rw [summary]; rfl
  sender := by rw [summary]; rfl
  participants := by rw [summary]; rfl
  recipients := by rw [summary]; rfl
  cc := cc
  sizes := sizes

end About

/-! ## Text found -/

variable {c : Char} {addresses : List Address} {mail : Sieve.Mail} {name : String}

theorem toLower_fixed {d : Char} (other : d.toNat < 97 ∨ 122 < d.toNat) (h : c.toLower = d) :
    c = d := by
  delta Char.toLower at h
  split at h
  · rename_i hupper
    subst h
    obtain ⟨hlow, hhigh⟩ := hupper
    have hlow' : 65 ≤ c.val.toNat := hlow
    have hhigh' : c.val.toNat ≤ 90 := hhigh
    have hval : (c.val + ('a'.val - 'A'.val)).toNat = c.val.toNat + 32 := by
      rw [UInt32.toNat_add]
      change (c.val.toNat + 32) % 2 ^ 32 = _
      omega
    change (c.val + ('a'.val - 'A'.val)).toNat < 97 ∨
      122 < (c.val + ('a'.val - 'A'.val)).toNat at other
    omega
  · exact h

theorem mem_folded (other : c.toNat < 97 ∨ 122 < c.toNat) {text : List Char} (h : c ∈ folded text) :
    c ∈ text := by
  obtain ⟨d, hd, hlower⟩ := List.mem_map.mp h
  rw [← toLower_fixed other hlower]
  exact hd

/-- What is found in a header only where it is in a name or an address. -/
structure Plain (needle : List Char) : Prop where
  less : '<' ∉ needle
  greater : '>' ∉ needle
  quote : '"' ∉ needle
  comma : ',' ∉ needle
  begins : needle.head? ≠ some ' '
  ends : needle.getLast? ≠ some ' '

variable {s : String}

theorem plain_folded (plain : hasPunctuation s = false) (hbegins : s.toList.head? ≠ some ' ')
    (hends : s.toList.getLast? ≠ some ' ') : Plain (folded s.toList) := by
  have hnone : ∀ c ∈ s.toList, c ≠ '<' ∧ c ≠ '>' ∧ c ≠ '"' ∧ c ≠ ',' := by
    intro c hc
    have hfalse := List.any_eq_false.mp plain c hc
    simpa [and_assoc] using hfalse
  refine ⟨?_, ?_, ?_, ?_, ?_, ?_⟩
  · exact fun h => (hnone _ (mem_folded (by decide) h)).1 rfl
  · exact fun h => (hnone _ (mem_folded (by decide) h)).2.1 rfl
  · exact fun h => (hnone _ (mem_folded (by decide) h)).2.2.1 rfl
  · exact fun h => (hnone _ (mem_folded (by decide) h)).2.2.2 rfl
  · intro h
    unfold folded at h
    rw [List.head?_map] at h
    obtain ⟨c, hc, hlower⟩ := Option.map_eq_some_iff.mp h
    rw [toLower_fixed (by decide) hlower] at hc
    exact hbegins hc
  · intro h
    unfold folded at h
    rw [List.getLast?_map] at h
    obtain ⟨c, hc, hlower⟩ := Option.map_eq_some_iff.mp h
    rw [toLower_fixed (by decide) hlower] at hc
    exact hends hc

namespace Plain

variable {needle : List Char}

variable {c : Char} {value : List Char}

theorem head_ne (lacks : c ∉ needle) : needle.head? ≠ some c :=
  fun h => lacks (List.mem_of_head? h)

theorem last_ne (lacks : c ∉ needle) : needle.getLast? ≠ some c :=
  fun h => lacks (List.mem_of_getLast? h)

theorem infix_angled (plain : Plain needle) (email : List Char) :
    needle <:+: '<' :: (email ++ ['>']) ↔ needle <:+: email := by
  rw [Infix.infix_cons (head_ne plain.less),
    Infix.infix_append_singleton (last_ne plain.greater)]

/-- Found in an address as it is spelled where it is found in its email or its name. -/
theorem infix_spelled (plain : Plain needle) {address : Address} (h : Spelled address value) :
    needle <:+: folded value ↔ InAddress needle address := by
  unfold InAddress
  cases h with
  | bare email => simp
  | angled email =>
    have hfolded : folded ('<' :: (email.toList ++ ['>'])) =
        '<' :: (folded email.toList ++ ['>']) := by
      simp [folded]
    rw [hfolded, plain.infix_angled]
    simp
  | named name email =>
    have hfolded : folded ((name.toList ++ [' ']) ++ '<' :: (email.toList ++ ['>'])) =
        (folded name.toList ++ [' ']) ++ '<' :: (folded email.toList ++ ['>']) := by
      simp [folded]
    rw [hfolded, Infix.infix_append_cons plain.less, Infix.infix_append_singleton plain.ends,
      Infix.infix_append_singleton (last_ne plain.greater)]
    simp [or_comm]
  | quoted name email =>
    have hfolded :
        folded ('"' :: (name.toList ++ '"' :: ' ' :: '<' :: (email.toList ++ ['>']))) =
          '"' :: (folded name.toList ++ '"' :: ' ' :: '<' :: (folded email.toList ++ ['>'])) := by
      simp [folded]
    rw [hfolded, Infix.infix_cons (head_ne plain.quote),
      Infix.infix_append_cons plain.quote, Infix.infix_cons plain.begins, plain.infix_angled]
    simp [or_comm]

theorem infix_spelledAll (plain : Plain needle) {addresses : List Address}
    (h : SpelledAll addresses value) :
    needle <:+: folded value ↔ ∃ address ∈ addresses, InAddress needle address := by
  induction h with
  | one h => rw [plain.infix_spelled h]; simp
  | @more address value rest others h hrest ih =>
    have hfolded : folded (value ++ ',' :: ' ' :: others) =
        folded value ++ ',' :: ' ' :: folded others := by
      simp [folded]
    rw [hfolded, Infix.infix_append_cons plain.comma, Infix.infix_cons plain.begins,
      plain.infix_spelled h, ih]
    simp

end Plain

/-! ## Tests -/

theorem strings_headersOf (headers : List String) :
    (headersOf headers).strings = headers.map fun header => cleaned header.toList := by
  match headers with
  | [] => rfl
  | [_] => rfl
  | _ :: _ :: _ => rfl

theorem fieldHolds_iff (fields : List (List Char × List Char)) (kind : List Char)
    (names : Argument) (key : List Char) :
    fieldHolds fields kind names (.text key) = true ↔
      ∃ name ∈ names.strings, ∃ value ∈ valuesOf fields name, Sieve.compare kind value key = true := by
  unfold fieldHolds valuesOf
  simp only [List.any_eq_true, Bool.and_eq_true, List.contains_iff_mem, List.mem_map,
    List.mem_filter, decide_eq_true_eq, Argument.strings, List.mem_singleton, exists_eq_left]
  constructor
  · rintro ⟨field, hfield, ⟨name, hname, hfolded⟩, hcompare⟩
    exact ⟨name, hname, field.2, ⟨field, ⟨hfield, hfolded⟩, rfl⟩, hcompare⟩
  · rintro ⟨name, hname, value, ⟨field, ⟨hfield, hfolded⟩, rfl⟩, hcompare⟩
    exact ⟨field, hfield, ⟨name, hname, hfolded⟩, hcompare⟩

theorem compare_contains (value key : List Char) :
    Sieve.compare "contains".toList value key = true ↔ folded key <:+: folded value := by
  unfold Sieve.compare
  rw [if_pos rfl, decide_eq_true_eq]

theorem compare_is (value key : List Char) :
    Sieve.compare "is".toList value key = true ↔ folded key = folded value := by
  unfold Sieve.compare
  rw [if_neg (by decide), if_pos rfl, decide_eq_true_eq]

theorem textFits_contains (s haystack : String) :
    textFits (.contains s) haystack = true ↔ folded s.toList <:+: folded haystack.toList := by
  unfold textFits containsText
  rw [decide_eq_true_eq]
  rfl

theorem textFits_exact (s haystack : String) :
    textFits (.exact s) haystack = true ↔ folded haystack.toList = folded s.toList := by
  unfold textFits Text.eqIgnoreAsciiCase
  rw [beq_iff_eq]
  rfl

theorem addressFits_contains {address : Address} :
    addressFits (.contains s) address = true ↔ InAddress (folded s.toList) address := by
  unfold addressFits InAddress
  rw [Bool.or_eq_true, textFits_contains, Option.any_eq_true]
  simp only [textFits_contains, Option.mem_def]

theorem addressFits_exact {address : Address} :
    addressFits (.exact s) address = true ↔ folded address.email.toList = folded s.toList ∨
      ∃ name ∈ address.name, folded name.toList = folded s.toList := by
  unfold addressFits
  rw [Bool.or_eq_true, textFits_exact, Option.any_eq_true]
  simp only [textFits_exact, Option.mem_def]

theorem contains_lists (lists : Lists mail name addresses) (plain : Plain (folded s.toList)) :
    (∃ value ∈ valuesOf mail.fields name.toList,
        Sieve.compare "contains".toList value s.toList = true) ↔
      ∃ address ∈ addresses, addressFits (.contains s) address = true := by
  simp only [addressFits_contains, compare_contains]
  rcases lists.text with ⟨rfl, hnone⟩ | ⟨value, hvalue, hspelled⟩
  · rw [hnone]
    simp
  · rw [hvalue, ← plain.infix_spelledAll hspelled]
    simp

/-- A name and an email stand in the header as they are spelled there. -/
theorem spelled_holds {address : Address} {value needle : List Char} (h : Spelled address value)
    (held : InAddress needle address) : needle <:+: folded value := by
  have hpart : ∀ part : List Char, part <:+: value → needle <:+: folded part →
      needle <:+: folded value := fun part hfound hneedle => hneedle.trans (hfound.map _)
  unfold InAddress at held
  cases h with
  | bare email => simpa using held
  | angled email =>
    have hemail : needle <:+: folded email.toList := by simpa using held
    exact hpart _ ⟨['<'], ['>'], by simp⟩ hemail
  | named name email =>
    rcases held with hemail | ⟨shown, hshown, hname⟩
    · exact hpart _ ⟨name.toList ++ [' ', '<'], ['>'], by simp⟩ hemail
    · cases Option.some.inj hshown
      exact hpart _ ⟨[], ' ' :: '<' :: (email.toList ++ ['>']), by simp⟩ hname
  | quoted name email =>
    rcases held with hemail | ⟨shown, hshown, hname⟩
    · exact hpart _ ⟨'"' :: (name.toList ++ ['"', ' ', '<']), ['>'], by simp⟩ hemail
    · cases Option.some.inj hshown
      exact hpart _ ⟨['"'], '"' :: ' ' :: '<' :: (email.toList ++ ['>']), by simp⟩ hname

theorem spelledAll_holds {value needle : List Char} (h : SpelledAll addresses value)
    {address : Address} (hmem : address ∈ addresses) (held : InAddress needle address) :
    needle <:+: folded value := by
  induction h with
  | one h =>
    rw [List.mem_singleton.mp hmem] at held
    exact spelled_holds h held
  | @more first value rest others h hrest ih =>
    rcases List.mem_cons.mp hmem with rfl | hmem
    · exact (spelled_holds h held).trans ((List.prefix_append _ _).isInfix.map _)
    · exact (ih hmem).trans (List.IsInfix.map _ ⟨value ++ [',', ' '], [], by simp⟩)

theorem lists_holds (lists : Lists mail name addresses) {address : Address}
    (hmem : address ∈ addresses) (fits : addressFits (.contains s) address = true) :
    ∃ value ∈ valuesOf mail.fields name.toList,
      Sieve.compare "contains".toList value s.toList = true := by
  rcases lists.text with ⟨rfl, _⟩ | ⟨value, hvalue, hspelled⟩
  · cases hmem
  · refine ⟨value, by rw [hvalue]; exact .head _, (compare_contains _ _).mpr ?_⟩
    exact spelledAll_holds hspelled hmem (addressFits_contains.mp fits)

theorem emails_hold (lists : Lists mail name addresses) :
    (∃ value ∈ valuesOf mail.addresses name.toList,
        Sieve.compare "is".toList value s.toList = true) ↔
      ∃ address ∈ addresses, folded address.email.toList = folded s.toList := by
  rw [lists.emails]
  simp only [compare_is, List.mem_map]
  constructor
  · rintro ⟨_, ⟨other, hother, rfl⟩, h⟩
    exact ⟨other, hother, h.symm⟩
  · rintro ⟨other, hother, h⟩
    exact ⟨_, ⟨other, hother, rfl⟩, h.symm⟩

theorem mem_headersOf {headers : List String} (headersClean : ∀ header ∈ headers, Clean header)
    (name : List Char) :
    name ∈ (headersOf headers).strings ↔ ∃ header ∈ headers, header.toList = name := by
  rw [strings_headersOf, List.mem_map]
  constructor
  · rintro ⟨header, hheader, rfl⟩
    exact ⟨header, hheader, (headersClean header hheader).symm⟩
  · rintro ⟨header, hheader, rfl⟩
    exact ⟨header, hheader, headersClean header hheader⟩

theorem addressTest_holds {mail : Sieve.Mail} {headers : List String}
    {addresses : String → List Address} {text : TextMatch} {clause : String} {out : List Char}
    (h : addressTest headers text clause = .ok out)
    (readable : ReadableText mail headers (headers.flatMap addresses) text)
    (headersClean : ∀ header ∈ headers, Clean header)
    (lists : ∀ header ∈ headers, Lists mail header (addresses header)) :
    (addressTestOf headers text).holds mail =
      (headers.flatMap addresses).any (addressFits text) := by
  have hwhole : ∀ {fields : List (List Char × List Char)} {kind key : List Char},
      ((∃ header ∈ headers, ∃ value ∈ valuesOf fields header.toList,
          Sieve.compare kind value key = true) ↔
        ∃ header ∈ headers, ∃ address ∈ addresses header, addressFits text address = true) →
      fieldHolds fields kind (headersOf headers) (.text key) =
        (headers.flatMap addresses).any (addressFits text) := by
    intro fields kind key hall
    rw [Bool.eq_iff_iff, fieldHolds_iff, List.any_eq_true]
    simp only [mem_headersOf headersClean, List.mem_flatMap]
    constructor
    · rintro ⟨_, ⟨header, hheader, rfl⟩, hvalue⟩
      obtain ⟨found, hfound, address, haddress, hfits⟩ := hall.mp ⟨header, hheader, hvalue⟩
      exact ⟨address, ⟨found, hfound, haddress⟩, hfits⟩
    · rintro ⟨address, ⟨header, hheader, haddress⟩, hfits⟩
      obtain ⟨found, hfound, hvalue⟩ := hall.mpr ⟨header, hheader, address, haddress, hfits⟩
      exact ⟨_, ⟨found, hfound, rfl⟩, hvalue⟩
  cases text with
  | contains s =>
    unfold addressTest at h
    dsimp only at h
    split at h
    · cases h
    · rename_i hplain
      obtain ⟨hclean, hedges⟩ := readable
      have hclean : cleaned s.toList = s.toList := hclean
      rw [addressTestOf, hclean]
      apply hwhole
      rcases hedges with ⟨hbegins, hends⟩ | hwithin
      · have hneedle := plain_folded (by simpa using hplain) hbegins hends
        constructor
        · rintro ⟨header, hheader, hvalue⟩
          exact ⟨header, hheader, (contains_lists (lists header hheader) hneedle).mp hvalue⟩
        · rintro ⟨header, hheader, haddress⟩
          exact ⟨header, hheader, (contains_lists (lists header hheader) hneedle).mpr haddress⟩
      · constructor
        · rintro ⟨header, hheader, value, hvalue, hcompare⟩
          obtain ⟨address, haddress, hheld⟩ := hwithin header hheader value hvalue
            ((compare_contains _ _).mp hcompare)
          obtain ⟨found, hfound, hmem⟩ := List.mem_flatMap.mp haddress
          exact ⟨found, hfound, address, hmem, addressFits_contains.mpr hheld⟩
        · rintro ⟨header, hheader, address, haddress, hfits⟩
          exact ⟨header, hheader, lists_holds (lists header hheader) haddress hfits⟩
  | exact s =>
    unfold addressTest at h
    dsimp only at h
    split at h
    · obtain ⟨hclean, hnames⟩ := readable
      have hclean : cleaned s.toList = s.toList := hclean
      rw [addressTestOf, hclean]
      apply hwhole
      constructor
      · rintro ⟨header, hheader, hvalue⟩
        obtain ⟨address, haddress, hsame⟩ := (emails_hold (lists header hheader)).mp hvalue
        exact ⟨header, hheader, address, haddress, addressFits_exact.mpr (.inl hsame)⟩
      · rintro ⟨header, hheader, address, haddress, hfits⟩
        rcases addressFits_exact.mp hfits with hemail | ⟨name, hname, hsame⟩
        · exact ⟨header, hheader, (emails_hold (lists header hheader)).mpr
            ⟨address, haddress, hemail⟩⟩
        · obtain ⟨other, hother, hemail⟩ := hnames address
            (List.mem_flatMap.mpr ⟨header, hheader, haddress⟩) name hname hsame
          obtain ⟨found, hfound, hmem⟩ := List.mem_flatMap.mp hother
          exact ⟨found, hfound, (emails_hold (lists found hfound)).mpr ⟨other, hmem, hemail⟩⟩
    · cases h

theorem joined_allof (mail : Sieve.Mail) (tests : List Sieve.Test) :
    (joinedOf "allof" "true" tests).holds mail =
      (tests.map fun test => test.holds mail).all id := by
  match tests with
  | [] => rfl
  | [one] => simp [joinedOf]
  | one :: next :: rest =>
    unfold joinedOf
    rw [Sieve.Test.holds, if_pos rfl, Sieve.allHold_eq, List.all_map]
    rfl

theorem joined_anyof (mail : Sieve.Mail) (tests : List Sieve.Test) :
    (joinedOf "anyof" "false" tests).holds mail =
      (tests.map fun test => test.holds mail).any id := by
  match tests with
  | [] => rfl
  | [one] => simp [joinedOf]
  | one :: next :: rest =>
    unfold joinedOf
    rw [Sieve.Test.holds, if_neg (by decide), Sieve.anyHolds_eq, decide_eq_true rfl,
      Bool.true_and, List.any_map]
    rfl

theorem subject_holds {subject : String}
    (one : valuesOf mail.fields "subject".toList = [subject.toList]) (kind : String)
    (key : List Char) :
    (Sieve.Test.leaf "header".toList
      [.tag kind.toList, .text "subject".toList, .text key]).holds mail =
      Sieve.compare kind.toList subject.toList key := by
  have hleaf : (Sieve.Test.leaf "header".toList
      [.tag kind.toList, .text "subject".toList, .text key]).holds mail =
      fieldHolds mail.fields kind.toList (.text "subject".toList) (.text key) := by
    rw [Sieve.Test.holds, Sieve.leafHolds, if_neg (by decide), if_neg (by decide), if_pos rfl]
  rw [hleaf, Bool.eq_iff_iff, fieldHolds_iff]
  simp only [Argument.strings, List.mem_singleton, exists_eq_left, one]

theorem size_holds (mail : Sieve.Mail) (bytes : Nat) :
    (Sieve.Test.leaf "size".toList [.tag "over".toList, .number bytes]).holds mail =
        decide (bytes < mail.size) ∧
      (Sieve.Test.leaf "size".toList [.tag "under".toList, .number bytes]).holds mail =
        decide (mail.size < bytes) := by
  exact ⟨rfl, rfl⟩

section Acting

variable [Unicode] {mail : Sieve.Mail} {message : Message} {ctx : MatchCtx}

theorem sentBy_about (about : About message ctx) {email : String}
    (trimmed : Text.trim email.toList = email.toList) :
    sentBy email ctx.summary = Text.eqIgnoreAsciiCase message.sender.email.toList email.toList := by
  unfold sentBy
  rw [trimmed, about.sender, about.participants]
  simp

variable {out : List Char} {text : TextMatch}

omit [Unicode] in
theorem from_holds (delivered : Delivered mail message)
    (h : addressTest ["from"] text "from:" = .ok out)
    (readable : ReadableText mail ["from"] [message.sender] text) :
    (addressTestOf ["from"] text).holds mail = addressFits text message.sender := by
  have hall := @addressTest_holds mail ["from"] (fun _ => [message.sender]) text _ _ h readable
    (by simp [Clean, cleaned])
    (by simpa using delivered.sender)
  rw [hall]
  simp

omit [Unicode] in
/-- Only the address is compared, here as there. -/
theorem fromAddress_holds (delivered : Delivered mail message) {email : String}
    (clean : Clean email) :
    (addressTestOf ["from"] (.exact email)).holds mail =
      Text.eqIgnoreAsciiCase message.sender.email.toList email.toList := by
  have hclean : cleaned email.toList = email.toList := clean
  have hfrom : ∀ name, name ∈ (headersOf ["from"]).strings ↔
      ∃ header ∈ ["from"], header.toList = name := mem_headersOf (by simp [Clean, cleaned])
  have hholds : (addressTestOf ["from"] (.exact email)).holds mail =
      fieldHolds mail.addresses "is".toList (headersOf ["from"]) (.text email.toList) := by
    rw [addressTestOf, hclean]
    rfl
  unfold Text.eqIgnoreAsciiCase
  rw [hholds, Bool.eq_iff_iff, fieldHolds_iff, beq_iff_eq]
  simp only [hfrom, List.mem_singleton, exists_eq_left, exists_eq_left']
  rw [emails_hold delivered.sender]
  simp only [List.mem_singleton, exists_eq_left]
  rfl

omit [Unicode] in
theorem cc_holds (delivered : Delivered mail message) (h : addressTest ["cc"] text "cc:" = .ok out)
    (readable : ReadableText mail ["cc"] message.cc text) :
    (addressTestOf ["cc"] text).holds mail = message.cc.any (addressFits text) := by
  have hall := @addressTest_holds mail ["cc"] (fun _ => message.cc) text _ _ h
    (by simpa using readable) (by simp [Clean, cleaned]) (by simpa using delivered.cc)
  rw [hall]
  simp

omit [Unicode] in
theorem to_holds (delivered : Delivered mail message)
    (h : addressTest ["to", "cc"] text "to:" = .ok out)
    (readable : ReadableText mail ["to", "cc"] (message.«to» ++ message.cc) text) :
    (addressTestOf ["to", "cc"] text).holds mail =
      (message.«to» ++ message.cc).any (addressFits text) := by
  have hall := @addressTest_holds mail ["to", "cc"]
    (fun header => if header = "to" then message.«to» else message.cc) text _ _ h
    (by simpa using readable) (by simp [Clean, cleaned])
    (by simpa using ⟨delivered.«to», delivered.cc⟩)
  rw [hall]
  simp

variable [FoldTable]

mutual

/-- A filter's test holds of the message delivered where the filter fits the message parsed. -/
theorem test_holds (delivered : Delivered mail message) (about : About message ctx) :
    ∀ (filter : Filter) {out : List Char}, test filter message.account = .ok out →
      Readable mail message filter →
      (testOf filter message.account).holds mail = filter.fit ctx
  | .all, out, _, _ => rfl
  | .nothing, out, _, _ => rfl
  | .and parts, out, h, readable => by
    obtain ⟨texts, htexts, rfl⟩ := map_eq_ok h
    rw [testOf, joined_allof, Filter.fit_and, tests_hold delivered about parts htexts readable,
      List.all_map]
    rfl
  | .or parts, out, h, readable => by
    obtain ⟨texts, htexts, rfl⟩ := map_eq_ok h
    rw [testOf, joined_anyof, Filter.fit_or, tests_hold delivered about parts htexts readable,
      List.any_map]
    rfl
  | .not inner, out, h, readable => by
    obtain ⟨text, htext, rfl⟩ := map_eq_ok h
    rw [testOf, Sieve.Test.holds, Filter.fit_not, test_holds delivered about inner htext readable]
    rfl
  | .account id, out, h, _ => by
    rw [testOf, Filter.fit, about.account]
    split
    · rename_i hsame
      rw [hsame, beq_self_eq_true]
      rfl
    · rename_i hother
      rw [beq_false_of_ne (fun h => hother h.symm)]
      rfl
  | .sender text, out, h, readable => by
    rw [testOf, Filter.fit, about.sender]
    exact from_holds delivered h readable
  | .fromAddress email, out, h, readable => by
    rw [testOf, fromAddress_holds delivered readable.1, Filter.fit, sentBy_about about readable.2]
  | .to text, out, h, readable => by
    have hall := @foldl_addAddress _ (message.«to» ++ message.cc) [] readable.2
    rw [testOf, Filter.fit, toFits, about.recipients, hall]
    exact to_holds delivered h readable.1
  | .cc text, out, h, readable => by
    rw [testOf, Filter.fit, about.cc]
    exact cc_holds delivered h readable
  | .subject (.contains s), out, h, readable => by
    have hclean : cleaned s.toList = s.toList := readable
    rw [testOf, hclean, subject_holds delivered.subject, Filter.fit, about.subject,
      Bool.eq_iff_iff, compare_contains, textFits_contains]
  | .subject (.exact s), out, h, readable => by
    have hclean : cleaned s.toList = s.toList := readable
    rw [testOf, hclean, subject_holds delivered.subject, Filter.fit, about.subject,
      Bool.eq_iff_iff, compare_is, textFits_exact]
    exact eq_comm
  | .larger bytes, out, h, readable => by
    rw [testOf, Filter.fit, about.sizes, (size_holds mail bytes).1, List.any_cons, List.any_nil,
      Bool.or_false]
    exact decide_eq_decide.mpr readable
  | .smaller bytes, out, h, readable => by
    rw [testOf, Filter.fit, about.sizes, (size_holds mail bytes).2, List.any_cons, List.any_nil,
      Bool.or_false]
    exact decide_eq_decide.mpr readable
  | .vip, _, h, _ | .text _, _, h, _ | .inMailbox _, _, h, _ | .inFolder _, _, h, _
  | .read _, _, h, _ | .starred _, _, h, _ | .hasLabel _, _, h, _ | .date _, _, h, _
  | .newerThan _, _, h, _ | .olderThan _, _, h, _ | .hasAttachment, _, h, _ | .snoozed, _, h, _
  | .snoozeDue, _, h, _ | .pinned, _, h, _ | .category _, _, h, _ => by cases h

theorem tests_hold (delivered : Delivered mail message) (about : About message ctx) :
    ∀ (parts : List Filter) {out : List (List Char)}, tests parts message.account = .ok out →
      AllReadable mail message parts →
      (testsOf parts message.account).map (fun test => test.holds mail) =
        parts.map fun part => part.fit ctx
  | [], _, _, _ => rfl
  | part :: rest, out, h, readable => by
    rw [tests] at h
    cases hpart : test part message.account with
    | error why =>
      rw [hpart] at h
      cases h
    | ok text =>
      rw [hpart] at h
      obtain ⟨texts, htexts, rfl⟩ := map_eq_ok h
      rw [testsOf, List.map_cons, List.map_cons,
        test_holds delivered about part hpart readable.1,
        tests_hold delivered about rest htexts readable.2]

end

end Acting

end Mailo.Proto.Sieve
