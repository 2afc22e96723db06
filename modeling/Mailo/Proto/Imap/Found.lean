import Mailo.Domain.Spaced
import Mailo.Proto.Imap.Command

/-!
# What a search found

An answer to a search is read in three places: by the listing that says which messages are still
there, by the command that works on what a search found, and by the search itself.
-/

namespace Mailo.Proto.Imap

open Domain

def listingLine (text : List Char) : List UInt32 :=
  match Text.stripPrefix "* SEARCH".toList (Text.trim text) with
  | none => []
  | some rest =>
    ((Text.splitWhitespace rest).filterMap (Text.parseUnsigned (2 ^ 32))).map UInt32.ofNat

def parseSearch (untagged : List Untagged) (mailbox : String) (uidvalidity : UInt32) :
    List RemoteRef :=
  (untagged.flatMap fun u => listingLine u.text).map fun uid => .imap mailbox uidvalidity uid

/-! ## By the search -/

/-- What one search found, and how many the server counted. -/
structure Hits where
  uids : List UInt32
  count : Nat
deriving DecidableEq

section Answers

variable [TextTables]

def uid (text : List Char) : Except ProtoError UInt32 :=
  match (Text.parseUnsigned (2 ^ 32) text).filter fun n => 0 < n with
  | some n => .ok (UInt32.ofNat n)
  | none => .error (.malformed (String.ofList
      (TextTables.quoted text ++ " is not a UID in a search answer".toList)))

def searchWords : List (List Char) → Except ProtoError (List UInt32)
  | [] => .ok []
  | word :: rest =>
    if word.head? = some '(' then .ok []
    else do
      let first ← uid word
      let others ← searchWords rest
      return first :: others

/-- The text between separators, `part` the one being read. -/
def splitAt (sep : Char) (part : List Char) : List Char → List (List Char)
  | [] => [part]
  | c :: rest => if c = sep then part :: splitAt sep [] rest else splitAt sep (part ++ [c]) rest

def mostInASet : Nat := 1000000

/-- The two ends one part of a set names. -/
def ends (part : List Char) : Except ProtoError (UInt32 × UInt32) :=
  match Text.splitOnce ':' part with
  | some (a, b) => do return (← uid a, ← uid b)
  | none => do return (← uid part, ← uid part)

/-- A sequence set expanded, `out` what the parts before gave. -/
def setFrom (out : List UInt32) : List (List Char) → Except ProtoError (List UInt32)
  | [] => .ok out
  | part :: rest => do
      let (a, b) ← ends part
      let low := min a.toNat b.toNat
      let high := max a.toNat b.toNat
      if out.length + (high - low) + 1 > mostInASet then
        .error (.malformed "a search answer names more UIDs than a mailbox holds")
      else setFrom (out ++ (List.range' low (high - low + 1)).map UInt32.ofNat) rest

def set (text : List Char) : Except ProtoError (List UInt32) := setFrom [] (splitAt ',' [] text)

/-- The names and values of an `ESEARCH` answer. -/
def esearchWords (uids : List UInt32) (count : Option Nat) :
    List (List Char) → Except ProtoError (List UInt32 × Option Nat)
  | [] => .ok (uids, count)
  | [name] => .error (.malformed (String.ofList
      ("ESEARCH ".toList ++ name ++ " has no value".toList)))
  | name :: value :: rest =>
    if Text.eqIgnoreAsciiCase name "ALL".toList then do
      let found ← set value
      esearchWords (uids ++ found) count rest
    else if Text.eqIgnoreAsciiCase name "COUNT".toList then
      match Text.parseUnsigned (2 ^ 64) value with
      | some n => esearchWords uids (some n) rest
      | none => .error (.malformed (String.ofList
          ("ESEARCH COUNT ".toList ++ TextTables.quoted value ++ " is not a number".toList)))
    -- what else it says was not asked for
    else esearchWords uids count rest

def esearch (rest : List Char) : Except ProtoError (List UInt32 × Option Nat) := do
  let rest := Text.trim rest
  let rest ← if rest.head? = some '(' then
      match Text.splitOnce ')' rest with
      | some (_, rest) => .ok (Text.trim rest)
      | none => .error (.malformed "an ESEARCH correlator is not closed")
    else .ok rest
  match Text.splitWhitespace rest with
  | word :: words =>
    if Text.eqIgnoreAsciiCase word "UID".toList then esearchWords [] none words
    else esearchWords [] none (word :: words)
  | [] => .ok ([], none)

def hitsLine (text : List Char) : Except ProtoError (List UInt32 × Option Nat) :=
  match Text.stripPrefix "* ".toList (Text.trim text) with
  | none => .ok ([], none)
  | some rest =>
    let (name, rest) := (Text.splitOnce ' ' rest).getD (rest, [])
    if Text.eqIgnoreAsciiCase name "SEARCH".toList then
      (searchWords (Text.splitWhitespace rest)).map fun uids => (uids, none)
    else if Text.eqIgnoreAsciiCase name "ESEARCH".toList then esearch rest
    else .ok ([], none)

def hitsLines : List Untagged → Except ProtoError (List (List UInt32 × Option Nat))
  | [] => .ok []
  | u :: rest => do
      let line ← hitsLine u.text
      let lines ← hitsLines rest
      return line :: lines

/-- Neighbours that are alike are one. -/
def dedup : List UInt32 → List UInt32
  | [] => []
  | [a] => [a]
  | a :: b :: rest => if a = b then dedup (b :: rest) else a :: dedup (b :: rest)

/-- The answer to the search whose responses arrived during a command. -/
def hits (untagged : List Untagged) (during : Nat) : Except ProtoError Hits := do
  let lines ← hitsLines (untagged.filter fun u => u.during = during)
  let uids := dedup ((lines.flatMap Prod.fst).insertionSort fun a b => a.toNat ≤ b.toNat)
  return ⟨uids, (lines.findSome? Prod.snd).getD uids.length⟩

end Answers

/-! ## Every reader of a search answer

What a server answers to a search, as it may write it, and what each reader takes from it. The
listing alone asks for the keyword in capitals.
-/

open Text

/-- One untagged response: an answer to a search, or another. -/
inductive Answer where
  | search (keyword : List Char) (uids : List UInt32) (modseq : Option (List Char × Nat))
  | other (text : List Char)

namespace Answer

def modseqWords : Option (List Char × Nat) → List (List Char)
  | none => []
  | some (name, n) => ['(' :: name, Nat.toDigits 10 n ++ [')']]

def words (uids : List UInt32) (modseq : Option (List Char × Nat)) : List (List Char) :=
  uids.map (fun uid => Nat.toDigits 10 uid.toNat) ++ modseqWords modseq

/-- As the server writes it. -/
def text : Answer → List Char
  | search keyword uids modseq => "* ".toList ++ keyword ++ spaced (words uids modseq)
  | other text => text

def uids : Answer → List UInt32
  | search _ uids _ => uids
  | other _ => []

def isSearch : Answer → Bool
  | search _ _ _ => true
  | other _ => false

/-- The name a response has, if it is untagged. -/
def nameOf (text : List Char) : Option (List Char) :=
  (stripPrefix "* ".toList (trim text)).map fun rest => ((splitOnce ' ' rest).getD (rest, [])).1

/-- A search answer spells its keywords in any case and lists UIDs; the other responses are to no
search. -/
def WellFormed : Answer → Prop
  | search keyword uids modseq =>
    eqIgnoreAsciiCase keyword "SEARCH".toList = true ∧ (∀ uid ∈ uids, 0 < uid.toNat) ∧
      ∀ name n, modseq = some (name, n) → eqIgnoreAsciiCase name "MODSEQ".toList = true
  | other text => ∀ name, nameOf text = some name →
      eqIgnoreAsciiCase name "SEARCH".toList = false ∧
        eqIgnoreAsciiCase name "ESEARCH".toList = false

end Answer

/-! ## One search answer -/

variable {uids : List UInt32}

theorem solid_words {modseq : Option (List Char × Nat)}
    (hmodseq : ∀ name n, modseq = some (name, n) →
      eqIgnoreAsciiCase name "MODSEQ".toList = true) :
    ∀ word ∈ Answer.words uids modseq, Solid word := by
  intro word hword
  rcases List.mem_append.mp hword with h | h
  · obtain ⟨uid, -, rfl⟩ := List.mem_map.mp h
    exact solid_toDigits uid.toNat
  · cases modseq with
    | none => cases h
    | some pair =>
      obtain ⟨name, n⟩ := pair
      have hname := hmodseq name n rfl
      rcases List.mem_cons.mp h with rfl | h
      · refine ⟨List.cons_ne_nil _ _, fun c hc => ?_⟩
        rcases List.mem_cons.mp hc with rfl | hc
        · rfl
        · exact solid_of_eqIgnoreAsciiCase hname (by decide) hc
      · rw [List.mem_singleton.mp h]
        refine ⟨by simp, fun c hc => ?_⟩
        rcases List.mem_append.mp hc with hc | hc
        · exact (solid_toDigits n).solid c hc
        · rw [List.mem_singleton.mp hc]
          rfl

variable {keyword : List Char} {modseq : Option (List Char × Nat)}

theorem trim_search (h : (Answer.search keyword uids modseq).WellFormed) :
    trim (Answer.search keyword uids modseq).text = (Answer.search keyword uids modseq).text := by
  obtain ⟨hkeyword, -, hmodseq⟩ := h
  have hsolid : ∀ word ∈ keyword :: Answer.words uids modseq, Solid word := by
    intro word hword
    rcases List.mem_cons.mp hword with rfl | hword
    · refine ⟨?_, fun c hc => solid_of_eqIgnoreAsciiCase hkeyword (by decide) hc⟩
      rintro rfl
      exact absurd (length_of_eqIgnoreAsciiCase hkeyword) (by decide)
    · exact solid_words hmodseq word hword
  have htext : (Answer.search keyword uids modseq).text =
      '*' :: spaced (keyword :: Answer.words uids modseq) := rfl
  rw [htext]
  apply trim_eq
  · rintro c ⟨⟩
    rfl
  · intro c hc
    have hne : spaced (keyword :: Answer.words uids modseq) ≠ [] := List.cons_ne_nil _ _
    rw [List.getLast?_cons_of_ne_nil hne] at hc
    exact getLast?_spaced hsolid hc

theorem numbers_words (uids : List UInt32) (hmodseq : ∀ name n, modseq = some (name, n) →
      eqIgnoreAsciiCase name "MODSEQ".toList = true) :
    (Answer.words uids modseq).filterMap (parseUnsigned (2 ^ 32)) = uids.map UInt32.toNat := by
  have hrest : (Answer.modseqWords modseq).filterMap (parseUnsigned (2 ^ 32)) = [] := by
    cases modseq with
    | none => rfl
    | some pair =>
      obtain ⟨name, n⟩ := pair
      have hopen : parseUnsigned (2 ^ 32) ('(' :: name) = none :=
        parseUnsigned_none _ (.head _) (by decide) (by decide)
      have hclose : parseUnsigned (2 ^ 32) (Nat.toDigits 10 n ++ [')']) = none :=
        parseUnsigned_none _ (List.mem_append_right _ (List.mem_singleton_self ')'))
          (by decide) (by decide)
      rw [Answer.modseqWords, List.filterMap_cons_none hopen, List.filterMap_cons_none hclose]
      rfl
  rw [Answer.words, List.filterMap_append, hrest, List.append_nil, List.filterMap_map]
  have hread : (parseUnsigned (2 ^ 32) ∘ fun uid : UInt32 => Nat.toDigits 10 uid.toNat) =
      fun uid => some uid.toNat := by
    funext uid
    exact parseUnsigned_toDigits uid.toNat_lt
  rw [hread, List.filterMap_eq_map']

theorem ofNat_toNat_all (uids : List UInt32) : (uids.map UInt32.toNat).map UInt32.ofNat = uids := by
  rw [List.map_map]
  apply List.map_id''
  intro uid
  exact UInt32.ofNat_toNat

theorem listingLine_search (h : (Answer.search keyword uids modseq).WellFormed) :
    listingLine (Answer.search keyword uids modseq).text =
      if keyword = "SEARCH".toList then uids else [] := by
  have hlength : ("* ".toList ++ keyword).length = "* SEARCH".toList.length := by
    rw [List.length_append, length_of_eqIgnoreAsciiCase h.1]
    rfl
  have hsame : "* ".toList ++ keyword = "* SEARCH".toList ↔ keyword = "SEARCH".toList :=
    List.append_right_inj "* ".toList
  rw [listingLine, trim_search h, Answer.text, stripPrefix_same_length hlength]
  by_cases hcapitals : keyword = "SEARCH".toList
  · rw [if_pos (hsame.mpr hcapitals), if_pos hcapitals]
    dsimp only
    rw [splitWhitespace_spaced (solid_words h.2.2), numbers_words uids h.2.2, ofNat_toNat_all]
  · rw [if_neg fun heq => hcapitals (hsame.mp heq), if_neg hcapitals]

theorem searchLine_search (h : (Answer.search keyword uids modseq).WellFormed) :
    searchLine (Answer.search keyword uids modseq).text = uids := by
  have hlength : ("* ".toList ++ keyword).length = 8 := by
    rw [List.length_append, length_of_eqIgnoreAsciiCase h.1]
    rfl
  have hlead : eqIgnoreAsciiCase ("* ".toList ++ keyword) "* SEARCH".toList = true := by
    have hkeyword := h.1
    rw [eqIgnoreAsciiCase, beq_iff_eq] at hkeyword
    rw [eqIgnoreAsciiCase, beq_iff_eq, toAsciiLowercase, List.map_append, ← toAsciiLowercase,
      ← toAsciiLowercase, hkeyword]
    rfl
  have hrest : (spaced (Answer.words uids modseq)).isEmpty = true ∨
      (spaced (Answer.words uids modseq)).head? = some ' ' := by
    cases Answer.words uids modseq with
    | nil => exact Or.inl rfl
    | cons word words => exact Or.inr rfl
  have hpositive : (uids.map UInt32.toNat).filterMap
      (fun uid => if uid > 0 then some (UInt32.ofNat uid) else none) = uids := by
    rw [List.filterMap_map]
    have hall : ∀ uid ∈ uids, ((fun uid => if uid > 0 then some (UInt32.ofNat uid) else none) ∘
        UInt32.toNat) uid = some uid := by
      intro uid huid
      simp only [Function.comp_apply]
      rw [if_pos (h.2.1 uid huid), UInt32.ofNat_toNat]
    rw [List.filterMap_congr hall, List.filterMap_some]
  unfold searchLine
  dsimp only
  rw [trim_search h, Answer.text, List.take_left' hlength, List.drop_left' hlength,
    if_pos ⟨hlead, hrest⟩, splitWhitespace_spaced (solid_words h.2.2)]
  rw [numbers_words uids h.2.2, hpositive]

variable {a : List Char} {sep : Char}

section Hits

variable [TextTables]

theorem searchWords_words (hpositive : ∀ uid ∈ uids, 0 < uid.toNat)
    (modseq : Option (List Char × Nat)) :
    searchWords (Answer.words uids modseq) = .ok uids := by
  induction uids with
  | nil =>
    cases modseq with
    | none | some => rfl
  | cons first uids ih =>
    have hwords : Answer.words (first :: uids) modseq =
        Nat.toDigits 10 first.toNat :: Answer.words uids modseq := rfl
    have hhead : (Nat.toDigits 10 first.toNat).head? ≠ some '(' := by
      intro hhead
      have := digit_range (List.mem_of_head? hhead)
      exact absurd this.1 (by decide)
    have hfirst : uid (Nat.toDigits 10 first.toNat) = .ok first := by
      rw [uid, parseUnsigned_toDigits first.toNat_lt]
      simp [Option.filter, hpositive first List.mem_cons_self]
    rw [hwords, searchWords, if_neg hhead, hfirst,
      ih fun uid huid => hpositive uid (.tail _ huid)]
    rfl

theorem hitsLine_search (h : (Answer.search keyword uids modseq).WellFormed) :
    hitsLine (Answer.search keyword uids modseq).text = .ok (uids, none) := by
  have hspaceless : ' ' ∉ keyword := by
    intro hspace
    have := solid_of_eqIgnoreAsciiCase h.1 (by decide) hspace
    cases this
  have hstrip : stripPrefix "* ".toList (Answer.search keyword uids modseq).text =
      some (keyword ++ spaced (Answer.words uids modseq)) := by
    rw [Answer.text, List.append_assoc, stripPrefix_append]
  have hsolid := @solid_words uids _ h.2.2
  have hread := searchWords_words h.2.1 modseq
  rw [hitsLine, trim_search h, hstrip]
  dsimp only
  cases hwords : Answer.words uids modseq with
  | nil =>
    rw [hwords] at hread
    rw [spaced, List.flatMap_nil, List.append_nil, splitOnce_none hspaceless]
    dsimp only [Option.getD_none]
    rw [if_pos h.1]
    change (searchWords []).map _ = _
    rw [hread]
    rfl
  | cons word words =>
    rw [hwords] at hread hsolid
    have hcut : splitOnce ' ' (keyword ++ spaced (word :: words)) =
        some (keyword, word ++ spaced words) := splitOnce_stop hspaceless _
    rw [hcut]
    dsimp only [Option.getD_some]
    rw [if_pos h.1, splitWhitespace_cons (hsolid word List.mem_cons_self)
      fun other hother => hsolid other (.tail _ hother), hread]
    rfl

end Hits

variable {text : List Char}

theorem nameOf_search (hlead : eqIgnoreAsciiCase ((trim text).take 8) "* SEARCH".toList = true)
    (hrest : ((trim text).drop 8).isEmpty = true ∨ ((trim text).drop 8).head? = some ' ') :
    ∃ name, Answer.nameOf text = some name ∧ eqIgnoreAsciiCase name "SEARCH".toList = true := by
  have hlower := hlead
  rw [eqIgnoreAsciiCase, beq_iff_eq] at hlower
  have hsplit := List.take_append_drop 8 (trim text)
  cases htake : (trim text).take 8 with
  | nil =>
    rw [htake] at hlower
    cases hlower
  | cons star lead =>
    cases lead with
    | nil =>
      rw [htake] at hlower
      cases (List.cons.inj hlower).2
    | cons space name =>
      rw [htake] at hlower hsplit
      obtain ⟨hstar, htail⟩ := List.cons.inj hlower
      obtain ⟨hspace, hname⟩ := List.cons.inj htail
      have hstar := eq_of_toLower hstar (by decide)
      have hspace := eq_of_toLower hspace (by decide)
      have hsaid : eqIgnoreAsciiCase name "SEARCH".toList = true := beq_iff_eq.mpr hname
      have hspaceless : ' ' ∉ name := by
        intro hmem
        cases solid_of_eqIgnoreAsciiCase hsaid (by decide) hmem
      refine ⟨name, ?_, hsaid⟩
      rw [Answer.nameOf, ← hsplit, hstar, hspace]
      change some _ = some _
      congr 1
      change ((splitOnce ' ' (name ++ (trim text).drop 8)).getD
        (name ++ (trim text).drop 8, [])).1 = name
      rcases hrest with hnone | hsome
      · rw [List.isEmpty_iff.mp hnone, List.append_nil, splitOnce_none hspaceless]
        rfl
      · obtain ⟨rest, hdrop⟩ := List.head?_eq_some_iff.mp hsome
        rw [hdrop, splitOnce_stop hspaceless]
        rfl

theorem searchLine_other (h : (Answer.other text).WellFormed) : searchLine text = [] := by
  unfold searchLine
  dsimp only
  split
  · rename_i hcond
    obtain ⟨name, hname, hsaid⟩ := nameOf_search hcond.1 hcond.2
    rw [(h name hname).1] at hsaid
    cases hsaid
  · rfl

theorem hitsLine_other [TextTables] (h : (Answer.other text).WellFormed) :
    hitsLine text = .ok ([], none) := by
  unfold hitsLine
  cases hstrip : stripPrefix "* ".toList (trim text) with
  | none => rfl
  | some rest =>
    have hname : Answer.nameOf text = some ((splitOnce ' ' rest).getD (rest, [])).1 := by
      rw [Answer.nameOf, hstrip]
      rfl
    obtain ⟨hsearch, hesearch⟩ := h _ hname
    dsimp only
    rw [hsearch, hesearch]
    rfl

/-! ## A whole answer -/

theorem mem_dedup (uids : List UInt32) (uid : UInt32) : uid ∈ dedup uids ↔ uid ∈ uids := by
  induction uids with
  | nil => rfl
  | cons first rest ih =>
    cases rest with
    | nil => rfl
    | cons second rest =>
      rw [dedup]
      split
      · rename_i heq
        rw [ih, heq]
        simp
      · rw [List.mem_cons, ih, List.mem_cons (l := second :: rest)]

/-- A response as it arrived, and the command outstanding then. -/
structure Arrived where
  during : Nat
  answer : Answer
  raw : Bytes

def Arrived.untagged (arrived : Arrived) : Untagged :=
  ⟨arrived.during, arrived.answer.text, arrived.raw⟩

/-- The server listed a UID. -/
def Listed (arrived : List Arrived) (uid : UInt32) : Prop :=
  ∃ one ∈ arrived, uid ∈ one.answer.uids

/-- The UIDs of an answer whose keyword is in capitals. -/
def Answer.capital : Answer → List UInt32
  | search keyword uids _ => if keyword = "SEARCH".toList then uids else []
  | other _ => []

/-- A response to no search whose name begins as a search answer's in capitals, and which holds a
number. -/
def Answer.Stray (uid : UInt32) : Answer → Prop
  | search _ _ _ => False
  | other text => ∃ rest, stripPrefix "* SEARCH".toList (trim text) = some rest ∧
      ∃ word ∈ splitWhitespace rest, parseUnsigned (2 ^ 32) word = some uid.toNat

/-- Every UID listed is listed by an answer in capitals, and no other response passes for one. -/
def InCapitals (arrived : List Arrived) : Prop :=
  (∀ uid, Listed arrived uid →
    (∃ one ∈ arrived, uid ∈ one.answer.capital) ∨ ∃ one ∈ arrived, one.answer.Stray uid) ∧
  ∀ uid, (∃ one ∈ arrived, one.answer.Stray uid) → Listed arrived uid

theorem mem_listingLine {answer : Answer} (h : answer.WellFormed) (uid : UInt32) :
    uid ∈ listingLine answer.text ↔ uid ∈ answer.capital ∨ answer.Stray uid := by
  cases answer with
  | search keyword uids modseq =>
    rw [listingLine_search h]
    exact (or_iff_left id).symm
  | other text =>
    rw [Answer.capital, Answer.Stray, Answer.text, listingLine]
    cases hstrip : stripPrefix "* SEARCH".toList (trim text) with
    | none => simp
    | some rest =>
      simp only [List.mem_map, List.mem_filterMap, List.not_mem_nil, false_or,
        Option.some.injEq, exists_eq_left']
      constructor
      · rintro ⟨n, ⟨word, hword, hn⟩, rfl⟩
        have hbound := parseUnsigned_lt hn
        refine ⟨word, hword, ?_⟩
        rw [UInt32.toNat_ofNat_of_lt' hbound]
        exact hn
      · rintro ⟨word, hword, hn⟩
        exact ⟨uid.toNat, ⟨word, hword, hn⟩, UInt32.ofNat_toNat⟩

section Readers

variable {arrived : List Arrived}

theorem mem_parseSearch (hwell : ∀ one ∈ arrived, one.answer.WellFormed) (mailbox : String)
    (uidvalidity uid : UInt32) :
    .imap mailbox uidvalidity uid ∈
        parseSearch (arrived.map Arrived.untagged) mailbox uidvalidity ↔
      (∃ one ∈ arrived, uid ∈ one.answer.capital) ∨ ∃ one ∈ arrived, one.answer.Stray uid := by
  have hlines : uid ∈ (arrived.map Arrived.untagged).flatMap (fun u => listingLine u.text) ↔
      ∃ one ∈ arrived, uid ∈ one.answer.capital ∨ one.answer.Stray uid := by
    rw [List.flatMap_map, List.mem_flatMap]
    apply exists_congr
    intro one
    apply and_congr_right
    intro hone
    exact mem_listingLine (hwell one hone) uid
  have hrefs : RemoteRef.imap mailbox uidvalidity uid ∈
      parseSearch (arrived.map Arrived.untagged) mailbox uidvalidity ↔
        uid ∈ (arrived.map Arrived.untagged).flatMap fun u => listingLine u.text := by
    rw [parseSearch]
    apply List.mem_map_of_injective
    intro a b heq
    cases heq
    rfl
  rw [hrefs, hlines]
  constructor
  · rintro ⟨one, hone, h | h⟩
    · exact Or.inl ⟨one, hone, h⟩
    · exact Or.inr ⟨one, hone, h⟩
  · rintro (⟨one, hone, h⟩ | ⟨one, hone, h⟩)
    · exact ⟨one, hone, Or.inl h⟩
    · exact ⟨one, hone, Or.inr h⟩

variable {search : Nat} (hwell : ∀ one ∈ arrived, one.answer.WellFormed)
  (hduring : ∀ one ∈ arrived, one.answer.isSearch = true → one.during = search)

include hwell hduring

omit hwell in
theorem listed_during (uid : UInt32) : Listed arrived uid ↔
      ∃ one ∈ arrived.filter (fun one => one.during = search), uid ∈ one.answer.uids := by
  constructor
  · rintro ⟨one, hone, huid⟩
    refine ⟨one, List.mem_filter.mpr ⟨hone, ?_⟩, huid⟩
    apply decide_eq_true
    apply hduring one hone
    cases hanswer : one.answer with
    | search keyword uids modseq => rfl
    | other text =>
      rw [hanswer] at huid
      cases huid
  · rintro ⟨one, hone, huid⟩
    exact ⟨one, (List.mem_filter.mp hone).1, huid⟩

theorem mem_foundBefore {commands : List ImapCommand} {index : Nat}
    (hsearch : searchBefore commands index = some search) (uid : UInt32) :
    uid ∈ (foundBefore commands (arrived.map Arrived.untagged) index).getD [] ↔
      Listed arrived uid := by
  have hfound : (foundBefore commands (arrived.map Arrived.untagged) index).getD [] =
      foundDuring search (arrived.map Arrived.untagged) := by
    rw [foundBefore, hsearch]
    dsimp only
    split
    · rename_i hnone
      exact (List.isEmpty_iff.mp hnone).symm
    · rfl
  rw [hfound, listed_during hduring, foundDuring, List.filter_map, List.flatMap_map,
    List.mem_flatMap]
  apply exists_congr
  intro one
  apply and_congr_right
  intro hone
  have hwell := hwell one (List.mem_filter.mp hone).1
  change uid ∈ searchLine one.answer.text ↔ _
  cases hanswer : one.answer with
  | search keyword uids modseq =>
    rw [hanswer] at hwell
    rw [searchLine_search hwell]
    rfl
  | other text =>
    rw [hanswer] at hwell
    change uid ∈ searchLine text ↔ uid ∈ []
    rw [searchLine_other hwell]

theorem mem_hits [TextTables] : ∃ found, hits (arrived.map Arrived.untagged) search = .ok found ∧
      ∀ uid, uid ∈ found.uids ↔ Listed arrived uid := by
  have hline : ∀ one ∈ arrived, hitsLine one.untagged.text = .ok (one.answer.uids, none) := by
    intro one hone
    have hwell := hwell one hone
    change hitsLine one.answer.text = _
    cases hanswer : one.answer with
    | search keyword uids modseq =>
      rw [hanswer] at hwell
      exact hitsLine_search hwell
    | other text =>
      rw [hanswer] at hwell
      exact hitsLine_other hwell
  have hlines : ∀ some : List Arrived, (∀ one ∈ some, one ∈ arrived) →
      hitsLines (some.map Arrived.untagged) =
        .ok (some.map fun one => (one.answer.uids, none)) := by
    intro some hsome
    induction some with
    | nil => rfl
    | cons one rest ih =>
      rw [List.map_cons, hitsLines, hline one (hsome one List.mem_cons_self),
        ih fun other hother => hsome other (.tail _ hother)]
      rfl
  have hduringLines : hitsLines ((arrived.map Arrived.untagged).filter
      fun u => u.during = search) =
        .ok ((arrived.filter fun one => one.during = search).map
          fun one => (one.answer.uids, none)) := by
    rw [List.filter_map]
    exact hlines _ fun one hone => (List.mem_filter.mp hone).1
  rw [hits, hduringLines]
  refine ⟨_, rfl, ?_⟩
  intro uid
  rw [mem_dedup, List.mem_insertionSort, List.flatMap_map, List.mem_flatMap,
    listed_during hduring]

/-- The readers of a search answer all find what the server listed, exactly where the server spelled
the keyword in capitals for each UID, and no other response passes for an answer. -/
theorem readers_agree [TextTables] {commands : List ImapCommand} {index : Nat}
    (hsearch : searchBefore commands index = some search) (mailbox : String)
    (uidvalidity : UInt32) :
    (∃ found, hits (arrived.map Arrived.untagged) search = .ok found ∧
      ∀ uid, (uid ∈ found.uids ↔ Listed arrived uid) ∧
        (uid ∈ (foundBefore commands (arrived.map Arrived.untagged) index).getD [] ↔
          Listed arrived uid) ∧
        (.imap mailbox uidvalidity uid ∈
            parseSearch (arrived.map Arrived.untagged) mailbox uidvalidity ↔
          Listed arrived uid)) ↔
      InCapitals arrived := by
  constructor
  · rintro ⟨found, -, hall⟩
    constructor
    · intro uid hlisted
      exact (mem_parseSearch hwell mailbox uidvalidity uid).mp ((hall uid).2.2.mpr hlisted)
    · intro uid hstray
      exact (hall uid).2.2.mp ((mem_parseSearch hwell mailbox uidvalidity uid).mpr
        (Or.inr hstray))
  · rintro ⟨hcapital, hstray⟩
    obtain ⟨found, hfound, hhits⟩ := mem_hits hwell hduring
    refine ⟨found, hfound, fun uid => ⟨hhits uid, mem_foundBefore hwell hduring hsearch uid, ?_⟩⟩
    rw [mem_parseSearch hwell]
    constructor
    · rintro (⟨one, hone, huid⟩ | h)
      · refine ⟨one, hone, ?_⟩
        cases hanswer : one.answer with
        | search keyword uids modseq =>
          rw [hanswer, Answer.capital] at huid
          split at huid
          · exact huid
          · cases huid
        | other text =>
          rw [hanswer] at huid
          cases huid
      · exact hstray uid h
    · exact hcapital uid

end Readers

def amongOthers : List Arrived :=
  [⟨0, .other "* 5 EXISTS".toList, []⟩,
    ⟨1, .search "SEARCH".toList [2, 5] (some ("MODSEQ".toList, 917)), []⟩,
    ⟨1, .other "* OK still here".toList, []⟩]

attribute [local instance] TextTables.ascii in
theorem amongOthers_read : ∃ found, hits (amongOthers.map Arrived.untagged) 1 = .ok found ∧
      ∀ uid, (uid ∈ found.uids ↔ Listed amongOthers uid) ∧
        (uid ∈ (foundBefore [.select "INBOX" .readOnly none, .uidSearch "ALL"]
          (amongOthers.map Arrived.untagged) 2).getD [] ↔ Listed amongOthers uid) ∧
        (.imap "INBOX" 7 uid ∈ parseSearch (amongOthers.map Arrived.untagged) "INBOX" 7 ↔
          Listed amongOthers uid) := by
  have hother : ∀ {text name : List Char}, Answer.nameOf text = some name →
      eqIgnoreAsciiCase name "SEARCH".toList = false →
      eqIgnoreAsciiCase name "ESEARCH".toList = false → (Answer.other text).WellFormed := by
    intro text name hname hsearch hesearch other hother
    cases hname.symm.trans hother
    exact ⟨hsearch, hesearch⟩
  have hwell : ∀ one ∈ amongOthers, one.answer.WellFormed := by
    intro one hone
    simp only [amongOthers, List.mem_cons, List.not_mem_nil, or_false] at hone
    rcases hone with rfl | rfl | rfl
    · exact @hother _ "5".toList (by decide) (by decide) (by decide)
    · refine ⟨by decide, by decide, ?_⟩
      rintro name n ⟨⟩
      decide
    · exact @hother _ "OK".toList (by decide) (by decide) (by decide)
  apply (readers_agree hwell (by decide) (by decide) "INBOX" 7).mpr
  have hcapital : ∀ one ∈ amongOthers, one.answer.capital = one.answer.uids := by decide
  constructor
  · rintro uid ⟨one, hone, huid⟩
    exact Or.inl ⟨one, hone, hcapital one hone ▸ huid⟩
  · rintro uid ⟨one, hone, hstray⟩
    simp only [amongOthers, List.mem_cons, List.not_mem_nil, or_false] at hone
    rcases hone with rfl | rfl | rfl
    · obtain ⟨rest, hrest, -⟩ := hstray
      have hnone : stripPrefix "* SEARCH".toList (trim "* 5 EXISTS".toList) = none := by decide
      cases hnone.symm.trans hrest
    · cases hstray
    · obtain ⟨rest, hrest, -⟩ := hstray
      have hnone : stripPrefix "* SEARCH".toList (trim "* OK still here".toList) = none := by
        decide
      cases hnone.symm.trans hrest

/-- A server may answer in small letters; the listing then says that every message is gone. -/
def inSmallLetters : List Arrived := [⟨1, .search "search".toList [101] none, []⟩]

theorem small_letters_dropped : inSmallLetters.map (·.untagged.text) = ["* search 101".toList] ∧
    parseSearch (inSmallLetters.map Arrived.untagged) "INBOX" 7 = [] ∧
    foundBefore [.select "INBOX" .readOnly none, .uidSearch "ALL"]
      (inSmallLetters.map Arrived.untagged) 2 = some [101] ∧
    @hits TextTables.ascii (inSmallLetters.map Arrived.untagged) 1 = .ok ⟨[101], 1⟩ := by
  decide

end Mailo.Proto.Imap
