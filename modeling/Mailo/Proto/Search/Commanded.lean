import Mailo.Proto.Search.Reread

/-!
# A search is read back as it was asked

What is written of each key is read as that key by the grammar, whatever follows it, and a whole
command is read as its keys exactly where each of them can be written.
-/

namespace Mailo.Proto.Search

open Domain Library Proto.Imap

namespace Grammar

/-! ## Keys -/

/-- What may stand after a key: a space, a parenthesis or the end of the line. -/
def Ends (rest : Bytes) : Prop := ∀ b, rest.head? = some b → b = 0x20 ∨ b = 0x29 ∨ b = 0x0d

/-- What may stand after the last key of several. -/
def Closes (rest : Bytes) : Prop := ∀ b, rest.head? = some b → b = 0x29 ∨ b = 0x0d

variable {rest : Bytes}

theorem Closes.ends (h : Closes rest) : Ends rest := fun b hb => Or.inr (h b hb)

theorem ends_space (rest : Bytes) : Ends (0x20 :: rest) := by
  intro b hb
  cases hb
  exact Or.inl rfl

theorem closes_paren (rest : Bytes) : Closes (0x29 :: rest) := by
  intro b hb
  cases hb
  exact Or.inl rfl

theorem Ends.stops_word (h : Ends rest) : Stops isWordByte rest := by
  intro b hb
  rcases h b hb with rfl | rfl | rfl <;> rfl

theorem Ends.stops_digit (h : Ends rest) : Stops Utf8.isAsciiDigit rest := by
  intro b hb
  rcases h b hb with rfl | rfl | rfl <;> rfl

theorem Closes.strip_space (h : Closes rest) : strip [0x20] rest = none := by
  cases rest with
  | nil => rfl
  | cons b rest =>
    apply strip_one_ne
    rcases h b rfl with rfl | rfl <;> decide

mutual

def speakable (chrono : Chrono) : SearchKey → Bool
  | .sender v | .to v | .cc v | .subject v | .body v | .gmailLabel v | .gmailRaw v => sayable v
  | .sentSince date | .sentBefore date => fourDigits (chrono.civil date)
  | .larger n | .smaller n => decide (n < 2 ^ 32)
  | .not inner => speakable chrono inner
  | .or a b => speakable chrono a && speakable chrono b
  | .and keys => !keys.isEmpty && allSpeakable chrono keys
  | _ => true

def allSpeakable (chrono : Chrono) : List SearchKey → Bool
  | [] => true
  | key :: keys => speakable chrono key && allSpeakable chrono keys

end

mutual

def stringsOf : SearchKey → List String
  | .sender v | .to v | .cc v | .subject v | .body v | .gmailLabel v | .gmailRaw v => [v]
  | .not inner => stringsOf inner
  | .or a b => stringsOf a ++ stringsOf b
  | .and keys => allStrings keys
  | _ => []

def allStrings : List SearchKey → List String
  | [] => []
  | key :: keys => stringsOf key ++ allStrings keys

end

def Unbroken (value : String) : Prop := ∀ c ∈ value.toList, isLineBreak c = false

section Keys

variable (chrono : Chrono) (capabilities : List (List Char))

variable {word rest : Bytes}

theorem strip_word (hne : word ≠ []) (hword : ∀ b ∈ word, isWordByte b = true) (rest : Bytes) :
    strip [0x28] (word ++ rest) = none := by
  cases word with
  | nil => exact absurd rfl hne
  | cons b word =>
    have hb := hword b (.head _)
    exact strip_one_ne (fun h => by rw [h] at hb; exact absurd hb (by decide)) _

/-- A name of a key, as the grammar spells it. -/
structure Named (word : Bytes) (verb : Verb) : Prop where
  nonempty : word ≠ []
  letters : ∀ b ∈ word, isWordByte b = true
  found : verbOf word = some verb

attribute [local simp] readKey readKeys stringsOf allStrings in
theorem readKey_plain (word : Bytes) {key : SearchKey} (h : Named word (.plain key)) (fuel : Nat)
    (hrest : Ends rest) :
    readKey chrono (fuel + 1) (word ++ rest) = some ⟨key, [], rest⟩ := by
  rw [readKey, strip_word h.nonempty h.letters, takeWhile_run h.letters hrest.stops_word,
    dropWhile_run h.letters hrest.stops_word, h.found]
  rfl

variable {make : String → SearchKey} {text : String}

theorem readKey_text (h : Named word (.text make)) (fuel : Nat) (rest : Bytes) :
    readKey chrono (fuel + 1) (word ++ 0x20 :: rest) =
      (readText rest).map fun read => ⟨make read.value, read.cuts, read.rest⟩ := by
  rw [readKey, strip_word h.nonempty h.letters, takeWhile_run h.letters (ends_space rest).stops_word,
    dropWhile_run h.letters (ends_space rest).stops_word, h.found]
  simp only [Option.bind_eq_bind, Option.bind_some, strip_one]
  cases readText rest with
  | none | some => rfl

theorem readKey_date {make : NaiveDate → SearchKey} (h : Named word (.date make)) (fuel : Nat)
    (rest : Bytes) :
    readKey chrono (fuel + 1) (word ++ 0x20 :: rest) =
      (readDate chrono rest).map fun read => ⟨make read.1, [], read.2⟩ := by
  rw [readKey, strip_word h.nonempty h.letters, takeWhile_run h.letters (ends_space rest).stops_word,
    dropWhile_run h.letters (ends_space rest).stops_word, h.found]
  simp only [Option.bind_eq_bind, Option.bind_some, strip_one]
  cases readDate chrono rest with
  | none | some => rfl

theorem readKey_size {make : Nat → SearchKey} (h : Named word (.size make)) (fuel : Nat)
    (rest : Bytes) :
    readKey chrono (fuel + 1) (word ++ 0x20 :: rest) =
      (readNumber rest).map fun read => ⟨make read.1, [], read.2⟩ := by
  rw [readKey, strip_word h.nonempty h.letters, takeWhile_run h.letters (ends_space rest).stops_word,
    dropWhile_run h.letters (ends_space rest).stops_word, h.found]
  simp only [Option.bind_eq_bind, Option.bind_some, strip_one]
  cases readNumber rest with
  | none | some => rfl

theorem readKey_not (fuel : Nat) (rest : Bytes) :
    readKey chrono (fuel + 1) (wire "NOT" ++ 0x20 :: rest) =
      (readKey chrono fuel rest).map fun read => ⟨.not read.value, read.cuts, read.rest⟩ := by
  have hbytes : ∀ b ∈ wire "NOT", isWordByte b = true := by decide
  rw [readKey, strip_word (by decide) hbytes, takeWhile_run hbytes (ends_space rest).stops_word,
    dropWhile_run hbytes (ends_space rest).stops_word]
  simp only [Option.bind_eq_bind, Option.bind_some, strip_one]
  cases readKey chrono fuel rest with
  | none | some => rfl

theorem readKey_or (fuel : Nat) (rest : Bytes) :
    readKey chrono (fuel + 1) (wire "OR" ++ 0x20 :: rest) =
      (readKey chrono fuel rest).bind fun first => (strip [0x20] first.rest).bind fun rest =>
        (readKey chrono fuel rest).map fun second =>
          ⟨.or first.value second.value, first.cuts ++ second.cuts, second.rest⟩ := by
  have hbytes : ∀ b ∈ wire "OR", isWordByte b = true := by decide
  rw [readKey, strip_word (by decide) hbytes, takeWhile_run hbytes (ends_space rest).stops_word,
    dropWhile_run hbytes (ends_space rest).stops_word]
  simp only [Option.bind_eq_bind, Option.bind_some, strip_one]
  cases readKey chrono fuel rest with
  | none => rfl
  | some first =>
    simp only [Option.bind_some]
    cases strip [0x20] first.rest with
    | none => rfl
    | some rest =>
      simp only [Option.bind_some]
      cases readKey chrono fuel rest with
      | none | some => rfl

theorem readKey_paren (fuel : Nat) (rest : Bytes) :
    readKey chrono (fuel + 1) (0x28 :: rest) =
      (readKeys chrono fuel rest).bind fun keys => (strip [0x29] keys.rest).map fun rest =>
        ⟨.and keys.value, keys.cuts, rest⟩ := by
  rw [readKey, strip_one]
  simp only [Option.bind_eq_bind]
  cases readKeys chrono fuel rest with
  | none => rfl
  | some keys =>
    simp only [Option.bind_some]
    cases strip [0x29] keys.rest with
    | none | some => rfl

theorem readKeys_none (hrest : Closes rest) (fuel : Nat) :
    readKeys chrono fuel rest = none := by
  have hkey : ∀ fuel, readKey chrono fuel rest = none := by
    intro fuel
    cases fuel with
    | zero => rfl
    | succ fuel =>
      have hverb : rest.takeWhile isWordByte = [] ∧ strip [0x28] rest = none := by
        cases rest with
        | nil => exact ⟨rfl, rfl⟩
        | cons b rest => rcases hrest b rfl with rfl | rfl <;> exact ⟨rfl, strip_one_ne (by decide) _⟩
      rw [readKey, hverb.1, hverb.2]
      rfl
  cases fuel with
  | zero => rfl
  | succ fuel =>
    rw [readKeys, hkey fuel]
    rfl

variable (name : String)

theorem bytesOf_size (n : Nat) :
    bytesOf capabilities [.text (name ++ toString n).toList] =
      Utf8.encode name.toList ++ digits n := by
  rw [bytesOf_cons, bytesOf_nil, List.append_nil, pieceBytes, String.toList_append,
    Utf8.encode_append]
  rfl

mutual

theorem needsUtf8_eq : ∀ key : SearchKey,
    needsUtf8 key = (stringsOf key).any fun text => !isAscii text
  | .sender _ | .to _ | .cc _ | .subject _ | .body _ | .gmailLabel _ | .gmailRaw _ => by
    rw [needsUtf8, stringsOf, List.any_cons, List.any_nil, Bool.or_false]
  | .not inner => by rw [needsUtf8, stringsOf, needsUtf8_eq inner]
  | .or a b => by rw [needsUtf8, stringsOf, List.any_append, needsUtf8_eq a, needsUtf8_eq b]
  | .and keys => by rw [needsUtf8, stringsOf, anyNeedsUtf8_eq keys]
  | .all | .seen | .unseen | .flagged | .unflagged | .sentSince _ | .sentBefore _ | .larger _
  | .smaller _ => rfl

theorem anyNeedsUtf8_eq : ∀ keys : List SearchKey,
    anyNeedsUtf8 keys = (allStrings keys).any fun text => !isAscii text
  | [] => rfl
  | key :: keys => by
    rw [anyNeedsUtf8, allStrings, List.any_append, needsUtf8_eq key, anyNeedsUtf8_eq keys]

end

theorem field_ok (hplain : Unbroken text) (name : String) :
    ∃ pieces, field name text = .ok pieces := by
  have hbreak : text.toList.any isLineBreak = false := by
    rw [List.any_eq_false]
    intro c hc
    rw [hplain c hc]
    exact Bool.false_ne_true
  rw [field, searchString, hbreak, if_neg Bool.false_ne_true]
  split
  · exact ⟨_, rfl⟩
  · exact ⟨_, rfl⟩

theorem spaced_eq (first : List Piece) (rest : List (List Piece)) :
    ((first :: rest).flatMap fun pieces => .text " ".toList :: pieces) =
      .text " ".toList :: [Piece.text " ".toList].intercalate (first :: rest) := by
  induction rest generalizing first with
  | nil => rw [List.flatMap_cons, List.flatMap_nil, List.append_nil, List.intercalate_singleton]
  | cons second rest ih =>
    rw [List.flatMap_cons, ih, List.intercalate_cons_cons, List.append_assoc]
    rfl

theorem begins_all (first : List Piece) (more : List (List Piece)) (rest : Bytes) :
    ∃ after, bytesOf capabilities ([Piece.text " ".toList].intercalate (first :: more)) ++ rest =
      bytesOf capabilities first ++ after := by
  cases more with
  | nil =>
    rw [List.intercalate_singleton]
    exact ⟨rest, rfl⟩
  | cons second more =>
    rw [List.intercalate_cons_cons, List.append_assoc, bytesOf_append, List.append_assoc]
    exact ⟨_, rfl⟩

/-- The options of a search before its keys. -/
def options (keys : List SearchKey) : List Piece :=
  (if hasCapability capabilities "ESEARCH" then [.text " RETURN (COUNT ALL)".toList] else []) ++
    if anyNeedsUtf8 keys then [.text " CHARSET UTF-8".toList] else []

def charsetOf (keys : List SearchKey) : Option Bytes :=
  if (allStrings keys).any fun text => !isAscii text then some (wire "UTF-8") else none

theorem readCommand_options (tag : String) (keys : List SearchKey) {rest : Bytes}
    (hreturn : strip (wire " RETURN (") rest = none)
    (hcharset : strip (wire " CHARSET ") rest = none)
    (hrest : rest.head? = some 0x20 ∨ rest.head? = some 0x0d) :
    readCommand chrono tag
        (wire (tag ++ " UID SEARCH") ++ (bytesOf capabilities (options capabilities keys) ++ rest)) =
      ((strip [0x20] rest).bind (readKeys chrono rest.length)).bind fun read =>
        if read.rest = wire "\r\n" then some (charsetOf keys, read) else none := by
  have hstops : Stops isAstringByte rest := by
    intro b hb
    rcases hrest with h | h
    · rw [h] at hb
      cases hb
      rfl
    · rw [h] at hb
      cases hb
      rfl
  have hcharsetRead : readCharset ((if anyNeedsUtf8 keys then wire " CHARSET UTF-8" else []) ++
      rest) = some (charsetOf keys, rest) := by
    rw [charsetOf, ← anyNeedsUtf8_eq]
    cases anyNeedsUtf8 keys with
    | false =>
      rw [if_neg Bool.false_ne_true, List.nil_append, readCharset, hcharset]
      rfl
    | true =>
      have hname : readAstring (wire "UTF-8" ++ rest) = some ⟨wire "UTF-8", [], rest⟩ := by
        have hrun : ∀ b ∈ wire "UTF-8", isAstringByte b = true := by decide
        have hread : readAstring (wire "UTF-8" ++ rest) =
            some ⟨(wire "UTF-8" ++ rest).takeWhile isAstringByte, [],
              (wire "UTF-8" ++ rest).dropWhile isAstringByte⟩ := rfl
        rw [hread, takeWhile_run hrun hstops, dropWhile_run hrun hstops]
      have hlead : strip (wire " CHARSET ") (wire " CHARSET UTF-8" ++ rest) =
          some (wire "UTF-8" ++ rest) := strip_append _ _
      simp only [if_true, readCharset, hlead, hname, Option.map_some]
  have hoptions : skipReturn (bytesOf capabilities (options capabilities keys) ++ rest) =
      some ((if anyNeedsUtf8 keys then wire " CHARSET UTF-8" else []) ++ rest) := by
    rw [options]
    cases hasCapability capabilities "ESEARCH" with
    | true => cases anyNeedsUtf8 keys <;> rfl
    | false =>
      cases anyNeedsUtf8 keys with
      | true => rfl
      | false =>
        change skipReturn rest = some rest
        rw [skipReturn, hreturn]
  rw [readCommand, strip_append]
  simp only [Option.bind_eq_bind, Option.bind_some, hoptions, hcharsetRead]
  cases strip [0x20] rest with
  | none | some => rfl

section Written

variable [ImapDates]

/-- What is written of a key begins with its name or a parenthesis, so it is no option. -/
theorem begins {key : SearchKey} {pieces : List Piece}
    (h : renderKey key = .ok pieces) (rest : Bytes) :
    0 < (bytesOf capabilities pieces).length ∧
      strip (wire " RETURN (") (0x20 :: (bytesOf capabilities pieces ++ rest)) = none ∧
      strip (wire " CHARSET ") (0x20 :: (bytesOf capabilities pieces ++ rest)) = none := by
  cases key with
  | all | seen | unseen | flagged | unflagged | sentSince | sentBefore =>
    cases h
    exact ⟨Nat.succ_pos _, rfl, rfl⟩
  | larger n | smaller n =>
    rw [renderKey] at h
    cases h
    rw [bytesOf_size]
    exact ⟨Nat.succ_pos _, rfl, rfl⟩
  | sender | «to» | cc | subject | body | gmailLabel | gmailRaw =>
    rw [renderKey] at h
    obtain ⟨piece, _, rfl⟩ := map_eq_ok h
    exact ⟨Nat.succ_pos _, rfl, rfl⟩
  | not inner =>
    rw [renderKey] at h
    obtain ⟨more, _, rfl⟩ := map_eq_ok h
    exact ⟨Nat.succ_pos _, rfl, rfl⟩
  | or a b =>
    rw [renderKey] at h
    obtain ⟨first, _, h⟩ := bind_eq_ok h
    obtain ⟨second, _, rfl⟩ := map_eq_ok h
    exact ⟨Nat.succ_pos _, rfl, rfl⟩
  | and keys =>
    rw [renderKey] at h
    obtain ⟨more, _, rfl⟩ := map_eq_ok h
    exact ⟨Nat.succ_pos _, rfl, rfl⟩

/-- A key is read back from what is written of it, where it can be written. -/
def Reads (key : SearchKey) : Prop :=
  ∀ {pieces : List Piece}, renderKey key = .ok pieces → (∀ text ∈ stringsOf key, Unbroken text) →
    ∀ fuel : Nat, (bytesOf capabilities pieces).length ≤ fuel → ∀ {rest : Bytes}, Ends rest →
      readKey chrono fuel (bytesOf capabilities pieces ++ rest) =
        if speakable chrono key then some ⟨key, cutsOf capabilities pieces rest, rest⟩ else none

def ReadsAll (keys : List SearchKey) : Prop :=
  ∀ {rendered : List (List Piece)}, renderKeys keys = .ok rendered →
    (∀ text ∈ allStrings keys, Unbroken text) → ∀ fuel : Nat,
      (bytesOf capabilities ([Piece.text " ".toList].intercalate rendered)).length < fuel →
        ∀ {rest : Bytes}, Closes rest →
          readKeys chrono fuel
              (bytesOf capabilities ([Piece.text " ".toList].intercalate rendered) ++ rest) =
            if !keys.isEmpty && allSpeakable chrono keys then
              some ⟨keys, cutsOf capabilities ([Piece.text " ".toList].intercalate rendered) rest,
                rest⟩
            else none

section Reads

variable {chrono capabilities} {key : SearchKey}

/-- Something is written of every key, so the fuel is not nought. -/
theorem reads_of (h : ∀ {pieces : List Piece}, renderKey key = .ok pieces →
      (∀ text ∈ stringsOf key, Unbroken text) → ∀ fuel : Nat,
      (bytesOf capabilities pieces).length ≤ fuel + 1 → ∀ {rest : Bytes}, Ends rest →
      readKey chrono (fuel + 1) (bytesOf capabilities pieces ++ rest) =
        if speakable chrono key then some ⟨key, cutsOf capabilities pieces rest, rest⟩ else none) :
    Reads chrono capabilities key := by
  intro pieces hrender hplain fuel hfuel rest hrest
  have hpos := (begins capabilities hrender rest).1
  cases fuel with
  | zero => omega
  | succ fuel => exact h hrender hplain fuel hfuel hrest

theorem reads_plain (hname : Named (wire name) (.plain key))
    (hrender : renderKey key = .ok [.text name.toList]) (hspoken : speakable chrono key = true) :
    Reads chrono capabilities key := by
  refine reads_of fun h _ fuel _ rest hrest => ?_
  rw [hrender] at h
  cases h
  rw [hspoken, if_pos rfl, bytesOf_cons, bytesOf_nil, List.append_nil]
  exact readKey_plain chrono (wire name) hname fuel hrest

theorem reads_field (hname : Named (wire name) (.text make))
    (hbytes : Utf8.encode (name ++ " ").toList = wire name ++ [0x20])
    (hrender : renderKey (make text) = field name text) (hstrings : stringsOf (make text) = [text])
    (hspoken : speakable chrono (make text) = sayable text) :
    Reads chrono capabilities (make text) := by
  refine reads_of fun {pieces} h hplain fuel _ rest _ => ?_
  rw [hrender] at h
  rw [hstrings, List.forall_mem_singleton] at hplain
  obtain ⟨piece, hpiece, rfl⟩ := map_eq_ok h
  have hall : bytesOf capabilities [.text (name ++ " ").toList, piece] ++ rest =
      wire name ++ 0x20 :: (pieceBytes capabilities piece ++ rest) := by
    rw [bytesOf_cons, bytesOf_cons, bytesOf_nil, List.append_nil, pieceBytes, hbytes]
    simp only [List.append_assoc, List.cons_append, List.nil_append]
  rw [hall, readKey_text chrono hname, readText_searchString capabilities hplain hpiece, hspoken]
  split <;> rfl

theorem reads_number (lead : String) {make : Nat → SearchKey} {n : Nat}
    (hname : Named (wire name) (.size make))
    (hbytes : Utf8.encode lead.toList = wire name ++ [0x20])
    (hrender : renderKey (make n) = .ok [.text (lead ++ toString n).toList])
    (hspoken : speakable chrono (make n) = decide (n < 2 ^ 32)) :
    Reads chrono capabilities (make n) := by
  refine reads_of fun h _ fuel _ rest hrest => ?_
  rw [hrender] at h
  cases h
  have hall : bytesOf capabilities [.text (lead ++ toString n).toList] ++ rest =
      wire name ++ 0x20 :: (digits n ++ rest) := by
    rw [bytesOf_size, hbytes]
    simp only [List.append_assoc, List.cons_append, List.nil_append]
  rw [hall, readKey_size chrono hname, readNumber_digits n hrest.stops_digit, hspoken]
  simp only [decide_eq_true_eq]
  split <;> rfl

theorem reads_day {make : NaiveDate → SearchKey} {date : NaiveDate}
    (hname : Named (wire name) (.date make))
    (hbytes : Utf8.encode (name ++ " ").toList = wire name ++ [0x20])
    (hrender : renderKey (make date) =
      .ok [.text ((name ++ " ").toList ++ imapDate (chrono.civil date))])
    (hspoken : speakable chrono (make date) = fourDigits (chrono.civil date)) :
    Reads chrono capabilities (make date) := by
  refine reads_of fun h _ fuel _ rest hrest => ?_
  rw [hrender] at h
  cases h
  have hall : bytesOf capabilities [.text ((name ++ " ").toList ++ imapDate (chrono.civil date))] ++
      rest = wire name ++ 0x20 :: (Utf8.encode (imapDate (chrono.civil date)) ++ rest) := by
    rw [bytesOf_cons, bytesOf_nil, List.append_nil, pieceBytes, Utf8.encode_append, hbytes]
    simp only [List.append_assoc, List.cons_append, List.nil_append]
  rw [hall, readKey_date chrono hname, readDate_day chrono date hrest.stops_digit, hspoken]
  split <;> rfl

theorem reads_not (hinner : Reads chrono capabilities key) :
    Reads chrono capabilities (.not key) := by
  refine reads_of fun h hplain fuel hfuel rest hrest => ?_
  rw [renderKey] at h
  obtain ⟨pieces, hpieces, rfl⟩ := map_eq_ok h
  have hall : bytesOf capabilities (.text "NOT ".toList :: pieces) =
      wire "NOT" ++ 0x20 :: bytesOf capabilities pieces := rfl
  rw [hall, List.length_append, List.length_cons] at hfuel
  rw [hall, List.append_assoc, List.cons_append, readKey_not,
    hinner hpieces hplain fuel (by omega) hrest, speakable]
  split <;> rfl

theorem reads_or {a b : SearchKey} (ha : Reads chrono capabilities a)
    (hb : Reads chrono capabilities b) : Reads chrono capabilities (.or a b) := by
  refine reads_of fun h hplain fuel hfuel rest hrest => ?_
  rw [renderKey] at h
  obtain ⟨first, hfirst, h⟩ := bind_eq_ok h
  obtain ⟨second, hsecond, rfl⟩ := map_eq_ok h
  have hall : bytesOf capabilities (.text "OR ".toList :: first ++ .text " ".toList :: second) =
      wire "OR" ++ 0x20 :: (bytesOf capabilities first ++ 0x20 :: bytesOf capabilities second) := by
    rw [List.cons_append, bytesOf_cons, bytesOf_append]
    rfl
  rw [hall, List.length_append, List.length_cons, List.length_append, List.length_cons] at hfuel
  have hone := ha hfirst (fun text htext => hplain text (List.mem_append_left _ htext)) fuel
    (by omega) (ends_space (bytesOf capabilities second ++ rest))
  have htwo := hb hsecond (fun text htext => hplain text (List.mem_append_right _ htext)) fuel
    (by omega) hrest
  rw [hall, List.append_assoc, List.cons_append, List.append_assoc, List.cons_append, readKey_or,
    hone, speakable]
  cases speakable chrono a with
  | false => rfl
  | true =>
    rw [if_pos rfl, Option.bind_some, strip_one, Option.bind_some, htwo, Bool.true_and]
    split
    · rw [Option.map_some, List.cons_append, cutsOf, cutsOf_append, cutsOf, bytesOf_cons]
      rfl
    · rfl

variable {keys : List SearchKey}

theorem reads_and (hkeys : ReadsAll chrono capabilities keys) :
    Reads chrono capabilities (.and keys) := by
  refine reads_of fun h hplain fuel hfuel rest _ => ?_
  rw [renderKey] at h
  obtain ⟨rendered, hrendered, rfl⟩ := map_eq_ok h
  have hall : bytesOf capabilities (.text "(".toList ::
        [Piece.text " ".toList].intercalate rendered ++ [.text ")".toList]) =
      0x28 :: (bytesOf capabilities ([Piece.text " ".toList].intercalate rendered) ++ [0x29]) := by
    rw [List.cons_append, bytesOf_cons, bytesOf_append]
    rfl
  rw [hall, List.length_cons, List.length_append, List.length_singleton] at hfuel
  rw [hall, List.cons_append, List.append_assoc, List.cons_append, List.nil_append, readKey_paren,
    hkeys hrendered hplain fuel (by omega) (closes_paren rest), speakable]
  split
  · rw [Option.bind_some, strip_one, List.cons_append, cutsOf, cutsOf_append]
    simp only [cutsOf, List.append_nil]
    rfl
  · rfl

theorem readsAll_nil : ReadsAll chrono capabilities [] := by
  intro rendered h _ fuel _ rest hrest
  cases h
  exact readKeys_none chrono hrest fuel

theorem readsAll_cons (hkey : Reads chrono capabilities key)
    (hkeys : ReadsAll chrono capabilities keys) : ReadsAll chrono capabilities (key :: keys) := by
  intro rendered h hplain fuel hfuel rest hrest
  rw [renderKeys] at h
  obtain ⟨first, hfirst, h⟩ := bind_eq_ok h
  obtain ⟨others, hothers, rfl⟩ := map_eq_ok h
  have hfront : ∀ text ∈ stringsOf key, Unbroken text :=
    fun text htext => hplain text (List.mem_append_left _ htext)
  cases fuel with
  | zero => omega
  | succ fuel =>
  rw [readKeys, List.isEmpty_cons, Bool.not_false, Bool.true_and, allSpeakable]
  cases keys with
  | nil =>
    cases hothers
    rw [List.intercalate_singleton] at hfuel ⊢
    rw [hkey hfirst hfront fuel (by omega) hrest.ends, allSpeakable, Bool.and_true]
    cases speakable chrono key with
    | false => rfl
    | true =>
      simp only [if_true, Option.bind_eq_bind, Option.bind_some, hrest.strip_space]
  | cons other keys =>
    have hmore := hothers
    rw [renderKeys] at hmore
    obtain ⟨second, _, hmore⟩ := bind_eq_ok hmore
    obtain ⟨more, _, rfl⟩ := map_eq_ok hmore
    generalize hspaced : [Piece.text " ".toList].intercalate (second :: more) = spaced
    have hall : bytesOf capabilities ([Piece.text " ".toList].intercalate
        (first :: second :: more)) = bytesOf capabilities first ++
          0x20 :: bytesOf capabilities spaced := by
      rw [List.intercalate_cons_cons, List.append_assoc, hspaced, bytesOf_append]
      rfl
    have hcuts : cutsOf capabilities ([Piece.text " ".toList].intercalate
        (first :: second :: more)) rest =
          cutsOf capabilities first (0x20 :: (bytesOf capabilities spaced ++ rest)) ++
            cutsOf capabilities spaced rest := by
      rw [List.intercalate_cons_cons, List.append_assoc, hspaced, cutsOf_append]
      rfl
    have hmoreRead := @hkeys _ hothers
    rw [hspaced] at hmoreRead
    rw [hall, List.length_append, List.length_cons] at hfuel
    rw [hall, hcuts, List.append_assoc, List.cons_append, hkey hfirst hfront fuel (by omega)
      (ends_space _)]
    cases speakable chrono key with
    | false => rfl
    | true =>
      simp only [if_true, Option.bind_eq_bind, Option.bind_some, strip_one,
        hmoreRead (fun text htext => hplain text (List.mem_append_right _ htext)) fuel (by omega)
          hrest, List.isEmpty_cons, Bool.not_false, Bool.true_and]
      split <;> rfl

end Reads

mutual

theorem readKey_renderKey (hdates : ∀ date, ImapDates.day date = imapDate (chrono.civil date)) :
    ∀ key : SearchKey, Reads chrono capabilities key
  | .all => reads_plain "ALL" ⟨by decide, by decide, rfl⟩ rfl rfl
  | .seen => reads_plain "SEEN" ⟨by decide, by decide, rfl⟩ rfl rfl
  | .unseen => reads_plain "UNSEEN" ⟨by decide, by decide, rfl⟩ rfl rfl
  | .flagged => reads_plain "FLAGGED" ⟨by decide, by decide, rfl⟩ rfl rfl
  | .unflagged => reads_plain "UNFLAGGED" ⟨by decide, by decide, rfl⟩ rfl rfl
  | .sender _ => reads_field "FROM" ⟨by decide, by decide, rfl⟩ rfl rfl rfl rfl
  | .to _ => reads_field "TO" ⟨by decide, by decide, rfl⟩ rfl rfl rfl rfl
  | .cc _ => reads_field "CC" ⟨by decide, by decide, rfl⟩ rfl rfl rfl rfl
  | .subject _ => reads_field "SUBJECT" ⟨by decide, by decide, rfl⟩ rfl rfl rfl rfl
  | .body _ => reads_field "BODY" ⟨by decide, by decide, rfl⟩ rfl rfl rfl rfl
  | .gmailLabel _ => reads_field "X-GM-LABELS" ⟨by decide, by decide, rfl⟩ rfl rfl rfl rfl
  | .gmailRaw _ => reads_field "X-GM-RAW" ⟨by decide, by decide, rfl⟩ rfl rfl rfl rfl
  | .sentSince date =>
    reads_day "SENTSINCE" ⟨by decide, by decide, rfl⟩ rfl (by rw [renderKey, hdates]; rfl) rfl
  | .sentBefore date =>
    reads_day "SENTBEFORE" ⟨by decide, by decide, rfl⟩ rfl (by rw [renderKey, hdates]; rfl) rfl
  | .larger _ => reads_number "LARGER" "LARGER " ⟨by decide, by decide, rfl⟩ rfl rfl rfl
  | .smaller _ => reads_number "SMALLER" "SMALLER " ⟨by decide, by decide, rfl⟩ rfl rfl rfl
  | .not inner => reads_not (readKey_renderKey hdates inner)
  | .or a b => reads_or (readKey_renderKey hdates a) (readKey_renderKey hdates b)
  | .and keys => reads_and (readKeys_renderKeys hdates keys)

theorem readKeys_renderKeys (hdates : ∀ date, ImapDates.day date = imapDate (chrono.civil date)) :
    ∀ keys : List SearchKey, ReadsAll chrono capabilities keys
  | [] => readsAll_nil
  | key :: keys => readsAll_cons (readKey_renderKey hdates key) (readKeys_renderKeys hdates keys)

end

mutual

theorem renderKey_ok : ∀ key : SearchKey, (∀ text ∈ stringsOf key, Unbroken text) →
    ∃ pieces, renderKey key = .ok pieces
  | .sender _, h | .to _, h | .cc _, h | .subject _, h | .body _, h | .gmailLabel _, h
  | .gmailRaw _, h => by
    rw [renderKey]
    exact field_ok (h _ (.head _)) _
  | .not inner, h => by
    obtain ⟨pieces, hpieces⟩ := renderKey_ok inner h
    rw [renderKey, hpieces]
    exact ⟨_, rfl⟩
  | .or a b, h => by
    obtain ⟨first, hfirst⟩ := renderKey_ok a fun text htext => h text (List.mem_append_left _ htext)
    obtain ⟨second, hsecond⟩ :=
      renderKey_ok b fun text htext => h text (List.mem_append_right _ htext)
    rw [renderKey, hfirst, hsecond]
    exact ⟨_, rfl⟩
  | .and keys, h => by
    obtain ⟨rendered, hrendered⟩ := renderKeys_ok keys h
    rw [renderKey, hrendered]
    exact ⟨_, rfl⟩
  | .all, _ | .seen, _ | .unseen, _ | .flagged, _ | .unflagged, _ | .sentSince _, _
  | .sentBefore _, _ | .larger _, _ | .smaller _, _ => ⟨_, rfl⟩

theorem renderKeys_ok : ∀ keys : List SearchKey, (∀ text ∈ allStrings keys, Unbroken text) →
    ∃ rendered, renderKeys keys = .ok rendered
  | [], _ => ⟨[], rfl⟩
  | key :: keys, h => by
    obtain ⟨first, hfirst⟩ :=
      renderKey_ok key fun text htext => h text (List.mem_append_left _ htext)
    obtain ⟨rest, hrest⟩ :=
      renderKeys_ok keys fun text htext => h text (List.mem_append_right _ htext)
    rw [renderKeys, hfirst, Except.bind, hrest]
    exact ⟨_, rfl⟩

end

/-- What a command sends is read as its keys, cut where the server is waited for, exactly where
there are keys and each can be written. -/
theorem command_read
    (hdates : ∀ date, ImapDates.day date = imapDate (chrono.civil date)) (tag : String)
    (keys : List SearchKey) (hplain : ∀ text ∈ allStrings keys, Unbroken text) :
    ∃ sent, command tag keys capabilities = .ok sent ∧
      readCommand chrono tag (sent.1 ++ sent.2.flatten) =
        if !keys.isEmpty && allSpeakable chrono keys then
          some (charsetOf keys, ⟨keys, tails sent.2, wire "\r\n"⟩)
        else none := by
  obtain ⟨rendered, hrendered⟩ := renderKeys_ok keys hplain
  have hcommand : command tag keys capabilities = .ok (parts capabilities
      (.text (tag ++ " UID SEARCH").toList :: (options capabilities keys ++
        rendered.flatMap fun pieces => .text " ".toList :: pieces))) := by
    rw [command, hrendered, options]
    simp only [Except.map, List.cons_append, List.append_assoc]
  refine ⟨_, hcommand, ?_⟩
  obtain ⟨hall, htails⟩ := parts_eq capabilities (.text (tag ++ " UID SEARCH").toList ::
    (options capabilities keys ++ rendered.flatMap fun pieces => .text " ".toList :: pieces))
  have hbytes : bytesOf capabilities (.text (tag ++ " UID SEARCH").toList ::
        (options capabilities keys ++
          rendered.flatMap fun pieces => .text " ".toList :: pieces)) ++ wire "\r\n" =
      wire (tag ++ " UID SEARCH") ++ (bytesOf capabilities (options capabilities keys) ++
        (bytesOf capabilities (rendered.flatMap fun pieces => .text " ".toList :: pieces) ++
          wire "\r\n")) := by
    rw [bytesOf_cons, bytesOf_append, List.append_assoc, List.append_assoc]
    rfl
  have hcuts : ∀ pieces after, cutsOf capabilities (.text (tag ++ " UID SEARCH").toList ::
      (options capabilities keys ++ pieces)) after = cutsOf capabilities pieces after := by
    intro pieces after
    rw [cutsOf, cutsOf_append, options]
    split <;> split <;> rfl
  rw [hall, htails, hbytes, hcuts]
  cases keys with
  | nil =>
    cases hrendered
    rw [readCommand_options chrono capabilities tag [] rfl rfl (Or.inr rfl)]
    rfl
  | cons key keys =>
    have hmore := hrendered
    rw [renderKeys] at hmore
    obtain ⟨first, hfirst, hmore⟩ := bind_eq_ok hmore
    obtain ⟨more, _, rfl⟩ := map_eq_ok hmore
    obtain ⟨after, hafter⟩ := begins_all capabilities first more (wire "\r\n")
    obtain ⟨_, hreturn, hcharset⟩ := begins capabilities hfirst after
    have hspaced : bytesOf capabilities
          ((first :: more).flatMap fun pieces => .text " ".toList :: pieces) ++ wire "\r\n" =
        0x20 :: (bytesOf capabilities ([Piece.text " ".toList].intercalate (first :: more)) ++
          wire "\r\n") := by
      rw [spaced_eq]
      rfl
    rw [hspaced, spaced_eq, readCommand_options chrono capabilities tag (key :: keys)
      (by rw [hafter]; exact hreturn) (by rw [hafter]; exact hcharset) (Or.inl rfl), strip_one,
      Option.bind_some, readKeys_renderKeys chrono capabilities hdates (key :: keys) hrendered
        hplain _ (by rw [List.length_cons, List.length_append]; omega)
        (fun b hb => by cases hb; exact Or.inr rfl)]
    split
    · rfl
    · rfl

end Written

/-- A search is read back by the grammar, each part begun where the server is waited for, exactly
where there are keys and each can be written. -/
theorem search_reread (instant : DateTime → List Char) (tag : String) (keys : List SearchKey)
    (hplain : ∀ text ∈ allStrings keys, Unbroken text) :
    ∃ sent, @command (chrono.dates instant) tag keys capabilities = .ok sent ∧
      ((∃ read, readCommand chrono tag (sent.1 ++ sent.2.flatten) = some (charsetOf keys, read) ∧
          read.value = keys ∧ read.cuts = tails sent.2) ↔
        keys ≠ [] ∧ allSpeakable chrono keys = true) := by
  let _ := chrono.dates instant
  obtain ⟨sent, hsent, hread⟩ := command_read chrono capabilities (fun _ => rfl) tag keys hplain
  refine ⟨sent, hsent, ?_⟩
  have hsome : (!keys.isEmpty && allSpeakable chrono keys) = true ↔
      keys ≠ [] ∧ allSpeakable chrono keys = true := by
    rw [Bool.and_eq_true, Bool.not_eq_true', List.isEmpty_eq_false_iff]
  rw [hread, ← hsome]
  constructor
  · rintro ⟨read, h, _⟩
    split at h
    · assumption
    · cases h
  · intro h
    rw [if_pos h]
    exact ⟨_, rfl, rfl, rfl⟩

def sinceEpoch : Chrono where
  civil date := ⟨1970 + date, 0, 1⟩
  ofCivil date := if date.month0 = 0 ∧ date.day = 1 then some (date.year - 1970) else none
  month_lt _ := Nat.succ_pos 11
  day_le _ := Nat.succ_le_succ (Nat.zero_le 30)
  ofCivil_civil date := by simp

theorem search_reread_nested :
    let keys : List SearchKey := [.or (.subject "a \"b\"") (.not (.sender "né")), .sentSince 0]
    ∃ sent, @command (sinceEpoch.dates fun _ => []) "a1" keys [] = .ok sent ∧
      ∃ read, readCommand sinceEpoch "a1" (sent.1 ++ sent.2.flatten) =
          some (some (wire "UTF-8"), read) ∧
        read.value = keys ∧ read.cuts = tails sent.2 := by
  obtain ⟨sent, hsent, hread⟩ := search_reread sinceEpoch [] (fun _ => []) "a1"
    [.or (.subject "a \"b\"") (.not (.sender "né")), .sentSince 0] (by
      unfold Unbroken
      decide)
  exact ⟨sent, hsent, hread.mpr ⟨List.cons_ne_nil _ _, by decide +kernel⟩⟩

/-- A query for no words is asked as a group of no keys, which the grammar has not. -/
theorem empty_group_unread :
    ∃ sent, @command (sinceEpoch.dates fun _ => []) "a1" [both []] [] = .ok sent ∧
      readCommand sinceEpoch "a1" (sent.1 ++ sent.2.flatten) = none :=
  ⟨(wire "a1 UID SEARCH ()\r\n", []), rfl, rfl⟩

end Keys

end Grammar

end Mailo.Proto.Search
