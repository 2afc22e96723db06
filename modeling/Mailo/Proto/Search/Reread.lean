import Mathlib.Data.List.TakeWhile
import Mathlib.Tactic.IntervalCases
import Mailo.Domain.Spaced
import Mailo.Proto.Search.Grammar

/-!
# What a search writes is read back

Numbers, strings and dates are read by the grammar as they were written, whatever follows them, and
where the grammar has no way to write one it is not read at all.
-/

namespace Mailo.Proto.Search

open Domain Library Proto.Imap

namespace Grammar

/-- What follows a run does not go on with it. -/
def Stops (p : UInt8 → Bool) (rest : Bytes) : Prop := ∀ b, rest.head? = some b → p b = false

theorem strip_append (lead rest : Bytes) : strip lead (lead ++ rest) = some rest := by
  rw [strip, if_pos (List.isPrefixOf_iff_prefix.mpr (List.prefix_append lead rest)),
    List.drop_left]

theorem strip_one (b : UInt8) (rest : Bytes) : strip [b] (b :: rest) = some rest :=
  strip_append [b] rest

theorem strip_one_ne {b c : UInt8} (h : c ≠ b) (rest : Bytes) : strip [b] (c :: rest) = none := by
  have hnot : [b].isPrefixOf (c :: rest) = false := by
    simp [List.isPrefixOf, Ne.symm h]
  rw [strip, hnot]
  rfl

variable {rest : Bytes} {c : Char}

variable {p : UInt8 → Bool} {run : Bytes} {text : List Char} {n : Nat}

theorem takeWhile_run (hrun : ∀ b ∈ run, p b = true) (hrest : Stops p rest) :
    (run ++ rest).takeWhile p = run := by
  rw [List.takeWhile_append_of_pos hrun]
  have hnone : rest.takeWhile p = [] := by
    cases rest with
    | nil => rfl
    | cons b rest => rw [List.takeWhile_cons, hrest b rfl, if_neg Bool.false_ne_true]
  rw [hnone, List.append_nil]

theorem dropWhile_run (hrun : ∀ b ∈ run, p b = true) (hrest : Stops p rest) :
    (run ++ rest).dropWhile p = rest := by
  rw [List.dropWhile_append_of_pos hrun]
  cases rest with
  | nil => rfl
  | cons b rest => rw [List.dropWhile_cons, hrest b rfl, if_neg Bool.false_ne_true]

/-- The digits of a number as bytes. -/
def digits (n : Nat) : Bytes := Utf8.encode (toString n).toList

theorem encode_digits (h : ∀ c ∈ text, 48 ≤ c.toNat ∧ c.toNat ≤ 57) :
    Utf8.encode text = text.map fun c => UInt8.ofNat c.toNat := by
  induction text with
  | nil => rfl
  | cons c text ih =>
    have hc := h c (.head _)
    rw [Utf8.encode_ascii (by omega), ih fun d hd => h d (.tail _ hd),
      List.map_cons]

theorem toString_range (h : c ∈ (toString n).toList) :
    48 ≤ c.toNat ∧ c.toNat ≤ 57 := by
  rw [Nat.toString_eq_ofList_toDigits, String.toList_ofList] at h
  exact Text.digit_range h

theorem digits_eq (n : Nat) :
    digits n = (toString n).toList.map fun c => UInt8.ofNat c.toNat :=
  encode_digits fun _ h => toString_range h

theorem toNat_digit (h : 48 ≤ c.toNat ∧ c.toNat ≤ 57) :
    (UInt8.ofNat c.toNat).toNat = c.toNat := by
  rw [UInt8.toNat_ofNat']
  omega

theorem isDigit_digits : ∀ b ∈ digits n, Utf8.isAsciiDigit b = true := by
  intro b hb
  rw [digits_eq] at hb
  obtain ⟨c, hc, rfl⟩ := List.mem_map.mp hb
  have hrange := toString_range hc
  have hbyte := toNat_digit hrange
  rw [Utf8.isAsciiDigit, Bool.and_eq_true, decide_eq_true_eq, decide_eq_true_eq, UInt8.le_iff_toNat_le,
    UInt8.le_iff_toNat_le, hbyte]
  exact hrange

theorem value_digits (n : Nat) : value (digits n) = n := by
  have hfold : ∀ (text : List Char) (acc : Nat), (∀ c ∈ text, 48 ≤ c.toNat ∧ c.toNat ≤ 57) →
      (text.map fun c => UInt8.ofNat c.toNat).foldl
        (fun n (b : UInt8) => 10 * n + (b.toNat - 0x30)) acc = Nat.ofDigitChars 10 text acc := by
    intro text
    induction text with
    | nil =>
      intro acc _
      rw [Nat.ofDigitChars_nil]
      rfl
    | cons c text ih =>
      intro acc h
      rw [List.map_cons, List.foldl_cons, ih _ fun d hd => h d (.tail _ hd),
        toNat_digit (h c (.head _)), Nat.ofDigitChars_cons]
      rfl
  rw [value, digits_eq, hfold _ _ fun _ h => toString_range h, Nat.toString_eq_ofList_toDigits,
    String.toList_ofList, Nat.ofDigitChars_ten_toDigits]

theorem digits_ne_nil (n : Nat) : digits n ≠ [] := by
  rw [digits_eq, Nat.toString_eq_ofList_toDigits, String.toList_ofList]
  exact fun h => Text.toDigits_ne_nil n (List.map_eq_nil_iff.mp h)

/-- A number is read where it has 32 bits. -/
theorem readNumber_digits (n : Nat) (hrest : Stops Utf8.isAsciiDigit rest) :
    readNumber (digits n ++ rest) = if n < 2 ^ 32 then some (n, rest) else none := by
  rw [readNumber, takeWhile_run isDigit_digits hrest, dropWhile_run isDigit_digits hrest,
    value_digits]
  have hsome : (digits n).isEmpty = false := List.isEmpty_eq_false_iff.mpr (digits_ne_nil n)
  rw [hsome]
  by_cases h : n < 2 ^ 32
  · rw [if_pos h, if_neg]
    simpa using h
  · rw [if_neg h, if_pos]
    exact Or.inr (Nat.le_of_not_lt h)

def Printable (text : List Char) : Prop := ∀ c ∈ text, 0x20 ≤ c.toNat ∧ c.toNat ≤ 0x7e

def escaped (c : Char) : List Char := if c = '\\' ∨ c = '"' then ['\\', c] else [c]

theorem byte_ne {d : Char} (hc : c.toNat < 128) (hd : d.toNat < 128) (h : c ≠ d) :
    UInt8.ofNat c.toNat ≠ UInt8.ofNat d.toNat := by
  intro heq
  have hnat := congrArg UInt8.toNat heq
  rw [UInt8.toNat_ofNat', UInt8.toNat_ofNat', Nat.mod_eq_of_lt (by omega),
    Nat.mod_eq_of_lt (by omega)] at hnat
  exact h (Char.toNat_inj.mp hnat)

theorem readQuoted_escaped (h : Printable text) (rest : Bytes) :
    readQuoted false (Utf8.encode (text.flatMap escaped) ++ 0x22 :: rest) =
      some (Utf8.encode text, rest) := by
  induction text with
  | nil => rfl
  | cons c text ih =>
    have hrest := ih fun d hd => h d (.tail _ hd)
    have hc := h c (.head _)
    have hascii : c.toNat < 128 := by omega
    rw [List.flatMap_cons, Utf8.encode_append, Utf8.encode_ascii hascii, List.append_assoc]
    by_cases hspecial : c = '\\' ∨ c = '"'
    · have hpair : Utf8.encode (escaped c) = [0x5c, UInt8.ofNat c.toNat] := by
        rw [escaped, if_pos hspecial, Utf8.encode_ascii (by decide), Utf8.encode_ascii hascii]
        rfl
      have hbyte : UInt8.ofNat c.toNat = 0x22 ∨ UInt8.ofNat c.toNat = 0x5c := by
        rcases hspecial with rfl | rfl
        · exact Or.inr rfl
        · exact Or.inl rfl
      rw [hpair, List.cons_append, readQuoted, if_neg Bool.false_ne_true, if_neg (by decide),
        if_pos rfl, List.cons_append, readQuoted, if_pos rfl, if_pos hbyte, List.nil_append, hrest]
      rfl
    · have hone : Utf8.encode (escaped c) = [UInt8.ofNat c.toNat] := by
        rw [escaped, if_neg hspecial, Utf8.encode_ascii hascii]
        rfl
      have hbyte : (UInt8.ofNat c.toNat).toNat = c.toNat := by
        rw [UInt8.toNat_ofNat']
        omega
      have hquote : UInt8.ofNat c.toNat ≠ 0x22 :=
        byte_ne hascii (by decide) fun heq => hspecial (Or.inr heq)
      have hslash : UInt8.ofNat c.toNat ≠ 0x5c :=
        byte_ne hascii (by decide) fun heq => hspecial (Or.inl heq)
      have hplain : ¬(UInt8.ofNat c.toNat = 0 ∨ UInt8.ofNat c.toNat = 0x0a ∨
          UInt8.ofNat c.toNat = 0x0d ∨ 0x80 ≤ UInt8.ofNat c.toNat) := by
        rintro (h | h | h | h)
        · have := congrArg UInt8.toNat h
          rw [hbyte] at this
          change c.toNat = 0 at this
          omega
        · have := congrArg UInt8.toNat h
          rw [hbyte] at this
          change c.toNat = 10 at this
          omega
        · have := congrArg UInt8.toNat h
          rw [hbyte] at this
          change c.toNat = 13 at this
          omega
        · rw [UInt8.le_iff_toNat_le, hbyte] at h
          change 128 ≤ c.toNat at h
          omega
      rw [hone, List.cons_append, readQuoted, if_neg Bool.false_ne_true, if_neg hquote, if_neg hslash, if_neg hplain,
        List.nil_append, hrest]
      rfl

theorem ofUtf8_encode (text : String) : ofUtf8 (Utf8.encode text.toList) = some text := by
  have harray : (Utf8.encode text.toList).toByteArray = text.toList.utf8Encode := rfl
  rw [ofUtf8, harray, List.utf8Decode?_utf8Encode, Option.map_some, List.toList_toArray,
    String.ofList_toList]

theorem nul_not_mem (h : c.toNat ≠ 0) : (0 : UInt8) ∉ String.utf8EncodeChar c := by
  have hbyte : ∀ n : Nat, n % 256 ≠ 0 → (0 : UInt8) ≠ UInt8.ofNat n := by
    intro n hn heq
    have := congrArg UInt8.toNat heq
    rw [UInt8.toNat_ofNat'] at this
    exact hn this.symm
  have hval : c.val.toNat ≠ 0 := h
  unfold String.utf8EncodeChar
  dsimp only
  split
  · rw [List.mem_singleton]
    exact hbyte _ (by omega)
  · split
    · simp only [List.mem_cons, List.not_mem_nil, or_false, not_or]
      exact ⟨hbyte _ (by omega), hbyte _ (by omega)⟩
    · split
      · simp only [List.mem_cons, List.not_mem_nil, or_false, not_or]
        exact ⟨hbyte _ (by omega), hbyte _ (by omega), hbyte _ (by omega)⟩
      · simp only [List.mem_cons, List.not_mem_nil, or_false, not_or]
        exact ⟨hbyte _ (by omega), hbyte _ (by omega), hbyte _ (by omega), hbyte _ (by omega)⟩

/-! ## Pieces -/

section Pieces

variable (capabilities : List (List Char))

def announced (length : Nat) : Bytes :=
  0x7b :: (digits length ++ ((if nonSynchronizing capabilities length then [0x2b] else []) ++
    wire "\x7d\r\n"))

def pieceBytes : Piece → Bytes
  | .text text => Utf8.encode text
  | .literal bytes => announced capabilities bytes.length ++ bytes

/-- All that is sent of some pieces. -/
def bytesOf (pieces : List Piece) : Bytes := pieces.flatMap (pieceBytes capabilities)

/-- What is still to be sent, wherever the server is waited for, `after` what follows the pieces. -/
def cutsOf : List Piece → Bytes → List Bytes
  | [], _ => []
  | .text _ :: pieces, after => cutsOf pieces after
  | .literal bytes :: pieces, after =>
    if nonSynchronizing capabilities bytes.length then cutsOf pieces after
    else (bytes ++ (bytesOf capabilities pieces ++ after)) :: cutsOf pieces after

/-- What the parts after the first are the beginnings of. -/
def tails : List Bytes → List Bytes
  | [] => []
  | part :: later => (part ++ later.flatten) :: tails later

@[simp] theorem bytesOf_nil : bytesOf capabilities [] = [] := rfl

theorem bytesOf_cons (piece : Piece) (pieces : List Piece) :
    bytesOf capabilities (piece :: pieces) =
      pieceBytes capabilities piece ++ bytesOf capabilities pieces := rfl

theorem bytesOf_append (pieces more : List Piece) :
    bytesOf capabilities (pieces ++ more) =
      bytesOf capabilities pieces ++ bytesOf capabilities more := List.flatMap_append

theorem cutsOf_append (pieces more : List Piece) (after : Bytes) :
    cutsOf capabilities (pieces ++ more) after =
      cutsOf capabilities pieces (bytesOf capabilities more ++ after) ++
        cutsOf capabilities more after := by
  induction pieces with
  | nil => rfl
  | cons piece pieces ih =>
    cases piece with
    | text text => exact ih
    | literal bytes =>
      rw [List.cons_append, cutsOf, cutsOf, ih]
      split
      · rfl
      · rw [bytesOf_append, List.append_assoc, List.cons_append]

theorem announced_eq (length : Nat) :
    announced capabilities length = Utf8.encode ('\x7b' :: (toString length).toList ++
      if nonSynchronizing capabilities length then ['+', '\x7d', '\r', '\n']
      else ['\x7d', '\r', '\n']) := by
  rw [List.cons_append, Utf8.encode_ascii (by decide), Utf8.encode_append, announced]
  split <;> rfl

/-- The parts are what is sent of the pieces, cut wherever the server is waited for. -/
theorem parts_eq (pieces : List Piece) :
    (parts capabilities pieces).1 ++ (parts capabilities pieces).2.flatten =
        bytesOf capabilities pieces ++ wire "\r\n" ∧
      tails (parts capabilities pieces).2 = cutsOf capabilities pieces (wire "\r\n") := by
  induction pieces with
  | nil => exact ⟨rfl, rfl⟩
  | cons piece pieces ih =>
    obtain ⟨hall, htails⟩ := ih
    cases piece with
    | text text =>
      refine ⟨?_, htails⟩
      rw [bytesOf_cons, List.append_assoc, ← hall]
      exact List.append_assoc _ _ _
    | literal bytes =>
      have hannounced := announced_eq capabilities bytes.length
      rw [bytesOf_cons, pieceBytes, hannounced, parts, cutsOf]
      by_cases hplus : nonSynchronizing capabilities bytes.length = true
      · simp only [if_pos hplus, htails, and_true]
        rw [List.append_assoc, List.append_assoc, List.append_assoc, List.append_assoc, ← hall]
      · simp only [if_neg hplus, tails, htails, List.flatten_cons]
        rw [List.append_assoc bytes, List.append_assoc, List.append_assoc, hall]
        exact ⟨rfl, rfl⟩

theorem readLiteral_announced {bytes : Bytes} (hnul : 0 ∉ bytes) (rest : Bytes) :
    readLiteral ((announced capabilities bytes.length).tail ++ (bytes ++ rest)) =
      if bytes.length < 2 ^ 32 then
        some ⟨bytes, cutsOf capabilities [.literal bytes] rest, rest⟩
      else none := by
  rw [announced, List.tail_cons, List.append_assoc, List.append_assoc, cutsOf, cutsOf]
  have hbrace : strip (wire "\x7d\r\n") (wire "\x7d\r\n" ++ (bytes ++ rest)) =
      some (bytes ++ rest) := strip_append _ _
  have hstops : Stops Utf8.isAsciiDigit ((if nonSynchronizing capabilities bytes.length then [0x2b] else [])
      ++ (wire "\x7d\r\n" ++ (bytes ++ rest))) := by
    intro b hb
    split at hb
    · cases hb
      rfl
    · cases hb
      rfl
  rw [readLiteral, readNumber_digits _ hstops]
  by_cases hlength : bytes.length < 2 ^ 32
  · rw [if_pos hlength, if_pos hlength]
    have hwhole : bytes.length ≤ (bytes ++ rest).length ∧
        0 ∉ (bytes ++ rest).take bytes.length := by
      rw [List.take_left, List.length_append]
      exact ⟨Nat.le_add_right _ _, hnul⟩
    by_cases hplus : nonSynchronizing capabilities bytes.length = true
    · simp only [if_pos hplus, Option.bind_eq_bind, Option.bind_some, List.cons_append,
        List.nil_append, List.head?_cons, List.tail_cons, ne_eq, not_true_eq_false, if_false,
        hbrace]
      rw [if_pos hwhole, List.take_left, List.drop_left]
    · have hhead : (wire "\x7d\r\n" ++ (bytes ++ rest)).head? ≠ some 0x2b := by
        change some (0x7d : UInt8) ≠ some 0x2b
        decide
      simp only [if_neg hplus, Option.bind_eq_bind, Option.bind_some, List.nil_append, if_pos hhead,
        hbrace]
      rw [if_pos hwhole, List.take_left, List.drop_left, bytesOf_nil, List.nil_append]
  · rw [if_neg hlength, if_neg hlength]
    rfl

end Pieces

/-- A string that can be written: in quotes, or as a literal whose length has 32 bits. -/
def sayable (value : String) : Bool :=
  (value.toList.all fun c => ' ' ≤ c && c ≤ '~') ||
    decide ((Utf8.encode value.toList).length < 2 ^ 32)

/-- A string is read back as it was written. -/
theorem readText_searchString (capabilities : List (List Char)) {value : String}
    (hplain : ∀ c ∈ value.toList, isLineBreak c = false) {piece : Piece}
    (h : searchString value = .ok piece) (rest : Bytes) :
    readText (pieceBytes capabilities piece ++ rest) =
      if sayable value then some ⟨value, cutsOf capabilities [piece] rest, rest⟩ else none := by
  have hbreak : value.toList.any isLineBreak = false := by
    rw [List.any_eq_false]
    intro c hc
    rw [hplain c hc]
    exact Bool.false_ne_true
  rw [searchString, hbreak, if_neg Bool.false_ne_true] at h
  cases hascii : value.toList.all fun c => ' ' ≤ c && c ≤ '~' with
  | true =>
    rw [hascii, if_pos rfl] at h
    cases h
    have hprintable : Printable value.toList := by
      intro c hc
      have hboth := List.all_eq_true.mp hascii c hc
      rw [Bool.and_eq_true, decide_eq_true_eq, decide_eq_true_eq] at hboth
      exact hboth
    have hquoted := readQuoted_escaped hprintable rest
    have hbytes : pieceBytes capabilities (.text ('"' :: value.toList.flatMap escaped ++ ['"'])) =
        0x22 :: (Utf8.encode (value.toList.flatMap escaped) ++ [0x22]) := by
      rw [pieceBytes, List.cons_append, Utf8.encode_ascii (by decide), Utf8.encode_append]
      rfl
    have hsay : sayable value = true := by rw [sayable, hascii, Bool.true_or]
    rw [hsay, if_pos rfl]
    change readText (pieceBytes capabilities
      (.text ('"' :: value.toList.flatMap escaped ++ ['"'])) ++ rest) = _
    rw [hbytes, readText, List.cons_append, readAstring, if_pos rfl, List.append_assoc]
    change ((readQuoted false (Utf8.encode (value.toList.flatMap escaped) ++ 0x22 :: rest)).map
      fun read => (⟨read.1, [], read.2⟩ : Reading Bytes)).bind _ = _
    rw [hquoted, Option.map_some, Option.bind_some]
    rw [ofUtf8_encode]
    rfl
  | false =>
    rw [hascii, if_neg Bool.false_ne_true] at h
    cases h
    have hnul : (0 : UInt8) ∉ Utf8.encode value.toList := by
      intro hmem
      obtain ⟨c, hc, hin⟩ := List.mem_flatMap.mp hmem
      have hzero : c.toNat ≠ 0 := by
        intro heq
        have := hplain c hc
        rw [isLineBreak, heq] at this
        simp at this
      exact nul_not_mem hzero hin
    have hread := readLiteral_announced capabilities hnul rest
    have hsay : sayable value = decide ((Utf8.encode value.toList).length < 2 ^ 32) := by
      rw [sayable, hascii, Bool.false_or]
    have hbytes : pieceBytes capabilities (.literal (Utf8.encode value.toList)) ++ rest =
        0x7b :: ((announced capabilities (Utf8.encode value.toList).length).tail ++
          (Utf8.encode value.toList ++ rest)) := by
      rw [pieceBytes, List.append_assoc]
      rfl
    rw [hbytes, readText, readAstring, if_neg (by decide), if_pos rfl, hread, hsay]
    by_cases hlength : (Utf8.encode value.toList).length < 2 ^ 32
    · rw [if_pos hlength, if_pos (decide_eq_true hlength)]
      change (ofUtf8 (Utf8.encode value.toList)).bind _ = _
      rw [ofUtf8_encode]
      rfl
    · rw [if_neg hlength, if_neg (by rw [decide_eq_true_eq]; exact hlength)]
      rfl

/-! ## Dates -/

def fourDigits (date : Civil) : Bool := decide (1000 ≤ date.year ∧ date.year ≤ 9999)

theorem length_digits_le {n k : Nat} (hk : 0 < k) : (digits n).length ≤ k ↔ n < 10 ^ k := by
  rw [digits_eq, List.length_map, Nat.toString_eq_ofList_toDigits, String.toList_ofList]
  exact Nat.length_toDigits_le_iff (by decide) hk

theorem length_digits_four (n : Nat) : (digits n).length = 4 ↔ 1000 ≤ n ∧ n ≤ 9999 := by
  have hfour := @length_digits_le n 4 (by decide)
  have hthree := @length_digits_le n 3 (by decide)
  constructor
  · intro h
    have hle := hfour.mp (Nat.le_of_eq h)
    have hnot : ¬ n < 10 ^ 3 := fun hlt => by
      omega
    omega
  · intro h
    have hle := hfour.mpr (by omega)
    have hnot : ¬ (digits n).length ≤ 3 := fun hle => by
      omega
    omega

theorem findMonth {m : Nat} (hm : m < 12) (tail : Bytes) :
    (months.findIdx? fun name => (wire name).map upper ==
        ((wire (months.getD m "") ++ tail).take 3).map upper) = some m ∧
      (wire (months.getD m "") ++ tail).drop 3 = tail := by
  interval_cases m <;> exact ⟨rfl, rfl⟩

theorem encode_imapDate (date : Civil) :
    Utf8.encode (imapDate date) = digits date.day ++ (0x2d :: (wire (months.getD date.month0 "") ++
      (0x2d :: Utf8.encode (toString date.year).toList))) := by
  rw [imapDate]
  simp only [String.toList_append, Utf8.encode_append, List.append_assoc]
  rfl

theorem year_digits (date : Civil) (hrest : Stops Utf8.isAsciiDigit rest) :
    (((Utf8.encode (toString date.year).toList ++ rest).takeWhile Utf8.isAsciiDigit).length = 4 ↔
        fourDigits date = true) ∧
      (fourDigits date = true →
        ((Utf8.encode (toString date.year).toList ++ rest).dropWhile Utf8.isAsciiDigit = rest ∧
          (value ((Utf8.encode (toString date.year).toList ++ rest).takeWhile Utf8.isAsciiDigit) : Int) =
            date.year)) := by
  obtain ⟨year, month0, day⟩ := date
  cases year with
  | ofNat n =>
    have hyear : Utf8.encode (toString (Int.ofNat n)).toList = digits n := rfl
    rw [fourDigits, hyear, takeWhile_run isDigit_digits hrest, dropWhile_run isDigit_digits hrest,
      length_digits_four, value_digits, decide_eq_true_eq]
    refine ⟨?_, fun _ => ⟨rfl, rfl⟩⟩
    change _ ↔ 1000 ≤ (n : Int) ∧ (n : Int) ≤ 9999
    omega
  | negSucc n =>
    have hyear : (toString (Int.negSucc n)).toList = '-' :: (toString (n + 1)).toList := by
      change ("-" ++ toString (n + 1)).toList = _
      rw [String.toList_append]
      rfl
    have hfour : fourDigits ⟨Int.negSucc n, month0, day⟩ = false := by
      rw [fourDigits, decide_eq_false_iff_not]
      change ¬(1000 ≤ Int.negSucc n ∧ _)
      omega
    have hnone : ((Utf8.encode (toString (Int.negSucc n)).toList ++ rest).takeWhile Utf8.isAsciiDigit) =
        [] := by
      rw [hyear, Utf8.encode_ascii (by decide)]
      rfl
    rw [hfour, hnone]
    exact ⟨⟨fun h => absurd h (by decide), fun h => absurd h (by decide)⟩,
      fun h => absurd h (by decide)⟩

theorem readCivil_imapDate {date : Civil} (hmonth : date.month0 < 12) (hday : date.day ≤ 31)
    (hrest : Stops Utf8.isAsciiDigit rest) :
    readCivil (Utf8.encode (imapDate date) ++ rest) =
      if fourDigits date then some (date, rest) else none := by
  obtain ⟨hmonthFound, hmonthLeft⟩ := findMonth hmonth
    (0x2d :: (Utf8.encode (toString date.year).toList ++ rest))
  obtain ⟨hlength, hyear⟩ := year_digits date hrest
  have hbytes : Utf8.encode (imapDate date) ++ rest = digits date.day ++ (0x2d ::
      (wire (months.getD date.month0 "") ++ (0x2d ::
        (Utf8.encode (toString date.year).toList ++ rest)))) := by
    rw [encode_imapDate]
    simp only [List.append_assoc, List.cons_append]
  have hdash : Stops Utf8.isAsciiDigit (0x2d :: (wire (months.getD date.month0 "") ++ (0x2d ::
      (Utf8.encode (toString date.year).toList ++ rest)))) := by
    intro b hb
    cases hb
    rfl
  have htwo : ¬((digits date.day).isEmpty = true ∨ 2 < (digits date.day).length) := by
    rintro (hempty | hlong)
    · exact digits_ne_nil _ (List.isEmpty_iff.mp hempty)
    · have := (@length_digits_le date.day 2 (by decide)).mpr (by omega)
      omega
  rw [hbytes, readCivil, takeWhile_run isDigit_digits hdash, dropWhile_run isDigit_digits hdash,
    if_neg htwo]
  simp only [strip_one, Option.bind_eq_bind, Option.bind_some, hmonthFound, hmonthLeft,
    value_digits]
  cases hfour : fourDigits date with
  | true =>
    obtain ⟨hleft, hvalue⟩ := hyear hfour
    rw [if_pos (hlength.mpr hfour), if_pos rfl, hleft, hvalue]
  | false =>
    rw [if_neg fun h => Bool.false_ne_true (hfour.symm.trans (hlength.mp h)),
      if_neg Bool.false_ne_true]

/-- A date of the calendar is read as itself. -/
theorem readDate_day (chrono : Chrono) (date : NaiveDate) (hrest : Stops Utf8.isAsciiDigit rest) :
    readDate chrono (Utf8.encode (imapDate (chrono.civil date)) ++ rest) =
      if fourDigits (chrono.civil date) then some (date, rest) else none := by
  have hread := readCivil_imapDate (chrono.month_lt date) (chrono.day_le date) hrest
  have hquote : strip [0x22] (Utf8.encode (imapDate (chrono.civil date)) ++ rest) = none := by
    rw [encode_imapDate]
    cases hdigits : digits (chrono.civil date).day with
    | nil => exact absurd hdigits (digits_ne_nil _)
    | cons b run =>
      have hdigit : Utf8.isAsciiDigit b = true := isDigit_digits b (hdigits ▸ List.mem_cons_self)
      exact strip_one_ne (fun h => by rw [h] at hdigit; exact absurd hdigit (by decide)) _
  rw [readDate, hquote]
  rw [hread]
  cases hfour : fourDigits (chrono.civil date) with
  | true =>
    change (chrono.ofCivil (chrono.civil date)).bind _ = _
    rw [chrono.ofCivil_civil]
    rfl
  | false => rfl

end Grammar

end Mailo.Proto.Search
