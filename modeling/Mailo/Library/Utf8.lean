import Mathlib.Data.List.Basic
import Mailo.Library.Lists

/-!
# Bytes and the text they spell

Text is written in UTF-8 and read back a character at a time. Bytes that spell no text are still
shown, each stretch of them as one replacement character. In base64 any three bytes are written as
four characters.
-/

namespace Mailo.Library

namespace Utf8

def isAsciiDigit (b : UInt8) : Bool := 48 ≤ b && b ≤ 57

def isAsciiWhitespace (b : UInt8) : Bool := b == 32 || b == 9 || b == 10 || b == 12 || b == 13

def encode (text : List Char) : List UInt8 := text.flatMap String.utf8EncodeChar

theorem encode_inj {a b : String} (h : encode a.toList = encode b.toList) : a = b := by
  have hbytes : ∀ text : String, text.toByteArray = (encode text.toList).toByteArray := by
    intro text
    rw [← String.utf8Encode_toList]
    rfl
  rw [← String.toByteArray_inj, hbytes a, hbytes b, h]

/-- What a first byte asks of those that follow: how many, and the range of the second. -/
def tail (lead : UInt8) : Option (Nat × UInt8 × UInt8) :=
  if lead < 0x80 then some (0, 0x80, 0xBF)
  else if lead < 0xC2 then none
  else if lead < 0xE0 then some (1, 0x80, 0xBF)
  else if lead = 0xE0 then some (2, 0xA0, 0xBF)
  else if lead = 0xED then some (2, 0x80, 0x9F)
  else if lead < 0xF0 then some (2, 0x80, 0xBF)
  else if lead = 0xF0 then some (3, 0x90, 0xBF)
  else if lead < 0xF4 then some (3, 0x80, 0xBF)
  else if lead = 0xF4 then some (3, 0x80, 0x8F)
  else none

def leadBits (lead : UInt8) (count : Nat) : Nat :=
  match count with
  | 0 => lead.toNat
  | 1 => lead.toNat % 0x20
  | 2 => lead.toNat % 0x10
  | _ => lead.toNat % 0x08

/-- Read `count` bytes more: the character if they are all there, and the bytes left. -/
def more (value : Nat) (lo hi : UInt8) : Nat → List UInt8 → Option Char × List UInt8
  | 0, rest => (some (Char.ofNat value), rest)
  | _ + 1, [] => (none, [])
  | count + 1, byte :: rest =>
    if lo ≤ byte ∧ byte ≤ hi then
      more (value * 0x40 + byte.toNat % 0x40) 0x80 0xBF count rest
    else (none, byte :: rest)

/-- The character at the front, or none for the longest stretch that begins no character. -/
def next (lead : UInt8) (rest : List UInt8) : Option Char × List UInt8 :=
  match tail lead with
  | none => (none, rest)
  | some (count, lo, hi) => more (leadBits lead count) lo hi count rest

/-- The characters of a list of bytes no longer than `fuel`. -/
def chunks : Nat → List UInt8 → List (Option Char)
  | 0, _ => []
  | _ + 1, [] => []
  | fuel + 1, lead :: rest => (next lead rest).1 :: chunks fuel (next lead rest).2

/-- The text bytes spell, if they are all text. -/
def decode (bytes : List UInt8) : Option (List Char) := (chunks bytes.length bytes).mapM id

def decodeLossy (bytes : List UInt8) : List Char :=
  (chunks bytes.length bytes).map fun c => c.getD '\uFFFD'

theorem encode_append (a b : List Char) : encode (a ++ b) = encode a ++ encode b :=
  List.flatMap_append

theorem encode_ascii {c : Char} (h : c.toNat < 128) (text : List Char) :
    encode (c :: text) = UInt8.ofNat c.toNat :: encode text := by
  have hsize : c.utf8Size = 1 := Char.utf8Size_eq_one_iff.mpr (by
    rw [UInt32.le_iff_toNat_le]
    exact Nat.le_of_lt_succ h)
  have hbyte : String.utf8EncodeChar c = [UInt8.ofNat c.toNat] :=
    String.utf8EncodeChar_eq_singleton hsize
  rw [encode, List.flatMap_cons, hbyte]
  rfl

theorem next_ascii {lead : UInt8} (h : lead < 0x80) (rest : List UInt8) :
    next lead rest = (some (Char.ofNat lead.toNat), rest) := by
  rw [next, tail, if_pos h]
  rfl

theorem decodeLossy_ascii {lead : UInt8} (h : lead < 0x80) (rest : List UInt8) :
    decodeLossy (lead :: rest) = Char.ofNat lead.toNat :: decodeLossy rest := by
  rw [decodeLossy, List.length_cons, chunks, next_ascii h]
  rfl

/-! ## Bytes cut apart -/

theorem length_more_le (value : Nat) (lo hi : UInt8) (count : Nat) (rest : List UInt8) :
    (more value lo hi count rest).2.length ≤ rest.length := by
  induction count generalizing value lo hi rest with
  | zero => exact Nat.le_refl _
  | succ count ih =>
    cases rest with
    | nil => exact Nat.le_refl _
    | cons byte rest =>
      rw [more]
      split
      · exact Nat.le_trans (ih _ _ _ rest) (Nat.le_succ _)
      · exact Nat.le_refl _

theorem length_next_le (lead : UInt8) (rest : List UInt8) :
    (next lead rest).2.length ≤ rest.length := by
  unfold next
  split
  · exact Nat.le_refl _
  · exact length_more_le ..

theorem mem_of_mem_more {value : Nat} {lo hi : UInt8} {count : Nat} {rest : List UInt8}
    {byte : UInt8} (h : byte ∈ (more value lo hi count rest).2) : byte ∈ rest := by
  induction count generalizing value lo hi rest with
  | zero => exact h
  | succ count ih =>
    cases rest with
    | nil => exact h
    | cons other rest =>
      rw [more] at h
      split at h
      · exact .tail _ (ih h)
      · exact h

theorem mem_of_mem_next {lead byte : UInt8} {rest : List UInt8} (h : byte ∈ (next lead rest).2) :
    byte ∈ rest := by
  unfold next at h
  split at h
  · exact h
  · exact mem_of_mem_more h

theorem chunks_congr {bytes : List UInt8} {n m : Nat} (hn : bytes.length ≤ n)
    (hm : bytes.length ≤ m) : chunks n bytes = chunks m bytes := by
  induction n generalizing bytes m with
  | zero =>
    rw [List.length_eq_zero_iff.mp (Nat.le_zero.mp hn)]
    cases m <;> rfl
  | succ n ih =>
    cases bytes with
    | nil => cases m <;> rfl
    | cons lead rest =>
      rw [List.length_cons] at hn hm
      obtain ⟨m, rfl⟩ := Nat.exists_eq_succ_of_ne_zero (by omega : m ≠ 0)
      have hnext := length_next_le lead rest
      show (next lead rest).1 :: chunks n _ = (next lead rest).1 :: chunks m _
      rw [ih (m := m) (by omega) (by omega)]

theorem decodeLossy_cons (lead : UInt8) (rest : List UInt8) :
    decodeLossy (lead :: rest) =
      (next lead rest).1.getD '\uFFFD' :: decodeLossy (next lead rest).2 := by
  rw [decodeLossy, List.length_cons, chunks, List.map_cons, decodeLossy]
  rw [chunks_congr (length_next_le lead rest) (Nat.le_refl _)]

/-- What a first byte asks for, and that its second byte is never ASCII. -/
theorem tail_spec (lead : UInt8) :
    ∀ count lo hi, tail lead = some (count, lo, hi) → 0x80 ≤ lo ∧ hi ≤ 0xBF ∧
      (0 < count → 0x80 ≤ (leadBits lead count * 0x40 + lo.toNat % 0x40) * 0x40 ^ (count - 1)) ∧
      (count = 0 → lead < 0x80) := by
  have hall : ∀ n < 256, ∀ asks ∈ tail (UInt8.ofNat n), 0x80 ≤ asks.2.1 ∧ asks.2.2 ≤ 0xBF ∧
      (0 < asks.1 → 0x80 ≤ (leadBits (UInt8.ofNat n) asks.1 * 0x40 + asks.2.1.toNat % 0x40) *
        0x40 ^ (asks.1 - 1)) ∧ (asks.1 = 0 → UInt8.ofNat n < 0x80) := by
    decide +kernel
  intro count lo hi htail
  have hlead := hall lead.toNat lead.toNat_lt (count, lo, hi) (by
    rw [UInt8.ofNat_toNat]
    exact htail)
  rwa [UInt8.ofNat_toNat] at hlead

/-- An ASCII byte ends whatever character was being read. -/
theorem more_append_ascii {ascii : UInt8} (hascii : ascii < 0x80) {lo : UInt8} (hlo : 0x80 ≤ lo)
    (value : Nat) (hi : UInt8) (count : Nat) (rest after : List UInt8) :
    more value lo hi count (rest ++ ascii :: after) =
      ((more value lo hi count rest).1, (more value lo hi count rest).2 ++ ascii :: after) := by
  induction count generalizing value lo hi rest with
  | zero => rfl
  | succ count ih =>
    cases rest with
    | nil =>
      have hout : ¬ (lo ≤ ascii ∧ ascii ≤ hi) := by
        simp only [UInt8.le_iff_toNat_le, UInt8.lt_iff_toNat_lt] at *
        omega
      rw [List.nil_append]
      exact if_neg hout
    | cons byte rest =>
      rw [List.cons_append, more, more]
      split
      · exact ih (by decide) ..
      · rfl

theorem next_append_ascii {ascii : UInt8} (hascii : ascii < 0x80) (lead : UInt8)
    (rest after : List UInt8) :
    next lead (rest ++ ascii :: after) =
      ((next lead rest).1, (next lead rest).2 ++ ascii :: after) := by
  unfold next
  cases htail : tail lead with
  | none => rfl
  | some asks => exact more_append_ascii hascii (tail_spec lead _ _ _ htail).1 ..

/-- Text is read apart where an ASCII byte stands. -/
theorem decodeLossy_append_ascii {ascii : UInt8} (hascii : ascii < 0x80)
    (before after : List UInt8) :
    decodeLossy (before ++ ascii :: after) =
      decodeLossy before ++ decodeLossy (ascii :: after) := by
  induction hlength : before.length using Nat.strongRecOn generalizing before with
  | _ n ih =>
    cases before with
    | nil => rfl
    | cons lead rest =>
      have hnext := length_next_le lead rest
      rw [List.length_cons] at hlength
      rw [List.cons_append, decodeLossy_cons, decodeLossy_cons, next_append_ascii hascii,
        ih _ (by omega) _ rfl, List.cons_append]

theorem more_value {value : Nat} {lo hi : UInt8} {count : Nat} {rest : List UInt8} {c : Char}
    (h : (more value lo hi count rest).1 = some c) :
    ∃ n, c = Char.ofNat n ∧ value * 0x40 ^ count ≤ n := by
  induction count generalizing value lo hi rest with
  | zero => exact ⟨value, (Option.some.inj h).symm, by simp⟩
  | succ count ih =>
    cases rest with
    | nil => cases h
    | cons byte rest =>
      rw [more] at h
      split at h
      · obtain ⟨n, hn, hle⟩ := ih h
        refine ⟨n, hn, Nat.le_trans ?_ hle⟩
        rw [Nat.pow_succ, Nat.mul_comm _ 0x40, ← Nat.mul_assoc]
        exact Nat.mul_le_mul_right _ (Nat.le_add_right _ _)
      · cases h

theorem toNat_of_ofNat {n : Nat} (hpos : 0 < (Char.ofNat n).toNat) :
    (Char.ofNat n).toNat = n := by
  by_cases hvalid : n.isValidChar
  · rw [show Char.ofNat n = Char.ofNatAux n hvalid from dif_pos hvalid]
    rfl
  · rw [show Char.ofNat n = _ from dif_neg hvalid] at hpos
    exact absurd hpos (by decide)

/-- An ASCII character is read from its own byte and no other. -/
theorem next_some_ascii {lead : UInt8} {rest : List UInt8} {c : Char}
    (h : (next lead rest).1 = some c) (hpos : 0 < c.toNat) (hascii : c.toNat < 0x80) :
    lead.toNat = c.toNat := by
  unfold next at h
  cases htail : tail lead with
  | none => simp [htail] at h
  | some asks =>
    obtain ⟨count, lo, hi⟩ := asks
    obtain ⟨-, hhi, hvalue, -⟩ := tail_spec lead _ _ _ htail
    simp only [htail] at h
    cases count with
    | zero =>
      obtain rfl : Char.ofNat lead.toNat = c := Option.some.inj h
      exact (toNat_of_ofNat hpos).symm
    | succ count =>
      cases rest with
      | nil => cases h
      | cons byte rest =>
        rw [more] at h
        split at h
        · rename_i hrange
          obtain ⟨n, rfl, hle⟩ := more_value h
          -- The second byte is no smaller than the least one allowed, in its last six bits too.
          have hbits : lo.toNat % 0x40 ≤ byte.toNat % 0x40 := by
            have hlo := (tail_spec lead _ _ _ htail).1
            simp only [UInt8.le_iff_toNat_le] at hlo hhi hrange
            have : (0x80 : UInt8).toNat = 128 := rfl
            have : (0xBF : UInt8).toNat = 191 := rfl
            omega
          have hleast := Nat.le_trans (hvalue (Nat.succ_pos count)) (Nat.le_trans
            (Nat.mul_le_mul_right _ (Nat.add_le_add_left hbits _)) hle)
          rw [toNat_of_ofNat hpos] at hascii
          omega
        · cases h

/-- An ASCII character of the text is a byte of it. -/
theorem mem_of_mem_decodeLossy {bytes : List UInt8} {c : Char} (h : c ∈ decodeLossy bytes)
    (hpos : 0 < c.toNat) (hascii : c.toNat < 0x80) : UInt8.ofNat c.toNat ∈ bytes := by
  induction hlength : bytes.length using Nat.strongRecOn generalizing bytes with
  | _ n ih =>
    cases bytes with
    | nil => cases h
    | cons lead rest =>
      rw [decodeLossy_cons] at h
      rcases List.mem_cons.mp h with rfl | h
      · cases hnext : (next lead rest).1 with
        | none =>
          rw [hnext] at hascii
          exact absurd hascii (by decide)
        | some c =>
          rw [hnext] at hpos hascii
          rw [Option.getD_some, ← next_some_ascii hnext hpos hascii, UInt8.ofNat_toNat]
          exact .head _
      · have hshort := length_next_le lead rest
        rw [List.length_cons] at hlength
        have hmem := ih _ (by omega) h rfl
        exact .tail _ (mem_of_mem_next hmem)

theorem decodeLossy_cons_ne_nil (lead : UInt8) (rest : List UInt8) :
    decodeLossy (lead :: rest) ≠ [] := by
  rw [decodeLossy, List.length_cons, chunks]
  exact List.cons_ne_nil _ _

end Utf8

/-! ## Base64: the standard alphabet, with padding -/

namespace Base64

def alphabet : List Char :=
  "ABCDEFGHIJKLMNOPQRSTUVWXYZabcdefghijklmnopqrstuvwxyz0123456789+/".toList

def digit (value : Nat) : Char := (alphabet[value % 64]?).getD '='

def encode : List UInt8 → List Char
  | [] => []
  | [a] => [digit (a.toNat / 4), digit (a.toNat % 4 * 16), '=', '=']
  | [a, b] =>
    [digit (a.toNat / 4), digit (a.toNat % 4 * 16 + b.toNat / 16), digit (b.toNat % 16 * 4), '=']
  | a :: b :: c :: rest =>
    digit (a.toNat / 4) :: digit (a.toNat % 4 * 16 + b.toNat / 16) ::
      digit (b.toNat % 16 * 4 + c.toNat / 64) :: digit c.toNat :: encode rest

/-- Every character text is encoded in. -/
def symbols : List Char := '=' :: alphabet

theorem digit_mem (value : Nat) : digit value ∈ symbols := by
  unfold digit symbols
  cases h : alphabet[value % 64]? with
  | none => exact .head _
  | some c => exact .tail _ (List.mem_of_getElem? h)

theorem encode_mem (bytes : List UInt8) : ∀ c ∈ encode bytes, c ∈ symbols := by
  have hpad : '=' ∈ symbols := .head _
  induction bytes using encode.induct with
  | case1 => exact List.forall_mem_nil _
  | case2 a =>
    simp only [encode, List.forall_mem_cons]
    exact ⟨digit_mem _, digit_mem _, hpad, hpad, List.forall_mem_nil _⟩
  | case3 a b =>
    simp only [encode, List.forall_mem_cons]
    exact ⟨digit_mem _, digit_mem _, digit_mem _, hpad, List.forall_mem_nil _⟩
  | case4 a b c rest ih =>
    simp only [encode, List.forall_mem_cons]
    exact ⟨digit_mem _, digit_mem _, digit_mem _, digit_mem _, ih⟩

end Base64

end Mailo.Library
