import Mathlib.Data.List.Basic
import Mailo.Library.Lists

/-!
# Modified UTF-7

How a mailbox name stands on the wire: printable ASCII as it is, an ampersand as `&-`, and every
run of other characters as UTF-16 in a base64 with `,` for `/`, between `&` and `-`.
-/

namespace Mailo.Proto

def isPrintable (c : Char) : Bool := ' ' ≤ c && c ≤ '~'

namespace Mutf7

def alphabet : List Char :=
  "ABCDEFGHIJKLMNOPQRSTUVWXYZabcdefghijklmnopqrstuvwxyz0123456789+,".toList

def sextet (value : Nat) : Char := (alphabet[value % 64]?).getD 'A'

def encodeUtf16 (c : Char) : List Nat :=
  if c.toNat < 0x10000 then [c.toNat]
  else [0xD800 + (c.toNat - 0x10000) / 0x400, 0xDC00 + (c.toNat - 0x10000) % 0x400]

/-- The whole groups of six among the last `width` bits, from the highest. -/
def groups (bits width : Nat) : Nat → List Char
  | 0 => []
  | count + 1 => sextet (bits >>> (width - 6)) :: groups bits (width - 6) count

/-- The units after `width` bits not yet written; the last group is filled up with zeros. -/
def sextets (bits width : Nat) : List Nat → List Char
  | [] => if width > 0 then [sextet (bits <<< (6 - width))] else []
  | unit :: units =>
    let bits := bits * 0x10000 + unit
    let width := width + 16
    groups bits width (width / 6) ++ sextets (bits % 2 ^ (width % 6)) (width % 6) units

def flush (pending : List Nat) : List Char :=
  if pending.isEmpty then [] else '&' :: sextets 0 0 pending ++ ['-']

def isPlain (c : Char) : Bool := ' ' ≤ c && c ≤ '~' && c != '&'

def encodeFrom (pending : List Nat) : List Char → List Char
  | [] => flush pending
  | c :: name =>
    if isPlain c then flush pending ++ c :: encodeFrom [] name
    else if c = '&' then flush pending ++ '&' :: '-' :: encodeFrom [] name
    else encodeFrom (pending ++ encodeUtf16 c) name

def encode (name : List Char) : List Char := encodeFrom [] name

example : encode "Entwürfe & Co".toList = "Entw&APw-rfe &- Co".toList := by decide

theorem sextet_mem (value : Nat) : sextet value ∈ alphabet := by
  have hlength : alphabet.length = 64 := by decide
  have hlt : value % 64 < alphabet.length := by
    rw [hlength]
    omega
  unfold sextet
  rw [List.getElem?_eq_getElem hlt]
  exact List.getElem_mem hlt

theorem groups_subset (bits width count : Nat) : ∀ c ∈ groups bits width count, c ∈ alphabet := by
  induction count generalizing width with
  | zero =>
    intro c hc
    cases hc
  | succ count ih =>
    intro c hc
    rcases List.mem_cons.mp hc with rfl | hc
    · exact sextet_mem _
    · exact ih _ c hc

theorem sextets_subset (bits width : Nat) (units : List Nat) :
    ∀ c ∈ sextets bits width units, c ∈ alphabet := by
  induction units generalizing bits width with
  | nil =>
    intro c hc
    unfold sextets at hc
    split at hc
    · rw [List.mem_singleton.mp hc]
      exact sextet_mem _
    · cases hc
  | cons unit units ih =>
    intro c hc
    rcases List.mem_append.mp hc with hc | hc
    · exact groups_subset _ _ _ c hc
    · exact ih _ _ c hc

theorem alphabet_printable : ∀ c ∈ alphabet, isPrintable c = true := by decide

theorem flush_printable (pending : List Nat) : ∀ c ∈ flush pending, isPrintable c = true := by
  intro c hc
  unfold flush at hc
  split at hc
  · cases hc
  · rcases List.mem_append.mp hc with hc | hc
    · rcases List.mem_cons.mp hc with rfl | hc
      · decide
      · exact alphabet_printable c (sextets_subset _ _ _ c hc)
    · rw [List.mem_singleton.mp hc]
      decide

theorem isPlain_printable {c : Char} (h : isPlain c = true) : isPrintable c = true := by
  simp only [isPlain, Bool.and_eq_true] at h
  simp only [isPrintable, Bool.and_eq_true]
  exact h.1

theorem encodeFrom_printable (pending : List Nat) (name : List Char) :
    ∀ c ∈ encodeFrom pending name, isPrintable c = true := by
  induction name generalizing pending with
  | nil => exact flush_printable pending
  | cons d name ih =>
    intro c hc
    unfold encodeFrom at hc
    split at hc
    · rename_i hplain
      rcases List.mem_append.mp hc with hc | hc
      · exact flush_printable _ c hc
      · rcases List.mem_cons.mp hc with rfl | hc
        · exact isPlain_printable hplain
        · exact ih _ c hc
    · split at hc
      · rcases List.mem_append.mp hc with hc | hc
        · exact flush_printable _ c hc
        · rcases List.mem_cons.mp hc with rfl | hc
          · decide
          · rcases List.mem_cons.mp hc with rfl | hc
            · decide
            · exact ih _ c hc
      · exact ih _ c hc

/-- A name on the wire is printable ASCII. -/
theorem encode_printable (name : List Char) : ∀ c ∈ encode name, isPrintable c = true :=
  encodeFrom_printable [] name

end Mutf7

end Mailo.Proto
