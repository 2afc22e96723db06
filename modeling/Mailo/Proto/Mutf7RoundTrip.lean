import Mailo.Proto.Machine
import Mailo.Proto.Mutf7

/-!
# Modified UTF-7 as it is read

A run between `&` and `-` that is no modified base64 of UTF-16 is kept as it was written, and so is
one that does not end: reading never fails. Taking a slice that is not there would panic, and is
`none` here.
-/

namespace Mailo.Proto.Mutf7

open Library

def ampersand : UInt8 := 38
def hyphen : UInt8 := 45

def sextetOf (byte : UInt8) : Option Nat :=
  alphabet.findIdx? fun c => c.toNat = byte.toNat

/-- The units read so far, with the bits left over and how many of them count. -/
structure Units where
  bits : Nat
  width : Nat
  units : List Nat

def Units.read (state : Units) (value : Nat) : Units :=
  let bits := (state.bits * 64 + value) % 2 ^ 32
  let width := state.width + 6
  if 16 ≤ width then ⟨bits, width - 16, state.units ++ [bits >>> (width - 16) % 0x10000]⟩
  else ⟨bits, width, state.units⟩

def Units.readAll (state : Units) : Bytes → Option Units
  | [] => some state
  | byte :: rest =>
    match sextetOf byte with
    | none => none
    | some value => (state.read value).readAll rest

def fromUtf16 : List Nat → Option (List Char)
  | [] => some []
  | [unit] => if unit < 0xD800 ∨ 0xE000 ≤ unit then some [Char.ofNat unit] else none
  | unit :: next :: rest =>
    if unit < 0xD800 ∨ 0xE000 ≤ unit then
      (fromUtf16 (next :: rest)).map (Char.ofNat unit :: ·)
    else if unit < 0xDC00 ∧ 0xDC00 ≤ next ∧ next < 0xE000 then
      (fromUtf16 rest).map
        (Char.ofNat (0x10000 + (unit - 0xD800) * 0x400 + (next - 0xDC00)) :: ·)
    else none

def decodeRun (run : Bytes) : Option (List Char) :=
  if run.isEmpty then none
  else
    match Units.readAll ⟨0, 0, []⟩ run with
    | none => none
    | some ⟨bits, width, units⟩ =>
      -- What is left over is padding, and padding is zeros.
      if 0 < width ∧ bits % 2 ^ width ≠ 0 then none
      else if units.isEmpty then none
      else fromUtf16 units

/-- The bytes from one position to another, `none` where they are not all there. -/
def slice (bytes : Bytes) (start stop : Nat) : Option Bytes :=
  if start ≤ stop ∧ stop ≤ bytes.length then some ((bytes.drop start).take (stop - start)) else none

/-- What is read from the position `i` on; `fuel` above the number of bytes left is enough. -/
def decodeAt (bytes : Bytes) : Nat → Nat → List Char → Option (List Char)
  | 0, _, _ => none
  | fuel + 1, i, out =>
    if bytes.length ≤ i then some out
    else do
      let byte ← bytes[i]?
      if byte ≠ ampersand then
        let stop := i + ((bytes.drop i).takeWhile (· ≠ ampersand)).length
        let text ← slice bytes i stop
        decodeAt bytes fuel stop (out ++ Utf8.decodeLossy text)
      else if bytes[i + 1]? = some hyphen then decodeAt bytes fuel (i + 2) (out ++ ['&'])
      else
        let after ← slice bytes (i + 1) bytes.length
        match after.findIdx? (· = hyphen) with
        | none =>
          let rest ← slice bytes i bytes.length
          some (out ++ Utf8.decodeLossy rest)
        | some «end» =>
          let run ← slice bytes (i + 1) (i + 1 + «end»)
          let written ← slice bytes i (i + 2 + «end»)
          decodeAt bytes fuel (i + «end» + 2)
            (out ++ (decodeRun run).getD (Utf8.decodeLossy written))

/-- A mailbox name as it came on the wire. -/
def decode (wire : Bytes) : Option (List Char) := decodeAt wire (wire.length + 1) 0 []

attribute [local simp] fromUtf16 decodeAt Units.readAll

/-! ## A mailbox name comes back as it was

Reading takes every slice where it is, and goes on from what is left. What a name is written as is
read back piece by piece: a character, an ampersand, or a run whose units the bits give again.
-/

theorem fromUtf16_scalar {unit : Nat} (h : unit < 0xD800 ∨ 0xE000 ≤ unit) (units : List Nat) :
    fromUtf16 (unit :: units) = (fromUtf16 units).map (Char.ofNat unit :: ·) := by
  cases units with
  | nil => exact if_pos h
  | cons next units => rw [fromUtf16, if_pos h]

theorem fromUtf16_pair {high low : Nat} (hhigh : 0xD800 ≤ high ∧ high < 0xDC00)
    (hlow : 0xDC00 ≤ low ∧ low < 0xE000) (units : List Nat) :
    fromUtf16 (high :: low :: units) = (fromUtf16 units).map
      (Char.ofNat (0x10000 + (high - 0xD800) * 0x400 + (low - 0xDC00)) :: ·) := by
  rw [fromUtf16, if_neg (by omega), if_pos ⟨hhigh.2, hlow⟩]

theorem fromUtf16_encodeUtf16 (c : Char) (units : List Nat) :
    fromUtf16 (encodeUtf16 c ++ units) = (fromUtf16 units).map (c :: ·) := by
  have hvalid : c.toNat < 0xD800 ∨ (0xDFFF < c.toNat ∧ c.toNat < 0x110000) := c.valid
  have hback : Char.ofNat c.toNat = c := Char.ofNat_toNat c
  by_cases hsmall : c.toNat < 0x10000
  · rw [encodeUtf16, if_pos hsmall, List.singleton_append, fromUtf16_scalar (by omega), hback]
  · have hvalue : 0x10000 + (0xD800 + (c.toNat - 0x10000) / 0x400 - 0xD800) * 0x400 +
        (0xDC00 + (c.toNat - 0x10000) % 0x400 - 0xDC00) = c.toNat := by omega
    rw [encodeUtf16, if_neg hsmall, List.cons_append, List.singleton_append,
      fromUtf16_pair (by omega) (by omega), hvalue, hback]

theorem fromUtf16_flatMap (text : List Char) : fromUtf16 (text.flatMap encodeUtf16) = some text := by
  induction text with
  | nil => rfl
  | cons c text ih => rw [List.flatMap_cons, fromUtf16_encodeUtf16, ih]; rfl

variable {text : List Char} {bytes : Bytes} {fuel : Nat}

theorem fromUtf16_ne_nil {units : List Nat} (hunits : units ≠ []) (h : fromUtf16 units = some text)
    : text ≠ [] := by
  rintro rfl
  match units with
  | [] => exact hunits rfl
  | [unit] =>
    rw [fromUtf16] at h
    split at h <;> cases h
  | unit :: next :: rest =>
    rw [fromUtf16] at h
    split at h
    · simp at h
    · split at h
      · simp at h
      · cases h

variable {c : Char} {bits width : Nat} {done : List Nat} {state : Units}

theorem unit_lt {unit : Nat} (h : unit ∈ encodeUtf16 c) : unit < 0x10000 := by
  have hvalid : c.toNat < 0xD800 ∨ (0xDFFF < c.toNat ∧ c.toNat < 0x110000) := c.valid
  unfold encodeUtf16 at h
  split at h
  · rw [List.mem_singleton] at h
    omega
  · simp only [List.mem_cons, List.not_mem_nil, or_false] at h
    omega

theorem decodeRun_ne_nil {run : Bytes} (h : decodeRun run = some text) :
    text ≠ [] := by
  unfold decodeRun at h
  split at h
  · cases h
  · split at h
    · cases h
    · split at h
      · cases h
      · split at h
        · cases h
        · rename_i hunits
          exact fromUtf16_ne_nil (fun hnone => hunits (by rw [hnone]; rfl)) h

/-! ## The bits of a run -/

def byteOf (c : Char) : UInt8 := UInt8.ofNat c.toNat

theorem sextetOf_sextet (value : Nat) : sextetOf (byteOf (sextet value)) = some (value % 64) := by
  have hall : ∀ v : Fin 64, sextetOf (byteOf (sextet v)) = some v.val := by decide +kernel
  have hlt : value % 64 < 64 := Nat.mod_lt _ (by decide)
  have hmod : sextet value = sextet (value % 64) := by rw [sextet, sextet, Nat.mod_mod]
  rw [hmod]
  exact hall ⟨value % 64, hlt⟩

theorem readAll_sextet (state : Units) (value : Nat) (bytes : Bytes) :
    state.readAll (byteOf (sextet value) :: bytes) = (state.read (value % 64)).readAll bytes := by
  rw [Units.readAll, sextetOf_sextet]

/-- The units read are those of `done`, but for the low `width` bits of the last: those are
`bits`, not written yet. -/
inductive Behind (state : Units) : Nat → Nat → List Nat → Prop where
  | level {done : List Nat} (hwidth : state.width = 0) (hunits : state.units = done) :
      Behind state 0 0 done
  | two {bits last : Nat} {done : List Nat} (hwidth : state.width = 14)
      (hlast : state.bits % 2 ^ 14 * 4 + bits = last) (hbits : bits < 4)
      (hunits : state.units = done) : Behind state bits 2 (done ++ [last])
  | four {bits last : Nat} {done : List Nat} (hwidth : state.width = 12)
      (hlast : state.bits % 2 ^ 12 * 16 + bits = last) (hbits : bits < 16)
      (hunits : state.units = done) : Behind state bits 4 (done ++ [last])

theorem read_short {width : Nat} (h : width < 10) (bits : Nat) (units : List Nat) (value : Nat) :
    Units.read ⟨bits, width, units⟩ value =
      ⟨(bits * 64 + value) % 2 ^ 32, width + 6, units⟩ :=
  if_neg (by dsimp only; omega)

theorem read_whole {width : Nat} (h : 10 ≤ width) (bits : Nat) (units : List Nat) (value : Nat) :
    Units.read ⟨bits, width, units⟩ value =
      ⟨(bits * 64 + value) % 2 ^ 32, width - 10,
        units ++ [(bits * 64 + value) % 2 ^ 32 / 2 ^ (width - 10) % 0x10000]⟩ := by
  have hwidth : width + 6 - 16 = width - 10 := by omega
  rw [Units.read, if_pos (by dsimp only; omega), hwidth, Nat.shiftRight_eq_div_pow]

/-- The groups one unit fills bring what is read up to it, but for the bits it leaves over. -/
theorem Behind.unit {unit : Nat} (h : Behind state bits width done) (hunit : unit < 0x10000)
    (bytes : Bytes) :
    ∃ next, state.readAll ((groups (bits * 0x10000 + unit) (width + 16)
          ((width + 16) / 6)).map byteOf ++ bytes) = next.readAll bytes ∧
      Behind next ((bits * 0x10000 + unit) % 2 ^ ((width + 16) % 6)) ((width + 16) % 6)
        (done ++ [unit]) := by
  obtain ⟨sbits, swidth, units⟩ := state
  cases h with
  | level hwidth hunits =>
    subst hwidth hunits
    have hread : Units.readAll ⟨sbits, 0, units⟩ ((groups (0 * 0x10000 + unit) (0 + 16)
        ((0 + 16) / 6)).map byteOf ++ bytes) = Units.readAll
          ((Units.read ⟨sbits, 0, units⟩ ((0 * 0x10000 + unit) >>> 10 % 64)).read
            ((0 * 0x10000 + unit) >>> 4 % 64)) bytes := by
      change Units.readAll _ (byteOf (sextet _) :: byteOf (sextet _) :: bytes) = _
      rw [readAll_sextet, readAll_sextet]
    refine ⟨_, hread, ?_⟩
    rw [@read_short 0 (by decide), @read_short (0 + 6) (by decide)]
    change Behind _ ((0 * 0x10000 + unit) % 2 ^ 4) 4 _
    exact .four rfl (by dsimp only; omega) (by omega) rfl
  | @two _ last done hwidth hlast hbits hunits =>
    subst hwidth hunits
    have hread : Units.readAll ⟨sbits, 14, units⟩ ((groups (bits * 0x10000 + unit) (2 + 16)
        ((2 + 16) / 6)).map byteOf ++ bytes) = Units.readAll
          (((Units.read ⟨sbits, 14, units⟩ ((bits * 0x10000 + unit) >>> 12 % 64)).read
            ((bits * 0x10000 + unit) >>> 6 % 64)).read
              ((bits * 0x10000 + unit) >>> 0 % 64)) bytes := by
      change Units.readAll _
        (byteOf (sextet _) :: byteOf (sextet _) :: byteOf (sextet _) :: bytes) = _
      rw [readAll_sextet, readAll_sextet, readAll_sextet]
    refine ⟨_, hread, ?_⟩
    rw [@read_whole 14 (by decide), @read_short (14 - 10) (by decide),
      @read_whole (14 - 10 + 6) (by decide)]
    rw [Nat.pow_zero, Nat.mod_one]
    dsimp only at hlast
    refine .level rfl (congrArg₂ (· ++ ·) (congrArg (units ++ [·]) ?_) (congrArg ([·]) ?_))
    · omega
    · omega
  | @four _ last done hwidth hlast hbits hunits =>
    subst hwidth hunits
    have hread : Units.readAll ⟨sbits, 12, units⟩ ((groups (bits * 0x10000 + unit) (4 + 16)
        ((4 + 16) / 6)).map byteOf ++ bytes) = Units.readAll
          (((Units.read ⟨sbits, 12, units⟩ ((bits * 0x10000 + unit) >>> 14 % 64)).read
            ((bits * 0x10000 + unit) >>> 8 % 64)).read
              ((bits * 0x10000 + unit) >>> 2 % 64)) bytes := by
      change Units.readAll _
        (byteOf (sextet _) :: byteOf (sextet _) :: byteOf (sextet _) :: bytes) = _
      rw [readAll_sextet, readAll_sextet, readAll_sextet]
    refine ⟨_, hread, ?_⟩
    rw [@read_whole 12 (by decide), @read_short (12 - 10) (by decide),
      @read_short (12 - 10 + 6) (by decide)]
    change Behind _ ((bits * 0x10000 + unit) % 2 ^ 2) 2 _
    dsimp only at hlast
    refine .two rfl ?_ (by omega) (congrArg (units ++ [·]) ?_)
    · dsimp only
      omega
    · omega

/-- What closes a run fills up the last unit, and leaves zeros over. -/
theorem Behind.last (h : Behind state bits width done) :
    ∃ last, state.readAll ((sextets bits width []).map byteOf) = some last ∧
      last.units = done ∧ (0 < last.width → last.bits % 2 ^ last.width = 0) := by
  obtain ⟨sbits, swidth, units⟩ := state
  cases h with
  | level hwidth hunits => exact ⟨_, rfl, hunits, fun hpos => absurd hwidth (Nat.ne_of_gt hpos)⟩
  | @two _ last done hwidth hlast hbits hunits =>
    subst hwidth hunits
    refine ⟨_, readAll_sextet ⟨sbits, 14, units⟩ (bits <<< (6 - 2)) [], ?_⟩
    rw [@read_whole 14 (by decide), Nat.shiftLeft_eq]
    dsimp only at hlast ⊢
    exact ⟨congrArg (units ++ [·]) (by omega), fun _ => by omega⟩
  | @four _ last done hwidth hlast hbits hunits =>
    subst hwidth hunits
    refine ⟨_, readAll_sextet ⟨sbits, 12, units⟩ (bits <<< (6 - 4)) [], ?_⟩
    rw [@read_whole 12 (by decide), Nat.shiftLeft_eq]
    dsimp only at hlast ⊢
    exact ⟨congrArg (units ++ [·]) (by omega), fun _ => by omega⟩

/-- The units of a run are read back, with nothing left over but zeros. -/
theorem Behind.run {state : Units} {bits width : Nat} {done : List Nat}
    (h : Behind state bits width done) {units : List Nat} (hunits : ∀ unit ∈ units, unit < 0x10000) :
    ∃ last, state.readAll ((sextets bits width units).map byteOf) = some last ∧
      last.units = done ++ units ∧ (0 < last.width → last.bits % 2 ^ last.width = 0) := by
  induction units generalizing state bits width done with
  | nil =>
    rw [List.append_nil]
    exact h.last
  | cons unit units ih =>
    obtain ⟨hunit, hunits⟩ := List.forall_mem_cons.mp hunits
    obtain ⟨next, hread, hnext⟩ := h.unit hunit
      ((sextets ((bits * 0x10000 + unit) % 2 ^ ((width + 16) % 6)) ((width + 16) % 6) units).map
        byteOf)
    obtain ⟨last, hlast, hdone, hpadding⟩ := ih hnext hunits
    rw [sextets, List.map_append, hread, List.append_cons]
    exact ⟨last, hlast, hdone, hpadding⟩

theorem decodeRun_sextets (htext : text ≠ []) :
    decodeRun ((sextets 0 0 (text.flatMap encodeUtf16)).map byteOf) = some text := by
  have hunits : ∀ unit ∈ text.flatMap encodeUtf16, unit < 0x10000 := by
    intro unit hunit
    obtain ⟨c, _, hc⟩ := List.mem_flatMap.mp hunit
    exact unit_lt hc
  obtain ⟨last, hread, hdone, hpadding⟩ :=
    (Behind.level rfl rfl : Behind ⟨0, 0, []⟩ 0 0 []).run hunits
  have hsome : text.flatMap encodeUtf16 ≠ [] := by
    intro hnone
    have hback := fromUtf16_flatMap text
    rw [hnone] at hback
    exact htext (Option.some.inj hback).symm
  rw [List.nil_append] at hdone
  have hrun : (sextets 0 0 (text.flatMap encodeUtf16)).map byteOf ≠ [] := by
    intro hnone
    rw [hnone] at hread
    rw [← Option.some.inj hread] at hdone
    exact hsome hdone.symm
  rw [decodeRun, if_neg (by rwa [List.isEmpty_iff]), hread]
  dsimp only
  rw [if_neg (fun h => h.2 (hpadding h.1)), hdone, if_neg (by rwa [List.isEmpty_iff]),
    fromUtf16_flatMap]

/-! ## What is left to read -/

/-- What is read of the bytes left; `fuel` above their number is enough. -/
def readRest : Nat → Bytes → List Char
  | 0, _ => []
  | _ + 1, [] => []
  | fuel + 1, byte :: rest =>
    if byte ≠ ampersand then
      let text := (byte :: rest).takeWhile (· ≠ ampersand)
      Utf8.decodeLossy text ++ readRest fuel ((byte :: rest).drop text.length)
    else if rest.head? = some hyphen then '&' :: readRest fuel (rest.drop 1)
    else
      match rest.findIdx? (· = hyphen) with
      | none => Utf8.decodeLossy (byte :: rest)
      | some «end» =>
        (decodeRun (rest.take «end»)).getD (Utf8.decodeLossy ((byte :: rest).take («end» + 2))) ++
          readRest fuel (rest.drop («end» + 1))

theorem takeWhile_length_le (bytes : Bytes) (p : UInt8 → Bool) :
    (bytes.takeWhile p).length ≤ bytes.length :=
  (List.takeWhile_prefix p).length_le

theorem slice_eq {start stop : Nat} (hstart : start ≤ stop) (hstop : stop ≤ bytes.length) :
    slice bytes start stop = some ((bytes.drop start).take (stop - start)) := if_pos ⟨hstart, hstop⟩

theorem decodeAt_eq {i : Nat} (hfuel : bytes.length - i < fuel) (hi : i ≤ bytes.length)
    (out : List Char) :
    decodeAt bytes fuel i out = some (out ++ readRest fuel (bytes.drop i)) := by
  induction fuel generalizing i out with
  | zero => exact absurd hfuel (Nat.not_lt_zero _)
  | succ fuel ih =>
    rw [decodeAt]
    by_cases hend : bytes.length ≤ i
    · rw [if_pos hend, List.drop_eq_nil_of_le hend, readRest, List.append_nil]
    · have hlt : i < bytes.length := by omega
      obtain ⟨byte, rest, hdrop⟩ : ∃ byte rest, bytes.drop i = byte :: rest := by
        cases hdrop : bytes.drop i with
        | nil => exact absurd (List.drop_eq_nil_iff.mp hdrop) hend
        | cons byte rest => exact ⟨byte, rest, rfl⟩
      have hlength : rest.length + 1 + i = bytes.length := by
        have hlengths := congrArg List.length hdrop
        rw [List.length_drop, List.length_cons] at hlengths
        omega
      have hbyte : bytes[i]? = some byte := by
        rw [← List.head?_drop, hdrop]
        rfl
      have hnext : bytes[i + 1]? = rest.head? := by
        rw [← List.head?_drop, ← List.drop_drop, hdrop]
        rfl
      have hskip : ∀ n, bytes.drop (i + 1 + n) = rest.drop n := by
        intro n
        rw [← List.drop_drop, ← List.drop_drop, hdrop]
        rfl
      rw [if_neg hend, hbyte, hdrop, readRest]
      simp only [Option.bind_eq_bind, Option.bind_some]
      by_cases hplain : byte ≠ ampersand
      · have htext := takeWhile_length_le (byte :: rest) (· ≠ ampersand)
        have hpos : 1 ≤ ((byte :: rest).takeWhile (· ≠ ampersand)).length := by
          rw [List.takeWhile_cons_of_pos (by simpa using hplain), List.length_cons]
          omega
        rw [List.length_cons] at htext
        rw [if_pos hplain, if_pos hplain, slice_eq (by omega) (by omega), hdrop,
          Nat.add_sub_cancel_left, Option.bind_some, ih (by omega) (by omega)]
        rw [← List.drop_drop, hdrop, (List.prefix_iff_eq_take.mp (List.takeWhile_prefix _)).symm,
          List.append_assoc]
      · rw [if_neg hplain, if_neg hplain, hnext]
        by_cases hescaped : rest.head? = some hyphen
        · have hsome : 1 ≤ rest.length := by
            cases rest with
            | nil => cases hescaped
            | cons _ more => rw [List.length_cons]; omega
          rw [if_pos hescaped, if_pos hescaped, ih (by omega) (by omega), hskip 1,
            List.append_assoc]
          rfl
        · have hafter : bytes.drop (i + 1) = rest := hskip 0
          rw [if_neg hescaped, if_neg hescaped, slice_eq (by omega) (Nat.le_refl _),
            Option.bind_some, hafter, List.take_of_length_le (by omega)]
          cases hfind : rest.findIdx? (· = hyphen) with
          | none =>
            rw [slice_eq (by omega) (Nat.le_refl _), Option.bind_some, hdrop,
              List.take_of_length_le (by rw [List.length_cons]; omega)]
          | some «end» =>
            have hless : «end» < rest.length := by
              obtain ⟨hless, _⟩ := List.findIdx?_eq_some_iff_getElem.mp hfind
              exact hless
            dsimp only
            rw [slice_eq (by omega) (by omega), Option.bind_some, slice_eq (by omega) (by omega),
              Option.bind_some, hafter, hdrop, Nat.add_sub_cancel_left,
              show i + 2 + «end» - i = «end» + 2 by omega, ih (by omega) (by omega),
              show i + «end» + 2 = i + 1 + («end» + 1) by omega, hskip, List.append_assoc]

theorem decode_eq (wire : Bytes) : decode wire = some (readRest (wire.length + 1) wire) := by
  rw [decode, decodeAt_eq (by omega) (Nat.zero_le _), List.drop_zero, List.nil_append]

theorem readRest_succ (h : bytes.length < fuel) :
    readRest (fuel + 1) bytes = readRest fuel bytes := by
  induction fuel generalizing bytes with
  | zero => exact absurd h (Nat.not_lt_zero _)
  | succ fuel ih =>
    cases bytes with
    | nil => rfl
    | cons byte rest =>
      rw [List.length_cons] at h
      have hdrop : ∀ n, readRest (fuel + 1) (rest.drop n) = readRest fuel (rest.drop n) := by
        intro n
        apply ih
        rw [List.length_drop]
        omega
      rw [readRest.eq_3, readRest.eq_3]
      by_cases hplain : byte ≠ ampersand
      · rw [if_pos hplain, if_pos hplain,
          List.takeWhile_cons_of_pos (by simpa using hplain)]
        dsimp only
        rw [List.length_cons, List.drop_succ_cons, hdrop]
      · rw [if_neg hplain, if_neg hplain]
        cases rest.findIdx? (· = hyphen) with
        | none => rw [hdrop]
        | some «end» => dsimp only; rw [hdrop, hdrop]

theorem readRest_of_lt (h : bytes.length < fuel) :
    readRest fuel bytes = readRest (bytes.length + 1) bytes := by
  induction fuel with
  | zero => exact absurd h (Nat.not_lt_zero _)
  | succ fuel ih =>
    by_cases hless : bytes.length < fuel
    · rw [readRest_succ hless, ih hless]
    · rw [Nat.le_antisymm (Nat.le_of_lt_succ h) (Nat.le_of_not_lt hless)]

/-- What bytes are read as. -/
def read (bytes : Bytes) : List Char := readRest (bytes.length + 1) bytes

theorem read_plain {byte : UInt8} (hplain : byte ≠ ampersand) (hascii : byte < 0x80) (rest : Bytes) :
    read (byte :: rest) = Char.ofNat byte.toNat :: read rest := by
  rw [read, readRest, if_pos hplain, List.takeWhile_cons_of_pos (by simpa using hplain)]
  dsimp only
  rw [Utf8.decodeLossy_ascii hascii, List.length_cons, List.length_cons, List.drop_succ_cons,
    List.cons_append]
  congr 1
  cases rest with
  | nil => rfl
  | cons next more =>
    by_cases hnext : next ≠ ampersand
    · have hless : ((next :: more).drop
          ((next :: more).takeWhile (· ≠ ampersand)).length).length < more.length + 1 := by
        rw [List.takeWhile_cons_of_pos (by simpa using hnext), List.length_cons,
          List.drop_succ_cons, List.length_drop]
        omega
      rw [List.length_cons, readRest_succ hless, read, List.length_cons, readRest.eq_3,
        if_pos hnext]
    · rw [List.takeWhile_cons_of_neg (by simpa using hnext)]
      rfl

theorem read_escaped (rest : Bytes) : read (ampersand :: hyphen :: rest) = '&' :: read rest := by
  rw [read, readRest, if_neg (by decide), if_pos List.head?_cons]
  congr 1
  exact readRest_of_lt (by simp only [List.length_cons, List.drop_succ_cons, List.drop_zero]; omega)

theorem read_run {run : Bytes} (hrun : run ≠ []) (hplain : hyphen ∉ run)
    (htext : decodeRun run = some text) (rest : Bytes) :
    read (ampersand :: (run ++ hyphen :: rest)) = text ++ read rest := by
  have hhead : (run ++ hyphen :: rest).head? ≠ some hyphen := by
    cases run with
    | nil => exact absurd rfl hrun
    | cons byte run =>
      intro h
      exact hplain (List.mem_cons.mpr (.inl (Option.some.inj h).symm))
  have hfind : (run ++ hyphen :: rest).findIdx? (· = hyphen) = some run.length := by
    rw [List.findIdx?_append]
    have hnone : run.findIdx? (· = hyphen) = none := by
      rw [List.findIdx?_eq_none_iff]
      intro byte hbyte
      exact decide_eq_false (fun h => hplain (h ▸ hbyte))
    rw [hnone]
    simp [List.findIdx?_cons]
  rw [read, readRest, if_neg (by decide), if_neg hhead, hfind]
  dsimp only
  rw [List.take_left, htext, Option.getD_some, ← List.drop_drop, List.drop_left]
  congr 1
  exact readRest_of_lt (by
    simp only [List.length_cons, List.length_append, List.drop_succ_cons, List.drop_zero]
    omega)

theorem read_cons_ne_nil (byte : UInt8) (rest : Bytes) : read (byte :: rest) ≠ [] := by
  intro hnone
  rw [read, readRest] at hnone
  split at hnone
  · rename_i hplain
    rw [List.takeWhile_cons_of_pos (by simpa using hplain)] at hnone
    exact Utf8.decodeLossy_cons_ne_nil _ _ (List.append_eq_nil_iff.mp hnone).1
  · split at hnone
    · cases hnone
    · split at hnone
      · exact Utf8.decodeLossy_cons_ne_nil _ _ hnone
      · rename_i «end» _
        obtain ⟨hfirst, _⟩ := List.append_eq_nil_iff.mp hnone
        cases hrun : decodeRun (rest.take «end») with
        | none =>
          rw [hrun] at hfirst
          exact Utf8.decodeLossy_cons_ne_nil _ _ hfirst
        | some text =>
          rw [hrun] at hfirst
          exact decodeRun_ne_nil hrun hfirst

/-! ## What a name is written as -/

theorem alphabet_ne_hyphen : ∀ c ∈ alphabet, byteOf c ≠ hyphen := by decide

theorem printable_lt (h : isPrintable c = true) : c.toNat < 128 := by
  simp only [isPrintable, Bool.and_eq_true, decide_eq_true_eq] at h
  have hle : c.toNat ≤ 126 := UInt32.le_iff_toNat_le.mp h.2
  omega

theorem encode_bytes (h : ∀ c ∈ text, isPrintable c = true) :
    Utf8.encode text = text.map byteOf := by
  induction text with
  | nil => rfl
  | cons c text ih =>
    obtain ⟨hc, htext⟩ := List.forall_mem_cons.mp h
    rw [Utf8.encode_ascii (printable_lt hc), ih htext]
    rfl

theorem read_flush (held rest : List Char) :
    read ((flush (held.flatMap encodeUtf16) ++ rest).map byteOf) = held ++ read (rest.map byteOf) := by
  by_cases hheld : held = []
  · subst hheld
    rfl
  · have hsome : held.flatMap encodeUtf16 ≠ [] := by
      intro hnone
      have hback := fromUtf16_flatMap held
      rw [hnone] at hback
      exact hheld (Option.some.inj hback).symm
    have htext := decodeRun_sextets hheld
    have hrun : (sextets 0 0 (held.flatMap encodeUtf16)).map byteOf ≠ [] := by
      intro hnone
      rw [hnone] at htext
      cases htext
    have hplain : hyphen ∉ (sextets 0 0 (held.flatMap encodeUtf16)).map byteOf := by
      intro h
      obtain ⟨c, hc, hbyte⟩ := List.mem_map.mp h
      exact alphabet_ne_hyphen c (sextets_subset _ _ _ c hc) hbyte
    rw [flush, if_neg (by rwa [List.isEmpty_iff]), List.cons_append, List.cons_append,
      List.append_assoc, List.map_cons, List.map_append, List.singleton_append, List.map_cons]
    exact read_run hrun hplain htext _

theorem read_encodeFrom (held name : List Char) :
    read ((encodeFrom (held.flatMap encodeUtf16) name).map byteOf) = held ++ name := by
  induction name generalizing held with
  | nil =>
    have hflush := read_flush held []
    rw [List.append_nil] at hflush
    exact hflush
  | cons c name ih =>
    have hrest : read ((encodeFrom [] name).map byteOf) = name := ih []
    rw [encodeFrom]
    split
    · rename_i hplain
      have hlt := printable_lt (isPlain_printable hplain)
      simp only [isPlain, Bool.and_eq_true, decide_eq_true_eq, bne_iff_ne] at hplain
      have hbyte : (byteOf c).toNat = c.toNat := by
        rw [byteOf, UInt8.toNat_ofNat']
        exact Nat.mod_eq_of_lt (by omega)
      have hamp : byteOf c ≠ ampersand := by
        intro h
        rw [h] at hbyte
        exact hplain.2 (Char.toNat_inj.mp hbyte.symm)
      have hascii : byteOf c < 0x80 := by
        rw [UInt8.lt_iff_toNat_lt, hbyte]
        exact hlt
      rw [read_flush, List.map_cons, read_plain hamp hascii, hbyte, Char.ofNat_toNat, hrest]
    · split
      · rename_i hamp
        rw [read_flush, hamp, List.map_cons, List.map_cons]
        rw [show byteOf '&' = ampersand from rfl, show byteOf '-' = hyphen from rfl,
          read_escaped, hrest]
      · have hheld := ih (held ++ [c])
        rw [List.flatMap_append, List.flatMap_singleton] at hheld
        rw [hheld, List.append_assoc, List.singleton_append]

theorem decode_encode (name : List Char) : decode (Utf8.encode (encode name)) = some name := by
  rw [encode_bytes (encode_printable name), decode_eq]
  exact congrArg some (read_encodeFrom [] name)

/-- A mailbox name is written in printable ASCII and read back as it was, so no two names are
written alike; whatever else is on the wire is read as some text, and only nothing as none. -/
theorem name_roundTrip :
    (∀ name, decode (Utf8.encode (encode name)) = some name ∧
      ∀ c ∈ encode name, ' ' ≤ c ∧ c ≤ '~') ∧
    Function.Injective encode ∧
    ∀ wire, ∃ text, decode wire = some text ∧ (text = [] → wire = []) := by
  refine ⟨fun name => ⟨decode_encode name, ?_⟩, ?_, ?_⟩
  · intro c hc
    have hprintable := encode_printable name c hc
    simp only [isPrintable, Bool.and_eq_true, decide_eq_true_eq] at hprintable
    exact hprintable
  · intro a b h
    have hback := decode_encode a
    rw [h, decode_encode b] at hback
    exact (Option.some.inj hback).symm
  · intro wire
    refine ⟨read wire, decode_eq wire, ?_⟩
    cases wire with
    | nil => exact fun _ => rfl
    | cons byte rest => exact fun h => absurd h (read_cons_ne_nil byte rest)

end Mailo.Proto.Mutf7
