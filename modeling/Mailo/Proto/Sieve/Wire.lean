import Mailo.Library.Arriving
import Mailo.Proto.Machine

/-!
# The lines of a ManageSieve server

A line of atoms, quoted strings, literals and response codes is read from the front of what has
arrived, or has not all arrived. A literal's bytes are part of the line they stand in.
-/

namespace Mailo.Proto.Sieve.Wire

open Library

/-- The most a single response line may hold, literals included. -/
def maxLine : Nat := 4 * 1024 * 1024

inductive Token where
  | atom (word : List Char)
  /-- A quoted string or a literal. -/
  | text (bytes : Bytes)
  | code (tokens : List Token)

inductive Nesting where
  | line | code
deriving DecidableEq

abbrev WireReader := Reader UInt8 ProtoError

def lf : UInt8 := 10
def cr : UInt8 := 13
def space : UInt8 := 32
def quote : UInt8 := 34
def opening : UInt8 := 40
def closing : UInt8 := 41
def plus : UInt8 := 43
def backslash : UInt8 := 92
def brace : UInt8 := 123
def endBrace : UInt8 := 125

def isAtom (c : UInt8) : Bool :=
  !(c == space || c == cr || c == lf || c == opening || c == closing || c == quote || c == brace)

def atom : WireReader Token := fun rest =>
  (span isAtom rest).settle fun word =>
    if word.isEmpty then .error (.malformed "an empty atom")
    else .ok (.atom (Utf8.decodeLossy word))

/-- What is between the quotes, the first of them read; `out` is what it stands for so far, and
`escaped` says that a backslash stands before the next byte. -/
def quoted (escaped : Bool) (out : Bytes) : WireReader Bytes
  | [] => .more
  | c :: rest =>
    if escaped then quoted false (out ++ [c]) rest
    else if c = quote then .done out rest
    else if c = backslash then quoted true out rest
    else if c = cr ∨ c = lf then .bad (.malformed "a line break in a quoted string")
    else quoted false (out ++ [c]) rest

def parseUsize (digits : Bytes) : Option Nat :=
  let value := digits.foldl (fun value d => value * 10 + (d.toNat - 48)) 0
  if digits.isEmpty ∨ value ≥ 2 ^ 64 then none else some value

def literalLength (digits : Bytes) : Except ProtoError Nat :=
  match parseUsize digits with
  | none => .error (.malformed "a literal with no length")
  | some length =>
    if length > maxLine then .error (.malformed "a literal longer than any script")
    else .ok length

def skipPlus : WireReader Unit
  | [] => .more
  | c :: rest => if c = plus then .done () rest else .done () (c :: rest)

def expectAll : Bytes → WireReader Unit
  | [], rest => .done () rest
  | _ :: _, [] => .more
  | e :: expected, c :: rest =>
    if c = e then expectAll expected rest else .bad (.malformed "a malformed literal")

/-- The length, the rest of its line, and so many bytes, the brace read. -/
def literal : WireReader Bytes := fun rest =>
  ((span Utf8.isAsciiDigit rest).settle literalLength).andThen fun length rest =>
    (skipPlus rest).andThen fun _ rest =>
      (expectAll [endBrace, cr, lf] rest).andThen fun _ rest => take length rest

/-- The line feed after a carriage return. -/
def lineEnd (out : List Token) : WireReader (List Token)
  | [] => .more
  | c :: rest => if c = lf then .done out rest else .bad (.malformed "CR without LF")

/-- What a byte begins, or ends, where a token may stand. -/
inductive Sign where
  | blank | lineEnd | codeEnd | broken | code | quoted | literal | atom
deriving DecidableEq

def sign (nesting : Nesting) (c : UInt8) : Sign :=
  if c = space then .blank
  else if c = cr ∧ nesting = .line then .lineEnd
  else if c = closing ∧ nesting = .code then .codeEnd
  else if c = cr ∨ c = lf ∨ c = closing then .broken
  else if c = opening ∧ nesting = .line then .code
  else if c = quote then .quoted
  else if c = brace then .literal
  else .atom

/-- The tokens up to the end of a line or of a code; `fuel` above the number of bytes is enough. -/
def tokens : Nat → Nesting → List Token → WireReader (List Token)
  | 0, _, _, _ => .more
  | _ + 1, _, _, [] => .more
  | fuel + 1, nesting, out, c :: rest =>
    match sign nesting c with
    | .blank => tokens fuel nesting out rest
    | .lineEnd => lineEnd out rest
    | .codeEnd => .done out rest
    | .broken => .bad (.malformed "a line broken inside a response code")
    | .code =>
      (tokens fuel .code [] rest).andThen fun inner => tokens fuel .line (out ++ [.code inner])
    | .quoted =>
      (quoted false [] rest).andThen fun bytes => tokens fuel nesting (out ++ [.text bytes])
    | .literal =>
      (literal rest).andThen fun bytes => tokens fuel nesting (out ++ [.text bytes])
    | .atom => (atom (c :: rest)).andThen fun word => tokens fuel nesting (out ++ [word])

/-- The first whole line of what has arrived and how many bytes it took, or none yet. -/
def line (buf : Bytes) : Except ProtoError (Option (List Token × Nat)) :=
  match tokens (buf.length + 1) .line [] buf with
  | .done out rest => .ok (some (out, buf.length - rest.length))
  | .more =>
    if buf.length > maxLine then .error (.malformed "a response line longer than any script")
    else .ok none
  | .bad error => .error error

/-! ## Lines however they arrive

A line is spelled by the tokens in it. What spells one is read as those tokens, whatever follows it,
and every cut before its end asks for more, until more than the most a line may hold has come.
-/

/-! ## Firmness -/

theorem quoted_firm (escaped : Bool) (out : Bytes) : Firm (quoted escaped out) := by
  intro arrived h late
  induction arrived generalizing escaped out with
  | nil => exact absurd rfl h
  | cons c rest ih =>
    rw [quoted] at h
    rw [List.cons_append, quoted, quoted]
    by_cases hescaped : escaped = true
    · rw [if_pos hescaped] at h
      rw [if_pos hescaped, if_pos hescaped]
      exact ih _ _ h
    · rw [if_neg hescaped] at h
      rw [if_neg hescaped, if_neg hescaped]
      by_cases hquote : c = quote
      · rw [if_pos hquote, if_pos hquote]
        rfl
      · rw [if_neg hquote] at h
        rw [if_neg hquote, if_neg hquote]
        by_cases hslash : c = backslash
        · rw [if_pos hslash] at h
          rw [if_pos hslash, if_pos hslash]
          exact ih _ _ h
        · rw [if_neg hslash] at h
          rw [if_neg hslash, if_neg hslash]
          by_cases hbreak : c = cr ∨ c = lf
          · rw [if_pos hbreak, if_pos hbreak]
            rfl
          · rw [if_neg hbreak] at h
            rw [if_neg hbreak, if_neg hbreak]
            exact ih _ _ h

theorem skipPlus_firm : Firm skipPlus := by
  intro arrived h late
  cases arrived with
  | nil => exact absurd rfl h
  | cons c rest =>
    rw [List.cons_append, skipPlus, skipPlus]
    split <;> rfl

theorem expectAll_firm (expected : Bytes) : Firm (expectAll expected) := by
  intro arrived h late
  induction expected generalizing arrived with
  | nil => rfl
  | cons e expected ih =>
    cases arrived with
    | nil => exact absurd rfl h
    | cons c rest =>
      rw [expectAll] at h
      rw [List.cons_append, expectAll, expectAll]
      by_cases hc : c = e
      · rw [if_pos hc] at h
        rw [if_pos hc, if_pos hc]
        exact ih _ h
      · rw [if_neg hc, if_neg hc]
        rfl

theorem literal_firm : Firm literal :=
  ((span_firm Utf8.isAsciiDigit).settle literalLength).andThen fun length =>
    skipPlus_firm.andThen fun _ => (expectAll_firm _).andThen fun _ => take_firm length

theorem atom_firm : Firm atom := (span_firm isAtom).settle _

theorem lineEnd_firm (out : List Token) : Firm (lineEnd out) := by
  intro arrived h late
  cases arrived with
  | nil => exact absurd rfl h
  | cons c rest =>
    rw [List.cons_append, lineEnd, lineEnd]
    split <;> rfl

variable {arrived bytes text rest : Bytes} {fuel : Nat} {nesting : Nesting} {out found : List Token}

theorem tokens_extend {more : Nat} (hfuel : fuel ≤ more)
    (h : tokens fuel nesting out arrived ≠ .more) (late : Bytes) :
    tokens more nesting out (arrived ++ late) = (tokens fuel nesting out arrived).extend late := by
  induction fuel generalizing more nesting out arrived with
  | zero => exact absurd rfl h
  | succ fuel ih =>
    obtain ⟨more, rfl⟩ : ∃ n, more = n + 1 := ⟨more - 1, by omega⟩
    have hle : fuel ≤ more := by omega
    cases arrived with
    | nil => exact absurd rfl h
    | cons c rest =>
      rw [tokens] at h
      rw [List.cons_append, tokens, tokens]
      cases hsign : sign nesting c with
      | blank =>
        rw [hsign] at h
        exact ih hle h
      | lineEnd =>
        rw [hsign] at h
        exact lineEnd_firm out rest h late
      | codeEnd | broken => rfl
      | code =>
        rw [hsign] at h
        exact Read.andThen_extend (fun hinner => ih hle hinner)
          (fun _ _ _ hnext => ih hle hnext) h
      | quoted =>
        rw [hsign] at h
        exact Read.andThen_extend (fun htext => quoted_firm _ _ _ htext late)
          (fun _ _ _ hnext => ih hle hnext) h
      | literal =>
        rw [hsign] at h
        exact Read.andThen_extend (fun htext => literal_firm _ htext late)
          (fun _ _ _ hnext => ih hle hnext) h
      | atom =>
        rw [hsign] at h
        exact Read.andThen_extend (fun hword => atom_firm _ hword late)
          (fun _ _ _ hnext => ih hle hnext) h

theorem tokens_firm (fuel : Nat) (nesting : Nesting) (out : List Token) :
    Firm (tokens fuel nesting out) :=
  fun _ h late => tokens_extend (Nat.le_refl fuel) h late

/-- A text between quotes, and what it stands for. -/
inductive Escapes : Bytes → Bytes → Prop
  | nil : Escapes [] []
  | escaped (c : UInt8) {text body : Bytes} : Escapes text body →
      Escapes (c :: text) (backslash :: c :: body)
  | plain {c : UInt8} {text body : Bytes} (hquote : c ≠ quote) (hslash : c ≠ backslash)
      (hcr : c ≠ cr) (hlf : c ≠ lf) : Escapes text body → Escapes (c :: text) (c :: body)

/-- The tokens that bytes spell, up to the end of a line or of a code. -/
inductive Spells : Nesting → List Token → Bytes → Prop
  | lineEnd : Spells .line [] [cr, lf]
  | codeEnd : Spells .code [] [closing]
  | blank {nesting : Nesting} {tokens : List Token} {rest : Bytes} :
      Spells nesting tokens rest → Spells nesting tokens (space :: rest)
  | atom {nesting : Nesting} {tokens : List Token} {word : Bytes} {c : UInt8} {rest : Bytes}
      (hword : word ≠ []) (hall : ∀ d ∈ word, isAtom d = true) (hends : isAtom c = false) :
      Spells nesting tokens (c :: rest) →
      Spells nesting (.atom (Utf8.decodeLossy word) :: tokens) (word ++ c :: rest)
  | quoted {nesting : Nesting} {tokens : List Token} {text body rest : Bytes}
      (hbody : Escapes text body) : Spells nesting tokens rest →
      Spells nesting (.text text :: tokens) (quote :: (body ++ quote :: rest))
  | literal {nesting : Nesting} {tokens : List Token} {digits extra text rest : Bytes}
      (hdigits : ∀ d ∈ digits, Utf8.isAsciiDigit d = true) (hlength : literalLength digits = .ok text.length)
      (hextra : extra = [] ∨ extra = [plus]) : Spells nesting tokens rest →
      Spells nesting (.text text :: tokens)
        (brace :: (digits ++ (extra ++ ([endBrace, cr, lf] ++ (text ++ rest)))))
  | code {inner tokens : List Token} {within rest : Bytes} : Spells .code inner within →
      Spells .line tokens rest →
      Spells .line (.code inner :: tokens) (opening :: (within ++ rest))

theorem Spells.ne_nil {tokens : List Token} (h : Spells nesting tokens bytes) : bytes ≠ [] := by
  cases h <;> simp

/-! ## What is spelled is read -/

theorem sign_of_isAtom {nesting : Nesting} {c : UInt8} (h : isAtom c = true) :
    sign nesting c = .atom := by
  simp only [isAtom, Bool.not_eq_true', Bool.or_eq_false_iff, beq_eq_false_iff_ne] at h
  obtain ⟨⟨⟨⟨⟨⟨hspace, hcr⟩, hlf⟩, hopening⟩, hclosing⟩, hquote⟩, hbrace⟩ := h
  simp [sign, hspace, hcr, hlf, hopening, hclosing, hquote, hbrace]

theorem quoted_of_escapes {body : Bytes} (h : Escapes text body) (out rest : Bytes) :
    quoted false out (body ++ quote :: rest) = .done (out ++ text) rest := by
  induction h generalizing out with
  | nil =>
    rw [List.nil_append, List.append_nil, quoted, if_neg Bool.false_ne_true, if_pos rfl]
  | @escaped c text body _ ih =>
    rw [List.cons_append, List.cons_append, quoted, if_neg Bool.false_ne_true,
      if_neg (by decide), if_pos rfl, quoted, if_pos rfl, ih, List.append_assoc,
      List.singleton_append]
  | @plain c text body hquote hslash hcr hlf _ ih =>
    rw [List.cons_append, quoted, if_neg Bool.false_ne_true, if_neg hquote, if_neg hslash,
      if_neg (not_or.mpr ⟨hcr, hlf⟩), ih, List.append_assoc, List.singleton_append]

theorem expectAll_append (expected rest : Bytes) :
    expectAll expected (expected ++ rest) = .done () rest := by
  induction expected with
  | nil => rfl
  | cons e expected ih => rw [List.cons_append, expectAll, if_pos rfl, ih]

theorem literal_of_spelled {digits extra : Bytes} (hdigits : ∀ d ∈ digits, Utf8.isAsciiDigit d = true)
    (hlength : literalLength digits = .ok text.length) (hextra : extra = [] ∨ extra = [plus])
    (rest : Bytes) :
    literal (digits ++ (extra ++ ([endBrace, cr, lf] ++ (text ++ rest)))) = .done text rest := by
  have hafter : ∃ c more, extra ++ ([endBrace, cr, lf] ++ (text ++ rest)) = c :: more ∧
      Utf8.isAsciiDigit c = false ∧ skipPlus (c :: more) = .done () ([endBrace, cr, lf] ++ (text ++ rest)) := by
    rcases hextra with rfl | rfl
    · exact ⟨endBrace, _, rfl, by decide, rfl⟩
    · exact ⟨plus, _, rfl, by decide, rfl⟩
  obtain ⟨c, more, hmore, hc, hplus⟩ := hafter
  have htake : (take text.length (text ++ rest) : Read UInt8 ProtoError Bytes) = .done text rest := by
    unfold take
    rw [if_neg (by rw [List.length_append]; omega), List.take_left, List.drop_left]
  rw [literal, hmore, span_append hdigits hc]
  unfold Read.settle Read.andThen
  dsimp only
  rw [hlength]
  dsimp only
  rw [hplus]
  dsimp only
  rw [expectAll_append]
  exact htake

theorem tokens_of_spells {spelled : List Token} (h : Spells nesting spelled bytes)
    (hfuel : bytes.length ≤ fuel) (out : List Token) (rest : Bytes) :
    tokens fuel nesting out (bytes ++ rest) = .done (out ++ spelled) rest := by
  induction h generalizing fuel out rest with
  | lineEnd | codeEnd =>
    obtain ⟨fuel, rfl⟩ : ∃ n, fuel = n + 1 := ⟨fuel - 1, by simp at hfuel; omega⟩
    rw [List.append_nil]
    rfl
  | @blank nesting spelled bytes _ ih =>
    rw [List.length_cons] at hfuel
    obtain ⟨fuel, rfl⟩ : ∃ n, fuel = n + 1 := ⟨fuel - 1, by omega⟩
    have hsign : sign nesting space = .blank := rfl
    rw [List.cons_append, tokens, hsign]
    exact ih (by omega) out rest
  | @atom nesting spelled word c bytes hword hall hends _ ih =>
    cases word with
    | nil => exact absurd rfl hword
    | cons d word =>
      have hsign := @sign_of_isAtom nesting d (hall d (.head _))
      have hatom : atom (d :: word ++ c :: bytes ++ rest) =
          .done (.atom (Utf8.decodeLossy (d :: word))) (c :: bytes ++ rest) := by
        have hspan : (span isAtom : WireReader Bytes) (d :: word ++ c :: (bytes ++ rest)) =
            .done (d :: word) (c :: (bytes ++ rest)) := span_append hall hends
        rw [atom, List.append_assoc]
        change ((span isAtom : WireReader Bytes) (d :: word ++ c :: (bytes ++ rest))).settle _ = _
        rw [hspan]
        rfl
      rw [List.length_append, List.length_cons, List.length_cons] at hfuel
      obtain ⟨fuel, rfl⟩ : ∃ n, fuel = n + 1 := ⟨fuel - 1, by omega⟩
      rw [List.cons_append, List.cons_append, tokens, hsign]
      rw [← List.cons_append, ← List.cons_append, hatom]
      have hrest := @ih fuel (by rw [List.length_cons]; omega)
        (out ++ [.atom (Utf8.decodeLossy (d :: word))]) rest
      rw [List.append_assoc, List.singleton_append] at hrest
      exact hrest
  | @quoted nesting spelled text body bytes hbody _ ih =>
    simp only [List.length_cons, List.length_append] at hfuel
    obtain ⟨fuel, rfl⟩ : ∃ n, fuel = n + 1 := ⟨fuel - 1, by omega⟩
    have hsign : sign nesting quote = .quoted := by cases nesting <;> rfl
    rw [List.cons_append, tokens, hsign]
    rw [List.append_assoc, List.cons_append, quoted_of_escapes hbody]
    have hrest := @ih fuel (by omega) (out ++ [.text text]) rest
    rw [List.append_assoc, List.singleton_append] at hrest
    exact hrest
  | @literal nesting spelled digits extra text bytes hdigits hlength hextra _ ih =>
    simp only [List.length_cons, List.length_append] at hfuel
    obtain ⟨fuel, rfl⟩ : ∃ n, fuel = n + 1 := ⟨fuel - 1, by omega⟩
    have hsign : sign nesting brace = .literal := by cases nesting <;> rfl
    rw [List.cons_append, tokens, hsign]
    rw [List.append_assoc, List.append_assoc, List.append_assoc, List.append_assoc,
      literal_of_spelled hdigits hlength hextra]
    have hrest := @ih fuel (by omega) (out ++ [.text text]) rest
    rw [List.append_assoc, List.singleton_append] at hrest
    exact hrest
  | @code inner spelled within bytes _ _ ihinner ih =>
    simp only [List.length_cons, List.length_append] at hfuel
    obtain ⟨fuel, rfl⟩ : ∃ n, fuel = n + 1 := ⟨fuel - 1, by omega⟩
    have hsign : sign .line opening = .code := rfl
    rw [List.cons_append, tokens, hsign]
    rw [List.append_assoc, ihinner (by omega), List.nil_append]
    have hrest := @ih fuel (by omega) (out ++ [.code inner]) rest
    rw [List.append_assoc, List.singleton_append] at hrest
    exact hrest

/-! ## What is read is spelled -/

theorem quoted_sound {escaped : Bool} {out : Bytes}
    (h : quoted escaped out arrived = .done text rest) :
    ∃ more body, text = out ++ more ∧ arrived = body ++ quote :: rest ∧
      if escaped then ∃ c plain after, body = c :: after ∧ more = c :: plain ∧ Escapes plain after
      else Escapes more body := by
  induction arrived generalizing escaped out with
  | nil => cases h
  | cons c arrived ih =>
    rw [quoted] at h
    cases escaped with
    | true =>
      rw [if_pos rfl] at h
      obtain ⟨more, body, rfl, rfl, hbody⟩ := ih h
      rw [if_neg Bool.false_ne_true] at hbody
      refine ⟨c :: more, c :: body, by rw [List.append_assoc]; rfl, rfl, ?_⟩
      rw [if_pos rfl]
      exact ⟨c, more, body, rfl, rfl, hbody⟩
    | false =>
      rw [if_neg Bool.false_ne_true] at h
      by_cases hquote : c = quote
      · rw [if_pos hquote] at h
        cases h
        exact ⟨[], [], by rw [List.append_nil], by rw [hquote]; rfl, .nil⟩
      · rw [if_neg hquote] at h
        by_cases hslash : c = backslash
        · rw [if_pos hslash] at h
          obtain ⟨more, body, rfl, rfl, hbody⟩ := ih h
          rw [if_pos rfl] at hbody
          obtain ⟨d, plain, after, rfl, rfl, hplain⟩ := hbody
          rw [hslash]
          exact ⟨d :: plain, backslash :: d :: after, rfl, rfl, .escaped d hplain⟩
        · rw [if_neg hslash] at h
          by_cases hbreak : c = cr ∨ c = lf
          · rw [if_pos hbreak] at h
            cases h
          · rw [if_neg hbreak] at h
            obtain ⟨more, body, rfl, rfl, hbody⟩ := ih h
            rw [if_neg Bool.false_ne_true] at hbody
            rw [not_or] at hbreak
            exact ⟨c :: more, c :: body, by rw [List.append_assoc]; rfl, rfl,
              .plain hquote hslash hbreak.1 hbreak.2 hbody⟩

theorem expectAll_sound {expected : Bytes} (h : expectAll expected arrived = .done () rest) :
    arrived = expected ++ rest := by
  induction expected generalizing arrived with
  | nil =>
    cases h
    rfl
  | cons e expected ih =>
    cases arrived with
    | nil => cases h
    | cons c arrived =>
      rw [expectAll] at h
      split at h
      · rename_i hc
        rw [hc, ih h]
        rfl
      · cases h

theorem skipPlus_sound (h : skipPlus arrived = .done () rest) :
    ∃ extra, arrived = extra ++ rest ∧ (extra = [] ∨ extra = [plus]) := by
  cases arrived with
  | nil => cases h
  | cons c arrived =>
    rw [skipPlus] at h
    split at h
    · rename_i hc
      cases h
      exact ⟨[plus], by rw [hc]; rfl, .inr rfl⟩
    · cases h
      exact ⟨[], rfl, .inl rfl⟩

theorem literal_sound (h : literal arrived = .done text rest) :
    ∃ digits extra, arrived = digits ++ (extra ++ ([endBrace, cr, lf] ++ (text ++ rest))) ∧
      (∀ d ∈ digits, Utf8.isAsciiDigit d = true) ∧ literalLength digits = .ok text.length ∧
      (extra = [] ∨ extra = [plus]) := by
  obtain ⟨length, middle, hlength, hmiddle⟩ := Read.andThen_eq_done h
  obtain ⟨digits, hspan, hdigits⟩ := Read.settle_eq_done hlength
  obtain ⟨⟨⟩, afterPlus, hplus, hmiddle⟩ := Read.andThen_eq_done hmiddle
  obtain ⟨⟨⟩, afterLine, hline, htake⟩ := Read.andThen_eq_done hmiddle
  obtain ⟨rfl, hall, _⟩ := span_eq_done hspan
  obtain ⟨extra, rfl, hextra⟩ := skipPlus_sound hplus
  obtain rfl := expectAll_sound hline
  unfold take at htake
  split at htake
  · cases htake
  · rename_i hle
    cases htake
    have htext : (afterLine.take length).length = length := by
      rw [List.length_take]
      omega
    exact ⟨digits, extra, by rw [List.take_append_drop], hall, by rw [hdigits, htext], hextra⟩

theorem sign_spec (nesting : Nesting) (c : UInt8) :
    match sign nesting c with
    | .blank => c = space
    | .lineEnd => c = cr ∧ nesting = .line
    | .codeEnd => c = closing ∧ nesting = .code
    | .code => c = opening ∧ nesting = .line
    | .quoted => c = quote
    | .literal => c = brace
    | .broken | .atom => True := by
  unfold sign
  by_cases hspace : c = space
  · rw [if_pos hspace]
    exact hspace
  · rw [if_neg hspace]
    by_cases hend : c = cr ∧ nesting = .line
    · rw [if_pos hend]
      exact hend
    · rw [if_neg hend]
      by_cases hclose : c = closing ∧ nesting = .code
      · rw [if_pos hclose]
        exact hclose
      · rw [if_neg hclose]
        by_cases hbroken : c = cr ∨ c = lf ∨ c = closing
        · rw [if_pos hbroken]
          trivial
        · rw [if_neg hbroken]
          by_cases hopen : c = opening ∧ nesting = .line
          · rw [if_pos hopen]
            exact hopen
          · rw [if_neg hopen]
            by_cases hquote : c = quote
            · rw [if_pos hquote]
              exact hquote
            · rw [if_neg hquote]
              by_cases hbrace : c = brace
              · rw [if_pos hbrace]
                exact hbrace
              · rw [if_neg hbrace]
                trivial

theorem tokens_sound (h : tokens fuel nesting out arrived = .done found rest) :
    ∃ spelled bytes, found = out ++ spelled ∧ arrived = bytes ++ rest ∧
      Spells nesting spelled bytes := by
  induction fuel generalizing nesting out found arrived rest with
  | zero => cases h
  | succ fuel ih =>
    cases arrived with
    | nil => cases h
    | cons c arrived =>
      have hspec := sign_spec nesting c
      rw [tokens] at h
      cases hsign : sign nesting c with
      | blank =>
        rw [hsign] at h hspec
        obtain ⟨spelled, bytes, rfl, rfl, hspells⟩ := ih h
        exact ⟨spelled, c :: bytes, rfl, rfl, by rw [hspec]; exact hspells.blank⟩
      | lineEnd =>
        rw [hsign] at h hspec
        obtain ⟨rfl, rfl⟩ := hspec
        cases arrived with
        | nil => cases h
        | cons d arrived =>
          dsimp only at h
          rw [lineEnd] at h
          split at h
          · rename_i hlf
            cases h
            exact ⟨[], [cr, lf], by rw [List.append_nil], by rw [hlf]; rfl, .lineEnd⟩
          · cases h
      | codeEnd =>
        rw [hsign] at h hspec
        obtain ⟨rfl, rfl⟩ := hspec
        cases h
        exact ⟨[], [closing], by rw [List.append_nil], rfl, .codeEnd⟩
      | broken =>
        rw [hsign] at h
        cases h
      | code =>
        rw [hsign] at h hspec
        obtain ⟨rfl, rfl⟩ := hspec
        obtain ⟨inner, middle, hinner, hrest⟩ := Read.andThen_eq_done h
        obtain ⟨within, first, rfl, rfl, hwithin⟩ := ih hinner
        obtain ⟨spelled, bytes, rfl, rfl, hspells⟩ := ih hrest
        exact ⟨.code inner :: spelled, opening :: (first ++ bytes),
          by rw [List.append_assoc]; rfl, by rw [List.cons_append, List.append_assoc],
          .code hwithin hspells⟩
      | quoted =>
        rw [hsign] at h hspec
        obtain ⟨text, middle, htext, hrest⟩ := Read.andThen_eq_done h
        obtain ⟨more, body, rfl, rfl, hbody⟩ := quoted_sound htext
        obtain ⟨spelled, bytes, rfl, rfl, hspells⟩ := ih hrest
        rw [if_neg Bool.false_ne_true] at hbody
        rw [hspec]
        exact ⟨.text text :: spelled, quote :: (body ++ quote :: bytes),
          by rw [List.append_assoc]; rfl, by simp, .quoted hbody hspells⟩
      | literal =>
        rw [hsign] at h hspec
        obtain ⟨text, middle, htext, hrest⟩ := Read.andThen_eq_done h
        obtain ⟨digits, extra, rfl, hdigits, hlength, hextra⟩ := literal_sound htext
        obtain ⟨spelled, bytes, rfl, rfl, hspells⟩ := ih hrest
        rw [hspec]
        exact ⟨.text text :: spelled, _, by rw [List.append_assoc]; rfl, by simp,
          .literal hdigits hlength hextra hspells⟩
      | atom =>
        rw [hsign] at h
        obtain ⟨word, middle, hword, hrest⟩ := Read.andThen_eq_done h
        obtain ⟨letters, hspan, hletters⟩ := Read.settle_eq_done hword
        obtain ⟨harrived, hall, d, more, rfl, hends⟩ := span_eq_done hspan
        obtain ⟨spelled, bytes, rfl, hbytes, hspells⟩ := ih hrest
        split at hletters
        · cases hletters
        · rename_i hnonempty
          cases hletters
          cases bytes with
          | nil => exact absurd rfl hspells.ne_nil
          | cons e bytes =>
            obtain ⟨rfl, rfl⟩ := List.cons.inj hbytes
            exact ⟨.atom (Utf8.decodeLossy letters) :: spelled, letters ++ d :: bytes,
              by rw [List.append_assoc]; rfl, by rw [harrived]; simp,
              .atom (by simpa using hnonempty) hall hends hspells⟩

/-! ## Lines -/

/-- What a line read is: the tokens of the bytes it took, which are those at the front. -/
theorem line_iff {buf : Bytes} {used : Nat} :
    line buf = .ok (some (found, used)) ↔
      ∃ bytes, Spells .line found bytes ∧ bytes <+: buf ∧ used = bytes.length := by
  unfold line
  constructor
  · intro h
    cases hread : tokens (buf.length + 1) .line [] buf with
    | more =>
      rw [hread] at h
      dsimp only at h
      split at h
      · cases h
      · cases h
    | bad error =>
      rw [hread] at h
      cases h
    | done out rest =>
      rw [hread] at h
      cases h
      obtain ⟨spelled, bytes, rfl, hbuf, hspells⟩ := tokens_sound hread
      refine ⟨bytes, hspells, ⟨rest, hbuf.symm⟩, ?_⟩
      rw [hbuf, List.length_append]
      omega
  · rintro ⟨bytes, hspells, ⟨rest, rfl⟩, rfl⟩
    rw [tokens_of_spells hspells (by rw [List.length_append]; omega)]
    dsimp only
    rw [List.nil_append, List.length_append, Nat.add_sub_cancel_right]

/-- A cut before the end of a line asks for more, or has more bytes than a line may hold. -/
theorem line_cut (h : Spells .line found bytes) {cut : Nat} (hcut : cut < bytes.length) :
    line (bytes.take cut) =
      if maxLine < cut then .error (.malformed "a response line longer than any script")
      else .ok none := by
  have hlength : (bytes.take cut).length = cut := by
    rw [List.length_take]
    omega
  have hread : tokens (bytes.length + 1) .line [] (bytes.take cut ++ bytes.drop cut ++ []) =
      .done ([] ++ found) [] := by
    rw [List.take_append_drop]
    exact tokens_of_spells h (Nat.le_succ _) [] []
  have hdrop : bytes.drop cut ≠ [] := by
    intro hnil
    have hlengths := congrArg List.length hnil
    rw [List.length_drop, List.length_nil] at hlengths
    omega
  have hlong := (tokens_firm (bytes.length + 1) .line []).cut hread hdrop
  have hmore : tokens (cut + 1) .line [] (bytes.take cut) = .more := by
    by_contra hsettled
    have hwhole := tokens_extend (Nat.succ_le_succ (Nat.le_of_lt hcut)) hsettled []
    rw [List.append_nil, hlong] at hwhole
    exact hsettled (Read.extend_eq_more hwhole.symm)
  unfold line
  rw [hlength, hmore]

/-- Whether no line longer than a line may be, and its last byte, stands at the front. -/
def Fits (buf : Bytes) : Prop :=
  ∀ found bytes, Spells .line found bytes → bytes <+: buf → bytes.length ≤ maxLine + 1

/-- A line is read the same whatever comes after it; and every cut before its end asks for more,
just when it is no longer than a line may be. -/
theorem line_cut_iff {buf : Bytes} {found : List Token} {used : Nat}
    (h : line buf = .ok (some (found, used))) :
    ((∀ cut < used, line (buf.take cut) = .ok none) ∧
        ∀ late, line (buf ++ late) = .ok (some (found, used))) ↔ Fits buf := by
  obtain ⟨bytes, hspells, hfront, rfl⟩ := line_iff.mp h
  have htake : ∀ cut < bytes.length, buf.take cut = bytes.take cut := by
    intro cut hcut
    obtain ⟨rest, rfl⟩ := hfront
    exact List.take_append_of_le_length (Nat.le_of_lt hcut)
  constructor
  · rintro ⟨hcuts, _⟩ found' bytes' hspells' hfront'
    have hsame := h.symm.trans (line_iff.mpr ⟨bytes', hspells', hfront', rfl⟩)
    simp only [Except.ok.injEq, Option.some.injEq, Prod.mk.injEq] at hsame
    rw [← hsame.2]
    by_contra hlong
    have hcut := hcuts (maxLine + 1) (by omega)
    rw [htake _ (by omega), line_cut hspells (by omega), if_pos (Nat.lt_succ_self _)] at hcut
    cases hcut
  · intro hfits
    have hlength := hfits found bytes hspells hfront
    refine ⟨fun cut hcut => ?_, fun late => ?_⟩
    · rw [htake cut hcut, line_cut hspells hcut, if_neg (by omega)]
    · exact line_iff.mpr ⟨bytes, hspells, hfront.trans (List.prefix_append buf late), rfl⟩

/-- A refusal with a code in parentheses, a literal that holds a line break, and a quoted text. -/
def refusal : Bytes := wire "NO (QUOTA) {6}\r\nno\r\nit \"a \\\"b\"\r\n"

/-- Cut anywhere, within the literal and the quoted text as well. -/
theorem refusal_cut :
    ((∀ cut < 32, line (refusal.take cut) = .ok none) ∧ ∀ late, line (refusal ++ late) =
      .ok (some ([.atom "NO".toList, .code [.atom "QUOTA".toList], .text (wire "no\r\nit"),
        .text (wire "a \"b")], 32))) ↔ Fits refusal :=
  line_cut_iff rfl

def longLine : Bytes := List.replicate maxLine 97 ++ [cr, lf]

theorem longLine_spelled :
    Spells .line [.atom (Utf8.decodeLossy (List.replicate maxLine 97))] longLine := by
  refine .atom ?_ (fun d hd => ?_) (by decide) .lineEnd
  · intro hnil
    have hlength := congrArg List.length hnil
    rw [List.length_replicate] at hlength
    cases hlength
  · rw [(List.mem_replicate.mp hd).2]
    decide

/-- The long line is read when it comes whole, and refused when its last byte is still to come. -/
theorem longLine_cut :
    line longLine =
        .ok (some ([.atom (Utf8.decodeLossy (List.replicate maxLine 97))], maxLine + 2)) ∧
      line (longLine.take (maxLine + 1)) =
        .error (.malformed "a response line longer than any script") := by
  have hlength : longLine.length = maxLine + 2 := by
    rw [longLine, List.length_append, List.length_replicate]
    rfl
  constructor
  · exact line_iff.mpr ⟨longLine, longLine_spelled, List.prefix_refl _, hlength.symm⟩
  · rw [line_cut longLine_spelled (by rw [hlength]; omega), if_pos (Nat.lt_succ_self _)]

end Mailo.Proto.Sieve.Wire
