import Mailo.Domain.Text

/-!
# What threading reads of a message

The ids a message names are compared once normalized, and one that cannot be an id becomes the
empty text, which is never a value. Subjects are compared without their reply prefixes.
-/

namespace Mailo.Domain.Threading

open Domain.Text

/-- The headers threading needs. -/
structure ThreadInput where
  messageId : Option (List Char)
  inReplyTo : Option (List Char)
  references : List (List Char)
  subject : List Char
  provider : Option (List Char)
deriving DecidableEq

instance : Inhabited ThreadInput := ⟨⟨none, none, [], [], none⟩⟩

def providerPrefix : List Char := "thrid ".toList

def providerKey (id : List Char) : List Char := providerPrefix ++ id

def unbracket (trimmed : List Char) : List Char :=
  if trimmed.head? = some '<' ∧ trimmed.getLast? = some '>' ∧ 2 ≤ trimmed.length then
    (trimmed.drop 1).dropLast
  else trimmed

/-- A `Message-ID` without its angle brackets and in lower case, or nothing when it holds a
character no id may. -/
def normalizeId (raw : List Char) : List Char :=
  let core := trim (unbracket (trim raw))
  if core.isEmpty || core.any (fun c => isWhitespace c || isControl c || c == '<' || c == '>') then
    []
  else toAsciiLowercase core

namespace ThreadInput

/-- The message's own id, empty when it has none that can be used. -/
def ownId (input : ThreadInput) : List Char :=
  match input.messageId with
  | some raw => normalizeId raw
  | none => []

/-- `References`, oldest first, with `In-Reply-To` after them. -/
def named (input : ThreadInput) : List (List Char) :=
  input.references ++ input.inReplyTo.toList

def chainIds (input : ThreadInput) : List (List Char) :=
  input.named.foldl (fun ids raw =>
    let id := normalizeId raw
    if id.isEmpty || ids.contains id then ids else ids ++ [id]) []

def providerId (input : ThreadInput) : Option (List Char) :=
  input.provider.filter fun id => !id.isEmpty

end ThreadInput

def stripCounter : List Char → List Char
  | [] => []
  | c :: digits =>
    let after := digits.dropWhile isAsciiDigit
    let strip (close : Char) :=
      match stripPrefix [close] after with
      -- At least one digit, or `Re[]:` would parse as a counter.
      | some tail => if after.length < digits.length then trimStart tail else c :: digits
      | none => c :: digits
    if c = '[' then strip ']' else if c = '(' then strip ')' else c :: digits

def stripPrefixAsciiCi (haystack lead : List Char) : Option (List Char) :=
  if eqIgnoreAsciiCase (haystack.take lead.length) lead then some (haystack.drop lead.length)
  else none

def stripReply (rest : List Char) : List (List Char) → Option (List Char)
  | [] => none
  | tag :: tags =>
    match stripPrefixAsciiCi rest tag with
    | some after =>
      match stripPrefix [':'] (stripCounter (trimStart after)) with
      | some tail => some (trimStart tail)
      | none => stripReply rest tags
    | none => stripReply rest tags

def replyTags : List (List Char) := ["re".toList, "fwd".toList, "fw".toList]

def stripReplies : Nat → List Char → Bool → List Char × Bool
  | 0, rest, replied => (rest, replied)
  | fuel + 1, rest, replied =>
    match stripReply rest replyTags with
    | some tail => stripReplies fuel tail true
    | none => (rest, replied)

def baseSubject (subject : List Char) : List Char × Bool :=
  let rest := trim subject
  let (rest, replied) := stripReplies rest.length rest false
  (toAsciiLowercase (joinWords (splitWhitespace rest)), replied)

/-! ## What the rules promise -/

theorem stripPrefix_eq_some {lead text rest : List Char} (h : stripPrefix lead text = some rest) :
    text = lead ++ rest := by
  induction lead generalizing text with
  | nil =>
    cases h
    rfl
  | cons c lead ih =>
    cases text with
    | nil => cases h
    | cons d text =>
      by_cases hc : c = d
      · rw [stripPrefix, if_pos hc] at h
        rw [ih h, hc]
        rfl
      · simp [stripPrefix, hc] at h

theorem toLower_eq_space {c : Char} (h : c.toLower = ' ') : c = ' ' := by
  delta Char.toLower at h
  split at h
  · rename_i hupper
    have hval := congrArg (fun c => c.val) h
    have hle := UInt32.le_iff_toNat_le.mp hupper.1
    have hge := UInt32.le_iff_toNat_le.mp hupper.2
    have hsum := congrArg UInt32.toNat hval
    simp [UInt32.toNat_add] at hle hge hsum
    omega
  · exact h

theorem space_notMem_normalizeId (raw : List Char) : ' ' ∉ normalizeId raw := by
  intro h
  simp only [normalizeId] at h
  split at h
  · cases h
  · rename_i husable
    rw [toAsciiLowercase, List.mem_map] at h
    rcases h with ⟨c, hc, hlower⟩
    have hspace := toLower_eq_space hlower
    subst hspace
    simp only [Bool.not_eq_true, Bool.or_eq_false_iff, List.any_eq_false] at husable
    have hno := husable.2 ' ' hc
    simp [isWhitespace] at hno

theorem stripPrefix_normalizeId (raw : List Char) :
    stripPrefix providerPrefix (normalizeId raw) = none := by
  cases h : stripPrefix providerPrefix (normalizeId raw) with
  | none => rfl
  | some rest =>
    have hmem : ' ' ∈ normalizeId raw := by
      rw [stripPrefix_eq_some h]
      exact List.mem_append_left _ (by decide)
    exact absurd hmem (space_notMem_normalizeId raw)

theorem chainIds_from (raws ids : List (List Char)) (hids : ids.Nodup) :
    let out := raws.foldl (fun ids raw =>
      let id := normalizeId raw
      if id.isEmpty || ids.contains id then ids else ids ++ [id]) ids
    out.Nodup ∧ ∀ id, id ∈ out ↔ id ∈ ids ∨ (id ≠ [] ∧ ∃ raw ∈ raws, normalizeId raw = id) := by
  induction raws generalizing ids with
  | nil => exact ⟨hids, fun id => by simp⟩
  | cons raw raws ih =>
    simp only [List.foldl_cons]
    by_cases hskip : (normalizeId raw).isEmpty || ids.contains (normalizeId raw)
    · rw [if_pos hskip]
      refine ⟨(ih ids hids).1, fun id => ?_⟩
      rw [(ih ids hids).2 id]
      grind
    · rw [if_neg hskip]
      simp only [Bool.or_eq_true, List.isEmpty_iff, List.contains_iff_mem, not_or] at hskip
      have hnodup : (ids ++ [normalizeId raw]).Nodup := by
        rw [List.nodup_append]
        refine ⟨hids, by simp, ?_⟩
        intro a ha b hb
        rw [List.mem_singleton] at hb
        intro heq
        exact hskip.2 (by rw [← hb, ← heq]; exact ha)
      refine ⟨(ih _ hnodup).1, fun id => ?_⟩
      rw [(ih _ hnodup).2 id]
      grind

theorem mem_chainIds {input : ThreadInput} {id : List Char} :
    id ∈ input.chainIds ↔ id ≠ [] ∧ ∃ raw ∈ input.named, normalizeId raw = id := by
  refine ((chainIds_from input.named [] List.nodup_nil).2 id).trans ?_
  simp only [List.not_mem_nil, false_or]

example : baseSubject "RE: re[2] : Fw: Q3   Budget ".toList = ("q3 budget".toList, true) := by
  decide

end Mailo.Domain.Threading
