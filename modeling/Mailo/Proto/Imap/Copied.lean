import Mailo.Domain.Remote
import Mailo.Domain.Spaced

/-!
# Where a server put what it copied

A server that copied messages says under which UIDs it put them: two sets, the one of the sources and
the one of the copies, paired in order.
-/

namespace Mailo.Proto.Imap

open Domain

def copyCode : List Char := "[COPYUID ".toList

/-- What follows the first place of a code in a text, in any letter case. -/
def afterCode (code : List Char) : List Char → Option (List Char)
  | [] => none
  | c :: text =>
    if Text.eqIgnoreAsciiCase ((c :: text).take code.length) code then
      some ((c :: text).drop code.length)
    else afterCode code text

def parseUid (text : List Char) : Option UInt32 :=
  (Text.parseUnsigned (2 ^ 32) text).map UInt32.ofNat

/-- Most UIDs one set is expanded to. -/
def mostCopied : Nat := 100000

/-- How many UIDs a range names. -/
def uidSpan (a b : UInt32) : Nat := (a.toNat - b.toNat) + (b.toNat - a.toNat) + 1

/-- A range runs from the first to the second, whichever is larger. -/
def uidRange (a b : UInt32) : List UInt32 :=
  if a ≤ b then (List.range' a.toNat (uidSpan a b)).map UInt32.ofNat
  else ((List.range' b.toNat (uidSpan a b)).map UInt32.ofNat).reverse

/-- A part of a set: one UID, or a range. -/
def uidPart (part : List Char) : Option (UInt32 × UInt32) :=
  match Text.splitOnce ':' part with
  | some (a, b) => (parseUid a).bind fun a => (parseUid b).map fun b => (a, b)
  | none => (parseUid part).map fun one => (one, one)

def uidListFrom (out : List UInt32) : List (List Char) → Option (List UInt32)
  | [] => some out
  | part :: rest =>
    match uidPart part with
    | none => none
    | some (a, b) =>
      if mostCopied < out.length + uidSpan a b then none
      else uidListFrom (out ++ uidRange a b) rest

/-- The UIDs a set names, in the order written. -/
def uidList (set : List Char) : Option (List UInt32) := uidListFrom [] (set.splitOn ',')

/-- The number of the mailbox copied to, and each source with its copy. -/
def copyuid (text : List Char) : Option (UInt32 × List (UInt32 × UInt32)) :=
  (afterCode copyCode text).bind fun rest =>
    (Text.splitOnce ']' rest).bind fun cut =>
      match Text.splitWhitespace cut.1 with
      | uidvalidity :: source :: dest :: _ =>
        (parseUid uidvalidity).bind fun uidvalidity =>
          (uidList source).bind fun source =>
            (uidList dest).bind fun dest =>
              if source.length = dest.length then some (uidvalidity, source.zip dest) else none
      | _ => none

def uidOf : RemoteRef → Option UInt32
  | .imap _ _ uid => some uid
  | _ => none

/-- A message that a server moved or copied, and its address there if the server said so. -/
structure Moved where
  source : RemoteRef
  dest : Option RemoteRef
deriving DecidableEq

def landedAt (remotes : List RemoteRef) (target : String)
    (copied : Option (UInt32 × List (UInt32 × UInt32))) : List Moved :=
  let (uidvalidity, pairs) := copied.getD (0, [])
  remotes.map fun source =>
    ⟨source, (uidOf source).bind fun uid =>
      (pairs.find? fun pair => pair.1 = uid).map fun pair => .imap target uidvalidity pair.2⟩

/-! ## What a set names -/

theorem length_uidRange (a b : UInt32) : (uidRange a b).length = uidSpan a b := by
  unfold uidRange
  split <;> simp

/-- A set whose parts, each one UID or a range, name these UIDs in order. -/
def Names (set : List Char) (uids : List UInt32) : Prop :=
  ∃ ranges, List.Forall₂ (fun part range => uidPart part = some range) (set.splitOn ',') ranges ∧
    uids = ranges.flatMap fun range => uidRange range.1 range.2

theorem uidListFrom_eq_some {parts : List (List Char)} {out uids : List UInt32}
    (hout : out.length ≤ mostCopied) : uidListFrom out parts = some uids ↔
      ∃ ranges, List.Forall₂ (fun part range => uidPart part = some range) parts ranges ∧
        uids = (out ++ ranges.flatMap fun range => uidRange range.1 range.2) ∧
          uids.length ≤ mostCopied := by
  induction parts generalizing out with
  | nil =>
    rw [uidListFrom, Option.some.injEq]
    constructor
    · rintro rfl
      exact ⟨[], .nil, (List.append_nil _).symm, hout⟩
    · rintro ⟨ranges, hranges, rfl, -⟩
      cases hranges
      exact (List.append_nil _).symm
  | cons part rest ih =>
    rw [uidListFrom]
    cases hpart : uidPart part with
    | none =>
      refine iff_of_false (by simp) ?_
      rintro ⟨ranges, hranges, -⟩
      cases hranges with
      | cons hfirst => cases hpart.symm.trans hfirst
    | some range =>
      have hgrown : (out ++ uidRange range.1 range.2).length =
          out.length + uidSpan range.1 range.2 := by
        rw [List.length_append, length_uidRange]
      dsimp only
      split
      · rename_i hmany
        refine iff_of_false (by simp) ?_
        rintro ⟨ranges, hranges, rfl, hlength⟩
        cases hranges with
        | cons hfirst _ =>
          obtain rfl : range = _ := Option.some.inj (hpart.symm.trans hfirst)
          rw [List.flatMap_cons, ← List.append_assoc, List.length_append, hgrown] at hlength
          omega
      · rename_i hfew
        rw [ih (by omega)]
        constructor
        · rintro ⟨ranges, hranges, huids, hlength⟩
          exact ⟨range :: ranges, .cons hpart hranges,
            by rw [huids, List.flatMap_cons, List.append_assoc], hlength⟩
        · rintro ⟨ranges, hranges, huids, hlength⟩
          cases hranges with
          | cons hfirst hrest =>
            obtain rfl : range = _ := Option.some.inj (hpart.symm.trans hfirst)
            exact ⟨_, hrest, by rw [huids, List.flatMap_cons, List.append_assoc], hlength⟩

theorem uidList_eq_some {set : List Char} {uids : List UInt32} :
    uidList set = some uids ↔ Names set uids ∧ uids.length ≤ mostCopied := by
  rw [uidList, uidListFrom_eq_some (Nat.zero_le _)]
  simp only [List.nil_append]
  exact ⟨fun ⟨ranges, hranges, huids, hlength⟩ => ⟨⟨ranges, hranges, huids⟩, hlength⟩,
    fun ⟨⟨ranges, hranges, huids⟩, hlength⟩ => ⟨ranges, hranges, huids, hlength⟩⟩

/-! ## What a text tells -/

/-- A code stands after `before` in any letter case, and no sooner. -/
structure FirstCode (code before name rest : List Char) : Prop where
  same : Text.eqIgnoreAsciiCase name code = true
  first : ∀ start c more, before = start ++ c :: more →
    Text.eqIgnoreAsciiCase ((c :: more ++ name ++ rest).take code.length) code = false

theorem afterCode_eq_some {code text rest : List Char} (hcode : code ≠ []) :
    afterCode code text = some rest ↔
      ∃ before name, text = before ++ name ++ rest ∧ FirstCode code before name rest := by
  induction text with
  | nil =>
    refine iff_of_false (by simp [afterCode]) ?_
    rintro ⟨before, name, htext, hfirst⟩
    have hname : name = [] := by simp_all
    have hlength := Text.length_of_eqIgnoreAsciiCase hfirst.same
    rw [hname] at hlength
    exact hcode (List.length_eq_zero_iff.mp hlength.symm)
  | cons c text ih =>
    rw [afterCode]
    split
    · rename_i hhere
      rw [Option.some.injEq]
      constructor
      · rintro rfl
        exact ⟨[], (c :: text).take code.length, by simp, hhere, by simp⟩
      · rintro ⟨before, name, htext, hfirst⟩
        cases before with
        | nil =>
          have hlength := Text.length_of_eqIgnoreAsciiCase hfirst.same
          rw [htext, List.nil_append, ← hlength, List.drop_left]
        | cons d before =>
          have hnot := hfirst.first [] d before rfl
          rw [List.cons_append, List.cons_append] at htext
          rw [List.cons_append, List.cons_append, ← htext, hhere] at hnot
          cases hnot
    · rename_i hnot
      rw [ih]
      constructor
      · rintro ⟨before, name, rfl, hfirst⟩
        refine ⟨c :: before, name, rfl, hfirst.same, ?_⟩
        intro start d more hsplit
        cases start with
        | nil =>
          cases hsplit
          exact Bool.eq_false_iff.mpr hnot
        | cons e start =>
          cases hsplit
          exact hfirst.first start d more rfl
      · rintro ⟨before, name, htext, hfirst⟩
        cases before with
        | nil =>
          refine absurd ?_ hnot
          have hlength := Text.length_of_eqIgnoreAsciiCase hfirst.same
          rw [htext, List.nil_append, ← hlength, List.take_left]
          exact hfirst.same
        | cons d before =>
          cases htext
          exact ⟨before, name, rfl, hfirst.same,
            fun start e more hsplit => hfirst.first (_ :: start) e more (by rw [hsplit]; rfl)⟩

/-- The first code of a text holds a number and two sets, which name as many UIDs and not too many. -/
structure Copied (text : List Char) (uidvalidity : UInt32) (source dest : List UInt32) : Prop where
  told : ∃ before name inner after number first second more,
    text = before ++ name ++ (inner ++ ']' :: after) ∧
      FirstCode copyCode before name (inner ++ ']' :: after) ∧ ']' ∉ inner ∧
        Text.splitWhitespace inner = number :: first :: second :: more ∧
          parseUid number = some uidvalidity ∧ Names first source ∧ Names second dest
  same : source.length = dest.length
  most : source.length ≤ mostCopied

theorem copyuid_eq_some {text : List Char} {uidvalidity : UInt32} {pairs : List (UInt32 × UInt32)} :
    copyuid text = some (uidvalidity, pairs) ↔
      ∃ source dest, Copied text uidvalidity source dest ∧ pairs = source.zip dest := by
  constructor
  · intro h
    obtain ⟨rest, hrest, hcuts⟩ := Option.bind_eq_some_iff.mp h
    obtain ⟨⟨inner, after⟩, hcut, htold⟩ := Option.bind_eq_some_iff.mp hcuts
    obtain ⟨before, name, htext, hfirst⟩ := (afterCode_eq_some (by decide)).mp hrest
    obtain ⟨rfl, hinner⟩ := Text.of_splitOnce hcut
    split at htold
    · rename_i number first second more hwords
      obtain ⟨_, hnumber, h⟩ := Option.bind_eq_some_iff.mp htold
      obtain ⟨source, hsource, h⟩ := Option.bind_eq_some_iff.mp h
      obtain ⟨dest, hdest, h⟩ := Option.bind_eq_some_iff.mp h
      obtain ⟨hsame, h⟩ := Option.ite_none_right_eq_some.mp h
      cases h
      obtain ⟨hsource, hmost⟩ := uidList_eq_some.mp hsource
      exact ⟨source, dest, ⟨⟨before, name, inner, after, number, first, second, more, htext, hfirst,
        hinner, hwords, hnumber, hsource, (uidList_eq_some.mp hdest).1⟩, hsame, hmost⟩, rfl⟩
    · cases htold
  · rintro ⟨source, dest, ⟨⟨before, name, inner, after, number, first, second, more, htext, hfirst,
      hinner, hwords, hnumber, hsource, hdest⟩, hsame, hmost⟩, rfl⟩
    have hrest := (afterCode_eq_some (by decide)).mpr ⟨before, name, htext, hfirst⟩
    have hfrom := uidList_eq_some.mpr ⟨hsource, hmost⟩
    have hto := uidList_eq_some.mpr ⟨hdest, hsame ▸ hmost⟩
    simp only [copyuid, hrest, Text.splitOnce_stop hinner, hwords, hnumber, hfrom, hto,
      Option.bind_some, if_pos hsame]

theorem find?_zip {source dest : List UInt32} (hsame : source.length = dest.length) (uid : UInt32) :
    ((source.zip dest).find? fun pair => pair.1 = uid).map Prod.snd =
      (source.idxOf? uid).bind fun i => dest[i]? := by
  induction source generalizing dest with
  | nil => rfl
  | cons a source ih =>
    cases dest with
    | nil => cases hsame
    | cons b dest =>
      rw [List.zip_cons_cons, List.find?_cons, List.idxOf?_cons]
      by_cases ha : a = uid
      · simp [ha]
      · simp [ha, ih (Nat.succ.inj hsame), Option.bind_map]

theorem landedAt_copied {text : List Char} {uidvalidity : UInt32} {source dest : List UInt32}
    (h : Copied text uidvalidity source dest) (remotes : List RemoteRef) (target : String) :
    landedAt remotes target (copyuid text) = remotes.map fun remote =>
      ⟨remote, (uidOf remote).bind fun uid =>
        ((source.idxOf? uid).bind fun i => dest[i]?).map (.imap target uidvalidity)⟩ := by
  rw [copyuid_eq_some.mpr ⟨source, dest, h, rfl⟩, landedAt]
  refine List.map_congr_left fun remote _ => ?_
  simp only [← find?_zip h.same, Option.map_map, Function.comp_def]

/-! ## As a server writes it -/

inductive UidPart where
  | one (uid : UInt32)
  | range (a b : UInt32)

namespace UidPart

def text : UidPart → List Char
  | one uid => Nat.toDigits 10 uid.toNat
  | range a b => Nat.toDigits 10 a.toNat ++ ':' :: Nat.toDigits 10 b.toNat

def uids : UidPart → List UInt32
  | one uid => [uid]
  | range a b => uidRange a b

end UidPart

def uidText (parts : List UidPart) : List Char := [','].intercalate (parts.map UidPart.text)

def uidsIn (parts : List UidPart) : List UInt32 := parts.flatMap UidPart.uids

/-- The first code of a text holds a number and two sets, and nothing else. -/
def Tells (text : List Char) (uidvalidity : UInt32) (source dest : List UidPart) : Prop :=
  source ≠ [] ∧ dest ≠ [] ∧ ∃ before name after,
    let rest := Nat.toDigits 10 uidvalidity.toNat ++ Text.spaced [uidText source, uidText dest] ++
      ']' :: after
    text = before ++ name ++ rest ∧ FirstCode copyCode before name rest

theorem parseUid_toDigits (uid : UInt32) : parseUid (Nat.toDigits 10 uid.toNat) = some uid := by
  rw [parseUid, Text.parseUnsigned_toDigits uid.toNat_lt, Option.map_some, UInt32.ofNat_toNat]

theorem notMem_toDigits {c : Char} (hc : ¬(48 ≤ c.toNat ∧ c.toNat ≤ 57)) (n : Nat) :
    c ∉ Nat.toDigits 10 n := fun hmem => hc (Text.digit_range hmem)

theorem notMem_partText {c : Char} (hc : ¬(48 ≤ c.toNat ∧ c.toNat ≤ 57)) (hcolon : c ≠ ':')
    (part : UidPart) : c ∉ part.text := by
  cases part <;> simp [UidPart.text, notMem_toDigits hc, hcolon]

theorem notMem_uidText {c : Char} (hc : ¬(48 ≤ c.toNat ∧ c.toNat ≤ 57)) (hcolon : c ≠ ':')
    (hcomma : c ≠ ',') (parts : List UidPart) : c ∉ uidText parts := by
  induction parts with
  | nil => exact List.not_mem_nil
  | cons part parts ih =>
    cases parts with
    | nil => simpa [uidText] using notMem_partText hc hcolon part
    | cons next parts =>
      rw [uidText, List.map_cons, List.map_cons, List.intercalate_cons_cons, ← List.map_cons,
        ← uidText]
      simp [notMem_partText hc hcolon part, hcomma, ih]

theorem uidPart_text (part : UidPart) :
    ∃ range, uidPart part.text = some range ∧ uidRange range.1 range.2 = part.uids := by
  have hcolon : ∀ n, ':' ∉ Nat.toDigits 10 n := notMem_toDigits (by decide)
  cases part with
  | one uid =>
    refine ⟨(uid, uid), ?_, by simp [UidPart.uids, uidRange, uidSpan]⟩
    rw [UidPart.text, uidPart, Text.splitOnce_none (hcolon _), parseUid_toDigits, Option.map_some]
  | range a b =>
    refine ⟨(a, b), ?_, rfl⟩
    rw [UidPart.text, uidPart, Text.splitOnce_stop (hcolon _)]
    simp only [parseUid_toDigits, Option.bind_some, Option.map_some]

theorem names_uidText {parts : List UidPart} (hparts : parts ≠ []) :
    Names (uidText parts) (uidsIn parts) := by
  have hsplit : (uidText parts).splitOn ',' = parts.map UidPart.text := by
    refine List.splitOn_intercalate ',' (fun text htext => ?_) (by simpa using hparts)
    obtain ⟨part, _, rfl⟩ := List.mem_map.mp htext
    exact notMem_partText (by decide) (by decide) part
  rw [Names, hsplit]
  clear hsplit hparts
  induction parts with
  | nil => exact ⟨[], .nil, rfl⟩
  | cons part parts ih =>
    obtain ⟨ranges, hranges, huids⟩ := ih
    obtain ⟨range, hrange, hpart⟩ := uidPart_text part
    exact ⟨range :: ranges, .cons hrange hranges, by
      rw [uidsIn, List.flatMap_cons, List.flatMap_cons, ← hpart, ← uidsIn, huids]⟩

theorem copied_of_tells {text : List Char} {uidvalidity : UInt32} {source dest : List UidPart}
    (h : Tells text uidvalidity source dest)
    (hsame : (uidsIn source).length = (uidsIn dest).length)
    (hmost : (uidsIn source).length ≤ mostCopied) :
    Copied text uidvalidity (uidsIn source) (uidsIn dest) := by
  obtain ⟨hsource, hdest, before, name, after, htext, hfirst⟩ := h
  have hsolid : ∀ parts : List UidPart, parts ≠ [] → Text.Solid (uidText parts) := by
    intro parts hparts
    refine ⟨fun hnil => ?_, fun c hc => ?_⟩
    · obtain ⟨ranges, hranges, -⟩ := names_uidText hparts
      rw [hnil] at hranges
      cases hranges with
      | cons hpart _ => cases hpart
    · by_contra hspace
      refine notMem_uidText (c := c) ?_ ?_ ?_ parts hc
      all_goals
        intro hrange
        revert hspace
      · simp [Text.isWhitespace]
        omega
      · subst hrange
        decide
      · subst hrange
        decide
  refine ⟨⟨before, name, _, after, _, _, _, [], htext, hfirst, ?_, Text.splitWhitespace_cons
    (Text.solid_toDigits _) ?_, parseUid_toDigits _, names_uidText hsource, names_uidText hdest⟩,
    hsame, hmost⟩
  · simp [Text.spaced, notMem_toDigits, notMem_uidText]
  · simpa using ⟨hsolid source hsource, hsolid dest hdest⟩

/-- Each message is given the UID at its own UID's place, where the first code of a text tells of as
many copies as sources and not too many; where none does, no message is given an address. -/
theorem landed_where_told (text : List Char) (remotes : List RemoteRef) (target : String) :
    (∀ uidvalidity source dest, Tells text uidvalidity source dest →
      (uidsIn source).length = (uidsIn dest).length → (uidsIn source).length ≤ mostCopied →
        Copied text uidvalidity (uidsIn source) (uidsIn dest)) ∧
    (∀ uidvalidity source dest, Copied text uidvalidity source dest →
      landedAt remotes target (copyuid text) = remotes.map fun remote =>
        ⟨remote, (uidOf remote).bind fun uid =>
          ((source.idxOf? uid).bind fun i => dest[i]?).map (.imap target uidvalidity)⟩) ∧
    ((∀ uidvalidity source dest, ¬ Copied text uidvalidity source dest) →
      landedAt remotes target (copyuid text) = remotes.map fun remote => ⟨remote, none⟩) := by
  refine ⟨fun _ _ _ => copied_of_tells, fun _ _ _ h => landedAt_copied h remotes target, ?_⟩
  intro hnone
  have hcopied : copyuid text = none := by
    cases hread : copyuid text with
    | none => rfl
    | some read =>
      obtain ⟨source, dest, h, -⟩ := copyuid_eq_some.mp hread
      exact absurd h (hnone _ source dest)
  rw [hcopied, landedAt]
  exact List.map_congr_left fun remote _ => by simp

/-- A number may have a plus sign, which no server writes. -/
theorem plus_copied : ¬ ∀ text remotes target,
    (∀ uidvalidity source dest, ¬ (Tells text uidvalidity source dest ∧
      (uidsIn source).length = (uidsIn dest).length ∧ (uidsIn source).length ≤ mostCopied)) →
    ∀ moved ∈ landedAt remotes target (copyuid text), moved.dest = none := by
  intro h
  have hdest := h "[COPYUID 1 +4 5]".toList [.imap "INBOX" 1 4] "Archive" ?_
    ⟨.imap "INBOX" 1 4, some (.imap "Archive" 1 5)⟩ (by decide +kernel)
  · cases hdest
  · rintro uidvalidity source dest ⟨⟨-, -, before, name, after, htext, hfirst⟩, -⟩
    have hrest := (afterCode_eq_some (by decide)).mpr ⟨before, name, htext, hfirst⟩
    have hinner : ']' ∉ Nat.toDigits 10 uidvalidity.toNat ++
        Text.spaced [uidText source, uidText dest] := by
      simp [Text.spaced, notMem_toDigits, notMem_uidText]
    have hcut := congrArg (fun rest => rest.bind (Text.splitOnce ']')) hrest
    simp only [Option.bind_some, Text.splitOnce_stop hinner] at hcut
    have hread : ((afterCode copyCode "[COPYUID 1 +4 5]".toList).bind (Text.splitOnce ']')).map
        Prod.fst = some "1 +4 5".toList := by decide
    rw [hcut, Option.map_some, Option.some.injEq] at hread
    dsimp only at hread
    have hplus : '+' ∈ Nat.toDigits 10 uidvalidity.toNat ++
        Text.spaced [uidText source, uidText dest] := by
      rw [hread]
      decide
    revert hplus
    simp [Text.spaced, notMem_toDigits, notMem_uidText]

end Mailo.Proto.Imap
