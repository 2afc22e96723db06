import Mailo.Library.Crlf
import Mailo.Library.Sieve.Notes
import Mailo.Proto.Sieve.Reading

/-!
# What stands in a compiled script

Every piece of a script is characters that begin neither a string nor a comment, whole strings and
whole comments. Every break in it is a CRLF and there is no NUL, whatever texts it was given.
-/

namespace Mailo.Proto.Sieve

open Domain Library

open Library.Sieve (Noted Within)

/-- Text that holds these comments, and no break that is no CRLF, and no NUL. -/
structure Neat (text : List Char) (found : List (List Char)) : Prop where
  noted : Noted text found
  paired : Crlf.Paired '\r' '\n' text
  nulless : ∀ c ∈ text, c.toNat ≠ 0

theorem Neat.append {a b : List Char} {s t : List (List Char)} (first : Neat a s)
    (second : Neat b t) : Neat (a ++ b) (s ++ t) := by
  refine ⟨first.noted.append second.noted, first.paired.append second.paired, ?_⟩
  intro c hc
  rcases List.mem_append.mp hc with hc | hc
  · exact first.nulless c hc
  · exact second.nulless c hc

theorem neat_nil : Neat [] [] := ⟨.nil, Crlf.paired_nil, fun _ h => absurd h List.not_mem_nil⟩

/-- A character that begins nothing and breaks no line. -/
def isBare (c : Char) : Bool :=
  c ≠ '#' && c ≠ '"' && c ≠ '\r' && c ≠ '\n' && c.toNat ≠ 0

/-- Bare characters and whole breaks. -/
def isNeat : List Char → Bool
  | [] => true
  | '\r' :: '\n' :: rest => isNeat rest
  | c :: rest => isBare c && isNeat rest

variable {found parts : List (List Char)} {text : List Char}

theorem neat_bare {c : Char} (h : isBare c = true) (rest : Neat text found) :
    Neat (c :: text) found := by
  simp only [isBare, Bool.and_eq_true, decide_eq_true_eq] at h
  obtain ⟨⟨⟨⟨hhash, hquote⟩, hcr⟩, hlf⟩, hnul⟩ := h
  exact ⟨.char ⟨hhash, hquote⟩ rest.noted, rest.paired.cons ⟨hcr, hlf⟩,
    List.forall_mem_cons.mpr ⟨hnul, rest.nulless⟩⟩

theorem neat_break (rest : Neat text found) :
    Neat ('\r' :: '\n' :: text) found :=
  ⟨.char (by decide) (.char (by decide) rest.noted), rest.paired.crlf (by decide),
    List.forall_mem_cons.mpr ⟨by decide, List.forall_mem_cons.mpr ⟨by decide, rest.nulless⟩⟩⟩

theorem neat_of (h : isNeat text = true) : Neat text [] := by
  fun_induction isNeat text with
  | case1 => exact neat_nil
  | case2 rest ih => exact neat_break (ih h)
  | case3 c rest alone ih =>
    rw [Bool.and_eq_true] at h
    exact neat_bare h.1 (ih h.2)

/-! ## Strings and comments -/

theorem escape_within (text : List Char) : Within (escape text) := by
  fun_induction escape text with
  | case1 => exact .nil
  | case2 rest ih => exact .char (by decide) (by decide) (.char (by decide) (by decide) ih)
  | case3 rest alone ih => exact .escaped ih
  | case4 rest alone slash ih => exact .escaped ih
  | case5 c rest alone slash quote nul ih => exact ih
  | case6 c rest alone slash quote nul breaks ih =>
    exact .char (by decide) (by decide) (.char (by decide) (by decide) ih)
  | case7 c rest alone slash quote nul breaks ih => exact .char quote slash ih

theorem escape_paired (text : List Char) : Crlf.Paired '\r' '\n' (escape text) := by
  fun_induction escape text with
  | case1 => exact Crlf.paired_nil
  | case2 rest ih => exact ih.crlf (by decide)
  | case3 rest alone ih => exact (ih.cons (by decide)).cons (by decide)
  | case4 rest alone slash ih => exact (ih.cons (by decide)).cons (by decide)
  | case5 c rest alone slash quote nul ih => exact ih
  | case6 c rest alone slash quote nul breaks ih => exact ih.crlf (by decide)
  | case7 c rest alone slash quote nul breaks ih => exact ih.cons (not_or.mp breaks)

theorem escape_nulless (text : List Char) : ∀ c ∈ escape text, c.toNat ≠ 0 := by
  fun_induction escape text with
  | case1 => exact fun _ h => absurd h List.not_mem_nil
  | case2 rest ih => exact List.forall_mem_cons.mpr ⟨by decide, List.forall_mem_cons.mpr ⟨by decide, ih⟩⟩
  | case3 rest alone ih =>
    exact List.forall_mem_cons.mpr ⟨by decide, List.forall_mem_cons.mpr ⟨by decide, ih⟩⟩
  | case4 rest alone slash ih =>
    exact List.forall_mem_cons.mpr ⟨by decide, List.forall_mem_cons.mpr ⟨by decide, ih⟩⟩
  | case5 c rest alone slash quote nul ih => exact ih
  | case6 c rest alone slash quote nul breaks ih =>
    exact List.forall_mem_cons.mpr ⟨by decide, List.forall_mem_cons.mpr ⟨by decide, ih⟩⟩
  | case7 c rest alone slash quote nul breaks ih => exact List.forall_mem_cons.mpr ⟨nul, ih⟩

/-- A string is whole whatever text it is. -/
theorem neat_quoted (text : String) : Neat (quoted text) [] := by
  have hquote : Crlf.Paired '\r' '\n' ['"'] := Crlf.paired_nil.cons (by decide)
  refine ⟨.quoted (escape_within _) .nil, ?_, ?_⟩
  · exact ((escape_paired text.toList).append hquote).cons (by decide)
  · refine List.forall_mem_cons.mpr ⟨by decide, ?_⟩
    intro c hc
    rcases List.mem_append.mp hc with hc | hc
    · exact escape_nulless _ c hc
    · rw [List.mem_singleton.mp hc]
      decide

theorem neat_note {name : List Char} (breakless : ∀ c ∈ name, c ≠ '\r' ∧ c ≠ '\n')
    (nulless : ∀ c ∈ name, c.toNat ≠ 0) : Neat ('#' :: (name ++ "\r\n".toList)) [name] := by
  refine ⟨.note breakless .nil, ?_, ?_⟩
  · exact ((Crlf.paired_plain breakless).append (Crlf.paired_nil.crlf (by decide))).cons (by decide)
  · refine List.forall_mem_cons.mpr ⟨by decide, ?_⟩
    intro c hc
    rcases List.mem_append.mp hc with hc | hc
    · exact nulless c hc
    · exact (by decide : ∀ c ∈ "\r\n".toList, c.toNat ≠ 0) c hc

theorem comment_nulless (name : String) : ∀ c ∈ ' ' :: comment name, c.toNat ≠ 0 := by
  refine List.forall_mem_cons.mpr ⟨by decide, ?_⟩
  intro c hc
  obtain ⟨d, _, rfl⟩ := List.mem_map.mp hc
  split
  · decide
  · rename_i hcontrol
    intro hnul
    exact hcontrol (by simp [Text.isControl, hnul])

theorem neat_number (value : Nat) : Neat (toString value).toList [] := by
  have hdigits : ∀ d ∈ (toString value).toList, d.isDigit = true := by
    intro d hd
    rw [Nat.toString_eq_ofList_toDigits, String.toList_ofList] at hd
    exact Nat.isDigit_of_mem_toDigits (by decide) (by decide) hd
  have hbare : ∀ d : Char, d.isDigit = true → isBare d = true := by
    intro d hd
    have hval : 48 ≤ d.val ∧ d.val ≤ 57 := by simpa [Char.isDigit] using hd
    have hne : ∀ e : Char, ¬ (48 ≤ e.val ∧ e.val ≤ 57) → d ≠ e := by
      rintro e he rfl
      exact he hval
    have hnul : d.toNat ≠ 0 := by
      intro hzero
      have hle : 48 ≤ d.toNat := UInt32.le_iff_toNat_le.mp hval.1
      omega
    simp [isBare, hne '#' (by decide), hne '"' (by decide), hne '\r' (by decide),
      hne '\n' (by decide), hnul]
  generalize (toString value).toList = digits at hdigits
  induction digits with
  | nil => exact neat_nil
  | cons d digits ih =>
    obtain ⟨hd, hrest⟩ := List.forall_mem_cons.mp hdigits
    exact neat_bare (hbare d hd) (ih hrest)

theorem neat_joined {separator : String} (hseparator : Neat separator.toList [])
    (h : ∀ part ∈ parts, Neat part []) :
    Neat (joinedWith separator parts) [] := by
  induction parts with
  | nil => exact neat_nil
  | cons part rest ih =>
    obtain ⟨hpart, hrest⟩ := List.forall_mem_cons.mp h
    cases rest with
    | nil =>
      unfold joinedWith
      rw [List.intercalate_singleton]
      exact hpart
    | cons next rest =>
      rw [joinedWith_cons]
      exact hpart.append (hseparator.append (ih hrest))

theorem neat_bracketed (h : ∀ part ∈ parts, Neat part []) :
    Neat (bracketed parts) [] :=
  ((neat_of rfl).append (neat_joined (neat_of rfl) h)).append (neat_of rfl)

theorem neat_strings (texts : List String) : ∀ part ∈ texts.map quoted, Neat part [] := by
  intro part hpart
  obtain ⟨text, _, rfl⟩ := List.mem_map.mp hpart
  exact neat_quoted text

/-! ## Tests -/

theorem neat_headers (headers : List String) : Neat (headerList headers) [] := by
  unfold headerList
  split
  · exact neat_quoted _
  · exact neat_bracketed (neat_strings headers)

theorem neat_address {headers : List String} {text : TextMatch} {clause : String}
    {out : List Char} (h : addressTest headers text clause = .ok out) : Neat out [] := by
  have hcontains : Neat "header :contains ".toList [] := neat_of rfl
  have his : Neat "address :all :is ".toList [] := neat_of rfl
  have hspace : Neat " ".toList [] := neat_of rfl
  unfold addressTest at h
  split at h
  · split at h
    · cases h
    · cases h
      exact ((hcontains.append (neat_headers headers)).append hspace).append (neat_quoted _)
  · split at h
    · cases h
      exact ((his.append (neat_headers headers)).append hspace).append (neat_quoted _)
    · cases h

theorem neat_joinedTests {name empty : String} (hname : Neat name.toList [])
    (hempty : Neat empty.toList []) {tests : List (List Char)}
    (h : ∀ test ∈ tests, Neat test []) : Neat (joined name empty tests) [] := by
  unfold joined
  split
  · exact hempty
  · exact h _ (.head _)
  · have hopen : Neat " (".toList [] := neat_of rfl
    have hclose : Neat ")".toList [] := neat_of rfl
    exact ((hname.append hopen).append (neat_joined (neat_of rfl) h)).append hclose

theorem neat_subject (kind text : String) (hkind : Neat kind.toList []) :
    Neat (kind.toList ++ quoted "subject" ++ " ".toList ++ quoted text) [] :=
  ((hkind.append (neat_quoted _)).append (neat_of rfl)).append (neat_quoted text)

mutual

theorem test_neat : ∀ (filter : Filter) (account : AccountId) {out : List Char},
    test filter account = .ok out → Neat out []
  | .all, account, out, h => by
    cases h
    exact neat_of rfl
  | .nothing, account, out, h => by
    cases h
    exact neat_of rfl
  | .and parts, account, out, h => by
    obtain ⟨texts, htexts, rfl⟩ := map_eq_ok h
    exact neat_joinedTests (neat_of rfl) (neat_of rfl) (tests_neat parts account htexts)
  | .or parts, account, out, h => by
    obtain ⟨texts, htexts, rfl⟩ := map_eq_ok h
    exact neat_joinedTests (neat_of rfl) (neat_of rfl) (tests_neat parts account htexts)
  | .not inner, account, out, h => by
    obtain ⟨text, htext, rfl⟩ := map_eq_ok h
    have hlead : Neat "not ".toList [] := neat_of rfl
    exact hlead.append (test_neat inner account htext)
  | .account id, account, out, h => by
    cases h
    split
    · exact neat_of rfl
    · exact neat_of rfl
  | .sender text, account, out, h => neat_address h
  | .fromAddress email, account, out, h => neat_address h
  | .to text, account, out, h => neat_address h
  | .cc text, account, out, h => neat_address h
  | .subject (.contains s), account, out, h => by
    cases h
    exact neat_subject "header :contains " s (neat_of rfl)
  | .subject (.exact s), account, out, h => by
    cases h
    exact neat_subject "header :is " s (neat_of rfl)
  | .larger bytes, account, out, h => by
    cases h
    have hlead : Neat "size :over ".toList [] := neat_of rfl
    exact hlead.append (neat_number bytes)
  | .smaller bytes, account, out, h => by
    cases h
    have hlead : Neat "size :under ".toList [] := neat_of rfl
    exact hlead.append (neat_number bytes)
  | .vip, _, _, h | .text _, _, _, h | .inMailbox _, _, _, h | .inFolder _, _, _, h
  | .read _, _, _, h | .starred _, _, _, h | .hasLabel _, _, _, h | .date _, _, _, h
  | .newerThan _, _, _, h | .olderThan _, _, _, h | .hasAttachment, _, _, h | .snoozed, _, _, h
  | .snoozeDue, _, _, h | .pinned, _, _, h | .category _, _, _, h => by cases h

theorem tests_neat : ∀ (parts : List Filter) (account : AccountId) {out : List (List Char)},
    tests parts account = .ok out → ∀ part ∈ out, Neat part []
  | [], account, out, h => by
    cases h
    exact fun _ hpart => absurd hpart List.not_mem_nil
  | part :: rest, account, out, h => by
    rw [tests] at h
    cases hpart : test part account with
    | error why =>
      rw [hpart] at h
      cases h
    | ok text =>
      rw [hpart] at h
      obtain ⟨texts, htexts, rfl⟩ := map_eq_ok h
      exact List.forall_mem_cons.mpr
        ⟨test_neat part account hpart, tests_neat rest account htexts⟩

end

theorem neat_flag {flag : String × String} (h : flag.1 = "addflag" ∨ flag.1 = "removeflag") :
    Neat (flagText flag) [] := by
  have hindent : Neat "    ".toList [] := neat_of rfl
  have hspace : Neat " ".toList [] := neat_of rfl
  have hend : Neat ";\r\n".toList [] := neat_of rfl
  have hname : Neat flag.1.toList [] := by
    rcases h with h | h
    · rw [h]
      exact neat_of rfl
    · rw [h]
      exact neat_of rfl
  exact (((hindent.append hname).append hspace).append (neat_quoted flag.2)).append hend

theorem neat_flags {flags : List (String × String)}
    (h : ∀ flag ∈ flags, flag.1 = "addflag" ∨ flag.1 = "removeflag") :
    Neat (flags.flatMap flagText) [] := by
  induction flags with
  | nil => exact neat_nil
  | cons flag flags ih =>
    obtain ⟨hflag, hflags⟩ := List.forall_mem_cons.mp h
    rw [List.flatMap_cons]
    exact (neat_flag hflag).append (ih hflags)

/-- A rule's block holds one comment, with its name. -/
theorem neat_block {rule : Rule} {places : Places} {extensions : List String} {needs : List String}
    (h : block rule places extensions = .ok (text, needs)) :
    Neat text [' ' :: comment rule.name] := by
  unfold block at h
  split at h
  · cases h
  · rename_i condition hcondition
    split at h
    · cases h
    · rename_i doing hdoing
      have hflags : FlagCommands doing := foldlM_flags hdoing fun flag hflag => by cases hflag
      have htext : text = blockText rule.name condition doing rule.after := by
        split at h
        · cases h
        · split at h
          · cases h
          · cases h
            rfl
      have hbreak : Neat "\r\n".toList [] := neat_of rfl
      have hname := neat_note (comment_breakless rule.name) (comment_nulless rule.name)
      have hif : Neat "if ".toList [] := neat_of rfl
      have hopen : Neat " \x7b\r\n".toList [] := neat_of rfl
      have hlead : Neat "    fileinto ".toList [] := neat_of rfl
      have hstop : Neat (if rule.after = .stop then "    stop;\r\n".toList else []) [] := by
        split
        · exact neat_of rfl
        · exact neat_nil
      have hclose : Neat "\x7d\r\n".toList [] := neat_of rfl
      have hall (file : List Char) (hfile : Neat file []) := ((((((hbreak.append hname).append
        hif).append (test_neat rule.filter rule.account hcondition)).append hopen).append
        (neat_flags hflags)).append hfile).append (hstop.append hclose)
      rw [htext]
      unfold blockText
      simp only [List.append_assoc, List.append_nil, List.cons_append, List.nil_append] at hall ⊢
      cases doing.destination with
      | none => exact hall [] neat_nil
      | some path =>
        have hend : Neat ";\r\n".toList [] := neat_of rfl
        have hfile := (hlead.append (neat_quoted path)).append hend
        exact hall _ hfile

end Mailo.Proto.Sieve
