import Mailo.Proto.Imap.Backend

/-!
# What is printed in a command

A mailbox name and a set of UIDs are printed in characters that cannot end a line, and a set is
read back as the UIDs it was printed from.
-/

namespace Mailo.Proto

namespace Imap

open Domain Library Proto.Search

variable {c : Char} {n : Nat} {uids : List UInt32}

theorem isLineBreak_of_printable (h : isPrintable c = true) : isLineBreak c = false := by
  have hlow : (' ' : Char) ≤ c := by
    simp only [isPrintable, Bool.and_eq_true, decide_eq_true_eq] at h
    exact h.1
  have hval : 32 ≤ c.toNat := hlow
  cases hbreak : isLineBreak c with
  | false => rfl
  | true =>
    simp only [isLineBreak, Bool.or_eq_true, beq_iff_eq] at hbreak
    rcases hbreak with (rfl | rfl) | hzero
    · exact absurd hval (by decide)
    · exact absurd hval (by decide)
    · omega

def Printable (text : List Char) : Prop := ∀ c ∈ text, isPrintable c = true

instance (text : List Char) : Decidable (Printable text) :=
  inferInstanceAs (Decidable (∀ c ∈ text, isPrintable c = true))

theorem Printable.append {a b : List Char} (ha : Printable a) (hb : Printable b) :
    Printable (a ++ b) := by
  intro c hc
  rcases List.mem_append.mp hc with h | h
  · exact ha c h
  · exact hb c h

theorem Printable.cons {c : Char} {text : List Char} (hc : isPrintable c = true)
    (h : Printable text) : Printable (c :: text) := by
  intro d hd
  rcases List.mem_cons.mp hd with rfl | hd
  · exact hc
  · exact h d hd

theorem Printable.unbroken {text : List Char} (h : Printable text) :
    text.any isLineBreak = false := by
  rw [List.any_eq_false]
  intro c hc
  rw [isLineBreak_of_printable (h c hc)]
  simp

theorem quoted_printable {value : List Char} (h : Printable value) : Printable (quoted value) := by
  unfold quoted
  apply Printable.append _ (by decide)
  apply Printable.cons (by decide)
  intro c hc
  rcases List.mem_flatMap.mp hc with ⟨d, hd, hc⟩
  split at hc
  · rcases List.mem_cons.mp hc with rfl | hc
    · decide
    · rw [List.mem_singleton.mp hc]
      exact h d hd
  · rw [List.mem_singleton.mp hc]
    exact h d hd

theorem wireName_printable (mailbox : String) : Printable (wireName mailbox) :=
  quoted_printable (Mutf7.encode_printable _)

/-! ## Sets of UIDs -/

theorem digits_eq (uid : UInt32) : (toString uid.toNat).toList = Nat.toDigits 10 uid.toNat := by
  rw [Nat.toString_eq_ofList_toDigits, String.toList_ofList]

theorem setText_toList (uids : List UInt32) :
    (setText uids).toList = [','].intercalate (uids.map fun uid => Nat.toDigits 10 uid.toNat) := by
  unfold setText
  rw [String.toList_intercalate, List.map_map]
  congr 1
  apply List.map_congr_left
  intro uid _
  exact digits_eq uid

theorem digit_of_mem (h : c ∈ Nat.toDigits 10 n) : c.isDigit = true :=
  Nat.isDigit_of_mem_toDigits (by decide) (by decide) h

theorem isAsciiDigit_eq (c : Char) : Text.isAsciiDigit c = c.isDigit := by
  simp only [Text.isAsciiDigit, Char.isDigit, Char.le_def]

theorem printable_of_digit (h : c.isDigit = true) : isPrintable c = true := by
  have hval : 48 ≤ c.toNat ∧ c.toNat ≤ 57 := by simpa [Char.isDigit, UInt32.le_iff_toNat_le] using h
  have hlow : (' ' : Char).toNat ≤ c.toNat := le_trans (by decide) hval.1
  have hhigh : c.toNat ≤ ('~' : Char).toNat := le_trans hval.2 (by decide)
  simp only [isPrintable, Bool.and_eq_true, decide_eq_true_eq]
  exact ⟨hlow, hhigh⟩

theorem mem_intercalate {sep : List Char} {parts : List (List Char)} (h : c ∈ sep.intercalate parts)
    : c ∈ sep ∨ ∃ part ∈ parts, c ∈ part := by
  induction parts with
  | nil => simp at h
  | cons part parts ih =>
    cases parts with
    | nil => exact .inr ⟨part, .head _, by simpa using h⟩
    | cons next rest =>
      rw [List.intercalate_cons_cons, List.append_assoc] at h
      rcases List.mem_append.mp h with hfirst | hmore
      · exact .inr ⟨part, .head _, hfirst⟩
      · rcases List.mem_append.mp hmore with hsep | hrest
        · exact .inl hsep
        · rcases ih hrest with hsep | ⟨found, hfound, hc⟩
          · exact .inl hsep
          · exact .inr ⟨found, .tail _ hfound, hc⟩

theorem comma_not_digit : ',' ∉ Nat.toDigits 10 n := by
  intro h
  exact absurd (digit_of_mem h) (by decide)

theorem toDigits_injective {m : Nat} (h : Nat.toDigits 10 m = Nat.toDigits 10 n) : m = n := by
  rw [← Nat.ofDigitChars_ten_toDigits (n := m), h, Nat.ofDigitChars_ten_toDigits]

theorem splitOn_setText (h : uids ≠ []) :
    (setText uids).toList.splitOn ',' = uids.map fun uid => Nat.toDigits 10 uid.toNat := by
  rw [setText_toList, List.splitOn_intercalate]
  · intro digits hdigits
    rcases List.mem_map.mp hdigits with ⟨uid, _, rfl⟩
    exact comma_not_digit
  · simpa using h

theorem setText_empty (h : (setText uids).toList = []) : uids = [] := by
  by_contra hne
  have hsplit := splitOn_setText hne
  rw [h] at hsplit
  cases uids with
  | nil => exact hne rfl
  | cons uid uids =>
    have hdigits : Nat.toDigits 10 uid.toNat = [] := by
      have hhead := congrArg List.head? hsplit
      simpa using hhead.symm
    exact Nat.toDigits_ne_nil hdigits

/-- A set names the UIDs it was printed from, in their order. -/
theorem setText_injective {a b : List UInt32} (h : setText a = setText b) : a = b := by
  by_cases ha : a = []
  · have hb : (setText b).toList = [] := by
      rw [← h, ha]
      rfl
    rw [ha, setText_empty hb]
  · by_cases hb : b = []
    · have hempty : (setText a).toList = [] := by
        rw [h, hb]
        rfl
      exact absurd (setText_empty hempty) ha
    · have hsame := congrArg (fun text => text.toList.splitOn ',') h
      simp only [splitOn_setText ha, splitOn_setText hb] at hsame
      refine List.map_injective_iff.mpr ?_ hsame
      intro m n hmn
      exact UInt32.toNat_inj.mp (toDigits_injective hmn)

theorem setText_mem (h : c ∈ (setText uids).toList) :
    c.isDigit = true ∨ c = ',' := by
  rw [setText_toList] at h
  rcases mem_intercalate h with hcomma | ⟨digits, hdigits, hc⟩
  · exact .inr (List.mem_singleton.mp hcomma)
  · rcases List.mem_map.mp hdigits with ⟨uid, _, rfl⟩
    exact .inl (digit_of_mem hc)

theorem isSet_setText (h : uids ≠ []) : isSet (setText uids) = true := by
  unfold isSet
  rw [Bool.and_eq_true]
  constructor
  · rw [Bool.not_eq_true', List.isEmpty_eq_false_iff]
    exact fun hempty => h (setText_empty hempty)
  · rw [List.all_eq_true]
    intro c hc
    rcases setText_mem hc with hdigit | rfl
    · rw [isAsciiDigit_eq, hdigit]
      rfl
    · rfl

theorem setText_printable (uids : List UInt32) : Printable (setText uids).toList := by
  intro c hc
  rcases setText_mem hc with hdigit | rfl
  · exact printable_of_digit hdigit
  · decide

section Rendering

variable [TextTables] [ImapDates]

theorem render_ok {auth : Smtp.SignIn} {capabilities : List (List Char)} {command : ImapCommand}
    {tag : String} {body : List Char} (hbody : renderBody auth capabilities command = .ok body)
    (h : body.any isLineBreak = false) : render auth capabilities command tag =
      .ok (Utf8.encode (tag.toList ++ ' ' :: body ++ ['\r', '\n'])) := by
  unfold render
  rw [hbody]
  dsimp only
  rw [h]
  simp

/-- Selecting a mailbox is never refused for its name. -/
theorem render_select (auth : Smtp.SignIn) (capabilities : List (List Char)) (mailbox : String)
    (access : Access) (tag : String) :
    ∃ line, render auth capabilities (.select mailbox access none) tag = .ok line := by
  refine ⟨_, render_ok rfl (Printable.unbroken ?_)⟩
  rw [List.append_nil]
  apply Printable.append _ (wireName_printable mailbox)
  cases access with
  | readWrite | readOnly => decide

/-- A command over UIDs is refused only for what would end its line early. -/
theorem render_over (auth : Smtp.SignIn) (capabilities : List (List Char)) {command : ImapCommand}
    {verb : String} {rest : List Char} (huids : uids ≠ [])
    (hbody : renderBody auth capabilities command =
      checkSet (setText uids) ((verb ++ setText uids).toList ++ rest))
    (hverb : Printable verb.toList) (hrest : rest.any isLineBreak = false) (tag : String) :
    ∃ line, render auth capabilities command tag = .ok line := by
  unfold checkSet at hbody
  rw [if_pos (isSet_setText huids)] at hbody
  refine ⟨_, render_ok hbody ?_⟩
  rw [String.toList_append, List.any_append, hrest, Bool.or_false]
  exact (hverb.append (setText_printable uids)).unbroken

theorem render_store (auth : Smtp.SignIn) (capabilities : List (List Char)) (huids : uids ≠ [])
    {what : String} (hwhat : what.toList.any isLineBreak = false) (tolerate : Bool) (tag : String) :
    ∃ line, render auth capabilities (.uidStore (setText uids) what tolerate) tag = .ok line := by
  have hrest : (' ' :: what.toList).any isLineBreak = false := by
    rw [List.any_cons, hwhat]
    rfl
  have hverb : Printable "UID STORE ".toList := by decide
  apply render_over auth capabilities huids ?_ hverb hrest
  simp only [renderBody, String.toList_append, List.append_assoc]
  rfl

end Rendering

end Imap

end Mailo.Proto
