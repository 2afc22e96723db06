import Mailo.Library.Sieve.Grammar

/-!
# The comments of a script

A comment begins at a hash that stands in no string and goes on to the end of its line. Text put
together of strings, comments and characters that begin neither holds those comments, and no others.
-/

namespace Mailo.Library.Sieve

def Reading.isComment : Reading → Bool
  | .comment _ => true
  | _ => false

def notesFrom (held : List Char) : Reading → List Char → List (List Char)
  | _, [] => []
  | reading, c :: rest =>
    match step reading c with
    | none => []
    | some (next, _) =>
      if reading.isComment then
        if next.isComment then notesFrom (held ++ [c]) next rest
        -- The CR that ends the line was held with the rest of it.
        else held.dropLast :: notesFrom [] next rest
      else notesFrom [] next rest

def notes (text : List Char) : List (List Char) := notesFrom [] .idle text

/-- What stands between the quotes of a string. -/
inductive Within : List Char → Prop
  | nil : Within []
  | char {c : Char} {text : List Char} (quote : c ≠ '"') (slash : c ≠ '\\') (rest : Within text) :
      Within (c :: text)
  | escaped {c : Char} {text : List Char} (rest : Within text) : Within ('\\' :: c :: text)

/-- Text with these comments. -/
inductive Noted : List Char → List (List Char) → Prop
  | nil : Noted [] []
  | char {c : Char} {text : List Char} {notes : List (List Char)} (plain : c ≠ '#' ∧ c ≠ '"')
      (rest : Noted text notes) : Noted (c :: text) notes
  | quoted {body text : List Char} {notes : List (List Char)} (within : Within body)
      (rest : Noted text notes) : Noted ('"' :: (body ++ '"' :: text)) notes
  | note {name text : List Char} {notes : List (List Char)}
      (breakless : ∀ c ∈ name, c ≠ '\r' ∧ c ≠ '\n') (rest : Noted text notes) :
      Noted ('#' :: (name ++ '\r' :: '\n' :: text)) (name :: notes)

theorem Noted.append {a b : List Char} {s t : List (List Char)} (first : Noted a s)
    (second : Noted b t) : Noted (a ++ b) (s ++ t) := by
  induction first with
  | nil => exact second
  | char plain _ ih => exact .char plain ih
  | quoted within _ ih =>
    rw [List.cons_append, List.append_assoc, List.cons_append]
    exact .quoted within ih
  | note breakless _ ih =>
    rw [List.cons_append, List.append_assoc, List.cons_append, List.cons_append]
    exact .note breakless ih

/-! ## Reading them -/

/-- Neither a comment nor a string is being read. -/
def Reading.isOpen : Reading → Bool
  | .idle | .word _ | .tag _ | .number _ => true
  | _ => false

/-- Reading on from one place comes to another, with no comment between. -/
def Passes (reading : Reading) (text : List Char) (next : Reading) (rest : List Char)
    (out : List Token) : Prop :=
  (∃ after, lexFrom out reading text = lexFrom after next rest) ∧
    notesFrom [] reading text = notesFrom [] next rest

variable {c : Char} {next reading : Reading} {tokens : List Token}

theorem begin_open (hash : c ≠ '#') (quote : c ≠ '"') (h : begin c = some (next, tokens)) :
    next.isOpen = true := by
  unfold begin at h
  rw [if_neg hash, if_neg quote] at h
  split at h
  · cases h
    rfl
  · split at h
    · cases h
      rfl
    · split at h
      · cases h
        rfl
      · split at h
        · cases h
          rfl
        · split at h
          · cases h
            rfl
          · cases h

theorem ending_next {token : Token} (h : ending token c = some (next, tokens)) :
    ∃ after, begin c = some (next, after) := by
  obtain ⟨⟨reading, after⟩, hbegin, heq⟩ := Option.map_eq_some_iff.mp h
  cases heq
  exact ⟨after, hbegin⟩

theorem step_open (hopen : reading.isOpen = true) (h : step reading c = some (next, tokens)) :
    (isWordRest c = true ∨ c.isDigit = true) ∧ next.isOpen = true ∨
      ∃ after, begin c = some (next, after) := by
  cases reading with
  | idle => exact .inr ⟨tokens, h⟩
  | word name =>
    simp only [step] at h
    split at h
    · rename_i hrest
      cases h
      exact .inl ⟨.inl hrest, rfl⟩
    · exact .inr (ending_next h)
  | tag name =>
    simp only [step] at h
    split at h
    · rename_i hrest
      cases h
      exact .inl ⟨.inl hrest, rfl⟩
    · split at h
      · cases h
      · exact .inr (ending_next h)
  | number digits =>
    simp only [step] at h
    split at h
    · rename_i hdigit
      cases h
      exact .inl ⟨.inr hdigit, rfl⟩
    · exact .inr (ending_next h)
  | comment | quoted | escaped => cases hopen

theorem isOpen_comment (h : reading.isOpen = true) :
    reading.isComment = false := by
  cases reading with
  | comment => cases h
  | _ => rfl

theorem passes_step {reading next : Reading} {c : Char} {rest : List Char} {out tokens : List Token}
    (hcomment : reading.isComment = false) (h : step reading c = some (next, tokens)) :
    Passes reading (c :: rest) next rest out := by
  constructor
  · exact ⟨tokens.reverse ++ out, by rw [lexFrom, h]⟩
  · rw [notesFrom, h]
    dsimp only
    rw [hcomment, if_neg Bool.false_ne_true]

theorem passes_within {body : List Char} (h : Within body) (held rest : List Char)
    (out : List Token) : Passes (.quoted held) (body ++ '"' :: rest) .idle rest out := by
  induction h generalizing held out with
  | nil => exact passes_step rfl rfl
  | @char c text quote slash _ ih =>
    have hstep : step (.quoted held) c = some (.quoted (held ++ [c]), []) := by
      rw [step, if_neg quote, if_neg slash]
    obtain ⟨⟨after, hlex⟩, hnotes⟩ := @passes_step _ _ _ (text ++ '"' :: rest) out _ rfl hstep
    obtain ⟨⟨last, hlast⟩, hmore⟩ := ih (held ++ [c]) after
    exact ⟨⟨last, hlex.trans hlast⟩, hnotes.trans hmore⟩
  | @escaped c text _ ih =>
    have hslash : step (.quoted held) '\\' = some (.escaped held, []) := rfl
    have hstep : step (.escaped held) c = some (.quoted (held ++ [c]), []) := rfl
    obtain ⟨⟨first, hfirst⟩, hslashed⟩ :=
      @passes_step _ _ _ (c :: (text ++ '"' :: rest)) out _ rfl hslash
    obtain ⟨⟨after, hlex⟩, hnotes⟩ := @passes_step _ _ _ (text ++ '"' :: rest) first _ rfl hstep
    obtain ⟨⟨last, hlast⟩, hmore⟩ := ih (held ++ [c]) after
    exact ⟨⟨last, hfirst.trans (hlex.trans hlast)⟩, hslashed.trans (hnotes.trans hmore)⟩

theorem notes_comment {name : List Char} (h : ∀ c ∈ name, c ≠ '\r' ∧ c ≠ '\n')
    (held rest : List Char) (out : List Token) :
    lexFrom out (.comment false) (name ++ '\r' :: '\n' :: rest) = lexFrom out .idle rest ∧
      notesFrom held (.comment false) (name ++ '\r' :: '\n' :: rest) =
        (held ++ name) :: notesFrom [] .idle rest := by
  induction name generalizing held with
  | nil =>
    constructor
    · rfl
    · change (held ++ ['\r']).dropLast :: _ = _
      rw [List.dropLast_concat, List.append_nil]
  | cons c name ih =>
    obtain ⟨hc, hname⟩ := List.forall_mem_cons.mp h
    have hstep : step (.comment false) c = some (.comment false, []) := by
      rw [step, if_neg (by simp), decide_eq_false hc.1]
    obtain ⟨hlex, hnotes⟩ := ih hname (held ++ [c])
    constructor
    · rw [List.cons_append, lexFrom, hstep]
      exact hlex
    · rw [List.cons_append, notesFrom, hstep]
      change notesFrom (held ++ [c]) (.comment false) (name ++ '\r' :: '\n' :: rest) = _
      rw [hnotes, List.append_assoc, List.singleton_append]

theorem begin_quote : begin '"' = some (.quoted [], []) := by decide

theorem begin_hash : begin '#' = some (.comment false, []) := by decide

variable {found : List (List Char)} {text : List Char}

theorem notes_noted (h : Noted text found) (hopen : reading.isOpen = true) {out : List Token}
    (hread : lexFrom out reading text ≠ none) :
    notesFrom [] reading text = found := by
  induction h generalizing reading out with
  | nil => rfl
  | @char c text found plain _ ih =>
    cases hstep : step reading c with
    | none =>
      rw [lexFrom, hstep] at hread
      exact absurd rfl hread
    | some pair =>
      obtain ⟨next, tokens⟩ := pair
      have hnext : next.isOpen = true := by
        rcases step_open hopen hstep with ⟨_, hnext⟩ | ⟨after, hbegin⟩
        · exact hnext
        · exact begin_open plain.1 plain.2 hbegin
      obtain ⟨⟨after, hlex⟩, hnotes⟩ :=
        @passes_step _ _ _ text out _ (isOpen_comment hopen) hstep
      rw [hnotes]
      exact ih hnext (hlex ▸ hread)
  | @quoted body text found within _ ih =>
    cases hstep : step reading '"' with
    | none =>
      rw [lexFrom, hstep] at hread
      exact absurd rfl hread
    | some pair =>
      obtain ⟨next, tokens⟩ := pair
      have hnext : next = .quoted [] := by
        rcases step_open hopen hstep with ⟨hrest, _⟩ | ⟨after, hbegin⟩
        · exact absurd hrest (by decide)
        · rw [begin_quote] at hbegin
          cases hbegin
          rfl
      subst hnext
      obtain ⟨⟨first, hfirst⟩, hbegun⟩ :=
        @passes_step _ _ _ (body ++ '"' :: text) out _ (isOpen_comment hopen) hstep
      obtain ⟨⟨after, hlex⟩, hnotes⟩ := passes_within within [] text first
      rw [hbegun, hnotes]
      exact ih rfl ((hfirst.trans hlex) ▸ hread)
  | @note name text found breakless _ ih =>
    cases hstep : step reading '#' with
    | none =>
      rw [lexFrom, hstep] at hread
      exact absurd rfl hread
    | some pair =>
      obtain ⟨next, tokens⟩ := pair
      have hnext : next = .comment false := by
        rcases step_open hopen hstep with ⟨hrest, _⟩ | ⟨after, hbegin⟩
        · exact absurd hrest (by decide)
        · rw [begin_hash] at hbegin
          cases hbegin
          rfl
      subst hnext
      obtain ⟨⟨first, hfirst⟩, hbegun⟩ := @passes_step _ _ _ (name ++ '\r' :: '\n' :: text)
        out _ (isOpen_comment hopen) hstep
      obtain ⟨hlex, hnotes⟩ := notes_comment breakless [] text first
      rw [hbegun, hnotes, List.nil_append, ih rfl ((hfirst.trans hlex) ▸ hread)]

theorem notes_eq (h : Noted text found) (hread : lex text ≠ none) :
    notes text = found := notes_noted h rfl hread

end Mailo.Library.Sieve
