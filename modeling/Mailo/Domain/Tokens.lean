import Mathlib.Data.List.DropRight
import Mathlib.Data.List.Infix
import Mailo.Domain.Filter

/-!
# Phrases of a text

A phrase is searched as its tokens, one after the other. A piece of a text has its tokens among
the text's where it begins and ends with a word, or is a run of ideographs: the tokens of a run
are its pairs of neighbours.
-/

namespace Mailo.Domain

namespace Tokens

variable [FoldTable] {before : List (List Char)} {tokens : Tokens} {c : Char} {text : List Char}

def after (tokens : Tokens) (text : List Char) : Tokens := text.foldl take tokens

def start : Tokens := ⟨[], [], []⟩

/-- The search tokens of a text's characters. -/
def ofText (text : List Char) : List (List Char) := (start.after text).end.out

theorem searchTokens_eq (text : String) : searchTokens text = ofText text.toList := rfl

/-- What tokens do with a text does not depend on those before them. -/
def under (before : List (List Char)) (tokens : Tokens) : Tokens :=
  { tokens with out := before ++ tokens.out }

omit [FoldTable] in
theorem under_endWord : (tokens.under before).endWord = tokens.endWord.under before := by
  unfold endWord under
  split
  · rfl
  · simp

omit [FoldTable] in
theorem under_endRun : (tokens.under before).endRun = tokens.endRun.under before := by
  rcases tokens with ⟨out, word, run⟩
  rcases run with _ | ⟨a, _ | ⟨b, rest⟩⟩ <;> simp [endRun, under]

omit [FoldTable] in
theorem under_end : (tokens.under before).end = tokens.end.under before := by
  rw [«end», under_endWord, under_endRun, «end»]

omit [FoldTable] in
theorem under_push : (tokens.under before).push c = (tokens.push c).under before := by
  unfold push
  split
  · rw [under_endWord]
    rfl
  · rw [under_endRun]
    rfl

theorem under_take : (tokens.under before).take c = (tokens.take c).under before := by
  unfold take
  split
  · rfl
  · exact under_end
  · exact under_push
  · exact under_push

theorem under_after : (tokens.under before).after text = (tokens.after text).under before := by
  induction text generalizing tokens with
  | nil => rfl
  | cons c text ih => rw [after, List.foldl_cons, under_take, ← after, ih, after, after,
      List.foldl_cons]

omit [FoldTable] in
/-- Where a word ends, nothing is in progress. -/
theorem end_eq : tokens.end = start.under tokens.end.out := by
  rcases tokens with ⟨out, word, run⟩
  rcases word with _ | ⟨d, word⟩ <;> rcases run with _ | ⟨a, _ | ⟨b, rest⟩⟩ <;>
    simp [«end», endWord, endRun, under, start]

theorem after_append (more : List Char) : tokens.after (text ++ more) =
    (tokens.after text).after more := List.foldl_append

/-- A character of no word parts the tokens of what is before it and after it. -/
theorem ofText_split (h : fold c = .split) (text more : List Char) :
    ofText (text ++ c :: more) = ofText text ++ ofText more := by
  have htake : (start.after text).take c = start.under (start.after text).end.out := by
    rw [take, h]
    exact end_eq
  rw [ofText, after_append, after, List.foldl_cons, htake, ← after, under_after, under_end]
  rfl

/-- Pieces of a text parted by separators. -/
theorem ofText_piece {front piece back : List Char} (hfront : ∀ c ∈ front.getLast?, fold c = .split)
    (hback : ∀ c ∈ back.head?, fold c = .split) :
    ofText (front ++ piece ++ back) = ofText front ++ ofText piece ++ ofText back := by
  have hend : ofText (piece ++ back) = ofText piece ++ ofText back := by
    cases back with
    | nil => simp [ofText, after, start, «end», endWord, endRun]
    | cons c back =>
      have hc := hback c rfl
      rw [ofText_split hc, show ofText (c :: back) = ofText back from ofText_split hc [] back]
  rw [List.append_assoc, List.append_assoc]
  rcases List.eq_nil_or_concat front with rfl | ⟨text, c, rfl⟩
  · exact hend
  · have hc := hfront c (by simp)
    have htext : ofText (text ++ [c]) = ofText text := by
      rw [ofText_split hc]
      exact List.append_nil _
    rw [List.concat_eq_append, List.append_assoc, List.singleton_append, ofText_split hc, htext,
      hend]

/-! ## Runs of ideographs -/

/-- The character a word is given by one of the text, if it is given one. -/
def given (c : Char) : Option Char :=
  match fold c with
  | .keep => some c
  | .to folded => some folded
  | .drop | .split => none

/-- A run of ideographs or kana, which may carry accents. -/
structure IsRun (piece : List Char) : Prop where
  whole : ∀ c ∈ piece, fold c ≠ .split
  ideographs : ∀ d ∈ piece.filterMap given, isScriptioContinua d = true
  two : 2 ≤ (piece.filterMap given).length

omit [FoldTable] in
theorem bigrams_within {part run : List Char} (h : part <:+: run) : bigrams part <:+: bigrams run := by
  obtain ⟨front, back, rfl⟩ := h
  induction front with
  | nil =>
    refine List.IsPrefix.isInfix ?_
    rw [List.nil_append]
    induction part with
    | nil => exact List.nil_prefix
    | cons a part ih =>
      cases part with
      | nil => exact List.nil_prefix
      | cons b part => exact (List.prefix_cons_inj _).mpr ih
  | cons a front ih =>
    refine ih.trans ?_
    rw [List.append_assoc, List.append_assoc, List.cons_append]
    cases front ++ (part ++ back) with
    | nil => exact List.infix_rfl
    | cons b rest => exact (List.suffix_cons _ _).isInfix

omit [FoldTable] in
theorem endRun_out {run : List Char} (h : 2 ≤ run.length) (out : List (List Char))
    (word : List Char) : (Tokens.mk out word run).endRun = ⟨out ++ bigrams run, word, []⟩ := by
  rcases run with _ | ⟨a, _ | ⟨b, rest⟩⟩
  · simp at h
  · simp at h
  · rfl

/-- What has been cut stays, whatever comes. -/
theorem out_within (text : List Char) (h : before <:+: tokens.out) :
    before <:+: (tokens.after text).end.out := by
  have hunder : tokens = (Tokens.mk [] tokens.word tokens.run).under tokens.out := by
    simp [under]
  rw [hunder, under_after, under_end]
  exact h.trans (List.prefix_append _ _).isInfix

omit [FoldTable] in
theorem cut_within {part run : List Char} (htwo : 2 ≤ part.length) (hpart : part <:+: run)
    (out : List (List Char)) (word : List Char) :
    bigrams part <:+: (Tokens.mk out word run).endRun.out := by
  rw [endRun_out (htwo.trans hpart.length_le)]
  exact (bigrams_within hpart).trans (List.suffix_append _ _).isInfix

/-- The pairs of a run in progress are among the tokens, however the text goes on. -/
theorem run_within {part run : List Char} (htwo : 2 ≤ part.length) (hpart : part <:+: run)
    (out : List (List Char)) (text : List Char) :
    bigrams part <:+: ((Tokens.mk out [] run).after text).end.out := by
  induction text generalizing run with
  | nil => exact cut_within htwo hpart out []
  | cons c text ih =>
    have hpush : ∀ d, bigrams part <:+: (((Tokens.mk out [] run).push d).after text).end.out := by
      intro d
      unfold push
      split
      · exact ih (hpart.trans (List.prefix_append _ _).isInfix)
      · exact out_within text (cut_within htwo hpart out [])
    rw [after, List.foldl_cons, ← after, take]
    split
    · exact ih hpart
    · exact out_within text (cut_within htwo hpart out [])
    · exact hpush c
    · exact hpush _

omit [FoldTable] in
theorem endWord_eq : tokens.endWord = ⟨tokens.endWord.out, [], tokens.run⟩ := by
  rcases tokens with ⟨out, _ | ⟨d, word⟩, run⟩ <;> rfl

theorem take_given (c : Char) (h : fold c ≠ .split) :
    tokens.take c = (given c).elim tokens tokens.push := by
  unfold take given
  cases hfold : fold c with
  | split => exact absurd hfold h
  | _ => rfl

theorem after_ideographs {piece : List Char} (hwhole : ∀ c ∈ piece, fold c ≠ .split)
    (hideo : ∀ d ∈ piece.filterMap given, isScriptioContinua d = true) (out : List (List Char))
    (run : List Char) :
    (Tokens.mk out [] run).after piece = ⟨out, [], run ++ piece.filterMap given⟩ := by
  induction piece generalizing run with
  | nil => simp [after]
  | cons c piece ih =>
    obtain ⟨hc, hrest⟩ := List.forall_mem_cons.mp hwhole
    rw [after, List.foldl_cons, ← after, take_given c hc]
    cases hgiven : given c with
    | none =>
      rw [List.filterMap_cons_none hgiven] at hideo ⊢
      exact ih hrest hideo run
    | some d =>
      rw [List.filterMap_cons_some hgiven] at hideo ⊢
      obtain ⟨hd, hmore⟩ := List.forall_mem_cons.mp hideo
      rw [Option.elim_some, push, if_pos hd]
      exact (ih hrest hmore _).trans (by simp [endWord])

/-- A run is read onto the run in progress, a word before it ended. -/
theorem after_run {piece : List Char} (hwhole : ∀ c ∈ piece, fold c ≠ .split)
    (hideo : ∀ d ∈ piece.filterMap given, isScriptioContinua d = true)
    (hsome : piece.filterMap given ≠ []) (tokens : Tokens) :
    tokens.after piece = ⟨tokens.endWord.out, [], tokens.run ++ piece.filterMap given⟩ := by
  induction piece generalizing tokens with
  | nil => exact absurd rfl hsome
  | cons c piece ih =>
    obtain ⟨hc, hrest⟩ := List.forall_mem_cons.mp hwhole
    rw [after, List.foldl_cons, ← after, take_given c hc]
    cases hgiven : given c with
    | none =>
      rw [List.filterMap_cons_none hgiven] at hideo hsome ⊢
      exact ih hrest hideo hsome tokens
    | some d =>
      rw [List.filterMap_cons_some hgiven] at hideo ⊢
      obtain ⟨hd, hmore⟩ := List.forall_mem_cons.mp hideo
      rw [Option.elim_some, push, if_pos hd, endWord_eq, after_ideographs hrest hmore,
        List.append_assoc]
      rfl

theorem ofText_run {front piece back : List Char} (h : IsRun piece) :
    ofText piece <:+: ofText (front ++ piece ++ back) := by
  have hsome : piece.filterMap given ≠ [] := fun hnil => by simpa [hnil] using h.two
  have halone : ofText piece = bigrams (piece.filterMap given) := by
    rw [ofText, after_run h.whole h.ideographs hsome]
    exact congrArg Tokens.out (endRun_out h.two [] [])
  rw [halone, ofText, after_append, after_append, after_run h.whole h.ideographs hsome]
  exact run_within h.two (List.suffix_append _ _).isInfix _ back

/-! ## Tokens read again -/

/-- A character a word keeps as it is. -/
def Fixed (d : Char) : Prop := fold d = .keep ∨ fold d = .to d

/-- Folding a folded character again changes nothing. -/
def Idempotent : Prop := ∀ c, ∀ d ∈ given c, Fixed d

/-- A word of characters kept as they are, or at most two ideographs. -/
def IsToken (token : List Char) : Prop :=
  token ≠ [] ∧ (∀ d ∈ token, Fixed d) ∧
    ((∀ d ∈ token, isScriptioContinua d = false) ∨
      token.length ≤ 2 ∧ ∀ d ∈ token, isScriptioContinua d = true)

theorem take_fixed {d : Char} (h : Fixed d) (tokens : Tokens) : tokens.take d = tokens.push d := by
  unfold take
  rcases h with h | h <;> rw [h]

theorem after_word {word : List Char} (hfixed : ∀ d ∈ word, Fixed d)
    (hword : ∀ d ∈ word, isScriptioContinua d = false) (out : List (List Char))
    (before : List Char) : (Tokens.mk out before []).after word = ⟨out, before ++ word, []⟩ := by
  induction word generalizing before with
  | nil => simp [after]
  | cons d word ih =>
    obtain ⟨hd, hrest⟩ := List.forall_mem_cons.mp hfixed
    obtain ⟨hplain, hmore⟩ := List.forall_mem_cons.mp hword
    rw [after, List.foldl_cons, ← after, take_fixed hd, push, if_neg (by simp [hplain])]
    exact (ih hrest hmore _).trans (by simp [endRun])

/-- A token is its own one token. -/
theorem ofText_token {token : List Char} (h : IsToken token) : ofText token = [token] := by
  obtain ⟨hsome, hfixed, hword | ⟨hlength, hrun⟩⟩ := h
  · have hempty : token.isEmpty = false := by simpa using hsome
    rw [ofText, start, after_word hfixed hword]
    simp [«end», endWord, endRun, hempty]
  · rcases token with _ | ⟨a, _ | ⟨b, _ | ⟨c, rest⟩⟩⟩
    · exact absurd rfl hsome
    · simp only [List.mem_singleton, forall_eq] at hfixed hrun
      simp [ofText, after, start, take_fixed hfixed, push, hrun, «end», endWord, endRun]
    · simp only [List.mem_cons, List.not_mem_nil, or_false, forall_eq_or_imp, forall_eq] at hfixed hrun
      simp [ofText, after, start, take_fixed hfixed.1, take_fixed hfixed.2, push, hrun.1, hrun.2,
        «end», endWord, endRun, bigrams]
    · simp at hlength

/-- What is in progress is a word of its characters or a run of ideographs, and what has been cut
are tokens. -/
structure Sound (tokens : Tokens) : Prop where
  out : ∀ token ∈ tokens.out, IsToken token
  word : ∀ d ∈ tokens.word, Fixed d ∧ isScriptioContinua d = false
  run : ∀ d ∈ tokens.run, Fixed d ∧ isScriptioContinua d = true

theorem isToken_bigrams {run : List Char} (h : ∀ d ∈ run, Fixed d ∧ isScriptioContinua d = true) :
    ∀ token ∈ bigrams run, IsToken token := by
  induction run with
  | nil => simp [bigrams]
  | cons a run ih =>
    obtain ⟨ha, hrest⟩ := List.forall_mem_cons.mp h
    cases run with
    | nil => simp [bigrams]
    | cons b run =>
      have hb := hrest b (.head _)
      refine List.forall_mem_cons.mpr ⟨⟨by simp, ?_, .inr ⟨by simp, ?_⟩⟩, ih hrest⟩
      · simp [ha.1, hb.1]
      · simp [ha.2, hb.2]

theorem Sound.endWord (h : Sound tokens) : Sound tokens.endWord := by
  unfold Tokens.endWord
  split
  · exact h
  · rename_i hsome
    refine ⟨fun token htoken => ?_, by simp, h.run⟩
    rcases List.mem_append.mp htoken with hout | hword
    · exact h.out token hout
    · rw [List.mem_singleton.mp hword]
      exact ⟨by simpa using hsome, fun d hd => (h.word d hd).1, .inl fun d hd => (h.word d hd).2⟩

theorem Sound.endRun (h : Sound tokens) : Sound tokens.endRun := by
  have hcut : ∀ cut : List (List Char), (∀ token ∈ cut, IsToken token) →
      Sound { tokens with out := tokens.out ++ cut, run := [] } := fun cut hcut =>
    ⟨fun token htoken => (List.mem_append.mp htoken).elim (h.out token) (hcut token), h.word,
      by simp⟩
  unfold Tokens.endRun
  split
  · exact h
  · rename_i one hrun
    have hone := h.run one (by rw [hrun]; exact .head _)
    refine hcut [[one]] fun token htoken => ?_
    rw [List.mem_singleton.mp htoken]
    exact ⟨by simp, by simp [hone.1], .inr ⟨by simp, by simp [hone.2]⟩⟩
  · exact hcut _ (isToken_bigrams h.run)

theorem Sound.push (h : Sound tokens) (hc : Fixed c) : Sound (tokens.push c) := by
  unfold Tokens.push
  split
  · rename_i hrun
    refine ⟨h.endWord.out, h.endWord.word, fun d hd => ?_⟩
    rcases List.mem_append.mp hd with hd | hd
    · exact h.endWord.run d hd
    · exact List.mem_singleton.mp hd ▸ ⟨hc, hrun⟩
  · rename_i hword
    refine ⟨h.endRun.out, fun d hd => ?_, h.endRun.run⟩
    rcases List.mem_append.mp hd with hd | hd
    · exact h.endRun.word d hd
    · exact List.mem_singleton.mp hd ▸ ⟨hc, Bool.eq_false_iff.mpr hword⟩

theorem Sound.after (hfixed : Idempotent) (h : Sound tokens) (text : List Char) :
    Sound (tokens.after text) := by
  induction text generalizing tokens with
  | nil => exact h
  | cons c text ih =>
    rw [Tokens.after, List.foldl_cons, ← Tokens.after]
    refine ih ?_
    by_cases hsplit : fold c = .split
    · rw [take, hsplit]
      exact h.endWord.endRun
    · rw [take_given c hsplit]
      cases hgiven : given c with
      | none => exact h
      | some d => exact h.push (hfixed c d hgiven)

/-- Tokens joined by spaces are read as themselves. -/
theorem ofText_joinWords (words : List (List Char)) (h : ∀ word ∈ words, IsToken word) :
    ofText (Text.joinWords words) = words := by
  induction words with
  | nil => rfl
  | cons word words ih =>
    obtain ⟨hword, hwords⟩ := List.forall_mem_cons.mp h
    cases words with
    | nil => exact ofText_token hword
    | cons next words =>
      rw [Text.joinWords, ofText_split rfl, ofText_token hword, ih hwords]
      · rfl
      · simp

end Tokens

/-- A phrase of a text is found in it, and the tokens of a text are its tokens. -/
theorem searchTokens_phrase [FoldTable] (text : String) :
    (∀ front piece back, text.toList = front ++ piece ++ back →
      ((∀ c ∈ front.getLast?, fold c = .split) ∧ (∀ c ∈ back.head?, fold c = .split) ∨
        Tokens.IsRun piece) →
      searchTokens (String.ofList piece) <:+: searchTokens text) ∧
    (Tokens.Idempotent →
      searchTokens (String.ofList (Text.joinWords (searchTokens text))) = searchTokens text) := by
  simp only [Tokens.searchTokens_eq, String.toList_ofList]
  refine ⟨fun front piece back htext hpiece => ?_, fun hfixed => ?_⟩
  · rw [htext]
    rcases hpiece with ⟨hfront, hback⟩ | hrun
    · rw [Tokens.ofText_piece hfront hback]
      exact (List.suffix_append _ _).isInfix.trans (List.prefix_append _ _).isInfix
    · exact Tokens.ofText_run hrun
  · have hstart : Tokens.Sound Tokens.start := ⟨by simp [Tokens.start], by simp [Tokens.start],
      by simp [Tokens.start]⟩
    exact Tokens.ofText_joinWords _ (hstart.after hfixed text.toList).endWord.endRun.out

theorem ascii_idempotent : @Tokens.Idempotent .ascii := by
  let _ := FoldTable.ascii
  have hfixed : ∀ n < 0x80, ∀ d ∈ Tokens.given (Char.ofNat n), fold d = .to d := by
    decide +kernel
  intro c d hd
  by_cases hc : c.toNat < 0x80
  · exact .inr (hfixed c.toNat hc d (by rwa [Char.ofNat_toNat]))
  · simp [Tokens.given, fold, hc, FoldTable.beyondAscii] at hd

theorem searchTokens_phrase_plan : letI := FoldTable.ascii
    searchTokens "Q3 plan" <:+: searchTokens "The Q3 plan, v2" ∧
      searchTokens (String.ofList (Text.joinWords (searchTokens "The Q3 plan, v2"))) =
        searchTokens "The Q3 plan, v2" :=
  let _ := FoldTable.ascii
  ⟨(searchTokens_phrase "The Q3 plan, v2").1 "The ".toList "Q3 plan".toList ", v2".toList
      (by decide) (.inl (by decide)),
    (searchTokens_phrase "The Q3 plan, v2").2 ascii_idempotent⟩

/-! ## Snippets -/

namespace MatchCtx

def previewing (ctx : MatchCtx) (snippet : String) : MatchCtx :=
  { ctx with summary := { ctx.summary with snippet } }

theorem textCorpus_previewing (ctx : MatchCtx) (snippet : String) :
    textCorpus (ctx.previewing snippet) =
      ctx.summary.subject :: snippet :: (textCorpus ctx).drop 2 := rfl

/-- A conversation with no words but those of its snippet. -/
def wordless : MatchCtx where
  summary :=
    let sent := { Message.plain ⟨1⟩ ⟨1⟩ .inbox with sender := ⟨none, ""⟩ }
    @ThreadSummary.deriveFrom .ascii ⟨1⟩ sent sent [sent] .inactive .unpinned .unmuted .inactive
  corpus := none
  folders := []
  sizes := []
  cc := []
  vips := []
  now := 0

end MatchCtx

variable [FoldTable]

/-- Words that stand in a longer text are found with it in their place. -/
theorem textSearchFits_previewing {part whole : String}
    (hpart : searchTokens part <:+: searchTokens whole) (wanted : TextMatch) (ctx : MatchCtx)
    (h : textSearchFits wanted (ctx.previewing part)) :
    textSearchFits wanted (ctx.previewing whole) := by
  cases wanted with
  | contains raw =>
    simp only [textSearchFits, MatchCtx.textCorpus_previewing, List.flatMap_cons, Bool.and_eq_true,
      List.all_eq_true, List.contains_iff_mem, List.mem_append] at h ⊢
    refine h.imp_right fun hall token htoken => ?_
    exact (hall token htoken).imp_right (Or.imp_left fun hmem => hpart.subset hmem)
  | exact raw =>
    simp only [textSearchFits, MatchCtx.textCorpus_previewing, List.any_cons, Bool.and_eq_true,
      Bool.or_eq_true, decide_eq_true_eq] at h ⊢
    exact h.imp_right (Or.imp_right (Or.imp_left fun hin => hin.trans hpart))

/-! ## The word the preview cuts -/

/-- The body with its white space collapsed. -/
def oneSpaced (body : String) : List Char := Text.joinWords (Text.splitWhitespace body.toList)

def inWord (c : Char) : Bool := fold c ≠ .split

/-- The folded characters that a word of the body has right before the preview's cut. -/
def wordBeforeCut (body : String) : List Char :=
  (((oneSpaced body).take snippetChars).rtakeWhile inWord).filterMap Tokens.given

def wordAfterCut (body : String) : List Char :=
  (((oneSpaced body).drop snippetChars).takeWhile inWord).filterMap Tokens.given

/-- The tokens of the words that end before the cut. -/
def wordsBeforeCut (body : String) : List (List Char) :=
  Tokens.ofText (((oneSpaced body).take snippetChars).rdropWhile inWord)

/-- The tokens of a word that is cut short. -/
def shortened (before : List Char) : List (List Char) :=
  (before.foldl Tokens.push Tokens.start).end.out

/-- Cutting a word makes no token shorter: nothing of it stands on one side, or an ideograph beside
another character, or a second ideograph before the cut in a run of them. -/
def cutsNone (before after : List Char) : Bool :=
  match before.reverse, after with
  | a :: more, b :: _ =>
    if isScriptioContinua a then !isScriptioContinua b || more.head?.any isScriptioContinua
    else isScriptioContinua b
  | _, _ => true

namespace Tokens

variable {tokens : Tokens} {c : Char} {text : List Char}

section Pushed

omit [FoldTable]

theorem out_begins (given : List Char) (tokens : Tokens) :
    tokens.out <+: (given.foldl push tokens).end.out := by
  have hrun : ∀ tokens : Tokens, tokens.out <+: tokens.endRun.out := by
    rintro ⟨out, word, run⟩
    rcases run with _ | ⟨a, _ | ⟨b, rest⟩⟩ <;> simp [endRun]
  have hword : ∀ tokens : Tokens, tokens.out <+: tokens.endWord.out := by
    rintro ⟨out, word, run⟩
    rcases word with _ | ⟨a, rest⟩ <;> simp [endWord]
  induction given generalizing tokens with
  | nil => exact (hword tokens).trans (hrun _)
  | cons c given ih =>
    refine List.IsPrefix.trans ?_ (ih _)
    unfold push
    split
    · exact hword tokens
    · exact hrun tokens

theorem push_plain (h : isScriptioContinua c = false) :
    tokens.push c = ⟨tokens.endRun.out, tokens.word ++ [c], []⟩ := by
  rcases tokens with ⟨out, word, _ | ⟨a, _ | ⟨b, rest⟩⟩⟩ <;> simp [push, h, endRun]

theorem push_ideograph (h : isScriptioContinua c = true) :
    tokens.push c = ⟨tokens.endWord.out, [], tokens.run ++ [c]⟩ := by
  rcases tokens with ⟨out, _ | ⟨a, rest⟩, run⟩ <;> simp [push, h, endWord]

/-- A word in progress ends as a token that begins with it. -/
theorem word_goesOn (given word : List Char) (h : word ≠ []) (out : List (List Char)) :
    ∃ more rest, (given.foldl push ⟨out, word, []⟩).end.out = out ++ (word ++ more) :: rest := by
  induction given generalizing word with
  | nil => exact ⟨[], [], by simp [«end», endWord, endRun, h]⟩
  | cons c given ih =>
    rw [List.foldl_cons]
    cases hc : isScriptioContinua c with
    | true =>
      obtain ⟨rest, hrest⟩ := out_begins given ((Tokens.mk out word []).push c)
      refine ⟨[], rest, ?_⟩
      rw [← hrest, push_ideograph hc]
      simp [endWord, h]
    | false =>
      obtain ⟨more, rest, hmore⟩ := ih (word ++ [c]) (by simp)
      refine ⟨c :: more, rest, ?_⟩
      rw [push_plain hc]
      simpa [endRun] using hmore

/-- The pairs of a run in progress begin those of the run it ends as. -/
theorem run_goesOn (given run : List Char) (h : 2 ≤ run.length) (out : List (List Char)) :
    ∃ more rest, (given.foldl push ⟨out, [], run⟩).end.out =
      out ++ bigrams (run ++ more) ++ rest := by
  induction given generalizing run with
  | nil => exact ⟨[], [], by simp [«end», endWord, endRun_out h]⟩
  | cons c given ih =>
    rw [List.foldl_cons]
    cases hc : isScriptioContinua c with
    | true =>
      obtain ⟨more, rest, hmore⟩ := ih (run ++ [c]) (by simp; omega)
      refine ⟨c :: more, rest, ?_⟩
      rw [push_ideograph hc]
      simpa [endWord] using hmore
    | false =>
      obtain ⟨rest, hrest⟩ := out_begins given ((Tokens.mk out [] run).push c)
      refine ⟨[], rest, ?_⟩
      rw [← hrest, push_plain hc, endRun_out h]
      simp

theorem bigrams_begins (run more : List Char) : bigrams run <+: bigrams (run ++ more) := by
  induction run with
  | nil => exact List.nil_prefix
  | cons a run ih =>
    cases run with
    | nil => exact List.nil_prefix
    | cons b run => exact (List.prefix_cons_inj _).mpr ih

/-- The tokens before a cut are the first of the whole word's, or the last of them is another than
the whole word has in its place. -/
def CutAgrees (none : Bool) (before whole : List (List Char)) : Prop :=
  if none then before <+: whole
  else ∃ out last other rest, last ≠ other ∧ before = out ++ [last] ∧ whole = out ++ other :: rest

theorem cut_word (held : Tokens) (a b : Char) (given : List Char)
    (ha : isScriptioContinua a = false) :
    CutAgrees (isScriptioContinua b) (held.push a).end.out
      (given.foldl push ((held.push a).push b)).end.out := by
  rw [push_plain ha]
  cases hb : isScriptioContinua b with
  | true =>
    rw [push_ideograph hb]
    refine List.IsPrefix.trans ?_ (out_begins given _)
    simp [«end», endWord, endRun]
  | false =>
    rw [push_plain hb]
    obtain ⟨more, rest, hmore⟩ :=
      word_goesOn given (held.word ++ [a] ++ [b]) (by simp) held.endRun.out
    exact ⟨held.endRun.out, held.word ++ [a], held.word ++ [a] ++ [b] ++ more, rest, by simp,
      by simp [«end», endWord, endRun], hmore⟩

theorem cut_run (held : Tokens) (a b : Char) (given : List Char)
    (ha : isScriptioContinua a = true) :
    CutAgrees (!isScriptioContinua b || !held.run.isEmpty) (held.push a).end.out
      (given.foldl push ((held.push a).push b)).end.out := by
  rw [push_ideograph ha]
  cases hb : isScriptioContinua b with
  | false =>
    rw [push_plain hb]
    exact out_begins given ⟨(Tokens.mk held.endWord.out [] (held.run ++ [a])).endRun.out, [b], []⟩
  | true =>
    rw [push_ideograph hb]
    cases hrun : held.run with
    | nil =>
      obtain ⟨more, rest, hmore⟩ := run_goesOn given [a, b] (Nat.le_refl 2) held.endWord.out
      refine ⟨held.endWord.out, [a], [a, b], bigrams (b :: more) ++ rest, by simp,
        by simp [«end», endWord, endRun], hmore.trans ?_⟩
      simp [bigrams]
    | cons d run =>
      have htwo : 2 ≤ (d :: run ++ [a]).length := by simp
      obtain ⟨more, rest, hmore⟩ := run_goesOn given (d :: run ++ [a] ++ [b])
        (htwo.trans (List.sublist_append_left _ _).length_le) held.endWord.out
      have hbefore : (Tokens.mk held.endWord.out [] (d :: run ++ [a])).end.out =
          held.endWord.out ++ bigrams (d :: run ++ [a]) := congrArg Tokens.out (endRun_out htwo _ [])
      show _ <+: (given.foldl push ⟨held.endWord.out, [], d :: run ++ [a] ++ [b]⟩).end.out
      rw [hmore, hbefore, List.append_assoc _ [b] more, List.append_assoc,
        List.prefix_append_right_inj]
      exact (bigrams_begins _ _).trans (List.prefix_append _ _)

theorem run_isEmpty (given : List Char) : (given.foldl push start).run.isEmpty =
    !given.reverse.head?.any isScriptioContinua := by
  rcases List.eq_nil_or_concat given with rfl | ⟨front, d, rfl⟩
  · rfl
  · rw [List.concat_eq_append, List.foldl_append, List.foldl_cons, List.foldl_nil,
      List.reverse_append, List.reverse_singleton, List.singleton_append, List.head?_cons,
      Option.any_some]
    cases hd : isScriptioContinua d with
    | true => simp [push_ideograph hd]
    | false => simp [push_plain hd]

theorem cut_agrees (before after : List Char) :
    CutAgrees (cutsNone before after) (before.foldl push start).end.out
      ((before ++ after).foldl push start).end.out := by
  rcases List.eq_nil_or_concat before with rfl | ⟨front, a, rfl⟩
  · exact List.nil_prefix
  · cases after with
    | nil => simp [cutsNone, CutAgrees]
    | cons b after =>
      simp only [cutsNone, List.concat_eq_append, List.foldl_append, List.foldl_cons, List.foldl_nil,
        List.reverse_append, List.reverse_singleton, List.singleton_append]
      cases ha : isScriptioContinua a with
      | false => exact cut_word _ a b after ha
      | true =>
        have hcut := cut_run (front.foldl push start) a b after ha
        rwa [run_isEmpty, Bool.not_not] at hcut

end Pushed

theorem after_whole (h : ∀ c ∈ text, inWord c = true) (tokens : Tokens) :
    tokens.after text = (text.filterMap given).foldl push tokens := by
  induction text generalizing tokens with
  | nil => rfl
  | cons c text ih =>
    obtain ⟨hc, hrest⟩ := List.forall_mem_cons.mp h
    rw [after, List.foldl_cons, ← after, take_given c (by simpa [inWord] using hc), ih hrest]
    cases hgiven : given c with
    | none => rw [List.filterMap_cons_none hgiven]; rfl
    | some d => rw [List.filterMap_cons_some hgiven]; rfl

/-- The tokens up to a cut inside a word. -/
theorem ofText_upTo {front before : List Char} (hfront : ∀ c ∈ front.getLast?, fold c = .split)
    (hbefore : ∀ c ∈ before, inWord c = true) :
    ofText (front ++ before) = ofText front ++ shortened (before.filterMap given) := by
  have hpiece : ofText (front ++ before ++ []) = ofText front ++ ofText before ++ ofText [] :=
    ofText_piece hfront (by simp)
  rw [List.append_nil, show ofText [] = [] from rfl, List.append_nil] at hpiece
  rw [hpiece, shortened, ← after_whole hbefore]
  rfl

/-- The tokens up to a cut inside a word are the first of the text's exactly where the cut makes no
token of the word shorter. -/
theorem ofText_cut {front before after back : List Char}
    (hfront : ∀ c ∈ front.getLast?, fold c = .split) (hbefore : ∀ c ∈ before, inWord c = true)
    (hafter : ∀ c ∈ after, inWord c = true) (hback : ∀ c ∈ back.head?, fold c = .split) :
    ofText (front ++ before) <+: ofText (front ++ (before ++ after) ++ back) ↔
      cutsNone (before.filterMap given) (after.filterMap given) = true := by
  have hwhole : ∀ c ∈ before ++ after, inWord c = true := fun c hc =>
    (List.mem_append.mp hc).elim (hbefore c) (hafter c)
  have hcut := cut_agrees (before.filterMap given) (after.filterMap given)
  rw [← List.filterMap_append, ← after_whole hwhole] at hcut
  change CutAgrees _ (shortened (before.filterMap given)) (ofText (before ++ after)) at hcut
  rw [ofText_upTo hfront hbefore, ofText_piece hfront hback, List.append_assoc,
    List.prefix_append_right_inj]
  unfold CutAgrees at hcut
  split at hcut
  · rename_i hnone
    exact iff_of_true (hcut.trans (List.prefix_append _ _)) hnone
  · rename_i hsome
    obtain ⟨out, last, other, rest, hne, hpart, hrest⟩ := hcut
    refine iff_of_false ?_ hsome
    rw [hpart, hrest, List.append_assoc, List.prefix_append_right_inj, List.cons_append,
      List.cons_prefix_cons]
    exact fun h => hne h.1

/-! ## The preview's tokens -/

theorem fold_of_whitespace (h : Text.isWhitespace c = true) : fold c = .split := by
  unfold fold
  split
  · rename_i hascii
    have hall : ∀ n < 0x80, Text.isWhitespace (Char.ofNat n) = true →
        (Char.ofNat n).isAlphanum = false := by decide +kernel
    rw [if_neg]
    rw [Bool.not_eq_true]
    simpa using hall c.toNat hascii (by simpa using h)
  · exact FoldTable.split_of_whitespace c h

theorem ofText_joinWords_cons (word : List Char) (words : List (List Char)) :
    ofText (Text.joinWords (word :: words)) = ofText word ++ ofText (Text.joinWords words) := by
  cases words with
  | nil => exact (List.append_nil _).symm
  | cons next words => exact ofText_split rfl word _

/-- White space collapsed leaves the tokens as they were. -/
theorem ofText_splitWhitespace (text : List Char) :
    ofText (Text.joinWords (Text.splitWhitespace text)) = ofText text := by
  have hfrom : ∀ word, ofText (Text.joinWords (Text.splitWhitespaceFrom word text)) =
      ofText (word ++ text) := by
    induction text with
    | nil =>
      intro word
      cases word with
      | nil => rfl
      | cons c word => simp [Text.splitWhitespaceFrom, Text.joinWords]
    | cons c text ih =>
      intro word
      rw [Text.splitWhitespaceFrom]
      split
      · rename_i hspace
        rw [ofText_split (fold_of_whitespace hspace), ← List.nil_append text, ← ih []]
        cases word with
        | nil => rfl
        | cons d word => exact ofText_joinWords_cons _ _
      · rw [ih, List.append_assoc, List.singleton_append]
  exact hfrom []

end Tokens

omit [FoldTable] in
theorem take_joinWords_cons (n : Nat) (word : List Char) (words : List (List Char)) :
    (Text.joinWords (word.take n :: words)).take n = (Text.joinWords (word :: words)).take n := by
  cases words with
  | nil => simp [Text.joinWords]
  | cons next words =>
    show (word.take n ++ ' ' :: Text.joinWords (next :: words)).take n =
      (word ++ ' ' :: Text.joinWords (next :: words)).take n
    rw [List.take_append, List.take_append, List.take_take, Nat.min_self, List.length_take]
    by_cases h : n ≤ word.length
    · rw [Nat.min_eq_left h, Nat.sub_self, Nat.sub_eq_zero_of_le h]
    · rw [Nat.min_eq_right (Nat.le_of_not_le h)]

omit [FoldTable] in
/-- What the loop over the words keeps is the beginning of the collapsed text. -/
theorem snippetFrom_eq (words : List (List Char)) (hwords : [] ∉ words) (out : List Char)
    (h : out.length ≤ snippetChars) : snippetFrom out words =
      (Text.joinWords (if out.isEmpty then words else out :: words)).take snippetChars := by
  induction words generalizing out with
  | nil =>
    cases out with
    | nil => rfl
    | cons c out => exact (List.take_of_length_le h).symm
  | cons word words ih =>
    obtain ⟨hword, hrest⟩ := not_or.mp (List.mem_cons.not.mp hwords)
    rw [snippetFrom]
    split
    · rename_i hfull
      cases out with
      | nil => cases hfull
      | cons c out =>
        show _ = ((c :: out) ++ ' ' :: Text.joinWords (word :: words)).take snippetChars
        rw [List.take_append_of_le_length hfull.ge, List.take_of_length_le h]
    · rename_i hfull
      cases out with
      | nil =>
        have htake : (word.take snippetChars).isEmpty = false := by
          cases word with
          | nil => exact absurd rfl hword
          | cons c word => rfl
        rw [ih hrest]
        · simp only [List.isEmpty_nil, if_true, List.nil_append, List.length_nil, Nat.sub_zero,
            htake, Bool.false_eq_true, if_false, take_joinWords_cons]
        · simp
      | cons c out =>
        have hspaced : (c :: out ++ [' ']).length ≤ snippetChars := by
          rw [List.length_append, List.length_singleton]
          exact Nat.lt_of_le_of_ne h hfull
        rw [ih hrest]
        · have hcut : c :: out ++ [' '] ++ word.take (snippetChars - (c :: out ++ [' ']).length) =
              (c :: out ++ [' '] ++ word).take snippetChars := by
            rw [List.take_append, List.take_of_length_le hspaced]
          simp only [List.isEmpty_cons, Bool.false_eq_true, if_false, hcut]
          rw [if_neg (by simp [snippetChars]), take_joinWords_cons]
          cases words <;> simp [Text.joinWords]
        · simp only [List.isEmpty_cons, Bool.false_eq_true, if_false]
          rw [List.length_append, List.length_take]
          exact Nat.add_le_of_le_sub' hspaced (Nat.min_le_left _ _)

omit [FoldTable] in
theorem nil_notMem_splitWhitespace (text : List Char) : [] ∉ Text.splitWhitespace text := by
  have hfrom : ∀ word, [] ∉ Text.splitWhitespaceFrom word text := by
    induction text with
    | nil => intro word; cases word <;> simp [Text.splitWhitespaceFrom]
    | cons c text ih =>
      intro word
      rw [Text.splitWhitespaceFrom]
      split
      · cases word with
        | nil => exact ih []
        | cons d word => simpa using ih []
      · exact ih _
  exact hfrom []

/-- The preview's tokens are those of the collapsed body up to the cut. -/
theorem searchTokens_snippetOf (body : String) : searchTokens (snippetOf (some body)) =
    Tokens.ofText ((oneSpaced body).take snippetChars) := by
  rw [Tokens.searchTokens_eq, snippetOf, String.toList_ofList,
    snippetFrom_eq _ (nil_notMem_splitWhitespace _) [] (Nat.zero_le _)]
  show Tokens.ofText (if ((oneSpaced body).take snippetChars).getLast? = some ' ' then
    ((oneSpaced body).take snippetChars).dropLast else (oneSpaced body).take snippetChars) = _
  generalize (oneSpaced body).take snippetChars = out
  split
  · rename_i hspace
    obtain ⟨front, rfl⟩ : ∃ front, out = front ++ [' '] := List.getLast?_eq_some_iff.mp hspace
    rw [List.dropLast_concat, Tokens.ofText_split rfl]
    exact (List.append_nil _).symm
  · rfl

/-- Words found in a part of a text are found in the text exactly where they stand in it one after
the other. -/
theorem finds_iff (part whole : String) :
    (∀ wanted (ctx : MatchCtx), textSearchFits wanted (ctx.previewing part) →
      textSearchFits wanted (ctx.previewing whole)) ↔
    searchTokens part <:+: searchTokens whole := by
  refine ⟨fun h => ?_, fun h => textSearchFits_previewing h⟩
  rcases hnone : searchTokens part with _ | ⟨token, tokens⟩
  · exact List.nil_infix
  · have hcorpus : ∀ text, textCorpus (MatchCtx.wordless.previewing text) = ["", text, "", ""] :=
      fun _ => rfl
    have hfits := h (.exact part) .wordless
    simpa [textSearchFits, hcorpus, hnone] using hfits

/-- The preview's words stand in the body one after the other exactly where the cut makes no token
shorter, or the words before the cut and the one cut short stand there further on. -/
theorem snippet_words_iff (body : String) :
    searchTokens (snippetOf (some body)) <:+: searchTokens body ↔
      cutsNone (wordBeforeCut body) (wordAfterCut body) = true ∨
        wordsBeforeCut body ++ shortened (wordBeforeCut body) <:+: (searchTokens body).tail := by
  rw [searchTokens_snippetOf, Tokens.searchTokens_eq,
    ← Tokens.ofText_splitWhitespace body.toList, ← oneSpaced]
  have htail : ∀ part whole : List (List Char), part <:+: whole ↔
      part <+: whole ∨ part <:+: whole.tail := by
    intro part whole
    cases whole with
    | nil => simp
    | cons token whole => exact List.infix_cons_iff
  rw [htail]
  unfold wordsBeforeCut wordBeforeCut wordAfterCut
  generalize hbefore : (oneSpaced body).take snippetChars = before
  generalize hafter : (oneSpaced body).drop snippetChars = after
  have hsplit : oneSpaced body = before.rdropWhile inWord ++
      (before.rtakeWhile inWord ++ after.takeWhile inWord) ++ after.dropWhile inWord := by
    rw [← List.append_assoc, List.rdropWhile_append_rtakeWhile, List.append_assoc,
      List.takeWhile_append_dropWhile, ← hbefore, ← hafter, List.take_append_drop]
  have hfront : ∀ c ∈ (before.rdropWhile inWord).getLast?, fold c = .split := by
    intro c hc
    obtain ⟨hsome, rfl⟩ := List.mem_getLast?_eq_getLast hc
    simpa [inWord] using List.rdropWhile_last_not inWord before hsome
  have hback : ∀ c ∈ (after.dropWhile inWord).head?, fold c = .split := by
    intro c hc
    simpa [inWord, Option.mem_def.mp hc] using List.head?_dropWhile_not inWord after
  have hbeforeIn : ∀ c ∈ before.rtakeWhile inWord, inWord c = true := fun _ =>
    List.mem_rtakeWhile_imp
  have hafterIn : ∀ c ∈ after.takeWhile inWord, inWord c = true := fun _ => List.mem_takeWhile_imp
  have hcut := Tokens.ofText_cut hfront hbeforeIn hafterIn hback
  rw [List.rdropWhile_append_rtakeWhile, ← hsplit] at hcut
  rw [← Tokens.ofText_upTo hfront hbeforeIn, List.rdropWhile_append_rtakeWhile]
  exact or_congr_left hcut

/-- The snippet finds nothing the body would not exactly where the cut makes no token of the word it
falls in shorter, or the words before that one, with this one cut short, stand once more further on. -/
theorem snippet_finds_iff (body : String) :
    (∀ wanted (ctx : MatchCtx), textSearchFits wanted (ctx.previewing (snippetOf (some body))) →
      textSearchFits wanted (ctx.previewing body)) ↔
    cutsNone (wordBeforeCut body) (wordAfterCut body) = true ∨
      wordsBeforeCut body ++ shortened (wordBeforeCut body) <:+: (searchTokens body).tail := by
  rw [finds_iff, snippet_words_iff]

omit [FoldTable] in
/-- The cut made a word of the body a shorter one. -/
theorem snippet_finds_more : letI := FoldTable.ascii
    ¬ ∀ body wanted (ctx : MatchCtx),
      textSearchFits wanted (ctx.previewing (snippetOf (some body))) →
        textSearchFits wanted (ctx.previewing body) := by
  let _ := FoldTable.ascii
  let body := String.ofList ((List.replicate 19 "Ledger ".toList).flatten ++ "renewals".toList)
  exact fun h => absurd (h body (.contains "renewal") .wordless (by decide +kernel))
    (by decide +kernel)

end Mailo.Domain
