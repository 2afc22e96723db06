import Mathlib.Data.List.Basic
import Mailo.Library.Lists

/-!
# Text with quoted stretches

A quote opens a stretch in which no separator counts, and the next quote closes it. What a reader
of such text needs is whether a stretch is open at the end of a piece, and what the piece holds
outside them: pieces that end closed and hold no separator outside are read back as they are.
-/

namespace Mailo.Library.Quoted

variable {α : Type} [DecidableEq α] (quote : α)

/-- Whether `text`, begun inside quotes or not, ends inside them. -/
def inside : Bool → List α → Bool
  | quoted, [] => quoted
  | quoted, c :: rest => inside (if c = quote then !quoted else quoted) rest

/-- What `text` holds outside quotes, the quotes themselves left out. -/
def outside : Bool → List α → List α
  | _, [] => []
  | quoted, c :: rest =>
    if c = quote then outside (!quoted) rest
    else if quoted then outside quoted rest
    else c :: outside quoted rest

/-- The text before the first `stop` outside quotes, and the text after it. -/
def cutAt (stop : α) : Bool → List α → Option (List α × List α)
  | _, [] => none
  | quoted, c :: rest =>
    if c = quote then (cutAt stop (!quoted) rest).map fun cut => (c :: cut.1, cut.2)
    else if c = stop ∧ quoted = false then some ([], rest)
    else (cutAt stop quoted rest).map fun cut => (c :: cut.1, cut.2)

/-- `text` split at each `sep` outside quotes. -/
def split (sep : α) : Bool → List α → List (List α)
  | _, [] => [[]]
  | quoted, c :: rest =>
    if c = sep ∧ quoted = false then [] :: split sep quoted rest
    else (split sep (if c = quote then !quoted else quoted) rest).modifyHead (c :: ·)

attribute [local simp] inside outside cutAt split

@[simp] theorem inside_append (quoted : Bool) (a b : List α) :
    inside quote quoted (a ++ b) = inside quote (inside quote quoted a) b := by
  induction a generalizing quoted with
  | nil => rfl
  | cons c a ih => exact ih _

@[simp] theorem outside_append (quoted : Bool) (a b : List α) :
    outside quote quoted (a ++ b) =
      outside quote quoted a ++ outside quote (inside quote quoted a) b := by
  induction a generalizing quoted with
  | nil => rfl
  | cons c a ih =>
    simp only [List.cons_append, outside, inside]
    split
    · exact ih _
    · cases quoted
      · simp [ih]
      · simp [ih]

theorem inside_not (quoted : Bool) (text : List α) :
    inside quote (!quoted) text = !inside quote quoted text := by
  induction text generalizing quoted with
  | nil => rfl
  | cons c text ih =>
    simp only [inside]
    split
    · exact ih _
    · exact ih _

variable {c stop sep : α} {quoted : Bool} {text a : List α} {parts : List (List α)}

theorem mem_of_outside (h : c ∈ outside quote quoted text) : c ∈ text := by
  induction text generalizing quoted with
  | nil => exact h
  | cons d text ih =>
    simp only [outside] at h
    split at h
    · exact .tail _ (ih h)
    · cases quoted
      · rw [if_neg (by simp), List.mem_cons] at h
        rcases h with rfl | h
        · exact .head _
        · exact .tail _ (ih h)
      · exact .tail _ (ih h)

/-- A text without quotes opens and closes nothing. -/
theorem inside_of_notMem (h : quote ∉ text) (quoted : Bool) :
    inside quote quoted text = quoted := by
  induction text with
  | nil => rfl
  | cons c text ih =>
    rw [List.mem_cons, not_or] at h
    rw [inside, if_neg (Ne.symm h.1), ih h.2]

/-- Quotes around a text without any: nothing is outside. -/
theorem outside_of_notMem (h : quote ∉ text) :
    outside quote true text = [] := by
  induction text with
  | nil => rfl
  | cons c text ih =>
    rw [List.mem_cons, not_or] at h
    rw [outside, if_neg (Ne.symm h.1), if_pos rfl, ih h.2]

variable {f : α → α} {b : List α}

/-- Text whose characters are changed one by one, the quotes kept and none made. -/
theorem inside_map (hf : ∀ c, f c = quote ↔ c = quote) (quoted : Bool) (text : List α) :
    inside quote quoted (text.map f) = inside quote quoted text := by
  induction text generalizing quoted with
  | nil => rfl
  | cons c text ih => simp only [List.map_cons, inside, hf, ih]

theorem outside_map (hf : ∀ c, f c = quote ↔ c = quote) (quoted : Bool) (text : List α) :
    outside quote quoted (text.map f) = (outside quote quoted text).map f := by
  induction text generalizing quoted with
  | nil => rfl
  | cons c text ih =>
    simp only [List.map_cons, outside, hf, ih]
    split
    · rfl
    · split <;> rfl

/-- A piece without the stop outside its quotes is passed over. -/
theorem cutAt_append (quoted : Bool) (h : stop ∉ outside quote quoted a) (b : List α) :
    cutAt quote stop quoted (a ++ b) =
      (cutAt quote stop (inside quote quoted a) b).map fun cut => (a ++ cut.1, cut.2) := by
  induction a generalizing quoted with
  | nil => simp [inside]
  | cons c a ih =>
    simp only [List.cons_append, cutAt, inside]
    simp only [outside] at h
    by_cases hc : c = quote
    · rw [if_pos hc] at h
      rw [if_pos hc, if_pos hc, ih _ h, Option.map_map]
      rfl
    · rw [if_neg hc] at h
      rw [if_neg hc, if_neg hc]
      cases quoted with
      | true =>
        rw [if_pos rfl] at h
        rw [if_neg (by simp), ih _ h, Option.map_map]
        rfl
      | false =>
        rw [if_neg (by simp), List.mem_cons, not_or] at h
        rw [if_neg (by simp [Ne.symm h.1]), ih _ h.2, Option.map_map]
        rfl

theorem cutAt_none (h : stop ∉ outside quote quoted a) : cutAt quote stop quoted a = none := by
  have hcut := cutAt_append quote quoted h []
  rw [List.append_nil] at hcut
  rw [hcut]
  rfl

theorem cutAt_stop (hstop : stop ≠ quote) (h : stop ∉ outside quote quoted a)
    (hclosed : inside quote quoted a = false) (b : List α) :
    cutAt quote stop quoted (a ++ stop :: b) = some (a, b) := by
  rw [cutAt_append quote quoted h, hclosed, cutAt, if_neg hstop, if_pos ⟨rfl, rfl⟩]
  simp

/-- What a cut says of the text: the piece before it holds no stop outside and ends closed. -/
theorem of_cutAt (h : cutAt quote stop quoted text = some (a, b)) :
    text = a ++ stop :: b ∧ stop ∉ outside quote quoted a ∧ inside quote quoted a = false := by
  induction text generalizing quoted a with
  | nil => cases h
  | cons c text ih =>
    simp only [cutAt] at h
    split at h
    · rename_i hc
      rcases Option.map_eq_some_iff.mp h with ⟨⟨a', b'⟩, hcut, heq⟩
      cases heq
      rcases ih hcut with ⟨rfl, hout, hin⟩
      simp [outside, inside, hc, hout, hin]
    · rename_i hc
      split at h
      · rename_i hhere
        cases h
        simp [outside, inside, hhere.1, hhere.2]
      · rename_i hhere
        rcases Option.map_eq_some_iff.mp h with ⟨⟨a', b'⟩, hcut, heq⟩
        cases heq
        rcases ih hcut with ⟨rfl, hout, hin⟩
        cases quoted with
        | true => simp [outside, inside, hc, hout, hin]
        | false =>
          have hne : stop ≠ c := fun heq => hhere ⟨heq.symm, rfl⟩
          simp [outside, inside, hc, hout, hin, hne]

theorem of_cutAt_none (h : cutAt quote stop quoted text = none) :
    stop ∉ outside quote quoted text := by
  induction text generalizing quoted with
  | nil => simp [outside]
  | cons c text ih =>
    simp only [cutAt] at h
    simp only [outside]
    split at h
    · rename_i hc
      rw [if_pos hc]
      exact ih (Option.map_eq_none_iff.mp h)
    · rename_i hc
      rw [if_neg hc]
      split at h
      · cases h
      · rename_i hhere
        have hrest := ih (Option.map_eq_none_iff.mp h)
        cases quoted with
        | true => simpa using hrest
        | false =>
          have hne : stop ≠ c := fun heq => hhere ⟨heq.symm, rfl⟩
          simp [hne, hrest]

/-- Text after the cut changes nothing before it. -/
theorem cutAt_more (hstop : stop ≠ quote) (h : cutAt quote stop quoted text = some (a, b))
    (more : List α) :
    cutAt quote stop quoted (text ++ more) = some (a, b ++ more) := by
  rcases of_cutAt quote h with ⟨rfl, hout, hin⟩
  rw [List.append_assoc, List.cons_append]
  exact cutAt_stop quote hstop hout hin _

/-! ## Splitting -/

theorem split_ne_nil (sep : α) (quoted : Bool) (text : List α) :
    split quote sep quoted text ≠ [] := by
  induction text generalizing quoted with
  | nil => simp [split]
  | cons c text ih =>
    simp only [split]
    split
    · simp
    · simp [List.modifyHead_eq_nil_iff, ih]

/-- A piece without the separator outside its quotes begins the first part. -/
theorem split_append (hsep : sep ≠ quote) (quoted : Bool) (h : sep ∉ outside quote quoted a)
    (b : List α) :
    split quote sep quoted (a ++ b) =
      (split quote sep (inside quote quoted a) b).modifyHead (a ++ ·) := by
  induction a generalizing quoted with
  | nil =>
    cases hb : split quote sep quoted b with
    | nil => exact absurd hb (split_ne_nil quote sep quoted b)
    | cons part parts => simp [inside, hb]
  | cons c a ih =>
    have hnot : ¬ (c = sep ∧ quoted = false) := by
      rintro ⟨rfl, rfl⟩
      simp [outside, hsep] at h
    have hrest : sep ∉ outside quote (if c = quote then !quoted else quoted) a := by
      simp only [outside] at h
      split at h
      · rename_i hc
        simpa [hc] using h
      · rename_i hc
        cases quoted
        · rw [if_neg (by simp), List.mem_cons, not_or] at h
          simpa [hc] using h.2
        · simpa [hc] using h
    simp only [List.cons_append, split, inside]
    rw [if_neg hnot, ih _ hrest, List.modifyHead_modifyHead]
    rfl

theorem split_whole (hsep : sep ≠ quote) (h : sep ∉ outside quote quoted a) :
    split quote sep quoted a = [a] := by
  have hsplit := split_append quote hsep quoted h []
  rw [List.append_nil] at hsplit
  rw [hsplit]
  simp [split]

theorem split_sep (hsep : sep ≠ quote) (h : sep ∉ outside quote quoted a)
    (hclosed : inside quote quoted a = false) (b : List α) :
    split quote sep quoted (a ++ sep :: b) = a :: split quote sep false b := by
  rw [split_append quote hsep quoted h, hclosed, split, if_pos ⟨rfl, rfl⟩]
  simp

/-- The first part ends where the text does, or at a separator. -/
theorem split_first {first : List α} {rest : List (List α)}
    (h : split quote sep quoted text = first :: rest) :
    text = first ∨ ∃ more, text = first ++ sep :: more := by
  induction text generalizing quoted first with
  | nil =>
    cases h
    exact Or.inl rfl
  | cons c text ih =>
    simp only [split] at h
    split at h
    · rename_i hc
      cases h
      exact Or.inr ⟨text, by rw [hc.1]; rfl⟩
    · cases hsplit : split quote sep (if c = quote then !quoted else quoted) text with
      | nil => exact absurd hsplit (split_ne_nil quote sep _ text)
      | cons first' rest' =>
        rw [hsplit, List.modifyHead_cons] at h
        cases h
        rcases ih hsplit with htext | ⟨more, htext⟩
        · exact Or.inl (by rw [htext])
        · exact Or.inr ⟨more, by rw [htext]; rfl⟩

/-- Splitting loses no character but the separator. -/
theorem countP_split {p : α → Bool} (hp : p sep = false) (quoted : Bool) (text : List α) :
    ((split quote sep quoted text).map (List.countP p)).sum = text.countP p := by
  induction text generalizing quoted with
  | nil => rfl
  | cons c text ih =>
    simp only [split]
    split
    · rename_i hc
      rw [List.map_cons, List.sum_cons, ih, List.countP_cons, hc.1, hp]
      simp
    · cases hsplit : split quote sep (if c = quote then !quoted else quoted) text with
      | nil => exact absurd hsplit (split_ne_nil quote sep _ text)
      | cons first rest =>
        have hrest := ih (if c = quote then !quoted else quoted)
        rw [hsplit, List.map_cons, List.sum_cons] at hrest
        rw [List.modifyHead_cons, List.map_cons, List.sum_cons, List.countP_cons,
          List.countP_cons]
        omega

theorem mem_split {part : List α} (h : part ∈ split quote sep quoted text) (hc : c ∈ part) :
    c ∈ text := by
  induction text generalizing quoted part with
  | nil =>
    rw [List.mem_singleton.mp h] at hc
    exact hc
  | cons d text ih =>
    simp only [split] at h
    split at h
    · rcases List.mem_cons.mp h with rfl | h
      · cases hc
      · exact .tail _ (ih h hc)
    · cases hsplit : split quote sep (if d = quote then !quoted else quoted) text with
      | nil =>
        rw [hsplit] at h
        cases h
      | cons first rest =>
        rw [hsplit, List.modifyHead_cons] at h
        rcases List.mem_cons.mp h with rfl | h
        · rcases List.mem_cons.mp hc with rfl | hc
          · exact .head _
          · exact List.mem_cons_of_mem _
              (ih (by rw [hsplit]; exact .head _) hc)
        · exact List.mem_cons_of_mem _
            (ih (by rw [hsplit]; exact .tail _ h) hc)

/-- A part of a text split: it ends closed and holds no separator outside. -/
structure Part (sep : α) (text part : List α) : Prop where
  closed : inside quote false part = false
  sep_out : sep ∉ outside quote false part
  subset : ∀ c ∈ outside quote false part, c ∈ outside quote false text

theorem split_parts (hsep : sep ≠ quote) (h : inside quote quoted text = false) :
    ∃ first rest, split quote sep quoted text = first :: rest ∧
      inside quote quoted first = false ∧ sep ∉ outside quote quoted first ∧
      (∀ c ∈ outside quote quoted first, c ∈ outside quote quoted text) ∧
      ∀ part ∈ rest, inside quote false part = false ∧ sep ∉ outside quote false part ∧
        ∀ c ∈ outside quote false part, c ∈ outside quote quoted text := by
  induction text generalizing quoted with
  | nil => exact ⟨[], [], rfl, h, by simp [outside], by simp, by simp⟩
  | cons c text ih =>
    rcases ih h with ⟨first, rest, hsplit, hin, hout, hsub, hrest⟩
    by_cases hc : c = sep ∧ quoted = false
    · rcases hc with ⟨rfl, rfl⟩
      rw [if_neg hsep] at hsplit hin hout hsub
      refine ⟨[], first :: rest, by simp [split, hsplit], rfl, by simp [outside], by
        simp [outside], ?_⟩
      rintro part hpart
      rcases List.mem_cons.mp hpart with rfl | hpart
      · exact ⟨hin, hout, fun d hd => by simp [outside, hsep, hsub d hd]⟩
      · rcases hrest part hpart with ⟨hpin, hpout, hpsub⟩
        rw [if_neg hsep] at hpsub
        exact ⟨hpin, hpout, fun d hd => by simp [outside, hsep, hpsub d hd]⟩
    · have hmore : ∀ d ∈ outside quote (if c = quote then !quoted else quoted) text,
          d ∈ outside quote quoted (c :: text) := by
        intro d hd
        by_cases hq : c = quote
        · simpa [outside, hq] using hd
        · cases quoted
          · simp [outside, hq] at hd ⊢
            exact Or.inr hd
          · simpa [outside, hq] using hd
      refine ⟨c :: first, rest, by simp [split, hc, hsplit], hin, ?_, ?_, ?_⟩
      · by_cases hq : c = quote
        · simpa [outside, hq] using hout
        · cases quoted
          · rw [if_neg hq] at hout
            have hne : sep ≠ c := fun heq => hc ⟨heq.symm, rfl⟩
            simp [outside, hq, hne, hout]
          · simpa [outside, hq] using hout
      · intro d hd
        by_cases hq : c = quote
        · apply hmore
          apply hsub
          simpa [outside, hq] using hd
        · cases quoted
          · simp only [outside, if_neg hq, Bool.false_eq_true, if_false, List.mem_cons] at hd ⊢
            rw [if_neg hq] at hsub
            exact hd.imp_right (hsub d)
          · apply hmore
            apply hsub
            simpa [outside, hq] using hd
      · intro part hpart
        rcases hrest part hpart with ⟨hpin, hpout, hpsub⟩
        exact ⟨hpin, hpout, fun d hd => hmore d (hpsub d hd)⟩

theorem split_part (hsep : sep ≠ quote) (h : inside quote false text = false) :
    ∀ part ∈ split quote sep false text, Part quote sep text part := by
  intro part hpart
  rcases split_parts quote hsep h with ⟨first, rest, hsplit, hin, hout, hsub, hrest⟩
  rw [hsplit] at hpart
  rcases List.mem_cons.mp hpart with rfl | hpart
  · exact ⟨hin, hout, hsub⟩
  · rcases hrest part hpart with ⟨hpin, hpout, hpsub⟩
    exact ⟨hpin, hpout, hpsub⟩

/-- Parts joined by the separator are read back as they are. -/
theorem split_intercalate (hsep : sep ≠ quote) (hne : parts ≠ [])
    (hin : ∀ part ∈ parts, inside quote false part = false)
    (hout : ∀ part ∈ parts, sep ∉ outside quote false part) :
    split quote sep false ([sep].intercalate parts) = parts := by
  induction parts with
  | nil => exact absurd rfl hne
  | cons part parts ih =>
    have hhead := hout part (.head _)
    cases parts with
    | nil => simpa using split_whole quote hsep hhead
    | cons next parts =>
      rw [List.intercalate_cons_cons, List.append_assoc, List.singleton_append,
        split_sep quote hsep hhead (hin part (.head _)),
        ih (by simp) (fun p hp => hin p (.tail _ hp))
          (fun p hp => hout p (.tail _ hp))]

/-- Parts joined by the separator, and more after one. -/
theorem split_intercalate_append (hsep : sep ≠ quote) (hne : parts ≠ [])
    (hin : ∀ part ∈ parts, inside quote false part = false)
    (hout : ∀ part ∈ parts, sep ∉ outside quote false part) (more : List α) :
    split quote sep false ([sep].intercalate parts ++ sep :: more) =
      parts ++ split quote sep false more := by
  induction parts with
  | nil => exact absurd rfl hne
  | cons part parts ih =>
    have hhead := hout part (.head _)
    have hclosed := hin part (.head _)
    cases parts with
    | nil =>
      rw [List.intercalate_singleton, split_sep quote hsep hhead hclosed]
      rfl
    | cons next parts =>
      rw [List.intercalate_cons_cons, List.append_assoc, List.append_assoc,
        List.singleton_append, split_sep quote hsep hhead hclosed,
        ih (by simp) (fun p hp => hin p (.tail _ hp))
          (fun p hp => hout p (.tail _ hp))]
      rfl

theorem inside_intercalate (hsep : sep ≠ quote)
    (hin : ∀ part ∈ parts, inside quote false part = false) :
    inside quote false ([sep].intercalate parts) = false := by
  induction parts with
  | nil => rfl
  | cons part parts ih =>
    have hrest := ih fun p hp => hin p (.tail _ hp)
    have hpart := hin part (.head _)
    cases parts with
    | nil => simpa using hpart
    | cons next parts =>
      rw [List.intercalate_cons_cons, inside_append, inside_append, hpart]
      simpa [inside, hsep] using hrest

theorem outside_intercalate (hsep : sep ≠ quote)
    (hin : ∀ part ∈ parts, inside quote false part = false)
    (h : c ∈ outside quote false ([sep].intercalate parts)) :
    c = sep ∨ ∃ part ∈ parts, c ∈ outside quote false part := by
  induction parts with
  | nil => cases h
  | cons part parts ih =>
    have hpart := hin part (.head _)
    cases parts with
    | nil => exact Or.inr ⟨part, .head _, by simpa using h⟩
    | cons next parts =>
      rw [List.intercalate_cons_cons, List.append_assoc, outside_append, hpart,
        List.mem_append] at h
      rcases h with h | h
      · exact Or.inr ⟨part, .head _, h⟩
      · rw [List.singleton_append] at h
        simp only [outside, if_neg hsep, Bool.false_eq_true, if_false, List.mem_cons] at h
        rcases h with h | h
        · exact Or.inl h
        · rcases ih (fun p hp => hin p (.tail _ hp)) h with h | ⟨p, hp, hc⟩
          · exact Or.inl h
          · exact Or.inr ⟨p, .tail _ hp, hc⟩

end Mailo.Library.Quoted
