import Mailo.Pim.Line

/-!
# Folding and unfolding

`unfold` keeps what it knows of the logical line it builds; all of it can be read off that line,
so it joins each physical line by the lines before it alone. Folded text is then rejoined as it
was, unless a fold stands where a soft break would.
-/

namespace Mailo.Pim.Line

open Domain Library

/-- The characters that end a physical line. -/
def isBreak (c : Char) : Bool := c == '\n' || c == '\r'

theorem physicals_eq (text : List Char) : physicals text = text.splitOnP isBreak := by
  unfold physicals
  induction text with
  | nil => rfl
  | cons c text ih =>
    rw [List.splitOn_cons_eq_if_modifyHead, List.splitOnP_cons_eq_if_modifyHead, ← ih]
    cases hsplit : text.splitOn '\n' with
    | nil => exact absurd hsplit (List.splitOn_ne_nil _ _)
    | cons first rest =>
      have hne := List.splitOn_ne_nil '\r' first
      by_cases hn : c = '\n'
      · simp [hn, isBreak]
      · by_cases hr : c = '\r'
        · simp [hr, isBreak, List.splitOn_cons_eq_if_modifyHead]
        · cases hfirst : first.splitOn '\r' with
          | nil => exact absurd hfirst hne
          | cons p ps =>
            simp [hn, hr, isBreak, List.splitOn_cons_eq_if_modifyHead, hfirst]

variable {c : Char} {a line text head last lead before cur : List Char}
  {out done : List (List Char)}

theorem physicals_break (hc : isBreak c = true) (a b : List Char) :
    physicals (a ++ c :: b) = physicals a ++ physicals b := by
  simp only [physicals_eq]
  exact List.splitOnP_append_cons a b hc

theorem physicals_whole (h : ∀ c ∈ a, isBreak c = false) : physicals a = [a] := by
  rw [physicals_eq]
  exact List.splitOnP_eq_singleton h

theorem physicals_crlf (h : ∀ c ∈ a, isBreak c = false) (b : List Char) :
    physicals (a ++ '\r' :: '\n' :: b) = a :: [] :: physicals b := by
  rw [physicals_break rfl, physicals_whole h]
  have hb : physicals ('\n' :: b) = physicals [] ++ physicals b :=
    physicals_break (c := '\n') rfl [] b
  rw [hb]
  rfl

theorem physicals_append (h : ∀ c ∈ a, isBreak c = false) (b : List Char) :
    ∃ x xs, physicals (a ++ b) = (a ++ x) :: xs := by
  rw [physicals_eq]
  induction a with
  | nil =>
    cases hb : b.splitOnP isBreak with
    | nil => exact absurd hb (List.splitOnP_ne_nil _ _)
    | cons x xs => exact ⟨x, xs, hb⟩
  | cons c a ih =>
    rcases ih fun d hd => h d (.tail _ hd) with ⟨x, xs, hx⟩
    refine ⟨x, xs, ?_⟩
    rw [List.cons_append, List.splitOnP_cons_eq_if_modifyHead, hx]
    simp [h c List.mem_cons_self]

theorem physicals_unbroken (h : line ∈ physicals text) :
    ∀ c ∈ line, isBreak c = false := by
  rw [physicals_eq] at h
  induction text generalizing line with
  | nil =>
    simp at h
    simp [h]
  | cons c text ih =>
    rw [List.splitOnP_cons_eq_if_modifyHead] at h
    split at h
    · rcases List.mem_cons.mp h with rfl | h
      · simp
      · exact ih h
    · rename_i hc
      cases hsplit : text.splitOnP isBreak with
      | nil => exact absurd hsplit (List.splitOnP_ne_nil _ _)
      | cons first rest =>
        rw [hsplit, List.modifyHead_cons] at h
        rcases List.mem_cons.mp h with rfl | h
        · intro d hd
          rcases List.mem_cons.mp hd with rfl | hd
          · simpa using hc
          · exact ih (by rw [hsplit]; exact .head _) d hd
        · exact ih (by rw [hsplit]; exact .tail _ h)

theorem splitHead_stop (hout : ':' ∉ Quoted.outside '"' false head)
    (hin : Quoted.inside '"' false head = false) (value : List Char) :
    splitHead (head ++ ':' :: value) = some (head, value) :=
  Quoted.cutAt_stop '"' (by decide) hout hin value

theorem of_splitHead {value : List Char} (h : splitHead line = some (head, value)) :
    line = head ++ ':' :: value ∧ ':' ∉ Quoted.outside '"' false head ∧
      Quoted.inside '"' false head = false :=
  Quoted.of_cutAt '"' h

theorem quotedPrintable_head {b va vb : List Char} (ha : splitHead a = some (head, va))
    (hb : splitHead b = some (head, vb)) : quotedPrintable a = quotedPrintable b := by
  unfold quotedPrintable
  rw [ha, hb]

theorem quotedPrintable_none (ha : splitHead a = none) :
    quotedPrintable a = false := by
  unfold quotedPrintable
  rw [ha]

/-- Once a line has its head, what is added changes neither. -/
theorem quotedPrintable_more (ha : (splitHead a).isSome) (b : List Char) :
    (splitHead (a ++ b)).isSome ∧ quotedPrintable (a ++ b) = quotedPrintable a := by
  rcases Option.isSome_iff_exists.mp ha with ⟨⟨head, value⟩, hcut⟩
  have hmore : splitHead (a ++ b) = some (head, value ++ b) :=
    Quoted.cutAt_more '"' (by decide) hcut b
  exact ⟨by rw [hmore]; rfl, quotedPrintable_head hmore hcut⟩

theorem splitHead_soft (ha : (splitHead (a ++ ['='])).isSome) :
    (splitHead a).isSome := by
  rcases Option.isSome_iff_exists.mp ha with ⟨⟨head, value⟩, hcut⟩
  rcases of_splitHead hcut with ⟨htext, hout, hin⟩
  rcases List.eq_nil_or_concat value with rfl | ⟨value, last, rfl⟩
  · have hlast := congrArg List.getLast? htext
    simp at hlast
  · rw [List.concat_eq_append, ← List.cons_append, ← List.append_assoc] at htext
    rw [(List.append_inj' htext rfl).1, splitHead_stop hout hin]
    rfl

theorem splitHead_colon (ha : (splitHead a).isSome) : a.contains ':' = true := by
  rcases Option.isSome_iff_exists.mp ha with ⟨⟨head, value⟩, hcut⟩
  rw [(of_splitHead hcut).1]
  simp

/-! ## Joining by the lines before -/

/-- Whether the logical line so far ends in a soft break. -/
def soft (last : List Char) : Bool := last.getLast? == some '=' && quotedPrintable last

/-- A physical line joined to the logical lines before it. -/
def rejoin (out : List (List Char)) (physical : List Char) : List (List Char) :=
  if physical.isEmpty then out
  else
    match out.getLast? with
    | none => out ++ [physical]
    | some last =>
      if soft last then out.dropLast ++ [last.dropLast ++ physical]
      else if Unfolding.continues physical then out.dropLast ++ [last ++ physical.tail]
      else out ++ [physical]

/-- What the loop keeps is true of the line it builds. -/
structure Unfolding.Knows (st : Unfolding) (last : List Char) : Prop where
  getLast : st.out.getLast? = some last
  softBreak : st.softBreak = soft last
  colon : st.colon = last.contains ':'
  qp : ∀ known, st.qp = some known → (splitHead last).isSome ∧ known = quotedPrintable last

theorem Unfolding.watch_eq (st : Unfolding) (last : List Char)
    (hlast : st.out.getLast? = some last) (hcolon : st.colon = last.contains ':')
    (hqp : ∀ known, st.qp = some known →
      (splitHead last).isSome ∧ known = quotedPrintable last) :
    st.watch.Knows last ∧ st.watch.out = st.out := by
  unfold Unfolding.watch
  rw [hlast]
  dsimp only
  by_cases hend : last.getLast? = some '=' ∧ st.colon = true
  · rw [if_pos hend]
    have hsoft : soft last = quotedPrintable last := by simp [soft, hend.1]
    cases hq : st.qp with
    | some known =>
      dsimp only
      have hknown := (hqp known hq).2
      exact ⟨⟨hlast, by rw [hsoft, hknown], hcolon, hq ▸ hqp⟩, rfl⟩
    | none =>
      by_cases hhead : (splitHead last).isSome = true
      · rw [if_pos hhead]
        refine ⟨⟨hlast, hsoft.symm, hcolon, fun known hknown => ?_⟩, rfl⟩
        exact ⟨hhead, (Option.some.inj hknown).symm⟩
      · rw [if_neg hhead]
        have hnone : quotedPrintable last = false :=
          quotedPrintable_none (by simpa using hhead)
        refine ⟨⟨hlast, by rw [hsoft, hnone], hcolon, fun known hknown => ?_⟩, rfl⟩
        cases hknown
  · rw [if_neg hend]
    have hsoft : soft last = false := by
      by_cases hlastc : last.getLast? = some '='
      · have hno : last.contains ':' = false := by
          rw [← hcolon]
          simpa [hlastc] using hend
        have hnone : splitHead last = none := by
          by_contra hsome
          have hyes := splitHead_colon (Option.isSome_iff_ne_none.mpr hsome)
          rw [hno] at hyes
          cases hyes
        simp [soft, quotedPrintable_none hnone]
      · simp [soft, hlastc]
    exact ⟨⟨hlast, hsoft.symm, hcolon, hqp⟩, rfl⟩

/-- The state between two physical lines. -/
def Unfolding.Sound (st : Unfolding) : Prop :=
  st.out = [] ∨ ∃ last, st.Knows last

theorem Unfolding.step_sound {st : Unfolding} (h : st.Sound) (physical : List Char) :
    (st.step physical).Sound ∧ (st.step physical).out = rejoin st.out physical := by
  unfold Unfolding.step rejoin
  by_cases hblank : physical.isEmpty = true
  · rw [if_pos hblank, if_pos hblank]
    exact ⟨h, rfl⟩
  · rw [if_neg hblank, if_neg hblank]
    -- a line of its own knows nothing yet
    have hnew : ∀ b : Bool, b = (false || physical.contains ':') →
        ({ st with
            out := st.out ++ [physical], colon := b, qp := none } : Unfolding).watch.Sound ∧
          ({ st with
            out := st.out ++ [physical], colon := b, qp := none } : Unfolding).watch.out =
            st.out ++ [physical] := by
      intro b hb
      have hw := Unfolding.watch_eq
        { st with out := st.out ++ [physical], colon := b, qp := none } physical (by simp) (by simpa using hb) (fun _ hq => by cases hq)
      exact ⟨Or.inr ⟨physical, hw.1⟩, hw.2⟩
    rcases h with hempty | ⟨last, hknows⟩
    · have hjoin : st.join physical =
          ({ st with out := st.out ++ [physical], colon := false, qp := none }, physical) := by
        simp [Unfolding.join, hempty]
      rw [hjoin]
      have hnone : st.out.getLast? = none := by simp [hempty]
      rw [hnone]
      exact hnew _ rfl
    · rw [hknows.getLast]
      unfold Unfolding.join
      rw [hknows.getLast]
      dsimp only
      rw [hknows.softBreak]
      by_cases hsoft : soft last = true
      · rw [if_pos hsoft, if_pos hsoft]
        have hend : last.getLast? = some '=' := by
          simp only [soft, Bool.and_eq_true, beq_iff_eq] at hsoft
          exact hsoft.1
        have hlast : last = last.dropLast ++ ['='] := by
          obtain ⟨init, rfl⟩ := List.getLast?_eq_some_iff.mp hend
          simp
        have hw := Unfolding.watch_eq
          { st with
            out := st.out.dropLast ++ [last.dropLast ++ physical]
            colon := st.colon || physical.contains ':' }
          (last.dropLast ++ physical) (by simp)
          (by
            rw [hknows.colon, List.contains_append]
            conv_lhs => rw [hlast]
            simp)
          (fun known hq => by
            rcases hknows.qp known hq with ⟨hhead, hval⟩
            rw [hlast] at hhead
            have hcut := splitHead_soft hhead
            have hmore := quotedPrintable_more hcut
            refine ⟨(hmore physical).1, ?_⟩
            rw [(hmore physical).2, ← (hmore ['=']).2, ← hlast]
            exact hval)
        exact ⟨Or.inr ⟨_, hw.1⟩, hw.2⟩
      · rw [if_neg hsoft, if_neg hsoft]
        by_cases hcont : Unfolding.continues physical = true
        · rw [if_pos hcont, if_pos hcont]
          have hw := Unfolding.watch_eq
            { st with
              out := st.out.dropLast ++ [last ++ physical.tail]
              colon := st.colon || physical.tail.contains ':' }
            (last ++ physical.tail) (by simp)
            (by
              rw [hknows.colon, List.contains_append])
            (fun known hq => by
              rcases hknows.qp known hq with ⟨hhead, hval⟩
              have hmore := quotedPrintable_more hhead physical.tail
              exact ⟨hmore.1, by rw [hmore.2]; exact hval⟩)
          exact ⟨Or.inr ⟨_, hw.1⟩, hw.2⟩
        · rw [if_neg hcont, if_neg hcont]
          exact hnew _ rfl

theorem unfold_eq (text : List Char) : unfold text = (physicals text).foldl rejoin [] := by
  have hrun : ∀ (ps : List (List Char)) (st : Unfolding), st.Sound →
      (ps.foldl Unfolding.step st).out = ps.foldl rejoin st.out := by
    intro ps
    induction ps with
    | nil => exact fun _ _ => rfl
    | cons p ps ih =>
      intro st hst
      rcases Unfolding.step_sound hst p with ⟨hsound, hout⟩
      rw [List.foldl_cons, List.foldl_cons, ih _ hsound, hout]
  exact hrun _ _ (Or.inl rfl)

/-! ## What joining keeps -/

theorem rejoin_blank (out : List (List Char)) : rejoin out [] = out := rfl

theorem rejoin_new (out : List (List Char)) {physical : List Char} (hne : physical ≠ [])
    (hsoft : ∀ last, out.getLast? = some last → soft last = false)
    (hcont : out = [] ∨ Unfolding.continues physical = false) :
    rejoin out physical = out ++ [physical] := by
  unfold rejoin
  rw [if_neg (by simpa using hne)]
  cases hlast : out.getLast? with
  | none => rfl
  | some last =>
    dsimp only
    rcases hcont with rfl | hcont
    · cases hlast
    · rw [if_neg (by simp [hsoft last hlast]), if_neg (by simp [hcont])]

theorem rejoin_fold (done : List (List Char)) (hsoft : soft last = false) (text : List Char) :
    rejoin (done ++ [last]) (' ' :: text) = done ++ [last ++ text] := by
  unfold rejoin
  rw [if_neg (by simp), List.getLast?_concat]
  dsimp only
  rw [if_neg (by simp [hsoft]), if_pos (by rfl), List.dropLast_concat, List.tail_cons]

theorem rejoin_soft (done : List (List Char)) (hsoft : soft last = true) {physical : List Char}
    (hne : physical ≠ []) :
    rejoin (done ++ [last]) physical = done ++ [last.dropLast ++ physical] := by
  unfold rejoin
  rw [if_neg (by simpa using hne), List.getLast?_concat]
  dsimp only
  rw [if_pos hsoft, List.dropLast_concat]

theorem soft_end (h : soft last = true) : last.getLast? = some '=' := by
  simp only [soft, Bool.and_eq_true, beq_iff_eq] at h
  exact h.1

/-- The first logical line keeps how it began: only the `=` of a soft break is taken from it. -/
theorem rejoin_head (hend : lead.getLast? ≠ some '=')
    (hout : ∃ first, out.head? = some first ∧ lead <+: first) (physical : List Char) :
    ∃ first, (rejoin out physical).head? = some first ∧ lead <+: first := by
  rcases hout with ⟨first, hfirst, hpre⟩
  unfold rejoin
  split
  · exact ⟨first, hfirst, hpre⟩
  · cases out with
    | nil => cases hfirst
    | cons x rest =>
      cases hfirst
      cases rest with
      | cons y rest =>
        obtain ⟨last, hlast⟩ : ∃ last, (first :: y :: rest).getLast? = some last :=
          ⟨_, List.getLast?_eq_some_getLast (by simp)⟩
        rw [hlast]
        dsimp only
        refine ⟨first, ?_, hpre⟩
        split
        · simp
        · split <;> simp
      | nil =>
        simp only [List.getLast?_singleton]
        split
        · rename_i hsoft
          refine ⟨first.dropLast ++ physical, by simp, ?_⟩
          rcases hpre with ⟨more, rfl⟩
          have hmore : more ≠ [] := by
            rintro rfl
            rw [List.append_nil] at hsoft
            exact hend (soft_end hsoft)
          rw [List.dropLast_append_of_ne_nil hmore, List.append_assoc]
          exact List.prefix_append _ _
        · split
          · exact ⟨first ++ physical.tail, by simp, hpre.trans (List.prefix_append _ _)⟩
          · exact ⟨first, by simp, hpre⟩

theorem rejoin_run_head (hend : lead.getLast? ≠ some '=')
    (hout : ∃ first, out.head? = some first ∧ lead <+: first) (ps : List (List Char)) :
    ∃ first, (ps.foldl rejoin out).head? = some first ∧ lead <+: first := by
  induction ps generalizing out with
  | nil => exact hout
  | cons p ps ih => exact ih (rejoin_head hend hout p)

/-- No logical line holds a line break. -/
theorem unfold_unbroken (h : line ∈ unfold text) :
    ∀ c ∈ line, isBreak c = false := by
  have hrun : ∀ (ps out : List (List Char)), (∀ p ∈ ps, ∀ c ∈ p, isBreak c = false) →
      (∀ l ∈ out, ∀ c ∈ l, isBreak c = false) →
      ∀ l ∈ ps.foldl rejoin out, ∀ c ∈ l, isBreak c = false := by
    intro ps
    induction ps with
    | nil => exact fun _ _ hout => hout
    | cons p ps ih =>
      intro out hps hout
      apply ih _ fun q hq => hps q (.tail _ hq)
      have hp := hps p (.head _)
      intro l hl c hc
      unfold rejoin at hl
      split at hl
      · exact hout l hl c hc
      · split at hl
        · rcases List.mem_append.mp hl with hl | hl
          · exact hout l hl c hc
          · rw [List.mem_singleton.mp hl] at hc
            exact hp c hc
        · rename_i last hlast
          have hmem := List.mem_of_getLast? hlast
          split at hl
          · rcases List.mem_append.mp hl with hl | hl
            · exact hout l ((List.dropLast_sublist _).subset hl) c hc
            · rw [List.mem_singleton.mp hl, List.mem_append] at hc
              exact hc.elim (fun hc => hout last hmem c ((List.dropLast_sublist _).subset hc)) (hp c)
          · split at hl
            · rcases List.mem_append.mp hl with hl | hl
              · exact hout l ((List.dropLast_sublist _).subset hl) c hc
              · rw [List.mem_singleton.mp hl, List.mem_append] at hc
                exact hc.elim (hout last hmem c) fun hc => hp c (List.mem_of_mem_tail hc)
            · rcases List.mem_append.mp hl with hl | hl
              · exact hout l hl c hc
              · rw [List.mem_singleton.mp hl] at hc
                exact hp c hc
  rw [unfold_eq] at h
  exact hrun _ [] (fun p hp => physicals_unbroken hp) (by simp) line h

/-! ## Where a line is folded -/

/-- The octets of its physical line that a logical line so far has written. -/
def column (written : List Char) : Nat :=
  written.foldl
    (fun width c => if width + c.utf8Size > foldAt then 1 + c.utf8Size else width + c.utf8Size) 0

theorem column_concat (written : List Char) (c : Char) :
    column (written ++ [c]) =
      if column written + c.utf8Size > foldAt then 1 + c.utf8Size
      else column written + c.utf8Size := by
  simp [column]

def FoldsHard (before text : List Char) : Prop :=
  ∀ upto c rest, text = upto ++ c :: rest → column (before ++ upto) + c.utf8Size > foldAt →
    soft (before ++ upto) = false

theorem FoldsHard.tail {before : List Char} {c : Char} {text : List Char}
    (h : FoldsHard before (c :: text)) : FoldsHard (before ++ [c]) text := by
  intro upto d rest htext hcol
  rw [List.append_assoc, List.singleton_append] at hcol ⊢
  exact h (c :: upto) d rest (by rw [htext]; rfl) hcol

/-- The reader in the middle of a folded line: `cur` is its physical line so far, and `before`
all of the logical one. -/
structure Midway (done out : List (List Char)) (before cur : List Char) : Prop where
  unbroken : ∀ c ∈ cur, isBreak c = false
  joins : ∀ text, rejoin out (cur ++ text) = done ++ [before ++ text]

theorem Midway.next (h : Midway done out before cur) (hc : isBreak c = false) :
    Midway done out (before ++ [c]) (cur ++ [c]) where
  unbroken d hd := by
    rcases List.mem_append.mp hd with hd | hd
    · exact h.unbroken d hd
    · rw [List.mem_singleton.mp hd]
      exact hc
  joins text := by
    rw [List.append_assoc, List.append_assoc]
    exact h.joins _

theorem Midway.folded (done : List (List Char)) (hsoft : soft before = false)
    (hc : isBreak c = false) :
    Midway done (done ++ [before]) (before ++ [c]) [' ', c] where
  unbroken d hd := by
    rcases List.mem_cons.mp hd with rfl | hd
    · rfl
    · rw [List.mem_singleton.mp hd]
      exact hc
  joins text := by
    show rejoin _ (' ' :: c :: text) = _
    rw [rejoin_fold done hsoft, List.append_assoc]
    rfl

/-- A line begun: nothing before it is continued. -/
theorem Midway.first (hc : isBreak c = false)
    (hsoft : ∀ last, out.getLast? = some last → soft last = false)
    (hcont : out = [] ∨ Unfolding.continues [c] = false) : Midway out out [c] [c] where
  unbroken d hd := by
    rw [List.mem_singleton.mp hd]
    exact hc
  joins text := by
    apply rejoin_new out (by simp) hsoft
    exact hcont.imp_right fun h => h

/-- The reader at a line break: the physical line is joined, and the next one begins. -/
theorem Midway.ends (h : Midway done out before cur) (more : List Char) :
    (physicals (cur ++ '\r' :: '\n' :: more)).foldl rejoin out =
      (physicals more).foldl rejoin (done ++ [before]) := by
  rw [physicals_crlf h.unbroken, List.foldl_cons, List.foldl_cons]
  have hjoin := h.joins []
  rw [List.append_nil, List.append_nil] at hjoin
  rw [hjoin]
  rfl

/-- Folded text read up to any place in it. -/
theorem Midway.run {done out : List (List Char)} {before cur : List Char}
    (h : Midway done out before cur) {text : List Char} (hunb : ∀ c ∈ text, isBreak c = false)
    (hhard : FoldsHard before text) (after more : List Char) :
    ∃ out' cur', Midway done out' (before ++ text) cur' ∧
      (physicals (cur ++ (foldFrom (column before) (text ++ after) ++ more))).foldl rejoin out =
        (physicals (cur' ++ (foldFrom (column (before ++ text)) after ++ more))).foldl rejoin
          out' := by
  induction text generalizing out before cur with
  | nil =>
    refine ⟨out, cur, ?_, ?_⟩
    · rw [List.append_nil]
      exact h
    · rw [List.append_nil, List.nil_append]
  | cons c text ih =>
    have hc := hunb c (.head _)
    have hrest : ∀ d ∈ text, isBreak d = false := fun d hd => hunb d (.tail _ hd)
    have hcol := column_concat before c
    have hassoc : before ++ c :: text = (before ++ [c]) ++ text := by simp
    by_cases hfold : column before + c.utf8Size > foldAt
    · rw [if_pos hfold] at hcol
      have hsoft : soft before = false := by
        have hat := hhard [] c text rfl
        rw [List.append_nil] at hat
        exact hat hfold
      rcases ih (Midway.folded done hsoft hc) hrest hhard.tail with ⟨out', cur', hmid, hrun⟩
      refine ⟨out', cur', hassoc ▸ hmid, ?_⟩
      rw [List.cons_append, foldFrom, if_pos hfold, ← hcol, hassoc, ← hrun]
      exact h.ends (' ' :: c :: (foldFrom (column (before ++ [c])) (text ++ after) ++ more))
    · rw [if_neg hfold] at hcol
      rcases ih (h.next hc) hrest hhard.tail with ⟨out', cur', hmid, hrun⟩
      refine ⟨out', cur', hassoc ▸ hmid, ?_⟩
      rw [List.cons_append, foldFrom, if_neg hfold, ← hcol, hassoc, ← hrun, List.cons_append,
        List.append_assoc]
      rfl

/-- Folded text read back, and whatever is written after it. -/
theorem Midway.whole (h : Midway done out before cur) (hunb : ∀ c ∈ text, isBreak c = false)
    (hhard : FoldsHard before text) (more : List Char) :
    (physicals (cur ++ (foldFrom (column before) text ++ more))).foldl rejoin out =
      (physicals more).foldl rejoin (done ++ [before ++ text]) := by
  rcases h.run hunb hhard [] more with ⟨out', cur', hmid, hrun⟩
  rw [List.append_nil] at hrun
  rw [hrun]
  exact hmid.ends more

/-- Text read back as it was has no fold where a soft break would stand. -/
theorem Midway.hard (h : Midway done out before cur) (hdone : done = [])
    (hunb : ∀ c ∈ text, isBreak c = false)
    (hread : (physicals (cur ++ foldFrom (column before) text)).foldl rejoin out =
      [before ++ text]) : FoldsHard before text := by
  subst hdone
  induction text generalizing out before cur with
  | nil =>
    intro upto c rest htext
    simp at htext
  | cons c text ih =>
    have hc := hunb c (.head _)
    have hrest : ∀ d ∈ text, isBreak d = false := fun d hd => hunb d (.tail _ hd)
    have hcol := column_concat before c
    have hassoc : before ++ c :: text = (before ++ [c]) ++ text := by simp
    have hlater (hnow : column before + c.utf8Size > foldAt → soft before = false)
        (htail : FoldsHard (before ++ [c]) text) : FoldsHard before (c :: text) := by
      intro upto d rest htext hat
      cases upto with
      | nil =>
        rw [List.append_nil] at hat ⊢
        cases htext
        exact hnow hat
      | cons e upto =>
        cases htext
        have hsame : before ++ c :: upto = (before ++ [c]) ++ upto := by simp
        rw [hsame] at hat ⊢
        exact htail upto d rest rfl hat
    by_cases hfold : column before + c.utf8Size > foldAt
    · rw [if_pos hfold] at hcol
      rw [foldFrom, if_pos hfold, h.ends, List.nil_append] at hread
      cases hsoft : soft before with
      | false =>
        apply hlater fun _ => hsoft
        apply ih hrest _ (Midway.folded [] hsoft hc)
        rw [← hassoc, hcol]
        exact hread
      | true =>
        -- the `=` is taken for a soft break, and a space stands in its place
        exfalso
        obtain ⟨init, rfl⟩ := List.getLast?_eq_some_iff.mp (soft_end hsoft)
        have hphys : ∀ d ∈ [' ', c], isBreak d = false := by
          intro d hd
          rcases List.mem_cons.mp hd with rfl | hd
          · rfl
          · rw [List.mem_singleton.mp hd]
            exact hc
        rcases physicals_append hphys (foldFrom (1 + c.utf8Size) text) with ⟨x, xs, hx⟩
        rw [show ' ' :: c :: foldFrom (1 + c.utf8Size) text =
          [' ', c] ++ foldFrom (1 + c.utf8Size) text from rfl, hx, List.foldl_cons] at hread
        have hjoin : rejoin ([] ++ [init ++ ['=']]) ([' ', c] ++ x) =
            [] ++ [(init ++ ['=']).dropLast ++ ([' ', c] ++ x)] :=
          rejoin_soft [] hsoft (by simp)
        rw [List.dropLast_concat] at hjoin
        rw [List.nil_append] at hjoin
        rw [hjoin] at hread
        have hlead : (init ++ [' ']).getLast? ≠ some '=' := by simp
        rw [List.nil_append] at hread
        have hfirst : ∃ first, [init ++ ([' ', c] ++ x)].head? = some first ∧
            init ++ [' '] <+: first := ⟨_, rfl, by simp⟩
        have hhead := rejoin_run_head hlead hfirst xs
        rw [hread] at hhead
        rcases hhead with ⟨first, hfirst, hpre⟩
        cases hfirst
        rcases hpre with ⟨more, hmore⟩
        simp at hmore
    · rw [if_neg hfold] at hcol
      apply hlater fun h => absurd h hfold
      apply ih hrest _ (h.next hc)
      rw [← hassoc, hcol, List.append_assoc]
      rw [foldFrom, if_neg hfold] at hread
      exact hread

theorem fold_cons (c : Char) (text : List Char) :
    fold (c :: text) = c :: foldFrom (column [c]) text := by
  have hsize := Char.utf8Size_le_four c
  have hsmall : ¬ 0 + c.utf8Size > foldAt := by
    unfold foldAt
    omega
  have hcol : column [c] = 0 + c.utf8Size := by
    rw [← List.nil_append [c], column_concat]
    exact if_neg hsmall
  rw [fold, foldFrom, if_neg hsmall, hcol]

/-- A folded line after others is read back as a line of its own. -/
theorem fold_read (hne : text ≠ []) (hunb : ∀ c ∈ text, isBreak c = false)
    (hhard : FoldsHard [] text) (hout : ∀ last, out.getLast? = some last → soft last = false)
    (hcont : out = [] ∨ Unfolding.continues text = false) (more : List Char) :
    (physicals (fold text ++ more)).foldl rejoin out =
      (physicals more).foldl rejoin (out ++ [text]) := by
  cases text with
  | nil => exact absurd rfl hne
  | cons c text =>
    have hc := hunb c (.head _)
    have hmid := Midway.first hc hout (hcont.imp_right fun h => h)
    rw [fold_cons]
    exact hmid.whole (fun d hd => hunb d (.tail _ hd)) hhard.tail more

theorem unfold_whole (hne : text ≠ []) (hunb : ∀ c ∈ text, isBreak c = false)
    (hhard : FoldsHard [] text) :
    unfold (fold text) = [text] := by
  have hread : (physicals (fold text ++ [])).foldl rejoin [] =
      (physicals []).foldl rejoin ([] ++ [text]) :=
    fold_read hne hunb hhard (fun _ h => by cases h) (Or.inl rfl) []
  rw [List.append_nil] at hread
  rw [unfold_eq, hread]
  rfl

theorem unfold_hard (hunb : ∀ c ∈ text, isBreak c = false) (hread : unfold (fold text) = [text]) :
    FoldsHard [] text := by
  cases text with
  | nil =>
    intro upto c rest htext
    simp at htext
  | cons c text =>
    have hc := hunb c (.head _)
    have hmid : Midway [] [] [c] [c] := Midway.first hc (fun _ h => by cases h) (Or.inl rfl)
    rw [unfold_eq, fold_cons] at hread
    have htail := hmid.hard rfl (fun d hd => hunb d (.tail _ hd)) hread
    intro upto d rest htext hcol
    cases upto with
    | nil =>
      rw [List.append_nil] at hcol
      have hsize := Char.utf8Size_le_four d
      have hzero : column [] = 0 := rfl
      unfold foldAt at hcol
      omega
    | cons e upto =>
      cases htext
      exact htail upto d rest rfl hcol

/-- A folded line begins the first logical line read, as far as no soft break can stand in it. -/
theorem unfold_lead (hne : lead ≠ []) (hunb : ∀ c ∈ lead, isBreak c = false)
    (hend : lead.getLast? ≠ some '=')
    (hsoft : ∀ upto c rest, lead = upto ++ c :: rest → soft upto = false) (after : List Char) :
    ∃ more, (unfold (fold (lead ++ after))).head? = some (lead ++ more) := by
  cases lead with
  | nil => exact absurd rfl hne
  | cons c lead =>
    have hc := hunb c (.head _)
    have hmid : Midway [] [] [c] [c] := Midway.first hc (fun _ h => by cases h) (Or.inl rfl)
    have hhard : FoldsHard [c] lead := by
      intro upto d rest htext _
      exact hsoft (c :: upto) d rest (by rw [htext]; rfl)
    rcases hmid.run (fun d hd => hunb d (.tail _ hd)) hhard after []
      with ⟨out, cur, hthen, hrun⟩
    rw [List.append_nil, List.append_nil] at hrun
    rw [unfold_eq, List.cons_append, fold_cons, show ∀ x, c :: x = [c] ++ x from fun _ => rfl,
      hrun]
    rcases physicals_append hthen.unbroken
      (foldFrom (column ([c] ++ lead)) after) with ⟨x, xs, hx⟩
    rw [hx, List.foldl_cons, hthen.joins]
    have hfirst : ∃ first, ([] ++ [[c] ++ lead ++ x]).head? = some first ∧
        c :: lead <+: first := ⟨_, rfl, x, rfl⟩
    rcases rejoin_run_head hend hfirst xs with ⟨first, hread, more, rfl⟩
    exact ⟨more, hread⟩

def octets (text : List Char) : Nat := (text.map Char.utf8Size).sum

theorem octets_concat (text : List Char) (c : Char) :
    octets (text ++ [c]) = octets text + c.utf8Size := by
  simp [octets]

/-- Every physical line of folded text holds at most 75 octets, its own line breaks or not. -/
theorem physicals_octets {width : Nat} (hunb : ∀ c ∈ cur, isBreak c = false)
    (hcur : octets cur ≤ width) (hwidth : width ≤ foldAt) (text : List Char) :
    ∀ line ∈ physicals (cur ++ foldFrom width text), octets line ≤ foldAt := by
  induction text generalizing cur width with
  | nil =>
    intro line hline
    rw [foldFrom, physicals_crlf hunb] at hline
    have hnil : physicals [] = [[]] := rfl
    rw [hnil] at hline
    simp only [List.mem_cons, List.not_mem_nil, or_false, or_self] at hline
    rcases hline with rfl | rfl
    · exact Nat.le_trans hcur hwidth
    · exact Nat.zero_le _
  | cons c text ih =>
    have hsize := Char.utf8Size_le_four c
    -- what follows `c`, on the physical line `now` ends or goes on
    have hnext (now : List Char) (w : Nat) (hnow : ∀ d ∈ now, isBreak d = false)
        (hle : octets now + c.utf8Size ≤ w) (hw : w ≤ foldAt) :
        ∀ line ∈ physicals (now ++ c :: foldFrom w text), octets line ≤ foldAt := by
      intro line hline
      cases hc : isBreak c with
      | true =>
        rw [physicals_break hc, physicals_whole hnow] at hline
        rcases List.mem_cons.mp hline with rfl | hline
        · omega
        · have hnil : octets [] ≤ w := Nat.zero_le _
          exact ih (by simp) hnil hw line hline
      | false =>
        have hassoc : now ++ c :: foldFrom w text = (now ++ [c]) ++ foldFrom w text := by simp
        rw [hassoc] at hline
        apply ih _ (by rw [octets_concat]; exact hle) hw line hline
        intro d hd
        rcases List.mem_append.mp hd with hd | hd
        · exact hnow d hd
        · rw [List.mem_singleton.mp hd]
          exact hc
    intro line hline
    by_cases hfold : width + c.utf8Size > foldAt
    · rw [foldFrom, if_pos hfold, physicals_crlf hunb] at hline
      rcases List.mem_cons.mp hline with rfl | hline
      · exact Nat.le_trans hcur hwidth
      · rcases List.mem_cons.mp hline with rfl | hline
        · exact Nat.zero_le _
        · have hone : octets [' '] = 1 := rfl
          exact hnext [' '] (1 + c.utf8Size) (by simp [isBreak]) (by omega)
            (by unfold foldAt; omega) line hline
    · rw [foldFrom, if_neg hfold] at hline
      exact hnext cur (width + c.utf8Size) hunb (by omega) (by omega) line hline

/-- Folded text is the text cut between characters, with a line break and a space at each cut. -/
theorem foldFrom_cuts (width : Nat) (text : List Char) :
    ∃ (first : List Char) (rest : List (List Char)), text = first ++ rest.flatten ∧
      foldFrom width text =
        first ++ rest.flatMap (fun piece => '\r' :: '\n' :: ' ' :: piece) ++ ['\r', '\n'] := by
  induction text generalizing width with
  | nil => exact ⟨[], [], rfl, rfl⟩
  | cons c text ih =>
    rw [foldFrom]
    split
    · rcases ih (1 + c.utf8Size) with ⟨first, rest, htext, hfold⟩
      exact ⟨[], (c :: first) :: rest, by simp [htext], by simp [hfold]⟩
    · rcases ih (width + c.utf8Size) with ⟨first, rest, htext, hfold⟩
      exact ⟨c :: first, rest, by simp [htext], by simp [hfold]⟩

end Mailo.Pim.Line
