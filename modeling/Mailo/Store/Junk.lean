import Mailo.Domain.Remote
import Mailo.Library.Tally
import Mathlib.Data.List.Induction

/-!
# What the junk filter has learned

Both stores keep, beside what each message was learned as, how many messages taught each word of
an account and how many were learned of each kind. Learning and forgetting change those counts a
message at a time; `down` is how a count goes down, and never goes below nought.
-/

namespace Mailo.Store

open Domain Library

/-- What a message was learned as. -/
inductive Judged where
  | spam | ham
deriving DecidableEq

def Judged.other : Judged → Judged
  | spam => ham
  | ham => spam

/-- In how many messages of each kind. -/
structure Counts where
  spam : Nat
  ham : Nat
deriving DecidableEq

def Counts.zero : Counts := ⟨0, 0⟩

def Counts.of (counts : Counts) : Judged → Nat
  | .spam => counts.spam
  | .ham => counts.ham

/-- One of the two counts changed. -/
def Counts.change (counts : Counts) (judged : Judged) (f : Nat → Nat) : Counts :=
  match judged with
  | .spam => { counts with spam := f counts.spam }
  | .ham => { counts with ham := f counts.ham }

/-- The counts of an account and of its words. -/
structure JunkRows where
  words : Table (AccountId × String) Counts
  totals : Table AccountId Counts

namespace JunkRows

def empty : JunkRows := ⟨.empty, .empty⟩

/-- One more under a key, whose row is made where there is none. -/
def up {κ : Type} [DecidableEq κ] (table : Table κ Counts) (key : κ) (judged : Judged) :
    Table κ Counts :=
  table.set key (((table.get key).getD .zero).change judged (· + 1))

/-- One message and its words counted. -/
def count (rows : JunkRows) (account : AccountId) (words : List String) (judged : Judged) :
    JunkRows where
  totals := up rows.totals account judged
  words := words.foldl (fun table word => up table (account, word) judged) rows.words

def takeBack (down : Nat → Nat) (rows : JunkRows) (account : AccountId) (words : List String)
    (judged : Judged) : JunkRows where
  totals := rows.totals.modify account fun counts => counts.change judged down
  words := words.foldl (fun table word =>
    table.modify (account, word) fun counts => counts.change judged down) rows.words

end JunkRows

/-- A commit's row for the junk filter. -/
inductive JunkRow where
  | taught (account : AccountId) (message : MessageId) (words : List String) (judged : Judged)
  | forgotten (account : AccountId) (message : MessageId) (judged : Judged)
deriving DecidableEq

def JunkRow.account : JunkRow → AccountId
  | taught account _ _ _ | forgotten account _ _ => account

def JunkRow.message : JunkRow → MessageId
  | taught _ message _ _ | forgotten _ message _ => message

def JunkRow.words : JunkRow → List String
  | taught _ _ words _ => words
  | forgotten _ _ _ => []

/-- What a message was learned as, and the words it was learned from. -/
structure Lesson where
  account : AccountId
  judged : Judged
  words : List String
deriving DecidableEq

structure MemoryJunk where
  learned : Table MessageId Lesson
  rows : JunkRows

namespace MemoryJunk

def empty : MemoryJunk := ⟨.empty, .empty⟩

variable (down : Nat → Nat)

def junkLearn (junk : MemoryJunk) (account : AccountId) (message : MessageId)
    (words : List String) (judged : Judged) : MemoryJunk :=
  let prior := junk.learned.get message
  if prior.any fun lesson => lesson.judged = judged then junk
  else
    let rows := match prior with
      | some lesson => junk.rows.takeBack down account lesson.words lesson.judged
      | none => junk.rows
    ⟨junk.learned.set message ⟨account, judged, words⟩, rows.count account words judged⟩

def junkForget (junk : MemoryJunk) (message : MessageId) (judged : Judged) : MemoryJunk :=
  match junk.learned.get message with
  | none => junk
  | some lesson =>
    if lesson.judged ≠ judged then junk
    else
      ⟨junk.learned.erase message, junk.rows.takeBack down lesson.account lesson.words judged⟩

def writeRow (junk : MemoryJunk) : JunkRow → MemoryJunk
  | .taught account message words judged => junk.junkLearn down account message words judged
  | .forgotten _ message judged => junk.junkForget down message judged

def run (rows : List JunkRow) : MemoryJunk := rows.foldl (writeRow down) empty

end MemoryJunk

/-- A message's words as the column keeps them, one a line. -/
def joined (words : List String) : List Char := ['\n'].intercalate (words.map String.toList)

/-- A line without the CR that its LF follows. -/
def stripCr (line : List Char) : List Char :=
  if line.getLast? = some '\r' then line.dropLast else line

/-- The lines of a text, `line` the one being read; an LF at the very end begins no line. -/
def splitFrom (line : List Char) : List Char → List (List Char)
  | [] => if line.isEmpty then [] else [line]
  | c :: rest => if c = '\n' then stripCr line :: splitFrom [] rest else splitFrom (line ++ [c]) rest

def split (stored : List Char) : List String := (splitFrom [] stored).map String.ofList

structure SqliteJunk where
  learned : Table MessageId (Judged × List Char)
  rows : JunkRows

namespace SqliteJunk

def empty : SqliteJunk := ⟨.empty, .empty⟩

variable (down : Nat → Nat)

def junkLearn (junk : SqliteJunk) (account : AccountId) (message : MessageId)
    (words : List String) (judged : Judged) : SqliteJunk :=
  let prior := junk.learned.get message
  if prior.any fun row => row.1 = judged then junk
  else
    let rows := match prior with
      | some (_, taught) => junk.rows.takeBack down account (split taught) judged.other
      | none => junk.rows
    ⟨junk.learned.set message (judged, joined words), rows.count account words judged⟩

def junkForget (junk : SqliteJunk) (account : AccountId) (message : MessageId)
    (judged : Judged) : SqliteJunk :=
  match junk.learned.get message with
  | none => junk
  | some (verdict, taught) =>
    if verdict = judged then
      ⟨junk.learned.erase message, junk.rows.takeBack down account (split taught) judged⟩
    else junk

def writeRow (junk : SqliteJunk) : JunkRow → SqliteJunk
  | .taught account message words judged => junk.junkLearn down account message words judged
  | .forgotten account message judged => junk.junkForget down account message judged

def run (rows : List JunkRow) : SqliteJunk := rows.foldl (writeRow down) empty

end SqliteJunk

/-! ## Junk counts are a recount

Every count of the junk filter is the number of recorded lessons it stands for, after any commits,
so what is taken back is always there to take.
-/

@[simp] theorem Counts.of_zero (judged : Judged) : Counts.zero.of judged = 0 := by
  cases judged <;> rfl

@[simp] theorem Counts.of_change (counts : Counts) (judged other : Judged) (f : Nat → Nat) :
    (counts.change judged f).of other =
      if other = judged then f (counts.of other) else counts.of other := by
  cases judged <;> cases other <;> rfl

/-- What a row counts; nothing where there is none. -/
def tally (row : Option Counts) (judged : Judged) : Nat := (row.getD .zero).of judged

theorem tally_up (row : Option Counts) (judged other : Judged) :
    tally (some ((row.getD .zero).change judged (· + 1))) other =
      tally row other + if other = judged then 1 else 0 := by
  rw [tally, Option.getD_some, Counts.of_change]
  split <;> rfl

variable {judged : Judged}

variable {rest : Nat} {p : Lesson → Prop} {down : Nat → Nat}

theorem tally_down {row : Option Counts} {other : Judged}
    (h : tally row other = rest + if other = judged then 1 else 0) :
    tally (row.map fun counts => counts.change judged Nat.pred) other = rest := by
  cases row with
  | none =>
    have hzero : tally none other = 0 := Counts.of_zero other
    rw [hzero] at h
    rw [Option.map_none, hzero]
    omega
  | some counts =>
    change counts.of other = _ at h
    rw [Option.map_some, tally, Option.getD_some, Counts.of_change]
    split at h
    · rename_i heq
      rw [if_pos heq, h, Nat.pred_succ]
    · rename_i hne
      rw [if_neg hne, h, Nat.add_zero]

variable {words : List String}

theorem keys_nodup (account : AccountId) (nodup : words.Nodup) :
    (words.map fun word => (account, word)).Nodup :=
  nodup.map fun _ _ h => (Prod.mk.inj h).2

theorem mem_wordKeys (account other : AccountId) (words : List String) (word : String) :
    (other, word) ∈ words.map (fun word => (account, word)) ↔ other = account ∧ word ∈ words := by
  simp only [List.mem_map, Prod.mk.injEq]
  constructor
  · rintro ⟨held, hheld, rfl, rfl⟩
    exact ⟨rfl, hheld⟩
  · rintro ⟨rfl, hword⟩
    exact ⟨word, hword, rfl, rfl⟩

namespace JunkRows

theorem get_up {κ : Type} [DecidableEq κ] (judged : Judged) (table : Table κ Counts)
    (key other : κ) : (up table key judged).get other =
      if other = key then some (((table.get other).getD .zero).change judged (· + 1))
      else table.get other := by
  rw [up, Table.get_set]
  by_cases h : other = key
  · rw [if_pos h, if_pos h, h]
  · rw [if_neg h, if_neg h]

variable {account : AccountId}

theorem words_count (rows : JunkRows) {other : AccountId}
    (nodup : words.Nodup) (judged : Judged) (word : String) :
    (rows.count account words judged).words.get (other, word) =
      if other = account ∧ word ∈ words then
        some (((rows.words.get (other, word)).getD .zero).change judged (· + 1))
      else rows.words.get (other, word) := by
  have hfold := @Table.get_foldl _ _ _ (fun table key => up table key judged)
    (fun row => some ((row.getD .zero).change judged (· + 1))) (get_up judged) _
    (keys_nodup account nodup) rows.words (other, word)
  simp only [List.foldl_map, mem_wordKeys] at hfold
  exact hfold

theorem words_takeBack (down : Nat → Nat) (rows : JunkRows) {other : AccountId} (nodup : words.Nodup) (judged : Judged) (word : String) :
    (rows.takeBack down account words judged).words.get (other, word) =
      if other = account ∧ word ∈ words then
        (rows.words.get (other, word)).map fun counts => counts.change judged down
      else rows.words.get (other, word) := by
  have hmodify := fun (table : Table (AccountId × String) Counts) key other =>
    Table.get_modify table key other fun counts => counts.change judged down
  have hfold := @Table.get_foldl _ _ _ _ (Option.map fun counts => counts.change judged down)
    hmodify _ (keys_nodup account nodup) rows.words (other, word)
  simp only [List.foldl_map, mem_wordKeys] at hfold
  exact hfold

end JunkRows

/-- How many lessons of an account are of a kind. -/
def recount (lessons : Table MessageId Lesson) (account : AccountId) (judged : Judged) : Nat :=
  lessons.count fun lesson => lesson.account = account ∧ lesson.judged = judged

def recountOf (lessons : Table MessageId Lesson) (account : AccountId) (word : String)
    (judged : Judged) : Nat :=
  lessons.count fun lesson =>
    (lesson.account = account ∧ word ∈ lesson.words) ∧ lesson.judged = judged

/-- Every count is the recount. -/
structure Recounts (rows : JunkRows) (lessons : Table MessageId Lesson) : Prop where
  totals : ∀ account judged,
    tally (rows.totals.get account) judged = recount lessons account judged
  words : ∀ account word judged,
    tally (rows.words.get (account, word)) judged = recountOf lessons account word judged

variable {lesson : Lesson}

theorem worth_of [DecidablePred p] (hp : p lesson) (judged : Judged) :
    Table.worth (fun lesson => decide (p lesson ∧ lesson.judged = judged)) lesson =
      if judged = lesson.judged then 1 else 0 := by
  rw [Table.worth]
  by_cases h : judged = lesson.judged
  · rw [if_pos h, if_pos (decide_eq_true ⟨hp, h.symm⟩)]
  · have hnot : ¬(p lesson ∧ lesson.judged = judged) := fun hboth => h hboth.2.symm
    rw [if_neg h, decide_eq_false hnot]
    rfl

theorem worth_not [DecidablePred p] (hp : ¬p lesson) (judged : Judged) :
    Table.worth (fun lesson => decide (p lesson ∧ lesson.judged = judged)) lesson = 0 := by
  have hnot : ¬(p lesson ∧ lesson.judged = judged) := fun hboth => hp hboth.1
  rw [Table.worth, decide_eq_false hnot]
  rfl

namespace Recounts

variable {rows : JunkRows} {lessons : Table MessageId Lesson} {message : MessageId}
  {lesson : Lesson}

theorem same {others : Table MessageId Lesson} (h : Recounts rows lessons)
    (hsame : Table.Same lessons others) : Recounts rows others where
  totals account judged := by rw [h.totals, recount, recount, Table.count_same hsame]
  words account word judged := by rw [h.words, recountOf, recountOf, Table.count_same hsame]

/-- A new lesson is counted once. -/
theorem count (h : Recounts rows lessons) (lesson : Lesson)
    (hnew : lessons.get message = none) (nodup : lesson.words.Nodup) :
    Recounts (rows.count lesson.account lesson.words lesson.judged)
      (lessons.set message lesson) where
  totals account judged := by
    rw [recount, Table.count_set_new hnew, ← recount, ← h.totals]
    change tally ((JunkRows.up _ _ _).get account) judged = _
    rw [JunkRows.get_up]
    by_cases hown : lesson.account = account
    · rw [if_pos hown.symm, tally_up, worth_of hown]
    · rw [if_neg (Ne.symm hown), worth_not hown, Nat.add_zero]
  words account word judged := by
    rw [recountOf, Table.count_set_new hnew, ← recountOf, ← h.words, JunkRows.words_count _ nodup]
    by_cases hown : lesson.account = account ∧ word ∈ lesson.words
    · rw [if_pos ⟨hown.1.symm, hown.2⟩, tally_up, worth_of hown]
    · have hnot : ¬(account = lesson.account ∧ word ∈ lesson.words) :=
        fun hboth => hown ⟨hboth.1.symm, hboth.2⟩
      rw [if_neg hnot, worth_not hown, Nat.add_zero]

/-- A recorded lesson is taken back once. -/
theorem takeBack (h : Recounts rows lessons) (hheld : lessons.get message = some lesson)
    (nodup : lesson.words.Nodup) :
    Recounts (rows.takeBack Nat.pred lesson.account lesson.words lesson.judged)
      (lessons.erase message) where
  totals account judged := by
    have hcount := h.totals account judged
    rw [recount, Table.count_erase hheld, ← recount] at hcount
    change tally ((Table.modify _ _ _).get account) judged = _
    rw [Table.get_modify]
    by_cases hown : lesson.account = account
    · rw [worth_of hown] at hcount
      rw [if_pos hown.symm, tally_down hcount]
    · rw [worth_not hown] at hcount
      rw [if_neg (Ne.symm hown), hcount, Nat.add_zero]
  words account word judged := by
    have hcount := h.words account word judged
    rw [recountOf, Table.count_erase hheld, ← recountOf] at hcount
    rw [JunkRows.words_takeBack _ _ nodup]
    by_cases hown : lesson.account = account ∧ word ∈ lesson.words
    · rw [worth_of hown] at hcount
      rw [if_pos ⟨hown.1.symm, hown.2⟩, tally_down hcount]
    · have hnot : ¬(account = lesson.account ∧ word ∈ lesson.words) :=
        fun hboth => hown ⟨hboth.1.symm, hboth.2⟩
      rw [worth_not hown] at hcount
      rw [if_neg hnot, hcount, Nat.add_zero]

end Recounts

theorem change_any (hdown : ∀ n, down (n + 1) = n) {counts : Counts}
    (h : counts.of judged = rest + 1) :
    counts.change judged down = counts.change judged Nat.pred := by
  cases judged with
  | spam =>
    change counts.spam = rest + 1 at h
    simp only [Counts.change, h, hdown, Nat.pred_succ]
  | ham =>
    change counts.ham = rest + 1 at h
    simp only [Counts.change, h, hdown, Nat.pred_succ]

theorem Recounts.takeBack_any {rows : JunkRows} {lessons : Table MessageId Lesson}
    {message : MessageId} (h : Recounts rows lessons) (hheld : lessons.get message = some lesson)
    (nodup : lesson.words.Nodup) (hdown : ∀ n, down (n + 1) = n) :
    rows.takeBack down lesson.account lesson.words lesson.judged =
      rows.takeBack Nat.pred lesson.account lesson.words lesson.judged := by
  have htotals : ∀ counts, rows.totals.get lesson.account = some counts →
      counts.change lesson.judged down = counts.change lesson.judged Nat.pred := by
    intro counts hcounts
    have hcount := h.totals lesson.account lesson.judged
    rw [hcounts, recount, Table.count_erase hheld,
      worth_of (p := fun held => held.account = lesson.account) rfl, if_pos rfl] at hcount
    exact change_any hdown hcount
  have hwords : ∀ key ∈ lesson.words.map (fun word => (lesson.account, word)),
      ∀ counts, rows.words.get key = some counts →
        counts.change lesson.judged down = counts.change lesson.judged Nat.pred := by
    intro key hkey counts hcounts
    obtain ⟨word, hword, rfl⟩ := List.mem_map.mp hkey
    have hcount := h.words lesson.account word lesson.judged
    rw [hcounts, recountOf, Table.count_erase hheld,
      worth_of (p := fun held => held.account = lesson.account ∧ word ∈ held.words) ⟨rfl, hword⟩,
      if_pos rfl] at hcount
    exact change_any hdown hcount
  have hfold := Table.foldl_modify_congr (keys_nodup lesson.account nodup) rows.words hwords
  simp only [List.foldl_map] at hfold
  rw [JunkRows.takeBack, JunkRows.takeBack, Table.modify_congr htotals, hfold]

/-! ## Runs in memory -/

/-- A commit is about the account its message is on, and lists each word once. -/
def JunkRow.Suits (owner : MessageId → AccountId) (row : JunkRow) : Prop :=
  row.account = owner row.message ∧ row.words.Nodup

instance (owner : MessageId → AccountId) (row : JunkRow) : Decidable (row.Suits owner) :=
  inferInstanceAs (Decidable (_ ∧ _))

/-- The counts are a recount of lessons of the messages' own accounts. -/
structure MemoryJunk.Sound (owner : MessageId → AccountId) (junk : MemoryJunk) : Prop where
  recounts : Recounts junk.rows junk.learned
  own : ∀ message lesson, junk.learned.get message = some lesson →
    lesson.account = owner message ∧ lesson.words.Nodup

namespace MemoryJunk

variable {owner : MessageId → AccountId} {junk : MemoryJunk}

theorem sound_empty : (empty : MemoryJunk).Sound owner where
  recounts := ⟨fun _ judged => Counts.of_zero judged, fun _ _ judged => Counts.of_zero judged⟩
  own _ _ h := by cases h

theorem own_set (h : junk.Sound owner) {message : MessageId} (lesson : Lesson)
    (hown : lesson.account = owner message ∧ lesson.words.Nodup) (other : MessageId)
    (held : Lesson) (hheld : (junk.learned.set message lesson).get other = some held) :
    held.account = owner other ∧ held.words.Nodup := by
  rw [Table.get_set] at hheld
  split at hheld
  · rename_i heq
    cases hheld
    rw [heq]
    exact hown
  · exact h.own other held hheld

/-- Learning keeps the counts a recount: what the message taught before is taken back first. -/
theorem sound_junkLearn (h : junk.Sound owner) {message : MessageId} (judged : Judged) (hown : account = owner message)
    (nodup : words.Nodup) :
    (junk.junkLearn Nat.pred account message words judged).Sound owner := by
  have hkept := own_set h ⟨account, judged, words⟩ ⟨hown, nodup⟩
  unfold junkLearn
  cases hprior : junk.learned.get message with
  | none => exact ⟨h.recounts.count ⟨account, judged, words⟩ hprior nodup, hkept⟩
  | some lesson =>
    dsimp only [Option.any_some]
    split
    · exact h
    · obtain ⟨haccount, hwords⟩ := h.own message lesson hprior
      have hback := h.recounts.takeBack hprior hwords
      have hgone : (junk.learned.erase message).get message = none := by
        rw [Table.get_erase, if_pos rfl]
      have hcount := hback.count ⟨account, judged, words⟩ hgone nodup
      rw [haccount, ← hown] at hcount
      refine ⟨hcount.same ?_, hkept⟩
      intro other
      rw [Table.get_set, Table.get_set, Table.get_erase]
      by_cases heq : other = message
      · rw [if_pos heq, if_pos heq]
      · rw [if_neg heq, if_neg heq, if_neg heq]

theorem sound_junkForget (h : junk.Sound owner) (message : MessageId) (judged : Judged) :
    (junk.junkForget Nat.pred message judged).Sound owner := by
  unfold junkForget
  cases hheld : junk.learned.get message with
  | none => exact h
  | some lesson =>
    dsimp only
    split
    · exact h
    · rename_i hsaid
      rw [← Decidable.not_not.mp hsaid]
      refine ⟨h.recounts.takeBack hheld (h.own message lesson hheld).2, ?_⟩
      intro other held hother
      rw [Table.get_erase] at hother
      split at hother
      · cases hother
      · exact h.own other held hother

variable {row : JunkRow} {log : List JunkRow} {down : Nat → Nat}

theorem sound_writeRow (h : junk.Sound owner) (hrow : row.Suits owner) :
    (junk.writeRow Nat.pred row).Sound owner := by
  cases row with
  | taught account message words judged => exact sound_junkLearn h judged hrow.1 hrow.2
  | forgotten account message judged => exact sound_junkForget h message judged

theorem run_append (down : Nat → Nat) (log : List JunkRow) (row : JunkRow) :
    run down (log ++ [row]) = (run down log).writeRow down row := by
  simp only [run, List.foldl_append, List.foldl_cons, List.foldl_nil]

theorem sound_run (hlog : ∀ row ∈ log, row.Suits owner) :
    (run Nat.pred log).Sound owner := by
  induction log using List.reverseRecOn with
  | nil => exact sound_empty
  | append_singleton log row ih =>
    rw [run_append]
    apply sound_writeRow
    · exact ih fun held hheld => hlog held (List.mem_append_left _ hheld)
    · exact hlog row (List.mem_append_right _ (.head _))

theorem writeRow_any (h : junk.Sound owner) (hdown : ∀ n, down (n + 1) = n)
    (hrow : row.Suits owner) :
    junk.writeRow down row = junk.writeRow Nat.pred row := by
  have hback : ∀ message lesson, junk.learned.get message = some lesson →
      junk.rows.takeBack down lesson.account lesson.words lesson.judged =
        junk.rows.takeBack Nat.pred lesson.account lesson.words lesson.judged :=
    fun message lesson hheld => h.recounts.takeBack_any hheld (h.own message lesson hheld).2 hdown
  cases row with
  | taught account message words judged =>
    simp only [writeRow, junkLearn]
    cases hprior : junk.learned.get message with
    | none => rfl
    | some lesson =>
      have haccount : lesson.account = account :=
        (h.own message lesson hprior).1.trans hrow.1.symm
      dsimp only
      rw [← haccount, hback message lesson hprior]
  | forgotten account message judged =>
    simp only [writeRow, junkForget]
    cases hheld : junk.learned.get message with
    | none => rfl
    | some lesson =>
      dsimp only
      split
      · rfl
      · rename_i hsaid
        rw [← Decidable.not_not.mp hsaid, hback message lesson hheld]

theorem run_any (hdown : ∀ n, down (n + 1) = n) (hlog : ∀ row ∈ log, row.Suits owner) :
    run down log = run Nat.pred log := by
  induction log using List.reverseRecOn with
  | nil => rfl
  | append_singleton log row ih =>
    have hbefore : ∀ held ∈ log, held.Suits owner :=
      fun held hheld => hlog held (List.mem_append_left _ hheld)
    have hrow := hlog row (List.mem_append_right _ (.head _))
    rw [run_append, run_append, ih hbefore, writeRow_any (sound_run hbefore) hdown hrow]

end MemoryJunk

/-- A row is only of an account, and of a word, that a commit taught. -/
structure OnlyTaught (log : List JunkRow) (rows : JunkRows) : Prop where
  totals : ∀ account, rows.totals.get account ≠ none →
    ∃ message words judged, .taught account message words judged ∈ log
  words : ∀ account word, rows.words.get (account, word) ≠ none →
    ∃ message words judged, .taught account message words judged ∈ log ∧ word ∈ words

namespace OnlyTaught

variable {log : List JunkRow} {rows : JunkRows}

theorem append (h : OnlyTaught log rows) (row : JunkRow) : OnlyTaught (log ++ [row]) rows where
  totals account hrow := by
    obtain ⟨message, words, judged, hmem⟩ := h.totals account hrow
    exact ⟨message, words, judged, List.mem_append_left _ hmem⟩
  words account word hrow := by
    obtain ⟨message, words, judged, hmem, hword⟩ := h.words account word hrow
    exact ⟨message, words, judged, List.mem_append_left _ hmem, hword⟩

theorem count (h : OnlyTaught log rows) {message : MessageId} (nodup : words.Nodup)
    (htaught : .taught account message words judged ∈ log) :
    OnlyTaught log (rows.count account words judged) where
  totals other hrow := by
    by_cases heq : other = account
    · exact ⟨message, words, judged, heq ▸ htaught⟩
    · change (JunkRows.up _ _ _).get other ≠ none at hrow
      rw [JunkRows.get_up, if_neg heq] at hrow
      exact h.totals other hrow
  words other word hrow := by
    rw [JunkRows.words_count _ nodup] at hrow
    by_cases hown : other = account ∧ word ∈ words
    · exact ⟨message, words, judged, hown.1 ▸ htaught, hown.2⟩
    · rw [if_neg hown] at hrow
      exact h.words other word hrow

theorem takeBack (h : OnlyTaught log rows) (down : Nat → Nat) (account : AccountId) (nodup : words.Nodup) (judged : Judged) :
    OnlyTaught log (rows.takeBack down account words judged) where
  totals other hrow := by
    apply h.totals other
    intro hnone
    apply hrow
    change (Table.modify _ _ _).get other = none
    rw [Table.get_modify, hnone, Option.map_none, ite_self]
  words other word hrow := by
    apply h.words other word
    intro hnone
    apply hrow
    rw [JunkRows.words_takeBack _ _ nodup, hnone, Option.map_none, ite_self]

end OnlyTaught

theorem MemoryJunk.onlyTaught_run {owner : MessageId → AccountId} {log : List JunkRow}
    (hlog : ∀ row ∈ log, row.Suits owner) : OnlyTaught log (run Nat.pred log).rows := by
  induction log using List.reverseRecOn with
  | nil => exact ⟨fun _ h => absurd rfl h, fun _ _ h => absurd rfl h⟩
  | append_singleton log row ih =>
    have hbefore : ∀ held ∈ log, held.Suits owner :=
      fun held hheld => hlog held (List.mem_append_left _ hheld)
    have hrow := hlog row (List.mem_append_right _ (.head _))
    have hlast : row ∈ log ++ [row] := List.mem_append_right _ (.head _)
    have hrows := (ih hbefore).append row
    have hown := (sound_run hbefore).own
    rw [run_append]
    cases row with
    | taught account message words judged =>
      simp only [writeRow, junkLearn]
      split
      · exact hrows
      · cases hprior : (run Nat.pred log).learned.get message with
        | none => exact hrows.count hrow.2 hlast
        | some lesson =>
          have hback := hrows.takeBack Nat.pred account (hown message lesson hprior).2
            lesson.judged
          exact hback.count hrow.2 hlast
    | forgotten account message judged =>
      simp only [writeRow, junkForget]
      cases hheld : (run Nat.pred log).learned.get message with
      | none => exact hrows
      | some lesson =>
        dsimp only
        split
        · exact hrows
        · exact hrows.takeBack Nat.pred lesson.account (hown message lesson hheld).2 judged

/-- A word the column can keep: it has letters, and no line break. -/
structure Plain (word : String) : Prop where
  some : word.toList ≠ []
  feedless : '\n' ∉ word.toList
  returnless : '\r' ∉ word.toList

instance (word : String) : Decidable (Plain word) :=
  decidable_of_iff (word.toList ≠ [] ∧ '\n' ∉ word.toList ∧ '\r' ∉ word.toList)
    ⟨fun h => ⟨h.1, h.2.1, h.2.2⟩, fun h => ⟨h.some, h.feedless, h.returnless⟩⟩

theorem splitFrom_append {word : List Char} (h : '\n' ∉ word) (line rest : List Char) :
    splitFrom line (word ++ rest) = splitFrom (line ++ word) rest := by
  induction word generalizing line with
  | nil => rw [List.nil_append, List.append_nil]
  | cons c word ih =>
    have hc : c ≠ '\n' := fun heq => h (heq ▸ (.head _))
    have hword : '\n' ∉ word := fun hmem => h (.tail _ hmem)
    rw [List.cons_append, splitFrom, if_neg hc, ih hword, List.append_assoc]
    rfl

theorem stripCr_returnless {line : List Char} (h : '\r' ∉ line) : stripCr line = line := by
  rw [stripCr, if_neg]
  exact fun hlast => h (List.mem_of_getLast? hlast)

theorem splitFrom_joined (plain : ∀ word ∈ words, Plain word) :
    splitFrom [] (joined words) = words.map String.toList := by
  induction words with
  | nil => rfl
  | cons word rest ih =>
    have hword := plain word (.head _)
    cases rest with
    | nil =>
      have halone := splitFrom_append hword.feedless [] []
      rw [List.append_nil, List.nil_append, splitFrom] at halone
      have hsome : word.toList.isEmpty = false := List.isEmpty_eq_false_iff.mpr hword.some
      rw [hsome] at halone
      have hjoined : joined [word] = word.toList := List.append_nil _
      rw [hjoined, halone]
      rfl
    | cons next rest =>
      have hrest := ih fun other hother => plain other (.tail _ hother)
      have hjoined : joined (word :: next :: rest) =
          word.toList ++ '\n' :: joined (next :: rest) := rfl
      rw [hjoined, splitFrom_append hword.feedless, List.nil_append, splitFrom, if_pos rfl, hrest,
        stripCr_returnless hword.returnless]
      rfl

theorem split_joined (plain : ∀ word ∈ words, Plain word) : split (joined words) = words := by
  rw [split, splitFrom_joined plain, List.map_map]
  simp [Function.comp_def, String.ofList_toList]

/-! ## Runs in SQLite -/

/-- The lessons the database keeps, each of its message's account. -/
def SqliteJunk.lessons (owner : MessageId → AccountId) (junk : SqliteJunk) :
    Table MessageId Lesson :=
  junk.learned.mapRows fun message row => ⟨owner message, row.1, split row.2⟩

/-- The database holds what the memory does, each lesson's words one a line. -/
structure Mirrors (owner : MessageId → AccountId) (kept : SqliteJunk) (junk : MemoryJunk) :
    Prop where
  rows : kept.rows = junk.rows
  learned : ∀ message, kept.learned.get message =
    (junk.learned.get message).map fun lesson => (lesson.judged, joined lesson.words)
  own : ∀ message lesson, junk.learned.get message = some lesson →
    lesson.account = owner message ∧ ∀ word ∈ lesson.words, Plain word

namespace Mirrors

variable {owner : MessageId → AccountId} {kept : SqliteJunk} {junk : MemoryJunk}

theorem empty : Mirrors owner .empty .empty := ⟨rfl, fun _ => rfl, fun _ _ h => by cases h⟩

theorem same (h : Mirrors owner kept junk) : Table.Same junk.learned (kept.lessons owner) := by
  intro message
  rw [SqliteJunk.lessons, Table.get_mapRows, h.learned]
  cases hheld : junk.learned.get message with
  | none => rfl
  | some lesson =>
    obtain ⟨haccount, hplain⟩ := h.own message lesson hheld
    rw [Option.map_some, Option.map_some, split_joined hplain, ← haccount]

variable {rows : JunkRows}

/-- What one more lesson leaves on both sides. -/
theorem set (h : Mirrors owner kept junk) {message : MessageId} (judged : Judged)
    (hown : account = owner message) (plain : ∀ word ∈ words, Plain word) :
    Mirrors owner ⟨kept.learned.set message (judged, joined words), rows⟩
      ⟨junk.learned.set message ⟨account, judged, words⟩, rows⟩ where
  rows := rfl
  learned other := by
    rw [Table.get_set, Table.get_set]
    by_cases heq : other = message
    · rw [if_pos heq, if_pos heq, Option.map_some]
    · rw [if_neg heq, if_neg heq, h.learned]
  own other lesson hheld := by
    rw [Table.get_set] at hheld
    split at hheld
    · rename_i heq
      cases hheld
      exact ⟨heq ▸ hown, plain⟩
    · exact h.own other lesson hheld

theorem erase (h : Mirrors owner kept junk) (message : MessageId) :
    Mirrors owner ⟨kept.learned.erase message, rows⟩ ⟨junk.learned.erase message, rows⟩ where
  rows := rfl
  learned other := by
    rw [Table.get_erase, Table.get_erase]
    by_cases heq : other = message
    · rw [if_pos heq, if_pos heq, Option.map_none]
    · rw [if_neg heq, if_neg heq, h.learned]
  own other lesson hheld := by
    rw [Table.get_erase] at hheld
    split at hheld
    · cases hheld
    · exact h.own other lesson hheld

theorem other_of_ne {said : Judged} (h : said ≠ judged) : judged.other = said := by
  cases said <;> cases judged <;> first | rfl | exact absurd rfl h

theorem junkLearn (h : Mirrors owner kept junk) (down : Nat → Nat)
    {message : MessageId} (judged : Judged)
    (hown : account = owner message) (plain : ∀ word ∈ words, Plain word) :
    Mirrors owner (kept.junkLearn down account message words judged)
      (junk.junkLearn down account message words judged) := by
  unfold SqliteJunk.junkLearn MemoryJunk.junkLearn
  rw [h.learned message]
  cases hprior : junk.learned.get message with
  | none =>
    dsimp only [Option.map_none, Option.any_none]
    rw [h.rows]
    exact h.set judged hown plain
  | some lesson =>
    dsimp only [Option.map_some, Option.any_some]
    split
    · exact h
    · rename_i hsaid
      have hne : lesson.judged ≠ judged := fun heq => hsaid (decide_eq_true heq)
      rw [split_joined (h.own message lesson hprior).2, other_of_ne hne, h.rows]
      exact h.set judged hown plain

theorem junkForget (h : Mirrors owner kept junk) (down : Nat → Nat)
    {message : MessageId} (judged : Judged) (hown : account = owner message) :
    Mirrors owner (kept.junkForget down account message judged)
      (junk.junkForget down message judged) := by
  unfold SqliteJunk.junkForget MemoryJunk.junkForget
  rw [h.learned message]
  cases hheld : junk.learned.get message with
  | none => exact h
  | some lesson =>
    obtain ⟨haccount, hplain⟩ := h.own message lesson hheld
    dsimp only [Option.map_some]
    by_cases hsaid : lesson.judged = judged
    · rw [if_pos hsaid, if_neg (not_not_intro hsaid), split_joined hplain, h.rows, haccount,
        ← hown]
      exact h.erase message
    · rw [if_neg hsaid, if_pos hsaid]
      exact h

/-- Both stores stay alike, whatever is below nought. -/
theorem run (down : Nat → Nat) {log : List JunkRow} (hlog : ∀ row ∈ log, row.Suits owner)
    (plain : ∀ row ∈ log, ∀ word ∈ row.words, Plain word) :
    Mirrors owner (SqliteJunk.run down log) (MemoryJunk.run down log) := by
  induction log using List.reverseRecOn with
  | nil => exact empty
  | append_singleton log row ih =>
    have hbefore := ih (fun held hheld => hlog held (List.mem_append_left _ hheld))
      fun held hheld => plain held (List.mem_append_left _ hheld)
    have hrow := hlog row (List.mem_append_right _ (.head _))
    have hwords := plain row (List.mem_append_right _ (.head _))
    rw [MemoryJunk.run_append, SqliteJunk.run, List.foldl_append, List.foldl_cons,
      List.foldl_nil, ← SqliteJunk.run]
    cases row with
    | taught account message words judged =>
      exact hbefore.junkLearn down judged hrow.1 hwords
    | forgotten account message judged => exact hbefore.junkForget down judged hrow.1

end Mirrors

/-- Junk counts of messages that each stay on one account: every count is the recount over the
lessons still recorded, a row is only of what some commit taught, and what is below nought never
matters, so nothing is taken back that was not there. The database says the same of words that
it can keep one a line. -/
theorem counts_recount (owner : MessageId → AccountId) (log : List JunkRow)
    (hlog : ∀ row ∈ log, row.Suits owner) :
    (Recounts (MemoryJunk.run Nat.pred log).rows (MemoryJunk.run Nat.pred log).learned ∧
      OnlyTaught log (MemoryJunk.run Nat.pred log).rows ∧
      ∀ down : Nat → Nat, (∀ n, down (n + 1) = n) →
        (MemoryJunk.run down log).rows = (MemoryJunk.run Nat.pred log).rows) ∧
    ((∀ row ∈ log, ∀ word ∈ row.words, Plain word) →
      Recounts (SqliteJunk.run Nat.pred log).rows
        ((SqliteJunk.run Nat.pred log).lessons owner) ∧
      OnlyTaught log (SqliteJunk.run Nat.pred log).rows ∧
      ∀ down : Nat → Nat, (∀ n, down (n + 1) = n) →
        (SqliteJunk.run down log).rows = (SqliteJunk.run Nat.pred log).rows) := by
  have hsound := MemoryJunk.sound_run hlog
  have htaught := MemoryJunk.onlyTaught_run hlog
  have hany : ∀ down : Nat → Nat, (∀ n, down (n + 1) = n) →
      (MemoryJunk.run down log).rows = (MemoryJunk.run Nat.pred log).rows :=
    fun down hdown => congrArg MemoryJunk.rows (MemoryJunk.run_any hdown hlog)
  constructor
  · exact ⟨hsound.recounts, htaught, hany⟩
  · intro plain
    have hmirrors := fun down => Mirrors.run down hlog plain
    have hrows := (hmirrors Nat.pred).rows
    refine ⟨?_, ?_, ?_⟩
    · rw [hrows]
      exact hsound.recounts.same (hmirrors Nat.pred).same
    · rw [hrows]
      exact htaught
    · intro down hdown
      rw [(hmirrors down).rows, hrows]
      exact hany down hdown

/-- A message learned as spam, then as good mail by other words, then forgotten, beside another. -/
def turnedAndForgotten : List JunkRow :=
  [.taught ⟨0⟩ ⟨1⟩ ["cheap", "pills"] .spam, .taught ⟨0⟩ ⟨2⟩ ["pills"] .ham,
    .taught ⟨0⟩ ⟨1⟩ ["pills"] .ham, .forgotten ⟨0⟩ ⟨1⟩ .ham]

theorem counts_turned :
    tally ((SqliteJunk.run Nat.pred turnedAndForgotten).rows.words.get (⟨0⟩, "pills")) .ham =
      recountOf ((SqliteJunk.run Nat.pred turnedAndForgotten).lessons fun _ => ⟨0⟩) ⟨0⟩ "pills"
        .ham :=
  ((counts_recount (fun _ => ⟨0⟩) turnedAndForgotten (by decide)).2 (by decide)).1.words _ _ _

def taughtAndForgotten (word : String) : List JunkRow :=
  [.taught ⟨0⟩ ⟨1⟩ [word] .spam, .forgotten ⟨0⟩ ⟨1⟩ .spam]

/-- With no lesson recorded the rows stay at nought in both stores, and the database does not take
back a word that holds a line break. -/
theorem forgotten_rows_stay : (∀ row ∈ taughtAndForgotten "cheap", row.Suits fun _ => ⟨0⟩) ∧
    (MemoryJunk.run Nat.pred (taughtAndForgotten "cheap")).learned.rows = [] ∧
    (MemoryJunk.run Nat.pred (taughtAndForgotten "cheap")).rows.words.get (⟨0⟩, "cheap") =
      some .zero ∧
    (SqliteJunk.run Nat.pred (taughtAndForgotten "cheap")).learned.rows = [] ∧
    (SqliteJunk.run Nat.pred (taughtAndForgotten "cheap")).rows.words.get (⟨0⟩, "cheap") =
      some .zero ∧
    (SqliteJunk.run Nat.pred (taughtAndForgotten "a\nb")).learned.rows = [] ∧
    (SqliteJunk.run Nat.pred (taughtAndForgotten "a\nb")).rows.words.get (⟨0⟩, "a\nb") =
      some ⟨1, 0⟩ := by
  decide

end Mailo.Store
