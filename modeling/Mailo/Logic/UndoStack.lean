import Mailo.Logic.TakeBack

/-!
# The stack of what can be taken back

The stack holds the newest gestures, each under a handle of its own. Over any run a handle takes
back the gesture it was given for, and once, less the parts whose mail was deleted forever since.
-/

namespace Mailo.Logic

open Domain

/-- How many operations the window remembers. -/
def undoDepth : Nat := 20

structure UndoHandle where
  raw : Nat
deriving DecidableEq

/-- The most recent gestures, newest last. -/
structure UndoStack where
  entries : List (UndoHandle × List Undo)
  next : Nat

/-- Whether a patch changes one of the messages, or writes one of them anew. -/
def names (messages : List MessageId) (patch : Patch) : Bool :=
  patch.changes.any fun change =>
    match change with
    | .messageUpsert message => messages.contains message.id
    | change => change.touches.any messages.contains

def unnamed (messages : List MessageId) (part : Undo) : Bool :=
  !names messages part.forward && !names messages part.inverse

namespace UndoStack

def empty : UndoStack := ⟨[], 0⟩

variable (stack : UndoStack)

def remember (entries : List Undo) : UndoStack × UndoHandle :=
  let held := stack.entries ++ [(⟨stack.next⟩, entries)]
  (⟨if undoDepth < held.length then held.tail else held, stack.next + 1⟩, ⟨stack.next⟩)

def push (entry : Undo) : UndoStack × UndoHandle := stack.remember [entry]

def pushAll (entries : List Undo) : UndoStack × Option UndoHandle :=
  if entries.isEmpty then (stack, none)
  else ((stack.remember entries).1, some (stack.remember entries).2)

def pop : UndoStack × Option (List Undo) :=
  ({ stack with entries := stack.entries.dropLast }, stack.entries.getLast?.map Prod.snd)

/-- The gesture a handle names, taken out wherever it is. -/
def take (handle : UndoHandle) : UndoStack × Option (List Undo) :=
  match stack.entries.find? fun entry => entry.1 = handle with
  | none => (stack, none)
  | some entry =>
    ({ stack with entries := stack.entries.eraseP fun entry => entry.1 = handle }, some entry.2)

def forgetMessages (messages : List MessageId) : UndoStack :=
  { stack with
    entries := (stack.entries.map fun entry => (entry.1, entry.2.filter (unnamed messages))).filter
      fun entry => !entry.2.isEmpty }

end UndoStack

/-! ## Runs -/

inductive UndoCall where
  | push (entry : Undo)
  | pushAll (entries : List Undo)
  | pop
  | take (handle : UndoHandle)
  | forgetMessages (messages : List MessageId)

/-- The stack among what was done: every gesture in order, less the parts whose mail is gone, and
what was taken back, under the handle it was given. -/
structure UndoPast where
  stack : UndoStack
  made : List (List Undo)
  taken : List (UndoHandle × List Undo)

namespace UndoPast

def start : UndoPast := ⟨.empty, [], []⟩

def step (past : UndoPast) : UndoCall → UndoPast
  | .push entry => ⟨(past.stack.push entry).1, past.made ++ [[entry]], past.taken⟩
  | .pushAll entries =>
    ⟨(past.stack.pushAll entries).1, if entries.isEmpty then past.made else past.made ++ [entries],
      past.taken⟩
  | .pop =>
    ⟨past.stack.pop.1, past.made, past.taken ++ past.stack.entries.getLast?.toList⟩
  | .take handle =>
    ⟨(past.stack.take handle).1, past.made,
      past.taken ++ (past.stack.entries.find? fun entry => entry.1 = handle).toList⟩
  | .forgetMessages messages =>
    ⟨past.stack.forgetMessages messages, past.made.map (·.filter (unnamed messages)), past.taken⟩

abbrev Ascending (entries : List (UndoHandle × List Undo)) : Prop :=
  entries.Pairwise fun a b => a.1.raw < b.1.raw

/-- The handles grow, and each names what was made under it, of which something is left; what was
taken back is off the stack. -/
structure Kept (past : UndoPast) : Prop where
  next : past.stack.next = past.made.length
  depth : past.stack.entries.length ≤ undoDepth
  order : Ascending past.stack.entries
  named : ∀ entry ∈ past.stack.entries, past.made[entry.1.raw]? = some entry.2 ∧ entry.2 ≠ []
  once : (past.taken.map Prod.fst).Nodup
  off : ∀ entry ∈ past.stack.entries, entry.1 ∉ past.taken.map Prod.fst
  given : ∀ handle ∈ past.taken.map Prod.fst, handle.raw < past.made.length

variable {past : UndoPast} {entries rest : List (UndoHandle × List Undo)}

theorem kept_start : Kept start := by
  constructor <;> simp [start, UndoStack.empty]

theorem Kept.raw_lt (h : Kept past) : ∀ entry ∈ past.stack.entries,
    entry.1.raw < past.made.length := by
  intro entry hmem
  exact (List.getElem?_eq_some_iff.mp (h.named entry hmem).1).1

/-- A gesture of some part is put on top, and the oldest falls off a full stack. -/
theorem Kept.remember (h : Kept past) {parts : List Undo} (hparts : parts ≠ []) :
    Kept ⟨(past.stack.remember parts).1, past.made ++ [parts], past.taken⟩ := by
  have hmem : ∀ entry ∈ (past.stack.remember parts).1.entries,
      entry ∈ past.stack.entries ∨ entry = (⟨past.made.length⟩, parts) := by
    intro entry hentry
    rw [← h.next]
    simp only [UndoStack.remember] at hentry
    split at hentry
    · simpa using List.mem_of_mem_tail hentry
    · simpa using hentry
  have horder : Ascending (past.stack.entries ++ [(⟨past.stack.next⟩, parts)]) := by
    rw [Ascending, List.pairwise_append]
    refine ⟨h.order, List.pairwise_singleton .., ?_⟩
    intro entry hentry last hlast
    rw [List.mem_singleton.mp hlast, h.next]
    exact h.raw_lt entry hentry
  constructor
  · simp [UndoStack.remember, h.next]
  · have hdepth := h.depth
    simp only [UndoStack.remember]
    split <;> simp_all
  · simp only [UndoStack.remember]
    split
    · exact horder.tail
    · exact horder
  · intro entry hentry
    rcases hmem entry hentry with hold | rfl
    · rw [List.getElem?_append_left (h.raw_lt entry hold)]
      exact h.named entry hold
    · simp [hparts]
  · exact h.once
  · intro entry hentry htaken
    rcases hmem entry hentry with hold | rfl
    · exact h.off entry hold htaken
    · exact absurd (h.given _ htaken) (by simp)
  · intro handle htaken
    have hgiven := h.given handle htaken
    simp
    omega

theorem Kept.taken_off (h : Kept past) {entry : UndoHandle × List Undo}
    (hmem : entry ∈ past.stack.entries) (hrest : rest.Sublist past.stack.entries)
    (hoff : ∀ other ∈ rest, other.1 ≠ entry.1) :
    Kept ⟨⟨rest, past.stack.next⟩, past.made, past.taken ++ [entry]⟩ := by
  constructor
  · exact h.next
  · exact hrest.length_le.trans h.depth
  · exact h.order.sublist hrest
  · exact fun other hother => h.named other (hrest.subset hother)
  · rw [List.map_append, List.map_singleton, ← List.concat_eq_append, List.nodup_concat]
    exact ⟨h.off entry hmem, h.once⟩
  · intro other hother
    have hother' := h.off other (hrest.subset hother)
    simp [hoff other hother] at hother' ⊢
    exact hother'
  · intro handle hhandle
    rw [List.map_append, List.mem_append] at hhandle
    rcases hhandle with hold | hnew
    · exact h.given handle hold
    · rw [List.mem_singleton.mp hnew]
      exact h.raw_lt entry hmem

theorem ne_of_mem_eraseP {handle : UndoHandle} (h : Ascending entries) :
    ∀ entry ∈ entries.eraseP fun entry => entry.1 = handle, entry.1 ≠ handle := by
  induction entries with
  | nil => simp
  | cons first rest ih =>
    obtain ⟨hfirst, hrest⟩ := List.pairwise_cons.mp h
    intro entry hentry
    by_cases heq : first.1 = handle
    · rw [List.eraseP_cons_of_pos (by simpa using heq)] at hentry
      have hlt := hfirst entry hentry
      rintro rfl
      rw [heq] at hlt
      exact Nat.lt_irrefl _ hlt
    · rw [List.eraseP_cons_of_neg (by simpa using heq)] at hentry
      rcases List.mem_cons.mp hentry with rfl | hmem
      · exact heq
      · exact ih hrest entry hmem

theorem Kept.forget (h : Kept past) (messages : List MessageId) :
    Kept (past.step (.forgetMessages messages)) := by
  have hmem : ∀ entry ∈ (past.stack.forgetMessages messages).entries, entry.2 ≠ [] ∧
      ∃ old ∈ past.stack.entries, (old.1, old.2.filter (unnamed messages)) = entry := by
    intro entry hentry
    obtain ⟨hmap, hfull⟩ := List.mem_filter.mp hentry
    exact ⟨by simpa using hfull, List.mem_map.mp hmap⟩
  constructor
  · simpa [step, UndoStack.forgetMessages] using h.next
  · exact ((List.length_filter_le ..).trans (by simp)).trans h.depth
  · refine List.Pairwise.filter _ (List.pairwise_map.mpr ?_)
    exact h.order
  · intro entry hentry
    obtain ⟨hfull, old, hold, rfl⟩ := hmem entry hentry
    refine ⟨?_, hfull⟩
    simp [step, (h.named old hold).1]
  · exact h.once
  · intro entry hentry
    obtain ⟨-, old, hold, rfl⟩ := hmem entry hentry
    exact h.off old hold
  · simpa [step] using h.given

theorem Kept.step (h : Kept past) (call : UndoCall) : Kept (past.step call) := by
  cases call with
  | push entry => exact h.remember (by simp)
  | pushAll entries =>
    simp only [UndoPast.step, UndoStack.pushAll]
    split
    · exact h
    · rename_i hfull
      exact h.remember (by simpa using hfull)
  | pop =>
    rcases List.eq_nil_or_concat past.stack.entries with hnil | ⟨rest, last, hlast⟩
    · simp only [UndoPast.step, UndoStack.pop, hnil]
      exact ⟨h.next, by simp, .nil, by simp, by simpa using h.once, by simp, by simpa using h.given⟩
    · rw [List.concat_eq_append] at hlast
      have horder := (List.pairwise_append.mp (hlast ▸ h.order)).2.2
      have hbelow : ∀ other ∈ rest, other.1 ≠ last.1 := by
        intro other hother heq
        have hlt := horder other hother last (by simp)
        rw [heq] at hlt
        exact Nat.lt_irrefl _ hlt
      have hoff := h.taken_off (by simp [hlast] : last ∈ past.stack.entries) (by simp [hlast]) hbelow
      simpa [UndoPast.step, UndoStack.pop, hlast] using hoff
  | take handle =>
    simp only [UndoPast.step, UndoStack.take]
    split
    · rename_i hnone
      simpa [hnone] using h
    · rename_i entry hfound
      have hhandle : entry.1 = handle := by simpa using List.find?_some hfound
      rw [hfound]
      refine h.taken_off (List.mem_of_find?_eq_some hfound) (List.eraseP_sublist ..) ?_
      rw [hhandle]
      exact ne_of_mem_eraseP h.order
  | forgetMessages messages => exact h.forget messages

theorem kept_run (calls : List UndoCall) : Kept (calls.foldl step start) := by
  induction calls using List.reverseRecOn with
  | nil => exact kept_start
  | append_singleton calls call ih =>
    rw [List.foldl_concat]
    exact ih.step call

/-- After any run, the next gesture is given a handle not given before, whether of one part or of
many; a handle on the stack takes back what was made under it, any other takes back nothing; and no
handle has answered twice, or answers again. -/
theorem takes_back_what_it_names (calls : List UndoCall) (handle : UndoHandle) (entry : Undo)
    (parts : List Undo) :
    let past := calls.foldl step start
    (past.stack.push entry).2 = ⟨past.made.length⟩ ∧
      (past.stack.pushAll parts).2 = (if parts = [] then none else some ⟨past.made.length⟩) ∧
      past.stack.entries.length ≤ undoDepth ∧
      (past.stack.take handle).2 =
        (if handle ∈ past.stack.entries.map Prod.fst then past.made[handle.raw]? else none) ∧
      (past.taken.map Prod.fst).Nodup ∧
      (handle ∈ past.taken.map Prod.fst → (past.stack.take handle).2 = none) := by
  intro past
  have h : Kept past := kept_run calls
  have htake : (past.stack.take handle).2 =
      (if handle ∈ past.stack.entries.map Prod.fst then past.made[handle.raw]? else none) := by
    unfold UndoStack.take
    cases hfound : past.stack.entries.find? fun entry => entry.1 = handle with
    | none =>
      rw [if_neg]
      intro hheld
      obtain ⟨held, hmem, hhandle⟩ := List.mem_map.mp hheld
      exact List.find?_eq_none.mp hfound held hmem (by simpa using hhandle)
    | some found =>
      have hhandle : found.1 = handle := by simpa using List.find?_some hfound
      have hmem := List.mem_of_find?_eq_some hfound
      rw [if_pos (List.mem_map.mpr ⟨found, hmem, hhandle⟩), ← hhandle]
      exact (h.named found hmem).1.symm
  have hall : (past.stack.pushAll parts).2 =
      (if parts = [] then none else some ⟨past.made.length⟩) := by
    unfold UndoStack.pushAll
    by_cases hempty : parts = [] <;> simp [UndoStack.remember, h.next, hempty]
  refine ⟨by simp [UndoStack.push, UndoStack.remember, h.next], hall, h.depth, htake, h.once, ?_⟩
  intro htaken
  rw [htake, if_neg]
  intro hheld
  obtain ⟨held, hmem, rfl⟩ := List.mem_map.mp hheld
  exact h.off held hmem htaken

end UndoPast

end Mailo.Logic
