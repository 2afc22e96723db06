import Mathlib.Data.List.DropRight
import Mailo.Library.Lines
import Mailo.Proto.Machine

/-!
# The fields of a header

A header is cut into its fields by hand: a field is a line with those after it that open with white
space, and the header ends at the first blank line.
-/

namespace Mailo.Mime

open Library Proto

def feed (b : UInt8) : Bool := b == 10

/-- `"\r\n"` or `"\n"`. -/
def isBlank (line : Bytes) : Bool := line == [13, 10] || line == [10]

def splitHead (message : Bytes) : Bytes × Bytes :=
  (((lines feed message).takeWhile (!isBlank ·)).flatten,
    ((lines feed message).dropWhile (!isBlank ·)).flatten)

def continues (line : Bytes) : Bool := line.head?.any fun b => b == 32 || b == 9

/-- Lines gathered into fields, each line that opens with white space with the one above it. -/
def gather : List Bytes → List Bytes
  | [] => []
  | line :: rest => match gather rest with
    | [] => [line]
    | field :: more => if continues field then (line ++ field) :: more else line :: field :: more

/-- Each header field, with its continuation lines and line endings. -/
def fields (head : Bytes) : List Bytes := gather (lines feed head)

def headerFields (message : Bytes) : List Bytes := fields (splitHead message).1

/-- A field's name, without the space some senders put before the colon. -/
def named (field : Bytes) : Option Bytes :=
  if field.contains 58 then some ((field.takeWhile (· != 58)).rdropWhile Utf8.isAsciiWhitespace)
  else none

def toAsciiLowercase (b : UInt8) : UInt8 := if 65 ≤ b ∧ b ≤ 90 then b + 32 else b

def eqIgnoreAsciiCase (a b : Bytes) : Bool := a.map toAsciiLowercase == b.map toAsciiLowercase

def goesBy (name field : Bytes) : Bool := (named field).any (eqIgnoreAsciiCase · name)

/-! ## Fields put together again -/

/-- The second of two fields is a field of its own after the first. -/
def Apart (field next : Bytes) : Prop := Closed feed field ∧ continues next = false

attribute [local simp] gather in
theorem flatten_gather (all : List Bytes) : (gather all).flatten = all.flatten := by
  induction all with
  | nil => rfl
  | cons line rest ih =>
    simp only [gather]
    split
    · rename_i hnil
      simp [← ih, hnil]
    · rename_i field more hcons
      split <;> simp [← ih, hcons]

theorem flatten_fields (head : Bytes) : (fields head).flatten = head :=
  (flatten_gather _).trans (flatten_lines head)

variable {field : Bytes} {all : List Bytes}

theorem continues_append (h : field ≠ []) (more : Bytes) :
    continues (field ++ more) = continues field := by
  cases field with
  | nil => exact absurd rfl h
  | cons b text => rfl

theorem ne_nil_of_mem_gather (h : [] ∉ all) : [] ∉ gather all := by
  induction all with
  | nil => simp [gather]
  | cons line rest ih =>
    have hrest := ih (fun hmem => h (.tail _ hmem))
    have hline : line ≠ [] := fun hnil => h (hnil ▸ (.head _) ..)
    simp only [gather]
    split
    · simpa using hline.symm
    · rename_i field more hcons
      rw [hcons] at hrest
      split
      · simp_all
      · simpa [hline.symm] using hrest

theorem gather_append {more : List Bytes}
    (h : ∀ field ∈ (gather more).head?, continues field = false) :
    gather (all ++ more) = gather all ++ gather more := by
  induction all with
  | nil => rfl
  | cons line rest ih =>
    simp only [List.cons_append, gather, ih]
    cases gather rest with
    | nil =>
      cases hmore : gather more with
      | nil => rfl
      | cons field others => simp [h field (by simp [hmore])]
    | cons field others =>
      simp only [List.cons_append]
      split <;> rfl

theorem nil_notMem_lines (text : Bytes) : [] ∉ lines feed text := fun h => by
  simpa [lines] using (lines_apart feed text).1 [] h

theorem continues_first {head : Bytes} (h : field ∈ (fields head).head?) :
    continues field = continues head := by
  have hfull := ne_nil_of_mem_gather (nil_notMem_lines head)
  obtain ⟨others, hothers⟩ := List.head?_eq_some_iff.mp h
  have hne : field ≠ [] := fun hnil => hfull (by rw [← fields, hothers, hnil]; simp)
  rw [← continues_append hne others.flatten, ← List.flatten_cons, ← hothers, flatten_fields]

theorem fields_append {more : Bytes} (h : Apart field more) :
    fields (field ++ more) = fields field ++ fields more := by
  rw [fields, lines_append h.1, gather_append]
  · rfl
  · exact fun first hfirst => (continues_first hfirst).trans h.2

theorem fields_flatten (hapart : all.Pairwise Apart) (hone : ∀ field ∈ all, fields field = [field])
    : fields all.flatten = all := by
  induction all with
  | nil => rfl
  | cons field rest ih =>
    obtain ⟨hfirst, hrest⟩ := List.pairwise_cons.mp hapart
    obtain ⟨hfield, hothers⟩ := List.forall_mem_cons.mp hone
    cases rest with
    | nil => simpa using hfield
    | cons next rest =>
      have hnext := hfirst next (.head _ ..)
      have hne : next ≠ [] := by
        rintro rfl
        simpa [fields, lines, gather] using hothers [] (.head _ ..)
      have hopens : continues (next :: rest).flatten = false :=
        (continues_append hne rest.flatten).trans hnext.2
      rw [List.flatten_cons, fields_append ⟨hnext.1, hopens⟩, hfield, ih hrest hothers]
      rfl

/-- A field of a header: one field by itself, and no blank line in it. -/
structure Field (field : Bytes) : Prop where
  one : fields field = [field]
  noBlank : ∀ line ∈ lines feed field, isBlank line = false

/-- The fields of a header with a body after it, if only an empty one. -/
structure Header (all : List Bytes) (body : Bytes) : Prop where
  field : ∀ field ∈ all, Field field
  apart : all.Pairwise Apart
  body : body = [] ∨
    (∀ field ∈ all, Closed feed field) ∧ ∃ line ∈ (lines feed body).head?, isBlank line

/-- What is gathered from lines of a text: every field but the last ends its line, every one but
the first opens with no white space, and each is a field by itself. -/
theorem gather_apart (hone : ∀ line ∈ all, lines feed line = [line])
    (hclosed : all.Pairwise fun line _ => Closed feed line) :
    (gather all).Pairwise Apart ∧ ∀ field ∈ gather all,
      fields field = [field] ∧ ∀ line ∈ lines feed field, line ∈ all := by
  induction all with
  | nil => simp [gather]
  | cons line rest ih =>
    obtain ⟨hline, hothers⟩ := List.forall_mem_cons.mp hone
    obtain ⟨hfirst, hpairs⟩ := List.pairwise_cons.mp hclosed
    obtain ⟨hapart, hfields⟩ := ih hothers hpairs
    have halone : fields line = [line] := by simp [fields, hline, gather]
    have hrest : ∀ field ∈ gather rest, fields field = [field] ∧
        ∀ other ∈ lines feed field, other ∈ line :: rest := fun field hfield =>
      ⟨(hfields field hfield).1, fun other hother =>
        List.mem_cons_of_mem _ ((hfields field hfield).2 other hother)⟩
    simp only [gather]
    split
    · simp [halone, hline]
    · rename_i field more hcons
      rw [hcons] at hapart hrest
      obtain ⟨hnext, hmore⟩ := List.pairwise_cons.mp hapart
      obtain ⟨⟨hfield, hin⟩, hall⟩ := List.forall_mem_cons.mp hrest
      have hends : Closed feed line := by
        cases rest with
        | nil => simp [gather] at hcons
        | cons next rest => exact hfirst next (.head _ ..)
      have hne : field ≠ [] := by
        rintro rfl
        simp [fields, lines, gather] at hfield
      split
      · rename_i hcont
        refine ⟨List.pairwise_cons.mpr ⟨fun next h => ⟨fun b hb => ?_, (hnext next h).2⟩, hmore⟩,
          List.forall_mem_cons.mpr ⟨⟨?_, ?_⟩, hall⟩⟩
        · refine (hnext next h).1 b ?_
          rwa [List.getLast?_append_of_ne_nil _ hne] at hb
        · have hgather : gather (lines feed field) = [field] := hfield
          rw [fields, lines_append hends, hline, List.singleton_append, gather, hgather]
          simp [hcont]
        · rw [lines_append hends, hline]
          simpa using hin
      · rename_i hcont
        refine ⟨List.pairwise_cons.mpr ⟨fun next h => ⟨hends, ?_⟩, hapart⟩,
          List.forall_mem_cons.mpr ⟨⟨halone, by simp [hline]⟩, hrest⟩⟩
        rcases List.mem_cons.mp h with rfl | h
        · simpa using hcont
        · exact (hnext next h).2

theorem mem_fields_apart (head : Bytes) :
    (fields head).Pairwise Apart ∧ ∀ field ∈ fields head,
      fields field = [field] ∧ ∀ line ∈ lines feed field, line ∈ lines feed head :=
  gather_apart (lines_apart feed head).1 (lines_apart feed head).2

variable (message : Bytes)

theorem header_splitHead :
    Header (headerFields message) (splitHead message).2 := by
  have htook := List.takeWhile_append_dropWhile (p := (!isBlank ·)) (l := lines feed message)
  have hhead : lines feed (splitHead message).1 = (lines feed message).takeWhile (!isBlank ·) :=
    lines_flatten_of_sublist (List.takeWhile_sublist _)
  have hbody : lines feed (splitHead message).2 = (lines feed message).dropWhile (!isBlank ·) :=
    lines_flatten_of_sublist (List.dropWhile_sublist _)
  obtain ⟨hapart, hfields⟩ := mem_fields_apart (splitHead message).1
  constructor
  · intro field hfield
    obtain ⟨hone, hlines⟩ := hfields field hfield
    refine ⟨hone, fun line hline => ?_⟩
    have := List.mem_takeWhile_imp (hhead ▸ hlines line hline)
    simpa using this
  · exact hapart
  · by_cases hnil : (lines feed message).dropWhile (!isBlank ·) = []
    · exact .inl (by simp [splitHead, hnil])
    · have hclosed := (lines_apart feed message).2
      rw [← htook, List.pairwise_append] at hclosed
      have hfirst := List.head_mem hnil
      refine .inr ⟨fun field hfield => ?_, List.head _ hnil, ?_, ?_⟩
      · rw [← show (lines feed field).flatten = field from flatten_lines field]
        exact closed_flatten fun line hline => hclosed.2.2 line
          (hhead ▸ (hfields field hfield).2 line hline) _ hfirst
      · rw [hbody, List.head?_eq_some_head hnil]
        rfl
      · simpa using List.head_dropWhile_not (!isBlank ·) hnil

/-- Fields and a body put together are cut into them again. -/
theorem Header.cut {body : Bytes} (h : Header all body) :
    splitHead (all.flatten ++ body) = (all.flatten, body) ∧ fields all.flatten = all := by
  refine ⟨?_, fields_flatten h.apart fun field hfield => (h.field field hfield).one⟩
  have hlines : ∀ line ∈ lines feed all.flatten, (!isBlank line) = true := by
    rw [lines_flatten (h.apart.imp fun happart => happart.1)]
    intro line hline
    obtain ⟨_, hmem, hline⟩ := List.mem_flatten.mp hline
    obtain ⟨field, hfield, rfl⟩ := List.mem_map.mp hmem
    simp [(h.field field hfield).noBlank line hline]
  rcases h.body with rfl | ⟨hclosed, line, hfirst, hblank⟩
  · simp [splitHead, List.takeWhile_eq_self_iff.mpr hlines, List.dropWhile_eq_nil_iff.mpr hlines,
      flatten_lines]
  · obtain ⟨rest, hrest⟩ := List.head?_eq_some_iff.mp hfirst
    rw [splitHead, lines_append (closed_flatten hclosed), List.takeWhile_append_of_pos hlines,
      List.dropWhile_append_of_pos hlines, hrest, List.takeWhile_cons_of_neg (by simp [hblank]),
      List.dropWhile_cons_of_neg (by simp [hblank]), List.append_nil, flatten_lines, ← hrest,
      flatten_lines]

theorem append_splitHead :
    (splitHead message).1 ++ (splitHead message).2 = message := by
  rw [splitHead, ← List.flatten_append, List.takeWhile_append_dropWhile, flatten_lines]

theorem continues_head :
    continues (splitHead message).1 = continues message := by
  have happend := append_splitHead message
  by_cases hnil : (splitHead message).1 = []
  · rw [hnil, List.nil_append] at happend
    rw [hnil]
    conv_rhs => rw [← happend]
    rcases (header_splitHead message).body with hbody | ⟨-, line, hline, hblank⟩
    · rw [hbody]
    · simp only [isBlank, Bool.or_eq_true, beq_iff_eq] at hblank
      rw [continues, continues, ← head?_lines hline]
      rcases hblank with rfl | rfl <;> rfl
  · conv_rhs => rw [← happend]
    exact (continues_append hnil _).symm

/-- Where a message does not open with white space, none of its fields does. -/
theorem continues_headerFields {message : Bytes} (h : continues message = false) :
    ∀ field ∈ headerFields message, continues field = false := by
  intro field hfield
  obtain ⟨first, rest, hall⟩ := List.exists_cons_of_ne_nil (List.ne_nil_of_mem hfield)
  have hapart := (header_splitHead message).apart
  rw [hall] at hfield hapart
  rcases List.mem_cons.mp hfield with rfl | hfield
  · rw [continues_first (by rw [← headerFields, hall]; rfl), continues_head, h]
  · exact ((List.pairwise_cons.mp hapart).1 field hfield).2

end Mailo.Mime
