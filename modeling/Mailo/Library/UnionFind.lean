import Mathlib.Data.List.GetD
import Mathlib.Order.Nat
import Mailo.Library.Lists

/-!
# Union-find with the lowest index as representative

Every element points at one no higher than itself, so a walk up ends at a root. Looking an
element up halves the path it walked, and a merge hangs the higher root under the lower. Only
`find`, the root an element leads to, and `Same`, being led to one root, are read outside.
-/

namespace Mailo.Library

/-- A partition of the naturals: those past the end of `up` are alone. -/
structure Classes where
  up : List Nat
  le : ∀ i, up.getD i i ≤ i

namespace Classes

def empty : Classes := ⟨[], fun i => by simp⟩

def size (c : Classes) : Nat := c.up.length

def next (c : Classes) (i : Nat) : Nat := c.up.getD i i

theorem next_le (c : Classes) (i : Nat) : c.next i ≤ i := c.le i

variable {c : Classes} {i a j b : Nat}

theorem next_of_size_le (h : c.size ≤ i) : c.next i = i := by
  rw [next, List.getD_eq_default _ _ h]

theorem getD_set {l : List Nat} (h : i < l.length) :
    (l.set i a).getD j j = if j = i then a else l.getD j j := by
  by_cases hj : j = i
  · subst hj
    simp [List.getD_eq_getElem?_getD, h]
  · simp [List.getD_eq_getElem?_getD, hj, Ne.symm hj]

/-- Element `i` pointed at a lower one. -/
def point (c : Classes) (i a : Nat) (h : a ≤ i) : Classes :=
  ⟨c.up.set i a, fun j => by
    by_cases hi : i < c.up.length
    · rw [getD_set hi]
      by_cases hj : j = i
      · rw [if_pos hj, hj]
        exact h
      · rw [if_neg hj]
        exact c.le j
    · rw [List.set_eq_of_length_le (by omega)]
      exact c.le j⟩

@[simp] theorem size_point (c : Classes) (i a : Nat) (h : a ≤ i) :
    (c.point i a h).size = c.size := List.length_set

theorem next_point {h : a ≤ i} (hi : i < c.size) (j : Nat) :
    (c.point i a h).next j = if j = i then a else c.next j := getD_set hi

/-- A new element, alone. -/
def push (c : Classes) : Classes :=
  ⟨c.up ++ [c.up.length], fun i => by
    rw [List.getD_eq_getElem?_getD, List.getElem?_append]
    by_cases h : i < c.up.length
    · rw [if_pos h, ← List.getD_eq_getElem?_getD]
      exact c.le i
    · rw [if_neg h]
      by_cases hi : i = c.up.length
      · simp [hi]
      · rw [List.getElem?_eq_none (by simp; omega)]
        simp⟩

@[simp] theorem size_push (c : Classes) : c.push.size = c.size + 1 := by
  simp [size, push]

theorem next_push (c : Classes) (i : Nat) : c.push.next i = c.next i := by
  show (c.up ++ [c.up.length]).getD i i = c.up.getD i i
  rw [List.getD_eq_getElem?_getD, List.getElem?_append, List.getD_eq_getElem?_getD]
  by_cases h : i < c.up.length
  · rw [if_pos h]
  · have hpast : c.up[i]? = none := List.getElem?_eq_none (by omega)
    rw [if_neg h, hpast]
    by_cases hi : i = c.up.length
    · simp [hi]
    · rw [List.getElem?_eq_none (by simp; omega)]

/-- The root an element leads to. -/
def find (c : Classes) (i : Nat) : Nat :=
  if c.next i = i then i else c.find (c.next i)
termination_by i
decreasing_by exact Nat.lt_of_le_of_ne (c.next_le i) ‹_›

theorem find_of_root (h : c.next i = i) : c.find i = i := by
  rw [find, if_pos h]

theorem find_next (c : Classes) (i : Nat) : c.find (c.next i) = c.find i := by
  by_cases h : c.next i = i
  · rw [h]
  · rw [find.eq_1 c i, if_neg h]

theorem find_le (c : Classes) (i : Nat) : c.find i ≤ i := by
  induction i using Nat.strong_induction_on with
  | h i ih =>
    by_cases h : c.next i = i
    · rw [find_of_root h]
    · rw [← find_next]
      exact (ih _ (Nat.lt_of_le_of_ne (c.next_le i) h)).trans (c.next_le i)

theorem next_find (c : Classes) (i : Nat) : c.next (c.find i) = c.find i := by
  induction i using Nat.strong_induction_on with
  | h i ih =>
    by_cases h : c.next i = i
    · rw [find_of_root h, h]
    · rw [← find_next]
      exact ih _ (Nat.lt_of_le_of_ne (c.next_le i) h)

theorem find_unique {c : Classes} {root : Nat → Nat} (hnext : ∀ i, root (c.next i) = root i)
    (hroot : ∀ i, c.next i = i → root i = i) (i : Nat) : c.find i = root i := by
  induction i using Nat.strong_induction_on with
  | h i ih =>
    by_cases h : c.next i = i
    · rw [find_of_root h, hroot i h]
    · rw [← find_next, ih _ (Nat.lt_of_le_of_ne (c.next_le i) h), hnext]

theorem find_of_size_le (h : c.size ≤ i) : c.find i = i :=
  find_of_root (next_of_size_le h)

@[simp] theorem find_push (c : Classes) (i : Nat) : c.push.find i = c.find i :=
  find_unique (fun j => by rw [next_push, find_next])
    (fun j h => find_of_root (by rw [← next_push, h])) i

/-- Path halving: an element pointed at its grandparent. -/
def halve (c : Classes) (i : Nat) : Classes :=
  c.point i (c.next (c.next i)) ((c.next_le _).trans (c.next_le i))

theorem next_halve (c : Classes) (i j : Nat) :
    (c.halve i).next j = if j = i then c.next (c.next i) else c.next j := by
  by_cases hi : i < c.size
  · exact next_point hi j
  · have hsame : c.next (c.next i) = i := by
      rw [next_of_size_le (i := i) (by omega), next_of_size_le (by omega)]
    have hset : (c.halve i).next j = c.next j := by
      show (c.up.set i _).getD j j = _
      rw [List.set_eq_of_length_le (by unfold size at hi; omega)]
      rfl
    rw [hset]
    by_cases hj : j = i
    · rw [if_pos hj, hsame, hj, next_of_size_le (by omega)]
    · rw [if_neg hj]

@[simp] theorem find_halve (c : Classes) (i j : Nat) : (c.halve i).find j = c.find j := by
  refine find_unique (fun k => ?_) (fun k h => ?_) j
  · rw [next_halve]
    by_cases hk : k = i
    · rw [if_pos hk, find_next, find_next, hk]
    · rw [if_neg hk, find_next]
  · rw [next_halve] at h
    by_cases hk : k = i
    · subst hk
      rw [if_pos rfl] at h
      have hle := c.next_le (c.next k)
      exact find_of_root (Nat.le_antisymm (c.next_le k) (by omega))
    · rw [if_neg hk] at h
      exact find_of_root h

def rootFrom : Nat → Classes → Nat → Classes × Nat
  | 0, c, i => (c, i)
  | fuel + 1, c, i =>
    if c.next i = i then (c, i)
    else
      let c := c.halve i
      rootFrom fuel c (c.next i)

def rootOf (c : Classes) (i : Nat) : Classes × Nat := rootFrom i c i

theorem rootFrom_spec (fuel : Nat) (c : Classes) (i : Nat) (h : i ≤ fuel) :
    (rootFrom fuel c i).2 = c.find i ∧ (∀ j, (rootFrom fuel c i).1.find j = c.find j) ∧
      (rootFrom fuel c i).1.size = c.size := by
  induction fuel generalizing c i with
  | zero =>
    have hi : i = 0 := by omega
    subst hi
    have hroot : c.find 0 = 0 := find_of_root (Nat.le_zero.mp (c.next_le 0))
    exact ⟨hroot.symm, fun _ => rfl, rfl⟩
  | succ fuel ih =>
    by_cases hroot : c.next i = i
    · have hstop : rootFrom (fuel + 1) c i = (c, i) := if_pos hroot
      rw [hstop]
      exact ⟨(find_of_root hroot).symm, fun _ => rfl, rfl⟩
    · have hup : (c.halve i).next i = c.next (c.next i) := by rw [next_halve, if_pos rfl]
      have hle : c.next (c.next i) ≤ c.next i := c.next_le _
      have hlt : c.next i < i := Nat.lt_of_le_of_ne (c.next_le i) hroot
      have hrec := ih (c.halve i) ((c.halve i).next i) (by rw [hup]; omega)
      have hturn : rootFrom (fuel + 1) c i = rootFrom fuel (c.halve i) ((c.halve i).next i) :=
        if_neg hroot
      rw [hturn, hrec.1, hrec.2.2]
      exact ⟨by rw [find_next, find_halve], fun j => by rw [hrec.2.1, find_halve],
        size_point c i _ _⟩

@[simp] theorem rootOf_snd (c : Classes) (i : Nat) : (c.rootOf i).2 = c.find i :=
  (rootFrom_spec i c i (Nat.le_refl i)).1

@[simp] theorem find_rootOf (c : Classes) (i j : Nat) : (c.rootOf i).1.find j = c.find j :=
  (rootFrom_spec i c i (Nat.le_refl i)).2.1 j

@[simp] theorem size_rootOf (c : Classes) (i : Nat) : (c.rootOf i).1.size = c.size :=
  (rootFrom_spec i c i (Nat.le_refl i)).2.2

/-- Two classes made one; the lowest root stays. -/
def merge (c : Classes) (a b : Nat) : Classes :=
  let (c, ra) := c.rootOf a
  let (c, rb) := c.rootOf b
  if ra = rb then c
  else if h : ra < rb then c.point rb ra h.le
  else c.point ra rb (Nat.le_of_not_lt h)

@[simp] theorem size_merge (c : Classes) (a b : Nat) : (c.merge a b).size = c.size := by
  simp only [merge]
  split
  · simp
  · split <;> simp

theorem find_point {keep lost : Nat} (h : keep < lost) (hk : c.next keep = keep)
    (hl : c.next lost = lost) (hsize : lost < c.size) (i : Nat) :
    (c.point lost keep h.le).find i = if c.find i = lost then keep else c.find i := by
  refine @find_unique _ (fun j => if c.find j = lost then keep else c.find j) (fun j => ?_)
    (fun j hj => ?_) i
  · rw [next_point hsize]
    by_cases hjl : j = lost
    · rw [if_pos hjl, find_of_root hk, if_neg h.ne, hjl, find_of_root hl, if_pos rfl]
    · rw [if_neg hjl, find_next]
  · rw [next_point hsize] at hj
    by_cases hjl : j = lost
    · rw [if_pos hjl] at hj
      omega
    · rw [if_neg hjl] at hj
      rw [find_of_root hj, if_neg hjl]

theorem find_merge (ha : a < c.size) (hb : b < c.size) (i : Nat) :
    (c.merge a b).find i =
      if c.find i = max (c.find a) (c.find b) then min (c.find a) (c.find b) else c.find i := by
  have hla : c.find a < c.size := Nat.lt_of_le_of_lt (c.find_le a) ha
  have hlb : c.find b < c.size := Nat.lt_of_le_of_lt (c.find_le b) hb
  have hfa : ((c.rootOf a).1.rootOf b).1.next (c.find a) = c.find a := by
    have h := ((c.rootOf a).1.rootOf b).1.next_find a
    simpa using h
  have hfb : ((c.rootOf a).1.rootOf b).1.next (c.find b) = c.find b := by
    have h := ((c.rootOf a).1.rootOf b).1.next_find b
    simpa using h
  simp only [merge, rootOf_snd, find_rootOf]
  by_cases heq : c.find a = c.find b
  · rw [if_pos heq, heq, Nat.max_self, Nat.min_self]
    by_cases hi : c.find i = c.find b
    · simp [hi]
    · simp [hi]
  · rw [if_neg heq]
    by_cases hlt : c.find a < c.find b
    · rw [dif_pos hlt, find_point hlt hfa hfb (by simpa using hlb), Nat.max_eq_right hlt.le,
        Nat.min_eq_left hlt.le]
      simp
    · have hgt : c.find b < c.find a := by omega
      rw [dif_neg hlt, find_point hgt hfb hfa (by simpa using hla), Nat.max_eq_left hgt.le,
        Nat.min_eq_right hgt.le]
      simp

/-- Two elements are in one class. -/
def Same (c : Classes) (i j : Nat) : Prop := c.find i = c.find j

theorem Same.refl (c : Classes) (i : Nat) : c.Same i i := rfl

theorem Same.symm (h : c.Same i j) : c.Same j i := Eq.symm h

theorem Same.trans {k : Nat} (h : c.Same i j) (hjk : c.Same j k) :
    c.Same i k := Eq.trans h hjk

@[simp] theorem same_push (c : Classes) (i j : Nat) : c.push.Same i j ↔ c.Same i j := by
  simp [Same]

/-- An element past the end is alone. -/
theorem eq_of_same_size (hi : c.size ≤ i) (hj : j ≤ i) (h : c.Same i j) : i = j := by
  have hfi : c.find i = i := find_of_size_le hi
  have hle := c.find_le j
  unfold Same at h
  omega

/-- What one merge joins: `a`'s class with `b`'s, and nothing else. -/
theorem same_merge (ha : a < c.size) (hb : b < c.size) (i j : Nat) :
    (c.merge a b).Same i j ↔
      c.Same i j ∨ (c.Same i a ∧ c.Same b j) ∨ (c.Same i b ∧ c.Same a j) := by
  simp only [Same, find_merge ha hb]
  grind

theorem same_merge_of_same (ha : a < c.size) (hb : b < c.size) (h : c.Same i j) :
    (c.merge a b).Same i j :=
  (same_merge ha hb i j).mpr (Or.inl h)

theorem same_merge_self (ha : a < c.size) (hb : b < c.size) :
    (c.merge a b).Same a b :=
  (same_merge ha hb a b).mpr (Or.inr (Or.inl ⟨rfl, rfl⟩))

end Classes

end Mailo.Library
