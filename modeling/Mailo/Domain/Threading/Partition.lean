import Mailo.Domain.Threading.Closure

/-!
# The ids handed out

Pruning changes links only, and looking a class up changes nothing that is read. Two inputs get
one id when their containers end in one class, or in two whose lowest known ids are the same;
where no id is known and no subject is compared, the threads are the classes of the references.
-/

namespace Mailo.Domain.Threading

open Library

namespace Forest

/-- The same arena, links and what was pruned aside. -/
structure Trimmed (before after : Forest) : Prop where
  size_eq : after.size = before.size
  id_eq : ∀ n, (after.node n).id = (before.node n).id
  msg_eq : ∀ n, (after.node n).msg = (before.node n).msg
  classes_eq : after.classes = before.classes

theorem Trimmed.refl (forest : Forest) : Trimmed forest forest :=
  ⟨rfl, fun _ => rfl, fun _ => rfl, rfl⟩

theorem Trimmed.trans {a b c : Forest} (h : Trimmed a b) (k : Trimmed b c) : Trimmed a c :=
  ⟨k.size_eq.trans h.size_eq, fun n => (k.id_eq n).trans (h.id_eq n),
    fun n => (k.msg_eq n).trans (h.msg_eq n), k.classes_eq.trans h.classes_eq⟩

variable {f : Container → Container}

theorem trimmed_modify (forest : Forest) (n : Nat) (hid : ∀ c, (f c).id = c.id)
    (hmsg : ∀ c, (f c).msg = c.msg) :
    Trimmed forest (forest.modify n f) :=
  ⟨size_modify n f, field_modify (fun c => c.id) hid, field_modify (fun c => c.msg) hmsg, rfl⟩

theorem Trimmed.of_modify {forest after : Forest} {n : Nat} (h : Trimmed (forest.modify n f) after)
    (hid : ∀ c, (f c).id = c.id) (hmsg : ∀ c, (f c).msg = c.msg) : Trimmed forest after :=
  (trimmed_modify forest n hid hmsg).trans h

end Forest

namespace Pruning

open Forest

variable (place : Nat)

theorem trimmed_raise (below : List Nat) (forest : Forest) :
    Trimmed forest (below.foldl (fun forest up =>
      forest.modify up fun c => { c with parent := some place }) forest) := by
  induction below generalizing forest with
  | nil => exact Trimmed.refl forest
  | cons up below ih =>
    exact Trimmed.of_modify (ih _) (fun _ => rfl) (fun _ => rfl)

theorem trimmed_takeChild (taken : Pruning × List Nat) (child : Nat) :
    Trimmed taken.1.forest (takeChild place taken child).1.forest := by
  rcases taken with ⟨⟨forest, kept⟩, out⟩
  simp only [takeChild]
  split
  · exact trimmed_modify forest child (fun _ => rfl) (fun _ => rfl)
  · exact Trimmed.of_modify (trimmed_raise place _ _) (fun _ => rfl) (fun _ => rfl)

theorem trimmed_takeChildren (children : List Nat) (taken : Pruning × List Nat) :
    Trimmed taken.1.forest (children.foldl (takeChild place) taken).1.forest := by
  induction children generalizing taken with
  | nil => exact Trimmed.refl _
  | cons child children ih => exact (trimmed_takeChild place taken child).trans (ih _)

theorem trimmed_finish (pruning : Pruning) (place : Nat) :
    Trimmed pruning.forest (pruning.finish place).forest :=
  Trimmed.of_modify (trimmed_takeChildren place (pruning.forest.node place).children
    (⟨pruning.forest.modify place fun c => { c with children := [] }, pruning.kept⟩, []))
    (fun _ => rfl) (fun _ => rfl)

theorem trimmed_walk (fuel : Nat) (work : List (Nat × Bool)) (pruning : Pruning) :
    Trimmed pruning.forest (walk fuel work pruning).forest := by
  induction fuel generalizing work pruning with
  | zero => exact Trimmed.refl _
  | succ fuel ih =>
    match work with
    | [] => exact Trimmed.refl _
    | (place, false) :: work => exact ih _ pruning
    | (place, true) :: work => exact (trimmed_finish pruning place).trans (ih work _)

theorem trimmed_pruneRoot (pruning : Pruning) (root : Nat) :
    Trimmed pruning.forest (pruning.pruneRoot root).forest := by
  refine (trimmed_walk (2 * pruning.forest.size) [(root, false)] pruning).trans ?_
  unfold pruneRoot
  rcases walk (2 * pruning.forest.size) [(root, false)] pruning with ⟨forest, kept⟩
  simp only
  split
  · exact trimmed_modify forest root (fun _ => rfl) (fun _ => rfl)
  · exact trimmed_modify forest root (fun _ => rfl) (fun _ => rfl)
  · exact Trimmed.of_modify (trimmed_modify _ _ (fun _ => rfl) (fun _ => rfl)) (fun _ => rfl)
      (fun _ => rfl)
  · exact trimmed_modify forest root (fun _ => rfl) (fun _ => rfl)

end Pruning

theorem Forest.trimmed_prune (forest : Forest) : Trimmed forest forest.prune := by
  have key : ∀ (roots : List Nat) (pruning : Pruning),
      Trimmed pruning.forest (roots.foldl Pruning.pruneRoot pruning).forest := by
    intro roots
    induction roots with
    | nil => exact fun pruning => Trimmed.refl _
    | cons root roots ih =>
      exact fun pruning => (Pruning.trimmed_pruneRoot pruning root).trans (ih _)
  exact key forest.roots ⟨forest, List.replicate forest.size []⟩

namespace Forest

/-- The same arena and the same classes, the way to their roots perhaps shorter. -/
structure Looked (before after : Forest) : Prop where
  nodes_eq : after.nodes = before.nodes
  classes_size : after.classes.size = before.classes.size
  find_eq : ∀ n, after.classes.find n = before.classes.find n

variable (forest : Forest)

theorem Looked.refl : Looked forest forest := ⟨rfl, rfl, fun _ => rfl⟩

theorem Looked.trans {a b c : Forest} (h : Looked a b) (k : Looked b c) : Looked a c :=
  ⟨k.nodes_eq.trans h.nodes_eq, k.classes_size.trans h.classes_size,
    fun n => (k.find_eq n).trans (h.find_eq n)⟩

variable {after before : Forest}

theorem Looked.node_eq (h : Looked before after) (n : Nat) :
    after.node n = before.node n := by
  rw [node, node, h.nodes_eq]

theorem Looked.size_eq (h : Looked before after) :
    after.size = before.size := by
  rw [size, size, h.nodes_eq]

theorem looked_rootOf (n : Nat) : Looked forest (forest.rootOf n).1 :=
  ⟨rfl, Classes.size_rootOf _ _, Classes.find_rootOf _ _⟩

theorem rootOf_snd (n : Nat) : (forest.rootOf n).2 = forest.classes.find n :=
  Classes.rootOf_snd _ _

end Forest

/-! ## The ids classes own -/

open Forest

section Assign

variable {existing : List Char → Option ThreadId} {forest : Forest}

/-- An id known for a message of a class. -/
def Lends (existing : List Char → Option ThreadId) (forest : Forest) (root : Nat)
    (tid : ThreadId) : Prop :=
  ∃ n, n < forest.size ∧ (forest.node n).id ≠ [] ∧ existing (forest.node n).id = some tid ∧
    forest.classes.find n = root

/-- The lowest of some thread ids. -/
def Lowest (ids : ThreadId → Prop) (tid : ThreadId) : Prop :=
  ids tid ∧ ∀ other, ids other → tid.raw ≤ other.raw

variable {ids : ThreadId → Prop} {fresh : Nat → ThreadId} {given : Given}
  {known : Table Nat ThreadId}

theorem Lowest.unique {a b : ThreadId} (ha : Lowest ids a) (hb : Lowest ids b) : a = b := by
  have hab := ha.2 b hb.1
  have hba := hb.2 a ha.1
  cases a
  cases b
  simp only [ThreadId.mk.injEq] at hab hba ⊢
  omega

theorem Lowest.congr {other : ThreadId → Prop} {tid : ThreadId} (h : ∀ t, ids t ↔ other t) :
    Lowest ids tid ↔ Lowest other tid := by
  simp only [Lowest, h]

/-- The table of known ids after some containers have been asked about. -/
def Asked (existing : List Char → Option ThreadId) (forest : Forest) (asked : List Nat)
    (owned : Owned) : Prop :=
  Looked forest owned.forest ∧ ∀ root,
    let lent := fun tid => ∃ n ∈ asked, (forest.node n).id ≠ [] ∧
      existing (forest.node n).id = some tid ∧ forest.classes.find n = root
    (owned.known.get root = none → ∀ tid, ¬ lent tid) ∧
    ∀ tid, owned.known.get root = some tid → Lowest lent tid

theorem asked_ask {asked : List Nat} {owned : Owned} (h : Asked existing forest asked owned)
    (n : Nat) : Asked existing forest (asked ++ [n]) (owned.ask existing n) := by
  have hsplit : ∀ root tid, (∃ m ∈ asked ++ [n], (forest.node m).id ≠ [] ∧
      existing (forest.node m).id = some tid ∧ forest.classes.find m = root) ↔
      (∃ m ∈ asked, (forest.node m).id ≠ [] ∧ existing (forest.node m).id = some tid ∧
        forest.classes.find m = root) ∨
      ((forest.node n).id ≠ [] ∧ existing (forest.node n).id = some tid ∧
        forest.classes.find n = root) := by
    intro root tid
    constructor
    · rintro ⟨m, hm, hrest⟩
      rcases List.mem_append.mp hm with hm | hm
      · exact Or.inl ⟨m, hm, hrest⟩
      · rw [List.mem_singleton] at hm
        rw [hm] at hrest
        exact Or.inr hrest
    · rintro (⟨m, hm, hrest⟩ | hrest)
      · exact ⟨m, List.mem_append_left _ hm, hrest⟩
      · exact ⟨n, by simp, hrest⟩
  have skip : ∀ {after : Owned}, after = owned → (∀ tid, ¬ ((forest.node n).id ≠ [] ∧
      existing (forest.node n).id = some tid)) → Asked existing forest (asked ++ [n]) after := by
    intro after heq hno
    subst heq
    refine ⟨h.1, fun root => ?_⟩
    have hsame : ∀ tid, (∃ m ∈ asked ++ [n], (forest.node m).id ≠ [] ∧
        existing (forest.node m).id = some tid ∧ forest.classes.find m = root) ↔
        ∃ m ∈ asked, (forest.node m).id ≠ [] ∧ existing (forest.node m).id = some tid ∧
          forest.classes.find m = root := fun tid => by
      rw [hsplit]
      refine ⟨fun hor => ?_, Or.inl⟩
      rcases hor with hold | hnew
      · exact hold
      · exact absurd ⟨hnew.1, hnew.2.1⟩ (hno tid)
    refine ⟨fun hnone tid hl => (h.2 root).1 hnone tid ((hsame tid).mp hl), fun tid hsome => ?_⟩
    exact (Lowest.congr hsame).mpr ((h.2 root).2 tid hsome)
  unfold Owned.ask
  rw [h.1.node_eq n]
  by_cases hid : (forest.node n).id = []
  · rw [if_pos (by simpa using hid)]
    exact skip rfl fun tid hno => hno.1 hid
  · rw [if_neg (by simpa using hid)]
    cases hex : existing (forest.node n).id with
    | none => exact skip rfl fun tid hno => by simp [hex] at hno
    | some new =>
      have hroot : (owned.forest.rootOf n).2 = forest.classes.find n := by
        rw [rootOf_snd, h.1.find_eq]
      refine ⟨h.1.trans (looked_rootOf owned.forest n), fun root => ?_⟩
      simp only [hroot]
      have hold := h.2 (forest.classes.find n)
      refine ⟨fun hnone tid hl => ?_, fun tid hsome => ?_⟩
      · rw [Table.get_set] at hnone
        by_cases hr : root = forest.classes.find n
        · simp [hr] at hnone
        · rw [if_neg hr] at hnone
          rcases (hsplit root tid).mp hl with hl | hl
          · exact (h.2 root).1 hnone tid hl
          · exact hr hl.2.2.symm
      · rw [Table.get_set] at hsome
        by_cases hr : root = forest.classes.find n
        · subst hr
          rw [if_pos rfl, Option.some.injEq] at hsome
          cases hheld : owned.known.get (forest.classes.find n) with
          | none =>
            rw [hheld] at hsome
            rw [← hsome]
            refine ⟨(hsplit _ _).mpr (Or.inr ⟨hid, hex, rfl⟩), fun other hother => ?_⟩
            rcases (hsplit _ _).mp hother with hl | hl
            · exact absurd hl (hold.1 hheld other)
            · rw [hex, Option.some.injEq] at hl
              rw [hl.2.1]
          | some held =>
            rw [hheld] at hsome
            simp only [ThreadId.min] at hsome
            have hlow := hold.2 held hheld
            have hraw : tid.raw = Nat.min held.raw new.raw := by rw [← hsome]
            have hor : tid = held ∨ tid = new := by
              cases held
              cases new
              cases tid
              grind
            refine ⟨(hsplit _ _).mpr ?_, fun other hother => ?_⟩
            · rcases hor with heq | heq
              · rw [heq]
                exact Or.inl hlow.1
              · rw [heq]
                exact Or.inr ⟨hid, hex, rfl⟩
            · rcases (hsplit _ _).mp hother with hl | hl
              · have hle := hlow.2 other hl
                grind
              · rw [hex, Option.some.injEq] at hl
                rw [← hl.2.1]
                grind
        · rw [if_neg hr] at hsome
          have hlow := (h.2 root).2 tid hsome
          refine ⟨(hsplit _ _).mpr (Or.inl hlow.1), fun other hother => ?_⟩
          rcases (hsplit _ _).mp hother with hl | hl
          · exact hlow.2 other hl
          · exact absurd hl.2.2.symm hr

theorem owned_spec (existing : List Char → Option ThreadId) (forest : Forest) :
    Looked forest (Owned.of existing forest).forest ∧ ∀ root,
      ((Owned.of existing forest).known.get root = none → ∀ tid, ¬ Lends existing forest root tid) ∧
      ∀ tid, (Owned.of existing forest).known.get root = some tid →
        Lowest (Lends existing forest root) tid := by
  have key : ∀ (rest asked : List Nat) (owned : Owned), Asked existing forest asked owned →
      Asked existing forest (asked ++ rest) (rest.foldl (Owned.ask existing) owned) := by
    intro rest
    induction rest with
    | nil =>
      intro asked owned h
      rw [List.append_nil]
      exact h
    | cons n rest ih =>
      intro asked owned h
      have hrest := ih (asked ++ [n]) (owned.ask existing n) (asked_ask h n)
      rw [List.append_assoc] at hrest
      exact hrest
  have hstart : Asked existing forest [] ⟨forest, Table.empty⟩ := by
    refine ⟨Looked.refl forest, fun root => ⟨fun _ tid hl => ?_, fun tid hsome => ?_⟩⟩
    · rcases hl with ⟨n, hn, _⟩
      cases hn
    · rw [Table.get_empty] at hsome
      cases hsome
  have hall := key (List.range forest.size) [] ⟨forest, Table.empty⟩ hstart
  refine ⟨hall.1, fun root => ?_⟩
  have hsame : ∀ tid, (∃ n ∈ [] ++ List.range forest.size, (forest.node n).id ≠ [] ∧
      existing (forest.node n).id = some tid ∧ forest.classes.find n = root) ↔
      Lends existing forest root tid := fun tid => by
    simp [Lends]
  exact ⟨fun hnone tid hl => (hall.2 root).1 hnone tid ((hsame tid).mpr hl),
    fun tid hsome => (Lowest.congr hsame).mp ((hall.2 root).2 tid hsome)⟩

/-- The ids given out so far: each class has its known id or one made for it. -/
structure Giving (forest : Forest) (known : Table Nat ThreadId) (fresh : Nat → ThreadId)
    (done : List Nat) (given : Given) : Prop where
  looked : Looked forest given.forest
  out_eq : given.out.map some = done.map fun n =>
    (known.get (forest.classes.find n)).or (given.made.get (forest.classes.find n))
  made : ∃ number : Nat → Nat,
    (∀ root tid, given.made.get root = some tid →
      tid = fresh (number root) ∧ number root < given.next) ∧
    ∀ a b, given.made.get a ≠ none → given.made.get b ≠ none → number a = number b → a = b

theorem giving_give {done : List Nat} (h : Giving forest known fresh done given) (n : Nat) :
    Giving forest known fresh (done ++ [n]) (given.give known fresh n) := by
  have hroot : (given.forest.rootOf n).2 = forest.classes.find n := by
    rw [rootOf_snd, h.looked.find_eq]
  have hlook := h.looked.trans (looked_rootOf given.forest n)
  have told : ∀ {tid}, (known.get (forest.classes.find n)).or
      (given.made.get (forest.classes.find n)) = some tid → Giving forest known fresh (done ++ [n])
        { given with forest := (given.forest.rootOf n).1, out := given.out ++ [tid] } := by
    intro tid htid
    refine ⟨hlook, ?_, h.made⟩
    rw [List.map_append, List.map_append, h.out_eq]
    simp [htid]
  unfold Given.give
  simp only [hroot]
  cases hk : known.get (forest.classes.find n) with
  | some tid => exact told (by simp [hk])
  | none =>
    cases hm : given.made.get (forest.classes.find n) with
    | some tid => exact told (by simp [hk, hm])
    | none =>
      refine ⟨hlook, ?_, ?_⟩
      · simp only [List.map_append, h.out_eq]
        congr 1
        · refine List.map_congr_left fun m hmem => ?_
          by_cases heq : forest.classes.find m = forest.classes.find n
          · have hsome : (known.get (forest.classes.find m)).or
                (given.made.get (forest.classes.find m)) ∈ given.out.map some := by
              rw [h.out_eq]
              exact List.mem_map_of_mem hmem
            rcases List.mem_map.mp hsome with ⟨tid, _, htid⟩
            rw [heq, hk, hm] at htid
            cases htid
          · rw [Table.get_set, if_neg heq]
        · simp [hk]
      · rcases h.made with ⟨number, hnumber, hinj⟩
        refine ⟨fun root => if root = forest.classes.find n then given.next else number root,
          fun root tid hget => ?_, fun a b ha hb heq => ?_⟩
        · rw [Table.get_set] at hget
          by_cases hr : root = forest.classes.find n
          · rw [if_pos hr, Option.some.injEq] at hget
            simp only [if_pos hr]
            exact ⟨hget.symm, Nat.lt_succ_self _⟩
          · rw [if_neg hr] at hget
            simp only [if_neg hr]
            have hold := hnumber root tid hget
            exact ⟨hold.1, by omega⟩
        · rw [Table.get_set] at ha hb
          by_cases hra : a = forest.classes.find n
          · by_cases hrb : b = forest.classes.find n
            · rw [hra, hrb]
            · simp only [if_pos hra, if_neg hrb] at heq hb
              rcases Option.ne_none_iff_exists'.mp hb with ⟨tid, htid⟩
              have hlt := (hnumber b tid htid).2
              omega
          · by_cases hrb : b = forest.classes.find n
            · simp only [if_neg hra, if_pos hrb] at heq ha
              rcases Option.ne_none_iff_exists'.mp ha with ⟨tid, htid⟩
              have hlt := (hnumber a tid htid).2
              omega
            · simp only [if_neg hra, if_neg hrb] at heq ha hb
              exact hinj a b ha hb heq

theorem giving_all (known : Table Nat ThreadId) (fresh : Nat → ThreadId) (home : List Nat)
    {start : Forest} (h : Looked forest start) :
    Giving forest known fresh home
      (home.foldl (Given.give known fresh) ⟨start, Table.empty, 0, []⟩) := by
  have key : ∀ (rest done : List Nat) (given : Given), Giving forest known fresh done given →
      Giving forest known fresh (done ++ rest) (rest.foldl (Given.give known fresh) given) := by
    intro rest
    induction rest with
    | nil =>
      intro done given hg
      rw [List.append_nil]
      exact hg
    | cons n rest ih =>
      intro done given hg
      have hrest := ih (done ++ [n]) _ (giving_give hg n)
      rw [List.append_assoc] at hrest
      exact hrest
  refine key home [] _ ⟨h, rfl, fun _ => 0, fun root tid hget => ?_, fun a b ha => ?_⟩
  · rw [Table.get_empty] at hget
    cases hget
  · exact absurd (Table.get_empty a) ha

theorem Giving.nth {home : List Nat} (h : Giving forest known fresh home given) {i n : Nat}
    (hi : home[i]? = some n) :
    ∃ tid, given.out[i]? = some tid ∧ (known.get (forest.classes.find n)).or
      (given.made.get (forest.classes.find n)) = some tid := by
  have hmap : (given.out.map some)[i]? = some ((known.get (forest.classes.find n)).or
      (given.made.get (forest.classes.find n))) := by
    rw [h.out_eq, List.getElem?_map, hi]
    rfl
  rw [List.getElem?_map] at hmap
  cases hout : given.out[i]? with
  | none => simp [hout] at hmap
  | some tid =>
    rw [hout, Option.map_some, Option.some.injEq] at hmap
    exact ⟨tid, rfl, hmap.symm⟩

theorem known_iff (root : Nat) (tid : ThreadId) :
    (Owned.of existing forest).known.get root = some tid ↔
      Lowest (Lends existing forest root) tid := by
  have h := (owned_spec existing forest).2 root
  refine ⟨h.2 tid, fun hl => ?_⟩
  cases hk : (Owned.of existing forest).known.get root with
  | none => exact absurd hl.1 (h.1 hk tid)
  | some other => rw [(h.2 other hk).unique hl]

/-- Two inputs get one id when their classes are one or have the same lowest known id. -/
theorem assign_iff {home : List Nat} {fresh : Nat → ThreadId} (hinj : Function.Injective fresh)
    (hnew : ∀ k id, existing id ≠ some (fresh k)) {i j a b : Nat} (hi : home[i]? = some a)
    (hj : home[j]? = some b) :
    (assign forest home existing fresh)[i]? = (assign forest home existing fresh)[j]? ↔
      forest.classes.Same a b ∨ ∃ tid, Lowest (Lends existing forest (forest.classes.find a)) tid ∧
        Lowest (Lends existing forest (forest.classes.find b)) tid := by
  have hg := giving_all (Owned.of existing forest).known fresh home (owned_spec existing forest).1
  simp only [assign]
  generalize home.foldl (Given.give _ fresh) _ = given at hg ⊢
  rcases hg.nth hi with ⟨x, hx, hxa⟩
  rcases hg.nth hj with ⟨y, hy, hyb⟩
  rcases hg.made with ⟨number, hnumber, hone⟩
  -- A known id was never made.
  have apart : ∀ {root other tid}, (Owned.of existing forest).known.get root = some tid →
      given.made.get other ≠ some tid := by
    intro root other tid hk hm
    rcases ((known_iff root tid).mp hk).1 with ⟨n, _, _, hex, _⟩
    rw [(hnumber other tid hm).1] at hex
    exact hnew _ _ hex
  rw [hx, hy, Option.some.injEq]
  constructor
  · intro heq
    subst heq
    rcases Option.or_eq_some_iff.mp hxa with ha | ⟨_, ha⟩
    · rcases Option.or_eq_some_iff.mp hyb with hb | ⟨_, hb⟩
      · exact Or.inr ⟨x, (known_iff _ x).mp ha, (known_iff _ x).mp hb⟩
      · exact absurd hb (apart ha)
    · rcases Option.or_eq_some_iff.mp hyb with hb | ⟨_, hb⟩
      · exact absurd ha (apart hb)
      · have hnum := hinj ((hnumber _ x ha).1.symm.trans (hnumber _ x hb).1)
        exact Or.inl (hone _ _ (by simp [ha]) (by simp [hb]) hnum)
  · rintro (hs | ⟨tid, hla, hlb⟩)
    · have hroot : forest.classes.find a = forest.classes.find b := hs
      rw [hroot, hyb, Option.some.injEq] at hxa
      exact hxa.symm
    · rw [(known_iff _ tid).mpr hla, Option.some_or, Option.some.injEq] at hxa
      rw [(known_iff _ tid).mpr hlb, Option.some_or, Option.some.injEq] at hyb
      exact hxa.symm.trans hyb

end Assign

/-! ## Threads with no subject to compare -/

theorem Census.looked_visit (census : Census) (n : Nat) :
    Looked census.forest (census.visit n).forest := looked_rootOf census.forest n

theorem Census.looked_of (forest : Forest) : Looked forest (Census.of forest).forest := by
  have key : ∀ (rest : List Nat) (census : Census),
      Looked census.forest (rest.foldl Census.visit census).forest := by
    intro rest
    induction rest with
    | nil => exact fun census => Looked.refl _
    | cons n rest ih => exact fun census => (census.looked_visit n).trans (ih _)
  exact key (List.range forest.size) ⟨forest, Table.empty, Table.empty⟩

variable {inputs : List ThreadInput} {rootless : List Bool}

/-! ## No orphan, nothing joined -/

/-- Input `i` names no reference, and its subject has this base. -/
def Plain (inputs : List ThreadInput) (base : List Char) (replied : Bool) (i : Nat) : Prop :=
  ∃ input, inputs[i]? = some input ∧ input.chainIds = [] ∧
    baseSubject input.subject = (base, replied) ∧ base ≠ []

/-- A reply by its subject alone, that nothing relates to another message. -/
def LoneReply (inputs : List ThreadInput) (base : List Char) (o : Nat) : Prop :=
  Plain inputs base true o ∧
    ∀ j, j < inputs.length → Related inputs (.input j) (.input o) → j = o

/-- A surviving root of a class. -/
def isTopOf (forest : Forest) (root n : Nat) : Bool :=
  (!(forest.node n).dead && (forest.parentOf n).isNone) && forest.classes.find n == root

def isSeatOf (forest : Forest) (root n : Nat) : Bool :=
  (forest.node n).msg.isSome && forest.classes.find n == root

/-- The census after some containers have been visited. -/
structure Counted (forest : Forest) (seen : List Nat) (census : Census) : Prop where
  looked : Forest.Looked forest census.forest
  roots_eq : ∀ root, (census.roots.get root).getD [] = seen.filter (isTopOf forest root)
  count_eq : ∀ root, (census.count.get root).getD 0 = (seen.filter (isSeatOf forest root)).length

theorem counted_visit {forest : Forest} {census : Census} {seen : List Nat} (h : Counted forest seen census) (n : Nat) :
    Counted forest (seen ++ [n]) (census.visit n) := by
  have hroot : (census.forest.rootOf n).2 = forest.classes.find n := by
    rw [Forest.rootOf_snd, h.looked.find_eq]
  have hlook := h.looked.trans (Forest.looked_rootOf census.forest n)
  have hnode : (census.forest.rootOf n).1.node n = forest.node n := hlook.node_eq n
  refine ⟨hlook, fun root => ?_, fun root => ?_⟩
  · simp only [Census.visit, hroot, hnode, Forest.parentOf]
    rw [List.filter_append, ← h.roots_eq]
    by_cases htop : (!(forest.node n).dead && (forest.node n).parent.isNone) = true
    · rw [if_pos htop, Table.get_set]
      by_cases hr : root = forest.classes.find n
      · subst hr
        have his : isTopOf forest (forest.classes.find n) n = true := by
          simp only [isTopOf, Forest.parentOf, htop, Bool.true_and, beq_self_eq_true]
        simp [his]
      · have his : isTopOf forest root n = false := by
          simp [isTopOf, Ne.symm hr]
        simp [hr, his]
    · have his : isTopOf forest root n = false := by
        rw [isTopOf, Forest.parentOf, Bool.not_eq_true _ |>.mp htop, Bool.false_and]
      rw [if_neg htop]
      simp [his]
  · simp only [Census.visit, hroot, hnode]
    rw [List.filter_append, List.length_append, ← h.count_eq]
    by_cases hseat : (forest.node n).msg.isSome = true
    · rw [if_pos hseat, Table.get_set]
      by_cases hr : root = forest.classes.find n
      · subst hr
        have his : isSeatOf forest (forest.classes.find n) n = true := by
          simp only [isSeatOf, hseat, Bool.true_and, beq_self_eq_true]
        simp [his]
      · have his : isSeatOf forest root n = false := by
          simp [isSeatOf, Ne.symm hr]
        simp [hr, his]
    · have his : isSeatOf forest root n = false := by
        rw [isSeatOf, Bool.not_eq_true _ |>.mp hseat, Bool.false_and]
      rw [if_neg hseat]
      simp [his]

theorem counted_of (forest : Forest) :
    Counted forest (List.range forest.size) (Census.of forest) := by
  have key : ∀ (rest seen : List Nat) (census : Census), Counted forest seen census →
      Counted forest (seen ++ rest) (rest.foldl Census.visit census) := by
    intro rest
    induction rest with
    | nil =>
      intro seen census h
      rw [List.append_nil]
      exact h
    | cons n rest ih =>
      intro seen census h
      have hrest := ih (seen ++ [n]) _ (counted_visit h n)
      rw [List.append_assoc] at hrest
      exact hrest
  exact key (List.range forest.size) [] _
    ⟨Forest.Looked.refl forest, fun root => by simp, fun root => by simp⟩

theorem topSubject_plain {seating : Seating} (h : Reading inputs seating)
    (hlen : seating.home.length = inputs.length) {forest : Forest}
    (hmsg : ∀ n, (forest.node n).msg = (seating.forest.node n).msg) {tops : List Nat}
    {base : List Char} {replied : Bool}
    (hsub : topSubject forest inputs seating.rootless tops = some (base, replied)) :
    ∃ top i, tops = [top] ∧ seating.home[i]? = some top ∧ Plain inputs base replied i := by
  unfold topSubject at hsub
  split at hsub
  · rename_i top
    split at hsub
    · rename_i i hi
      rw [hmsg, ← h.home_iff] at hi
      have hlt : i < inputs.length := hlen ▸ (List.getElem?_eq_some_iff.mp hi).1
      have hin : inputs[i]? = some inputs[i] := List.getElem?_eq_getElem hlt
      split at hsub
      · rename_i hrootless
        rw [h.rootless_eq, hlen, List.take_length, List.getD_eq_getElem?_getD, List.getElem?_map,
          hin] at hrootless
        rw [List.getD_eq_getElem?_getD, hin, Option.getD_some] at hsub
        rcases hbase : baseSubject inputs[i].subject with ⟨b, r⟩
        rw [hbase] at hsub
        simp only at hsub
        split at hsub
        · cases hsub
        · rename_i hne
          rw [Option.some.injEq, Prod.mk.injEq] at hsub
          rw [← hsub.1, ← hsub.2]
          exact ⟨top, i, rfl, hi, _, hin, by simpa using hrootless, hbase, by simpa using hne⟩
      · cases hsub
    · cases hsub
  · cases hsub

/-- A class that counts one message holds no other. -/
theorem counted_once {forest : Forest} {n m root : Nat}
    (hcount : (Census.of forest).count.get root = some 1) (hn : isSeatOf forest root n = true)
    (hm : isSeatOf forest root m = true) (hnlt : n < forest.size) (hmlt : m < forest.size) :
    n = m := by
  have hone := (counted_of forest).count_eq root
  rw [hcount, Option.getD_some, eq_comm, List.length_eq_one_iff] at hone
  obtain ⟨a, ha⟩ := hone
  have hmem : ∀ k, k < forest.size → isSeatOf forest root k = true → k = a := by
    intro k hk hseat
    have hin := List.mem_filter.mpr ⟨List.mem_range.mpr hk, hseat⟩
    rw [ha] at hin
    exact List.mem_singleton.mp hin
  rw [hmem n hnlt hn, hmem m hmlt hm]

/-- Without a lone reply the fallback enters no orphan. -/
theorem loneReply_of_orphan {seating : Seating} (h : Reading inputs seating)
    (hlen : seating.home.length = inputs.length) {root : Nat} {tops : List Nat} {base : List Char}
    (hroots : (Census.of seating.forest.prune).roots.get root = some tops)
    (hsub : topSubject (Census.of seating.forest.prune).forest inputs seating.rootless tops =
      some (base, true))
    (hcount : (Census.of seating.forest.prune).count.get root = some 1) :
    ∃ o, LoneReply inputs base o := by
  have htrim := Forest.trimmed_prune seating.forest
  have hmsg : ∀ n, ((Census.of seating.forest.prune).forest.node n).msg =
      (seating.forest.node n).msg := fun n => by
    rw [(Census.looked_of _).node_eq, htrim.msg_eq]
  obtain ⟨top, o, rfl, ho, hplain⟩ := topSubject_plain h hlen hmsg hsub
  have hroot : seating.forest.classes.find top = root := by
    have htops := (counted_of seating.forest.prune).roots_eq root
    rw [hroots, Option.getD_some] at htops
    have htop : top ∈ (List.range seating.forest.prune.size).filter
        (isTopOf seating.forest.prune root) := htops ▸ List.mem_singleton_self top
    have his := (List.mem_filter.mp htop).2
    rw [isTopOf, htrim.classes_eq, Bool.and_eq_true, beq_iff_eq] at his
    exact his.2
  have hseat : ∀ {i n : Nat}, seating.home[i]? = some n →
      seating.forest.classes.find n = root →
        isSeatOf seating.forest.prune root n = true ∧ n < seating.forest.prune.size := by
    intro i n hi hn
    have hmsg := (h.home_iff i n).mp hi
    rw [isSeatOf, htrim.msg_eq, htrim.classes_eq, htrim.size_eq, hmsg]
    exact ⟨by simp [hn], Forest.lt_of_msg hmsg⟩
  refine ⟨o, hplain, fun j hj hrelated => ?_⟩
  obtain ⟨m, hm⟩ : ∃ m, seating.home[j]? = some m := ⟨_, List.getElem?_eq_getElem (hlen ▸ hj)⟩
  have hsame : seating.forest.classes.Same m top :=
    (h.same_iff hlen (Or.inr ⟨j, hm, rfl⟩) (Or.inr ⟨o, ho, rfl⟩)).mpr hrelated
  have hmroot : seating.forest.classes.find m = root := Eq.trans hsame hroot
  have hone := counted_once hcount (hseat hm hmroot).1 (hseat ho hroot).1 (hseat hm hmroot).2
    (hseat ho hroot).2
  rw [hone, h.home_iff, (h.home_iff o top).mp ho, Option.some.injEq] at hm
  exact hm.symm

theorem joins_of_no_lone {seating : Seating} (h : Reading inputs seating)
    (hlen : seating.home.length = inputs.length)
    (hlone : ∀ base o, ¬ LoneReply inputs base o) :
    (Standing.of inputs seating.rootless (Census.of seating.forest.prune)).joins = [] := by
  have key : ∀ (rows : List (Nat × List Nat)) (standing : Standing),
      (∀ row ∈ rows, row ∈ (Census.of seating.forest.prune).roots.rows) →
      (rows.foldl (Standing.enter inputs seating.rootless (Census.of seating.forest.prune))
        standing).orphans = standing.orphans := by
    intro rows
    induction rows with
    | nil => exact fun _ _ => rfl
    | cons row rows ih =>
      intro standing hrows
      obtain ⟨hrow, hrest⟩ := List.forall_mem_cons.mp hrows
      rw [List.foldl_cons, ih _ hrest]
      rcases row with ⟨top, tops⟩
      simp only [Standing.enter]
      split
      · rfl
      · rename_i base hsub
        split
        · rename_i hcount
          obtain ⟨o, ho⟩ := loneReply_of_orphan h hlen (Table.mem_rows.mp hrow) hsub hcount
          exact absurd ho (hlone base o)
        · rfl
      · rfl
  rw [Standing.joins, Standing.of, key _ _ fun _ hrow => hrow]
  rfl

theorem no_lone_of_forall (h : ∀ input ∈ inputs, input.chainIds = [] →
    (baseSubject input.subject).1 = [] ∨ (baseSubject input.subject).2 = false)
    (base : List Char) (o : Nat) : ¬ LoneReply inputs base o := by
  rintro ⟨⟨input, hin, hnone, hbase, hne⟩, -⟩
  have hsubject := h input (List.mem_of_getElem? hin) hnone
  rw [hbase] at hsubject
  rcases hsubject with hempty | hnew
  · exact hne hempty
  · cases hnew

/-- With no subject to compare and no id known, two inputs share a thread exactly when they are
joined by what they name, whatever links the forest took, refused or pruned. -/
theorem thread_is_reference_closure {inputs : List ThreadInput} {fresh : Nat → ThreadId}
    (hsubject : ∀ input ∈ inputs, (baseSubject input.subject).1 = [])
    (hfresh : Function.Injective fresh) {i j : Nat} (hi : i < inputs.length)
    (hj : j < inputs.length) :
    (threadWith inputs (fun _ => none) fresh)[i]? = (threadWith inputs (fun _ => none) fresh)[j]? ↔
      Relation.EqvGen (Joins inputs) (.input i) (.input j) := by
  have hall := Reading.all inputs
  have hread := hall.1
  have hlen := hall.2
  rw [← hlen] at hi hj
  have hhi : (Seating.readAll inputs).home[i]? = some (Seating.readAll inputs).home[i] :=
    List.getElem?_eq_getElem hi
  have hhj : (Seating.readAll inputs).home[j]? = some (Seating.readAll inputs).home[j] :=
    List.getElem?_eq_getElem hj
  have hclasses : ∀ n, (subjectMerge (Seating.readAll inputs).forest.prune inputs
      (Seating.readAll inputs).rootless).classes.find n =
      (Seating.readAll inputs).forest.classes.find n := by
    intro n
    unfold subjectMerge
    simp only [joins_of_no_lone hread hlen (no_lone_of_forall fun input hin _ => .inl (hsubject input hin))]
    show (Census.of (Seating.readAll inputs).forest.prune).forest.classes.find n = _
    rw [(Census.looked_of _).find_eq, (Forest.trimmed_prune _).classes_eq]
  have hassign := @assign_iff (fun _ => none) (subjectMerge
    (Seating.readAll inputs).forest.prune inputs (Seating.readAll inputs).rootless) _ _ hfresh
    (fun k id h => by cases h) i j _ _ hhi hhj
  refine hassign.trans ?_
  have hsame := hread.same_iff hlen (Or.inr ⟨i, hhi, rfl⟩) (Or.inr ⟨j, hhj, rfl⟩)
  constructor
  · rintro (hs | ⟨tid, hl, _⟩)
    · refine hsame.mp ?_
      rw [Classes.Same, ← hclasses, ← hclasses]
      exact hs
    · rcases hl.1 with ⟨n, _, _, hex, _⟩
      cases hex
  · intro hr
    have hs := hsame.mpr hr
    rw [Classes.Same, ← hclasses, ← hclasses] at hs
    exact Or.inl hs

/-- Two messages that each name the other first, and a third with the id of the first. -/
def loopInputs : List ThreadInput :=
  [⟨some "<a@x>".toList, none, ["<b@x>".toList], [], none⟩,
    ⟨some "<b@x>".toList, some "<A@x>".toList, [], [], none⟩,
    ⟨some "<a@x>".toList, none, [], [], some "7".toList⟩]

theorem thread_is_reference_closure_loop :
    (threadWith loopInputs (fun _ => none) ThreadId.mk)[0]? =
        (threadWith loopInputs (fun _ => none) ThreadId.mk)[1]? ↔
      Relation.EqvGen (Joins loopInputs) (.input 0) (.input 1) :=
  thread_is_reference_closure (by decide) (fun _ _ h => ThreadId.mk.inj h) (by decide) (by decide)

/-! ## Threads that are known

An input joined with an id whose thread is known takes the lowest such thread, and one joined with
none takes a thread made for its class.
-/

open Library.ParentForest

/-- A thread known for an id an input is joined with. -/
def Knows (inputs : List ThreadInput) (existing : List Char → Option ThreadId) (i : Nat)
    (tid : ThreadId) : Prop :=
  ∃ key, key ≠ [] ∧ existing key = some tid ∧ Related inputs (.input i) (Point.ofKey key)

theorem assign_nth {forest : Forest} {existing : List Char → Option ThreadId}
    {fresh : Nat → ThreadId} {home : List Nat} {i a : Nat} (hi : home[i]? = some a) :
    ∃ tid, (assign forest home existing fresh)[i]? = some tid ∧
      (Lowest (Lends existing forest (forest.classes.find a)) tid ∨
        ((∀ t, ¬ Lends existing forest (forest.classes.find a) t) ∧ ∃ k, tid = fresh k)) := by
  have hg := giving_all (Owned.of existing forest).known fresh home (owned_spec existing forest).1
  rcases hg.nth hi with ⟨tid, htid, hfrom⟩
  rcases hg.made with ⟨number, hnumber, _⟩
  refine ⟨tid, htid, ?_⟩
  have howned := (owned_spec existing forest).2 (forest.classes.find a)
  cases hknown : (Owned.of existing forest).known.get (forest.classes.find a) with
  | some known =>
    rw [hknown, Option.some_or, Option.some.injEq] at hfrom
    rw [← hfrom]
    exact Or.inl (howned.2 known hknown)
  | none =>
    rw [hknown, Option.none_or] at hfrom
    exact Or.inr ⟨howned.1 hknown, _, (hnumber _ tid hfrom).1⟩

section Threads

variable {inputs : List ThreadInput}

def finalForest (inputs : List ThreadInput) : Forest :=
  subjectMerge (Seating.readAll inputs).forest.prune inputs (Seating.readAll inputs).rootless

/-- With no lone reply, it has the classes and the ids of the arena as it was read. -/
theorem finalForest_eq (hlone : ∀ base o, ¬ LoneReply inputs base o) :
    (finalForest inputs).size = (Seating.readAll inputs).forest.size ∧
    (∀ n, ((finalForest inputs).node n).id = ((Seating.readAll inputs).forest.node n).id) ∧
    ∀ n, (finalForest inputs).classes.find n =
      (Seating.readAll inputs).forest.classes.find n := by
  have hfinal : finalForest inputs = (Census.of (Seating.readAll inputs).forest.prune).forest := by
    unfold finalForest subjectMerge
    simp only [joins_of_no_lone (Reading.all inputs).1 (Reading.all inputs).2 hlone]
    rfl
  have hlooked := Census.looked_of (Seating.readAll inputs).forest.prune
  have htrimmed := Forest.trimmed_prune (Seating.readAll inputs).forest
  rw [hfinal]
  refine ⟨?_, fun n => ?_, fun n => ?_⟩
  · rw [hlooked.size_eq, htrimmed.size_eq]
  · rw [hlooked.node_eq, htrimmed.id_eq]
  · rw [hlooked.find_eq, htrimmed.classes_eq]

theorem lends_iff_knows (hlone : ∀ base o, ¬ LoneReply inputs base o)
    {existing : List Char → Option ThreadId} {i a : Nat}
    (hi : (Seating.readAll inputs).home[i]? = some a) (tid : ThreadId) :
    Lends existing (finalForest inputs) ((finalForest inputs).classes.find a) tid ↔
      Knows inputs existing i tid := by
  rcases finalForest_eq hlone with ⟨hsize, hid, hfind⟩
  rcases Reading.all inputs with ⟨hread, hlen⟩
  have hhome : Reading.Stands (Seating.readAll inputs) a (.input i) := Or.inr ⟨i, hi, rfl⟩
  constructor
  · rintro ⟨n, hn, hne, hexisting, hroot⟩
    rw [hsize] at hn
    rw [hid] at hne hexisting
    rw [hfind, hfind] at hroot
    have hpoint : (Seating.readAll inputs).forest.point n =
        Point.ofKey ((Seating.readAll inputs).forest.node n).id := by
      rw [Forest.point, if_neg hne]
    have hsame : (Seating.readAll inputs).forest.classes.Same n a := hroot
    have hrelated := (hread.same_iff hlen (Or.inl ⟨hn, hpoint⟩) hhome).mp hsame
    exact ⟨_, hne, hexisting, hrelated.symm⟩
  · rintro ⟨key, hne, hexisting, hrelated⟩
    rcases hread.same_of_related hlen hrelated with heq | ⟨n, m, hn, hm, hsame⟩
    · exact absurd heq.symm (Point.ofKey_ne_input key i)
    · rcases hm with ⟨hlt, hpoint⟩ | ⟨j, _, hpoint⟩
      · have hkey := id_of_point hpoint
        rw [hread.eq_of_stands hlen hn hhome] at hsame
        refine ⟨m, ?_, ?_, ?_, ?_⟩
        · rw [hsize]
          exact hlt
        · rw [hid, hkey]
          exact hne
        · rw [hid, hkey]
          exact hexisting
        · rw [hfind, hfind]
          exact hsame.symm
      · exact absurd hpoint (Point.ofKey_ne_input key j)

variable {i : Nat}

/-- What thread each input is given. -/
theorem threadWith_nth (hlone : ∀ base o, ¬ LoneReply inputs base o)
    (existing : List Char → Option ThreadId) (fresh : Nat → ThreadId) (hi : i < inputs.length) :
    ∃ tid, (threadWith inputs existing fresh)[i]? = some tid ∧
      (Lowest (Knows inputs existing i) tid ∨
        ((∀ t, ¬ Knows inputs existing i t) ∧ ∃ k, tid = fresh k)) := by
  rcases Reading.all inputs with ⟨hread, hlen⟩
  rw [← hlen] at hi
  have hhome : (Seating.readAll inputs).home[i]? = some (Seating.readAll inputs).home[i] :=
    List.getElem?_eq_getElem hi
  rcases @assign_nth (finalForest inputs) existing fresh _ _ _ hhome with ⟨tid, htid, hfrom⟩
  refine ⟨tid, htid, ?_⟩
  have hknows := @lends_iff_knows _ hlone existing _ _ hhome
  rcases hfrom with hlowest | ⟨hnone, hfresh⟩
  · exact Or.inl ((Lowest.congr hknows).mp hlowest)
  · exact Or.inr ⟨fun t hknown => hnone t ((hknows t).mpr hknown), hfresh⟩

/-- Two inputs share a thread when they are joined, or when the lowest threads known for them are
one. -/
theorem threadWith_same (hlone : ∀ base o, ¬ LoneReply inputs base o)
    {existing : List Char → Option ThreadId} {fresh : Nat → ThreadId}
    (hfresh : Function.Injective fresh) (hnew : ∀ k id, existing id ≠ some (fresh k)) {j : Nat}
    (hi : i < inputs.length) (hj : j < inputs.length) :
    (threadWith inputs existing fresh)[i]? = (threadWith inputs existing fresh)[j]? ↔
      Related inputs (.input i) (.input j) ∨
        ∃ tid, Lowest (Knows inputs existing i) tid ∧ Lowest (Knows inputs existing j) tid := by
  rcases Reading.all inputs with ⟨hread, hlen⟩
  rw [← hlen] at hi hj
  have hhi : (Seating.readAll inputs).home[i]? = some (Seating.readAll inputs).home[i] :=
    List.getElem?_eq_getElem hi
  have hhj : (Seating.readAll inputs).home[j]? = some (Seating.readAll inputs).home[j] :=
    List.getElem?_eq_getElem hj
  have hassign := @assign_iff existing (finalForest inputs) _ _ hfresh hnew i j _ _ hhi hhj
  refine hassign.trans ?_
  have hfind := (finalForest_eq hlone).2.2
  have hsame := hread.same_iff hlen (Or.inr ⟨i, hhi, rfl⟩) (Or.inr ⟨j, hhj, rfl⟩)
  have hclasses : (finalForest inputs).classes.Same (Seating.readAll inputs).home[i]
      (Seating.readAll inputs).home[j] ↔
        (Seating.readAll inputs).forest.classes.Same (Seating.readAll inputs).home[i]
          (Seating.readAll inputs).home[j] := by
    rw [Classes.Same, Classes.Same, hfind, hfind]
  rw [hclasses, hsame]
  simp only [Lowest.congr (lends_iff_knows hlone hhi), Lowest.congr (lends_iff_knows hlone hhj)]

theorem length_threadWith (existing : List Char → Option ThreadId) (fresh : Nat → ThreadId) :
    (threadWith inputs existing fresh).length = inputs.length := by
  have hg := giving_all (Owned.of existing (finalForest inputs)).known fresh
    (Seating.readAll inputs).home (owned_spec existing (finalForest inputs)).1
  have hmap := congrArg List.length hg.out_eq
  rw [List.length_map, List.length_map, (Reading.all inputs).2] at hmap
  exact hmap

end Threads

end Mailo.Domain.Threading
