import Mathlib.Data.List.Chain
import Mathlib.Data.List.Nodup
import Mathlib.Data.List.Perm.Subperm
import Mailo.Domain.Text

/-!
# Whether a signer is believed

Issuers are climbed from the signer's certificate to a trust anchor, the first that fits taken at
each step. A certificate is known by the bytes it was read from.
-/

namespace Mailo.Crypto.Chain

open Domain

/-! ## Certificates -/

inductive Extension (α : Type) where
  | unreadable | absent
  | stated (value : α)

structure KeyUsage where
  digitalSignature : Bool
  nonRepudiation : Bool
  keyCertSign : Bool

inductive Purpose where
  | emailProtection | anyExtendedKeyUsage | other
deriving DecidableEq

inductive DigestAlg where
  | sha1 | sha256 | sha384 | sha512
deriving DecidableEq

/-- A certificate, parsed, and its encoding. Names and keys are compared and used whole. -/
structure Cert (Name Key : Type) where
  der : List UInt8
  subject : Name
  issuer : Name
  notBefore : Int
  notAfter : Int
  /-- Whether its basic constraints say that it is an authority's. -/
  basicConstraints : Extension Bool
  keyUsage : Extension KeyUsage
  extendedKeyUsage : Extension (List Purpose)
  alternatives : List (List Char)
  attributes : List (List Char)
  key : Key
  /-- The digest its signature is computed with, if that is one this client computes. -/
  signatureDigest : Option DigestAlg

inductive CertProblem where
  | untrusted
  | expired (notAfter : Int)
  | notYetValid (notBefore : Int)
  | notForEmail
  | notFrom (sender : List Char)
deriving DecidableEq

/-- `out` with `problem` noted in it, once. -/
def note (out : List CertProblem) (problem : CertProblem) : List CertProblem :=
  if problem ∈ out then out else out ++ [problem]

section

variable {Name Key : Type} (cert : Cert Name Key)

namespace Cert

def emails : List (List Char) :=
  let found := if cert.alternatives.isEmpty then cert.attributes else cert.alternatives
  found.foldl (fun out email =>
    let email := Text.toAsciiLowercase (Text.trim email)
    if email.isEmpty || out.contains email then out else out ++ [email]) []

def isFor (address : List Char) : Bool :=
  cert.emails.any (Text.eqIgnoreAsciiCase · (Text.trim address))

def isCa : Bool :=
  match cert.basicConstraints with
  | .stated ca => ca
  | _ => false

def mayIssue : Bool :=
  cert.isCa &&
    match cert.keyUsage with
    | .stated usage => usage.keyCertSign
    | .absent => true
    | .unreadable => false

def mayIssueAsAnchor : Bool :=
  match cert.basicConstraints with
  | .absent => true
  | .stated ca => ca
  | .unreadable => false

def emailPurpose : Bool :=
  match cert.extendedKeyUsage with
  | .stated purposes => purposes.any fun p => p = .emailProtection || p = .anyExtendedKeyUsage
  | .absent => true
  | .unreadable => false

def maySignMail : Bool :=
  (match cert.keyUsage with
    | .stated usage => usage.digitalSignature || usage.nonRepudiation
    | .absent => true
    | .unreadable => false) && cert.emailPurpose

end Cert

def dated (cert : Cert Name Key) (instant : Int) : Option CertProblem :=
  if cert.notAfter < instant then some (.expired cert.notAfter)
  else if instant < cert.notBefore then some (.notYetValid cert.notBefore)
  else none

/-! ## What is noted -/

def isDates : CertProblem → Bool
  | .expired _ => true
  | .notYetValid _ => true
  | _ => false

def noteDates (instant : Int) (out : List CertProblem) (issuers : List (Cert Name Key)) :
    List CertProblem :=
  issuers.foldl (fun out issuer =>
    match dated issuer instant with
    | some problem => note out problem
    | none => out) out

def ownProblems (signer : Cert Name Key) (instant : Int) (sender : Option (List Char)) : List CertProblem :=
  let out := match dated signer instant with
    | some problem => note [] problem
    | none => []
  let out := if signer.maySignMail then out else note out .notForEmail
  match sender with
  | some address =>
    if signer.isFor address then out else note out (.notFrom (Text.trim address))
  | none => note out (.notFrom [])

section

variable {signer : Cert Name Key} {instant : Int} {sender : Option (List Char)}
  {out : List CertProblem} {problem : CertProblem}

@[simp] theorem mem_note {other : CertProblem} :
    other ∈ note out problem ↔ other ∈ out ∨ other = problem := by
  unfold note
  split
  · rename_i hmem
    constructor
    · exact .inl
    · rintro (h | rfl)
      · exact h
      · exact hmem
  · simp

theorem mem_noteDates {issuers : List (Cert Name Key)} :
    problem ∈ noteDates instant out issuers ↔
      problem ∈ out ∨ ∃ issuer ∈ issuers, dated issuer instant = some problem := by
  induction issuers generalizing out with
  | nil => simp [noteDates]
  | cons issuer rest ih =>
    have hstep : noteDates instant out (issuer :: rest) =
        noteDates instant (match dated issuer instant with
          | some problem => note out problem
          | none => out) rest := rfl
    rw [hstep, ih]
    cases hdated : dated issuer instant with
    | none => simp [hdated]
    | some other => simp [hdated, or_assoc, eq_comm]

theorem isDates_of_dated {cert : Cert Name Key} (h : dated cert instant = some problem) :
    isDates problem = true := by
  unfold dated at h
  split at h
  · cases h
    rfl
  · split at h
    · cases h
      rfl
    · cases h

theorem noteDates_eq_append {out' : List CertProblem}
    (hsame : ∀ problem, isDates problem = true → (problem ∈ out ↔ problem ∈ out'))
    (issuers : List (Cert Name Key)) :
    ∃ noted, noteDates instant out issuers = out ++ noted ∧
      noteDates instant out' issuers = out' ++ noted := by
  induction issuers generalizing out out' with
  | nil => exact ⟨[], by simp [noteDates]⟩
  | cons issuer rest ih =>
    have hstep : ∀ out, noteDates instant out (issuer :: rest) =
        noteDates instant (match dated issuer instant with
          | some problem => note out problem
          | none => out) rest := fun _ => rfl
    rw [hstep, hstep]
    cases hdated : dated issuer instant with
    | none => exact ih hsame
    | some problem =>
      have hnext : ∀ other, isDates other = true →
          (other ∈ note out problem ↔ other ∈ note out' problem) := fun other hother => by
        simp only [mem_note]
        exact or_congr_left (hsame other hother)
      obtain ⟨noted, hnoted⟩ := ih hnext
      by_cases hmem : problem ∈ out
      · have hmem' := (hsame problem (isDates_of_dated hdated)).mp hmem
        simp only [note, hmem, hmem', if_true] at hnoted ⊢
        exact ⟨noted, hnoted⟩
      · have hmem' := mt (hsame problem (isDates_of_dated hdated)).mpr hmem
        simp only [note, hmem, hmem', if_false, List.append_assoc] at hnoted ⊢
        exact ⟨_, hnoted⟩

theorem mem_ownProblems : problem ∈ ownProblems signer instant sender ↔
    dated signer instant = some problem ∨
      signer.maySignMail = false ∧ problem = .notForEmail ∨
      sender.any signer.isFor = false ∧ problem = .notFrom ((sender.map Text.trim).getD []) := by
  have hdates : (problem ∈ match dated signer instant with
      | some problem => note [] problem
      | none => []) ↔ dated signer instant = some problem := by
    cases dated signer instant <;> simp [eq_comm]
  unfold ownProblems
  cases sender with
  | none => cases hmail : signer.maySignMail <;> simp [hdates, or_assoc]
  | some address =>
    cases hmail : signer.maySignMail <;> cases hfor : signer.isFor address <;>
      simp [hdates, hfor, or_assoc]

/-- Of the signer's own problems, those of dates are its dates. -/
theorem mem_ownProblems_of_isDates (h : isDates problem = true) :
    problem ∈ ownProblems signer instant sender ↔ dated signer instant = some problem := by
  rw [mem_ownProblems, or_iff_left]
  rintro (⟨-, rfl⟩ | ⟨-, rfl⟩) <;> cases h

/-- The signer's other problems do not change what dates are noted. -/
theorem noteDates_own_iff {path above : List (Cert Name Key)} :
    noteDates instant (ownProblems signer instant sender) path =
        noteDates instant (ownProblems signer instant sender) above ↔
      noteDates instant (dated signer instant).toList path =
        noteDates instant (dated signer instant).toList above := by
  have hsame : ∀ problem, isDates problem = true →
      (problem ∈ ownProblems signer instant sender ↔ problem ∈ (dated signer instant).toList) :=
    fun problem hdates => by rw [mem_ownProblems_of_isDates hdates, Option.mem_toList]
  obtain ⟨noted, hown, hdated⟩ := @noteDates_eq_append _ _ instant _ _ hsame path
  obtain ⟨noted', hown', hdated'⟩ := @noteDates_eq_append _ _ instant _ _ hsame above
  rw [hown, hown', hdated, hdated', List.append_cancel_left_eq, List.append_cancel_left_eq]

theorem untrusted_notMem_ownProblems : .untrusted ∉ ownProblems signer instant sender := by
  rw [mem_ownProblems]
  rintro (hdated | ⟨-, hmail⟩ | ⟨-, hfrom⟩)
  · exact absurd (isDates_of_dated hdated) (by decide)
  · cases hmail
  · cases hfrom

end

/-! ## The climb -/

/-- The longest chain followed. -/
def maxChain : Nat := 8

-- Whether a certificate's signature holds with a key, its digest computed so.
variable [DecidableEq Name] (verifies : Key → DigestAlg → Cert Name Key → Bool)

def issued (subject issuer : Cert Name Key) : Bool :=
  match subject.signatureDigest with
  | none => false
  | some .sha1 => false
  | some digest => verifies issuer.key digest subject

variable (pool anchors : List (Cert Name Key)) (signer : Cert Name Key)

def isAnchor (cert : Cert Name Key) : Bool := anchors.any fun anchor => anchor.der == cert.der

def anchored (current : Cert Name Key) : Bool :=
  anchors.any fun anchor => anchor.subject = current.issuer && anchor.mayIssueAsAnchor &&
    issued verifies current anchor

/-- The first issuer of `current` in the pool that `path` does not hold. -/
def firstIssuer (path : List (Cert Name Key)) (current : Cert Name Key) : Option (Cert Name Key) :=
  pool.find? fun candidate =>
    candidate.subject = current.issuer && candidate.der != current.der &&
      !(path.any fun held => held.der == candidate.der) && candidate.mayIssue &&
      issued verifies current candidate

def climb : Nat → List (Cert Name Key) → Cert Name Key → Option (List (Cert Name Key))
  | 0, _, _ => none
  | fuel + 1, path, current =>
    if anchored verifies anchors current then some path
    else
      match firstIssuer verifies pool path current with
      | none => none
      | some next => climb fuel (path ++ [next]) next

/-- The issuers from `leaf` up to a trust anchor, which is not among them. -/
def chain (leaf : Cert Name Key) : Option (List (Cert Name Key)) :=
  if isAnchor anchors leaf then some [] else climb verifies pool anchors maxChain [] leaf

/-- What is wrong with `signer` as the certificate behind a signature checked for `instant`. -/
def problems (instant : Int) (sender : Option (List Char)) : List CertProblem :=
  match chain verifies pool anchors signer with
  | some issuers => noteDates instant (ownProblems signer instant sender) issuers
  | none => note (ownProblems signer instant sender) .untrusted

/-! ## Chains of issuers -/

def top (path : List (Cert Name Key)) : Cert Name Key := path.getLastD signer

def Issues (below above : Cert Name Key) : Prop :=
  above.subject = below.issuer ∧ above.mayIssue = true ∧ issued verifies below above = true

/-- Certificates of the pool, each the issuer of the one below it, from the signer to an anchor. -/
structure IsChain (issuers : List (Cert Name Key)) : Prop where
  short : issuers.length < maxChain
  fromPool : ∀ issuer ∈ issuers, issuer ∈ pool
  distinct : (issuers.map Cert.der).Nodup
  issues : (signer :: issuers).IsChain (Issues verifies)
  anchored : anchored verifies anchors (top signer issuers) = true

def InDate (instant : Int) (issuers : List (Cert Name Key)) : Prop :=
  ∀ issuer ∈ issuers, dated issuer instant = none

def ReportsIssuerDates (instant : Int) (sender : Option (List Char)) : Prop :=
  ∃ problem ∈ problems verifies pool anchors signer instant sender,
    isDates problem = true ∧ dated signer instant ≠ some problem

/-- The signer is believed as its chains say. -/
structure Believed (instant : Int) (sender : Option (List Char)) : Prop where
  untrusted : .untrusted ∈ problems verifies pool anchors signer instant sender ↔
    isAnchor anchors signer = false ∧ ¬ ∃ issuers, IsChain verifies pool anchors signer issuers
  dates : ReportsIssuerDates verifies pool anchors signer instant sender →
    ∀ issuers, IsChain verifies pool anchors signer issuers → ¬ InDate instant issuers

/-- A way up from the signer: certificates of the pool, none twice and none above itself, each the
issuer of the one below it, and none taken above one that an anchor issued. -/
structure WayUp (path : List (Cert Name Key)) : Prop where
  fromPool : ∀ issuer ∈ path, issuer ∈ pool
  distinct : (path.map Cert.der).Nodup
  above : ∀ first ∈ path.head?, first.der ≠ signer.der
  issues : (signer :: path).IsChain (Issues verifies)
  unended : ∀ lower issuer upper, path = lower ++ issuer :: upper →
    anchored verifies anchors (top signer lower) = false

/-- No way up parts from the chains. Where there is a chain, each way up that no anchor has ended is
short of the longest and goes on; and the ways up that are chains show the same dates. -/
structure AllLeadUp (instant : Int) : Prop where
  goesOn : (∃ issuers, IsChain verifies pool anchors signer issuers) →
    ∀ path, WayUp verifies pool anchors signer path →
      anchored verifies anchors (top signer path) = false →
      path.length + 1 < maxChain ∧ ∃ issuer ∈ pool, Issues verifies (top signer path) issuer ∧
        issuer.der ≠ (top signer path).der ∧ issuer.der ∉ path.map Cert.der
  sameDates : ∀ path other, WayUp verifies pool anchors signer path →
    WayUp verifies pool anchors signer other → IsChain verifies pool anchors signer path →
    IsChain verifies pool anchors signer other →
    noteDates instant (dated signer instant).toList path =
      noteDates instant (dated signer instant).toList other

/-- In whatever order the message carries its certificates, the signer is believed as its chains
say, and the answer is one. -/
def BelievedInAnyOrder (instant : Int) (sender : Option (List Char)) : Prop :=
  ∀ order, pool.Perm order → Believed verifies order anchors signer instant sender ∧
    problems verifies order anchors signer instant sender =
      problems verifies pool anchors signer instant sender

variable {verifies pool anchors signer} {instant : Int} {sender : Option (List Char)}

theorem untrusted_mem_problems_iff :
    .untrusted ∈ problems verifies pool anchors signer instant sender ↔
      chain verifies pool anchors signer = none := by
  unfold problems
  cases chain verifies pool anchors signer with
  | none => simp
  | some issuers =>
    simp only [mem_noteDates, untrusted_notMem_ownProblems, false_or, reduceCtorEq, iff_false]
    rintro ⟨issuer, -, hdated⟩
    exact absurd (isDates_of_dated hdated) (by decide)

/-- Dates are reported for an issuer that was climbed to and has a problem the signer has not. -/
theorem reportsIssuerDates_iff :
    ReportsIssuerDates verifies pool anchors signer instant sender ↔
      ∃ issuers, chain verifies pool anchors signer = some issuers ∧
        ∃ issuer ∈ issuers, dated issuer instant ≠ none ∧
          dated issuer instant ≠ dated signer instant := by
  unfold ReportsIssuerDates problems
  cases chain verifies pool anchors signer with
  | none =>
    simp only [mem_note, reduceCtorEq, false_and, exists_false, iff_false]
    rintro ⟨problem, hmem | rfl, hdates, hown⟩
    · exact hown ((mem_ownProblems_of_isDates hdates).mp hmem)
    · cases hdates
  | some issuers =>
    simp only [Option.some.injEq, exists_eq_left', mem_noteDates]
    constructor
    · rintro ⟨problem, hmem | ⟨issuer, hissuer, hdated⟩, hdates, hown⟩
      · exact absurd ((mem_ownProblems_of_isDates hdates).mp hmem) hown
      · exact ⟨issuer, hissuer, by simp [hdated], by rw [hdated]; exact hown.symm⟩
    · rintro ⟨issuer, hissuer, hdated, hown⟩
      obtain ⟨problem, hproblem⟩ := Option.ne_none_iff_exists'.mp hdated
      rw [hproblem] at hown
      exact ⟨problem, .inr ⟨issuer, hissuer, hproblem⟩, isDates_of_dated hproblem, hown.symm⟩

/-! ## Ways up -/

theorem firstIssuer_some {path : List (Cert Name Key)} {current next : Cert Name Key}
    (h : firstIssuer verifies pool path current = some next) :
    next ∈ pool ∧ Issues verifies current next ∧ next.der ≠ current.der ∧
      next.der ∉ path.map Cert.der := by
  have hfits := List.find?_some h
  simp only [Bool.and_eq_true, decide_eq_true_eq, Bool.not_eq_true', List.any_eq_false,
    beq_iff_eq, bne_iff_ne] at hfits
  obtain ⟨⟨⟨⟨hname, hother⟩, hnew⟩, hissue⟩, hissued⟩ := hfits
  refine ⟨List.mem_of_find?_eq_some h, ⟨hname, hissue, hissued⟩, hother, ?_⟩
  simpa using hnew

theorem firstIssuer_none {path : List (Cert Name Key)} {current issuer : Cert Name Key}
    (h : firstIssuer verifies pool path current = none) (hmem : issuer ∈ pool)
    (hissues : Issues verifies current issuer) (hother : issuer.der ≠ current.der) :
    issuer.der ∈ path.map Cert.der := by
  have hfits := List.find?_eq_none.mp h issuer hmem
  simpa [hissues.1, hissues.2.1, hissues.2.2, hother] using hfits

theorem WayUp.nil : WayUp verifies pool anchors signer [] :=
  ⟨by simp, by simp, by simp, by simp, by simp⟩

theorem WayUp.concat {path : List (Cert Name Key)} {issuer : Cert Name Key}
    (h : WayUp verifies pool anchors signer path)
    (hanchored : anchored verifies anchors (top signer path) = false) (hmem : issuer ∈ pool)
    (hissues : Issues verifies (top signer path) issuer)
    (hother : issuer.der ≠ (top signer path).der) (hnew : issuer.der ∉ path.map Cert.der) :
    WayUp verifies pool anchors signer (path ++ [issuer]) where
  fromPool := by simpa [or_imp, forall_and, hmem] using h.fromPool
  distinct := by
    rw [List.map_append, List.map_singleton]
    exact List.nodup_append_comm.mp (List.nodup_cons.mpr ⟨hnew, h.distinct⟩)
  above := by
    cases path with
    | nil => simpa [top] using hother
    | cons first rest => exact h.above
  issues := by
    rw [← List.cons_append]
    refine h.issues.append (by simp) ?_
    simpa [List.getLast?_cons, top, List.getLastD_eq_getLast?] using hissues
  unended := by
    intro lower above upper hpath
    rcases List.eq_nil_or_concat upper with rfl | ⟨upper, last, rfl⟩
    · rw [← (List.append_inj' hpath rfl).1]
      exact hanchored
    · rw [List.concat_eq_append, ← List.cons_append, ← List.append_assoc] at hpath
      exact h.unended lower above upper (List.append_inj' hpath rfl).1

theorem WayUp.lower {lower upper : List (Cert Name Key)}
    (h : WayUp verifies pool anchors signer (lower ++ upper)) :
    WayUp verifies pool anchors signer lower where
  fromPool issuer hissuer := h.fromPool issuer (List.mem_append_left upper hissuer)
  distinct := h.distinct.sublist ((List.sublist_append_left lower upper).map _)
  above := by
    cases lower with
    | nil => simp
    | cons first rest => exact h.above
  issues := h.issues.prefix (by simp)
  unended below issuer rest hpath := h.unended below issuer (rest ++ upper) (by simp [hpath])

theorem WayUp.isChain {path : List (Cert Name Key)} (h : WayUp verifies pool anchors signer path)
    (hshort : path.length < maxChain) (hanchored : anchored verifies anchors (top signer path) = true) :
    IsChain verifies pool anchors signer path :=
  ⟨hshort, h.fromPool, h.distinct, h.issues, hanchored⟩

theorem WayUp.perm {order path : List (Cert Name Key)} (hperm : pool.Perm order)
    (h : WayUp verifies pool anchors signer path) : WayUp verifies order anchors signer path :=
  ⟨fun issuer hissuer => hperm.subset (h.fromPool issuer hissuer), h.distinct, h.above, h.issues,
    h.unended⟩

theorem IsChain.perm {order issuers : List (Cert Name Key)} (hperm : pool.Perm order)
    (h : IsChain verifies pool anchors signer issuers) :
    IsChain verifies order anchors signer issuers :=
  ⟨h.short, fun issuer hissuer => hperm.subset (h.fromPool issuer hissuer), h.distinct, h.issues,
    h.anchored⟩

theorem AllLeadUp.perm {order : List (Cert Name Key)} (hperm : pool.Perm order)
    (h : AllLeadUp verifies pool anchors signer instant) :
    AllLeadUp verifies order anchors signer instant where
  goesOn := by
    rintro ⟨issuers, hissuers⟩ path hpath hanchored
    obtain ⟨hshort, issuer, hmem, hnext⟩ :=
      h.goesOn ⟨issuers, hissuers.perm hperm.symm⟩ path (hpath.perm hperm.symm) hanchored
    exact ⟨hshort, issuer, hperm.subset hmem, hnext⟩
  sameDates path other hpath hother hchain hchain' :=
    h.sameDates path other (hpath.perm hperm.symm) (hother.perm hperm.symm)
      (hchain.perm hperm.symm) (hchain'.perm hperm.symm)

/-- A way up that no anchor has ended and that cannot go on. -/
def Stuck (verifies : Key → DigestAlg → Cert Name Key → Bool) (pool anchors : List (Cert Name Key))
    (signer : Cert Name Key) (path : List (Cert Name Key)) : Prop :=
  WayUp verifies pool anchors signer path ∧ anchored verifies anchors (top signer path) = false ∧
    (path.length + 1 < maxChain → ∀ issuer ∈ pool, Issues verifies (top signer path) issuer →
      issuer.der ≠ (top signer path).der → issuer.der ∈ path.map Cert.der)

/-- The climb ends with a way up that is a chain, or one that is stuck. -/
theorem climb_wayUp (fuel : Nat) (path : List (Cert Name Key))
    (h : WayUp verifies pool anchors signer path) (hfuel : path.length + (fuel + 1) = maxChain) :
    match climb verifies pool anchors (fuel + 1) path (top signer path) with
    | some issuers => WayUp verifies pool anchors signer issuers ∧
        IsChain verifies pool anchors signer issuers
    | none => ∃ stuck, Stuck verifies pool anchors signer stuck := by
  induction fuel generalizing path with
  | zero =>
    rw [climb]
    cases hanchored : anchored verifies anchors (top signer path) with
    | true => exact ⟨h, h.isChain (by omega) hanchored⟩
    | false =>
      have hstuck : Stuck verifies pool anchors signer path :=
        ⟨h, hanchored, fun hshort => by omega⟩
      cases firstIssuer verifies pool path (top signer path) with
      | none => exact ⟨path, hstuck⟩
      | some next => exact ⟨path, hstuck⟩
  | succ fuel ih =>
    rw [climb]
    cases hanchored : anchored verifies anchors (top signer path) with
    | true => exact ⟨h, h.isChain (by omega) hanchored⟩
    | false =>
      cases hnext : firstIssuer verifies pool path (top signer path) with
      | none => exact ⟨path, h, hanchored, fun _ issuer => firstIssuer_none hnext⟩
      | some next =>
        obtain ⟨hmem, hissues, hother, hnew⟩ := firstIssuer_some hnext
        have hon := ih (path ++ [next]) (h.concat hanchored hmem hissues hother hnew)
          (by simp only [List.length_append, List.length_singleton]; omega)
        rwa [top, List.getLastD_concat] at hon

theorem chain_wayUp (h : isAnchor anchors signer = false) :
    match chain verifies pool anchors signer with
    | some issuers => WayUp verifies pool anchors signer issuers ∧
        IsChain verifies pool anchors signer issuers
    | none => ∃ stuck, Stuck verifies pool anchors signer stuck := by
  rw [chain, if_neg (by simp [h])]
  exact climb_wayUp 7 [] .nil rfl

/-! ## Every way up is climbed in some order -/

/-- Where the pool begins with a way up, its certificates are the first that fit. -/
theorem firstIssuer_along {lower upper rest : List (Cert Name Key)} {next : Cert Name Key}
    (h : WayUp verifies pool anchors signer (lower ++ next :: upper)) :
    firstIssuer verifies (lower ++ next :: upper ++ rest) lower (top signer lower) = some next := by
  have hdistinct := h.distinct
  rw [List.map_append, List.map_cons, List.nodup_append, List.nodup_cons] at hdistinct
  have hnew : next.der ∉ lower.map Cert.der := fun hmem =>
    hdistinct.2.2 _ hmem _ (by simp) rfl
  have hissues : Issues verifies (top signer lower) next := by
    have hchain := h.issues
    rw [← List.cons_append, List.isChain_append] at hchain
    refine hchain.2.2 _ ?_ _ (by simp)
    simp [List.getLast?_cons, top, List.getLastD_eq_getLast?]
  have hother : next.der ≠ (top signer lower).der := by
    rcases List.eq_nil_or_concat lower with rfl | ⟨below, last, rfl⟩
    · exact h.above next (by simp)
    · rw [List.concat_eq_append, top, List.getLastD_concat]
      rintro hder
      exact hnew (by simp [hder])
  unfold firstIssuer
  rw [List.append_assoc, List.find?_append, List.find?_eq_none.mpr, Option.none_or, List.cons_append,
    List.find?_cons_of_pos]
  · have hfresh : ∀ held ∈ lower, held.der ≠ next.der := by simpa using hnew
    simpa [hissues.1, hissues.2.1, hissues.2.2, hother] using hfresh
  · intro held hheld
    have hany : (lower.any fun other => other.der == held.der) = true :=
      List.any_eq_true.mpr ⟨held, hheld, by simp⟩
    simp [hany]

theorem climb_along {path rest : List (Cert Name Key)}
    (h : WayUp verifies pool anchors signer path) (fuel : Nat)
    (lower upper : List (Cert Name Key)) (hpath : path = lower ++ upper) :
    climb verifies (path ++ rest) anchors (fuel + upper.length) lower (top signer lower) =
      climb verifies (path ++ rest) anchors fuel path (top signer path) := by
  induction upper generalizing lower with
  | nil => rw [hpath, List.append_nil, List.length_nil, Nat.add_zero]
  | cons next upper ih =>
    have hnext : firstIssuer verifies (path ++ rest) lower (top signer lower) = some next := by
      rw [hpath] at h ⊢
      exact firstIssuer_along h
    have hon := ih (lower ++ [next]) (by simp [hpath])
    rw [top, List.getLastD_concat] at hon
    rw [List.length_cons, ← Nat.add_assoc, climb, if_neg (by simp [h.unended lower next upper hpath])]
    simp only [hnext, hon]

theorem chain_along {path rest : List (Cert Name Key)} (hsigner : isAnchor anchors signer = false)
    (h : WayUp verifies pool anchors signer path) (hshort : path.length < maxChain) :
    chain verifies (path ++ rest) anchors signer =
      climb verifies (path ++ rest) anchors (maxChain - path.length) path (top signer path) := by
  rw [chain, if_neg (by simp [hsigner]), ← climb_along h (maxChain - path.length) [] path rfl,
    Nat.sub_add_cancel hshort.le]
  rfl

theorem WayUp.exists_order {path : List (Cert Name Key)}
    (h : WayUp verifies pool anchors signer path) : ∃ rest, pool.Perm (path ++ rest) := by
  obtain ⟨held, hheld, hsub⟩ := List.subperm_of_subset h.distinct.of_map h.fromPool
  obtain ⟨rest, hrest⟩ := hsub.exists_perm_append
  exact ⟨rest, hrest.trans (hheld.append_right rest)⟩

theorem chain_eq_some {path : List (Cert Name Key)} (hsigner : isAnchor anchors signer = false)
    (h : WayUp verifies pool anchors signer path)
    (hchain : IsChain verifies pool anchors signer path) (rest : List (Cert Name Key)) :
    chain verifies (path ++ rest) anchors signer = some path := by
  rw [chain_along hsigner h hchain.short,
    ← Nat.succ_pred_eq_of_pos (Nat.sub_pos_of_lt hchain.short), climb, if_pos hchain.anchored]

theorem chain_eq_none {path rest : List (Cert Name Key)}
    (hsigner : isAnchor anchors signer = false) (hperm : pool.Perm (path ++ rest))
    (h : Stuck verifies pool anchors signer path) (hshort : path.length < maxChain) :
    chain verifies (path ++ rest) anchors signer = none := by
  obtain ⟨hpath, hanchored, hstuck⟩ := h
  rw [chain_along hsigner hpath hshort,
    ← Nat.succ_pred_eq_of_pos (Nat.sub_pos_of_lt hshort), climb, if_neg (by simp [hanchored])]
  cases hnext : firstIssuer verifies (path ++ rest) path (top signer path) with
  | none => rfl
  | some next =>
    obtain ⟨hmem, hissues, hother, hnew⟩ := firstIssuer_some hnext
    by_cases hlast : path.length + 1 < maxChain
    · exact absurd (hstuck hlast next (hperm.symm.subset hmem) hissues hother) hnew
    · have hfuel : (maxChain - path.length).pred = 0 := by rw [Nat.pred_eq_sub_one]; omega
      rw [hfuel]
      rfl

/-- A way up that is stuck leaves the signer untrusted in some order of the pool. -/
theorem Stuck.exists_order {path : List (Cert Name Key)} (hsigner : isAnchor anchors signer = false)
    (h : Stuck verifies pool anchors signer path) :
    ∃ order, pool.Perm order ∧ chain verifies order anchors signer = none := by
  by_cases hshort : path.length < maxChain
  · obtain ⟨rest, hrest⟩ := h.1.exists_order
    exact ⟨_, hrest, chain_eq_none hsigner hrest h hshort⟩
  · have hcut : path = path.take 7 ++ path.drop 7 := (List.take_append_drop 7 path).symm
    have hlength : (path.take 7).length = 7 := by
      rw [List.length_take]
      exact Nat.min_eq_left (by unfold maxChain at hshort; omega)
    obtain ⟨last, upper, hupper⟩ : ∃ last upper, path.drop 7 = last :: upper :=
      List.exists_cons_of_ne_nil (by simp only [ne_eq, List.drop_eq_nil_iff]; unfold maxChain at hshort; omega)
    have hlower : WayUp verifies pool anchors signer (path.take 7) := (hcut ▸ h.1).lower
    have hstuck : Stuck verifies pool anchors signer (path.take 7) :=
      ⟨hlower, h.1.unended _ last upper (hupper ▸ hcut), fun hlast => by
        rw [hlength] at hlast
        cases Nat.lt_irrefl _ hlast⟩
    obtain ⟨rest, hrest⟩ := hlower.exists_order
    exact ⟨_, hrest, chain_eq_none hsigner hrest hstuck (by rw [hlength]; decide)⟩

/-- With a chain in date there is a way up that is one. -/
theorem exists_wayUp_of_isChain {issuers : List (Cert Name Key)}
    (hread : ∀ cert ∈ pool, cert.der = signer.der → cert = signer)
    (h : IsChain verifies pool anchors signer issuers) (hdate : InDate instant issuers) :
    ∃ path, WayUp verifies pool anchors signer path ∧ IsChain verifies pool anchors signer path ∧
      InDate instant path := by
  induction hlength : issuers.length using Nat.strong_induction_on generalizing issuers with
  | h length ih =>
    by_cases habove : ∀ first ∈ issuers.head?, first.der ≠ signer.der
    · by_cases hended : ∃ lower issuer upper, issuers = lower ++ issuer :: upper ∧
          anchored verifies anchors (top signer lower) = true
      · obtain ⟨lower, issuer, upper, rfl, hanchored⟩ := hended
        have hshort := h.short
        simp only [List.length_append, List.length_cons] at hlength hshort
        have hlower : IsChain verifies pool anchors signer lower := by
          refine ⟨by omega, ?_, ?_, h.issues.prefix (by simp), hanchored⟩
          · exact fun held hheld => h.fromPool held (List.mem_append_left _ hheld)
          · exact h.distinct.sublist ((List.sublist_append_left _ _).map _)
        exact ih lower.length (by omega) hlower
          (fun held hheld => hdate held (List.mem_append_left _ hheld)) rfl
      · refine ⟨issuers, ⟨h.fromPool, h.distinct, habove, h.issues, ?_⟩, h, hdate⟩
        intro lower issuer upper hpath
        exact Bool.eq_false_iff.mpr fun hanchored => hended ⟨lower, issuer, upper, hpath, hanchored⟩
    · push Not at habove
      obtain ⟨first, hfirst, hder⟩ := habove
      obtain ⟨rest, rfl⟩ : ∃ rest, issuers = first :: rest := List.head?_eq_some_iff.mp hfirst
      -- A chain through the signer's own certificate goes on from it.
      obtain rfl := hread first (h.fromPool first (.head _)) hder
      have hshort := h.short
      simp only [List.length_cons] at hlength hshort
      have hrest : IsChain verifies pool anchors first rest := by
        refine ⟨by omega, fun held hheld => h.fromPool held (.tail _ hheld), ?_, ?_, ?_⟩
        · exact (List.nodup_cons.mp h.distinct).2
        · exact (List.isChain_cons_cons.mp h.issues).2
        · rw [← h.anchored, top, top, List.getLastD_cons]
      exact ih rest.length (by omega) hrest (fun held hheld => hdate held (.tail _ hheld)) rfl

/-! ## What every order answers -/

theorem believed_of_isAnchor (h : isAnchor anchors signer = true) :
    Believed verifies pool anchors signer instant sender := by
  have hchain : chain verifies pool anchors signer = some [] := by rw [chain, if_pos h]
  constructor
  · simp [untrusted_mem_problems_iff, hchain, h]
  · intro hreports
    obtain ⟨issuers, hissuers, issuer, hissuer, -⟩ := reportsIssuerDates_iff.mp hreports
    rw [hchain, Option.some.injEq] at hissuers
    rw [← hissuers] at hissuer
    cases hissuer

theorem allLeadUp_of_believed (hsigner : isAnchor anchors signer = false)
    (h : BelievedInAnyOrder verifies pool anchors signer instant sender) :
    AllLeadUp verifies pool anchors signer instant := by
  constructor
  · rintro ⟨issuers, hissuers⟩ path hpath hanchored
    by_contra hoff
    obtain ⟨order, hperm, hnone⟩ := Stuck.exists_order hsigner
      (⟨hpath, hanchored, fun hshort issuer hmem hissues hother => by
        by_contra hnew
        exact hoff ⟨hshort, issuer, hmem, hissues, hother, hnew⟩⟩ :
        Stuck verifies pool anchors signer path)
    exact ((h order hperm).1.untrusted.mp (untrusted_mem_problems_iff.mpr hnone)).2
      ⟨issuers, hissuers.perm hperm⟩
  · intro path other hpath hother hchain hchain'
    have hproblems : ∀ path, WayUp verifies pool anchors signer path →
        IsChain verifies pool anchors signer path →
        noteDates instant (ownProblems signer instant sender) path =
          problems verifies pool anchors signer instant sender := by
      intro path hpath hchain
      obtain ⟨rest, hrest⟩ := hpath.exists_order
      rw [← (h _ hrest).2, problems, chain_eq_some hsigner hpath hchain rest]
    exact noteDates_own_iff.mp
      ((hproblems path hpath hchain).trans (hproblems other hother hchain').symm)

/-- Where all ways lead up, one that is a chain is climbed as soon as there is a chain. -/
theorem AllLeadUp.chain_spec (hsigner : isAnchor anchors signer = false)
    (h : AllLeadUp verifies pool anchors signer instant) :
    (∃ taken, chain verifies pool anchors signer = some taken ∧
        WayUp verifies pool anchors signer taken ∧ IsChain verifies pool anchors signer taken) ∨
      chain verifies pool anchors signer = none ∧
        ¬ ∃ issuers, IsChain verifies pool anchors signer issuers := by
  have hspec := @chain_wayUp _ _ _ verifies pool _ _ hsigner
  cases hchain : chain verifies pool anchors signer with
  | some taken =>
    rw [hchain] at hspec
    exact .inl ⟨taken, rfl, hspec⟩
  | none =>
    rw [hchain] at hspec
    obtain ⟨path, hpath, hanchored, hstuck⟩ := hspec
    refine .inr ⟨rfl, fun hissuers => ?_⟩
    obtain ⟨hshort, issuer, hmem, hissues, hother, hnew⟩ := h.goesOn hissuers path hpath hanchored
    exact hnew (hstuck hshort issuer hmem hissues hother)

theorem believed_of_allLeadUp (hsigner : isAnchor anchors signer = false)
    (hread : ∀ cert ∈ pool, cert.der = signer.der → cert = signer)
    (h : AllLeadUp verifies pool anchors signer instant) :
    Believed verifies pool anchors signer instant sender := by
  constructor
  · rw [untrusted_mem_problems_iff]
    rcases h.chain_spec hsigner with ⟨taken, htaken, -, hchain⟩ | ⟨hnone, hnot⟩
    · simpa [htaken] using fun _ => ⟨taken, hchain⟩
    · simp [hnone, hsigner, not_exists.mp hnot]
  · intro hreports issuers hissuers hdate
    obtain ⟨taken, htaken, issuer, hissuer, hdated, hown⟩ := reportsIssuerDates_iff.mp hreports
    have hspec := @chain_wayUp _ _ _ verifies pool _ _ hsigner
    rw [htaken] at hspec
    obtain ⟨path, hpath, hchain, hpathDate⟩ := exists_wayUp_of_isChain hread hissuers hdate
    obtain ⟨problem, hproblem⟩ := Option.ne_none_iff_exists'.mp hdated
    have hnoted : problem ∈ noteDates instant (dated signer instant).toList taken :=
      mem_noteDates.mpr (.inr ⟨issuer, hissuer, hproblem⟩)
    rw [h.sameDates taken path hspec.1 hpath hspec.2 hchain, mem_noteDates] at hnoted
    rcases hnoted with hsigners | ⟨held, hheld, hheldDated⟩
    · rw [Option.mem_toList] at hsigners
      exact hown (hproblem.trans hsigners.symm)
    · rw [hpathDate held hheld] at hheldDated
      cases hheldDated

theorem problems_perm (hsigner : isAnchor anchors signer = false) {order : List (Cert Name Key)}
    (hperm : pool.Perm order) (h : AllLeadUp verifies pool anchors signer instant) :
    problems verifies order anchors signer instant sender =
      problems verifies pool anchors signer instant sender := by
  unfold problems
  rcases h.chain_spec hsigner with ⟨taken, htaken, hpath, hchain⟩ | ⟨hnone, hnot⟩
  · rcases (h.perm hperm).chain_spec hsigner with ⟨other, hother, hpath', hchain'⟩ | ⟨-, hnot⟩
    · rw [htaken, hother]
      exact noteDates_own_iff.mpr (h.sameDates other taken (hpath'.perm hperm.symm) hpath
        (hchain'.perm hperm.symm) hchain)
    · exact absurd ⟨taken, hchain.perm hperm⟩ hnot
  · rcases (h.perm hperm).chain_spec hsigner with ⟨other, -, -, hchain'⟩ | ⟨hnone', -⟩
    · exact absurd ⟨other, hchain'.perm hperm.symm⟩ hnot
    · rw [hnone, hnone']

end

section

variable {Name Key : Type} [DecidableEq Name]

/-- In every order of the pool a signer is believed as its chains say, its issuers' dates included,
and with one answer, exactly when it is an anchor or no way up parts from the chains. -/
theorem believed_iff (verifies : Key → DigestAlg → Cert Name Key → Bool)
    (pool anchors : List (Cert Name Key)) (signer : Cert Name Key) (instant : Int)
    (sender : Option (List Char)) (hread : ∀ cert ∈ pool, cert.der = signer.der → cert = signer) :
    BelievedInAnyOrder verifies pool anchors signer instant sender ↔
      isAnchor anchors signer = true ∨ AllLeadUp verifies pool anchors signer instant := by
  cases hsigner : isAnchor anchors signer with
  | true =>
    simp only [true_or, iff_true]
    intro order _
    exact ⟨believed_of_isAnchor hsigner, by simp [problems, chain, hsigner]⟩
  | false =>
    simp only [Bool.false_eq_true, false_or]
    refine ⟨allLeadUp_of_believed hsigner, fun h order hperm => ⟨?_, problems_perm hsigner hperm h⟩⟩
    exact believed_of_allLeadUp hsigner
      (fun cert hcert => hread cert (hperm.symm.subset hcert)) (h.perm hperm)

end

/-! ## Certificates of one name -/

/-- A certificate whose signature holds with the key its encoding ends with. -/
def sample (der : List UInt8) (subject issuer : Nat) (ca : Bool) (key : UInt8) : Cert Nat UInt8 where
  der := der
  subject := subject
  issuer := issuer
  notBefore := 0
  notAfter := 100
  basicConstraints := .stated ca
  keyUsage := .absent
  extendedKeyUsage := .absent
  alternatives := [['a', '@', 'b']]
  attributes := []
  key := key
  signatureDigest := some .sha256

def endsWith (key : UInt8) (_ : DigestAlg) (cert : Cert Nat UInt8) : Bool :=
  cert.der.getLast? = some key

def mail : Cert Nat UInt8 := sample [1, 7] 1 2 false 6

/-- The authority, signed by the root that is trusted, and by another. -/
def underRoot : Cert Nat UInt8 := sample [2, 8] 2 3 true 7

def crossSigned : Cert Nat UInt8 := sample [3, 9] 2 4 true 7

def root : Cert Nat UInt8 := sample [4, 8] 3 3 true 8

/-- The authority's certificate as it was renewed. -/
def renewed : Cert Nat UInt8 := sample [5, 8] 2 3 true 7

theorem isChain_underRoot (pool : List (Cert Nat UInt8)) (h : underRoot ∈ pool) :
    IsChain endsWith pool [root] mail [underRoot] :=
  ⟨by decide, by simpa using h, by decide, by simp [Issues]; decide, by decide⟩

/-- Each way up ends with its first issuer, which the root issued. -/
theorem allLeadUp_renewed : AllLeadUp endsWith [underRoot, renewed] [root] mail 50 := by
  have hissuers : ∀ issuer ∈ [underRoot, renewed], anchored endsWith [root] issuer = true ∧
      noteDates 50 (dated mail 50).toList [issuer] = [] := by decide
  have hfirst : ∀ path, WayUp endsWith [underRoot, renewed] [root] mail path →
      path = [] ∨ ∃ issuer ∈ [underRoot, renewed], path = [issuer] := by
    intro path hpath
    rcases path with _ | ⟨first, _ | ⟨second, rest⟩⟩
    · exact .inl rfl
    · exact .inr ⟨first, hpath.fromPool first (.head _), rfl⟩
    · have hopen : anchored endsWith [root] first = false := hpath.unended [first] second rest rfl
      rw [(hissuers first (hpath.fromPool first (.head _))).1] at hopen
      cases hopen
  have hdates : ∀ path, WayUp endsWith [underRoot, renewed] [root] mail path →
      noteDates 50 (dated mail 50).toList path = [] := by
    intro path hpath
    rcases hfirst path hpath with rfl | ⟨issuer, hissuer, rfl⟩
    · rfl
    · exact (hissuers issuer hissuer).2
  refine ⟨fun _ path hpath hopen => ?_, fun path other hpath hother _ _ =>
    (hdates path hpath).trans (hdates other hother).symm⟩
  rcases hfirst path hpath with rfl | ⟨issuer, hissuer, rfl⟩
  · exact ⟨by decide, underRoot, by simp, by simp [Issues]; decide, by decide, by simp⟩
  · exact absurd (hissuers issuer hissuer).1 (by simpa [top] using hopen)

/-- Whichever of the authority's two certificates under the root comes first. -/
theorem believed_iff_renewed :
    BelievedInAnyOrder endsWith [underRoot, renewed] [root] mail 50 (some ['a', '@', 'b']) :=
  (believed_iff endsWith [underRoot, renewed] [root] mail 50 _
    (by simp [underRoot, renewed, mail, sample])).mpr
    (.inr allLeadUp_renewed)

/-- Before the authority's certificate under the trusted root, its other one makes the signer
untrusted. -/
theorem cross_signed_untrusted :
    ¬ Believed endsWith [crossSigned, underRoot] [root] mail 50 (some ['a', '@', 'b']) ∧
      problems endsWith [crossSigned, underRoot] [root] mail 50 (some ['a', '@', 'b']) =
        [.untrusted] ∧
      problems endsWith [underRoot, crossSigned] [root] mail 50 (some ['a', '@', 'b']) = [] := by
  refine ⟨fun h => ?_, by decide, by decide⟩
  exact (h.untrusted.mp (by decide)).2 ⟨_, isChain_underRoot _ (by simp)⟩

end Mailo.Crypto.Chain
