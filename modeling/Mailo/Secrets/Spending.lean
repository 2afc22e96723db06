import Mailo.Secrets.Tokens

/-!
# A sign-in spent once

Where a rotated refresh token is always kept, and no other token of the account is renewed from the
one it replaces, no replaced token is presented; and a refusal is final only for a token minted
after one.
-/

namespace Mailo.Secrets

open Domain

/-- The refresh token an answer puts in the place of the one presented. -/
def Issued.rotated : Issued → Option String
  | .tokens _ rotated _ => rotated
  | _ => none

/-- The issuer answered with another refresh token than it was given. -/
def Ask.Rotates (ask : Ask) : Prop := ∃ fresh, ask.answer.rotated = some fresh ∧ fresh ≠ ask.presented

/-- The refresh tokens answers replaced and none gave back, the latest request first. -/
def replaced : List Ask → List String
  | [] => []
  | ask :: earlier =>
    match ask.answer.rotated with
    | none => replaced earlier
    | some fresh => (ask.presented :: replaced earlier).filter fun token => token ≠ fresh

def SpentOnce : List Ask → Prop
  | [] => True
  | ask :: earlier => ask.presented ∉ replaced earlier ∧ SpentOnce earlier

def NotAskedAgain : List Ask → Prop
  | [] => True
  | ask :: earlier =>
    (∀ old ∈ earlier, old.token = ask.token → ∀ text, old.answer ≠ .refused text) ∧
      NotAskedAgain earlier

/-- What the source promises of a sign-in. -/
structure Law (source : OAuthTokens) : Prop where
  once : SpentOnce source.asks
  final : ∀ told ∈ source.stillRefused, told ∈ source.minted
  quiet : NotAskedAgain source.asks

namespace OAuthTokens

/-- The refresh token the next renewal of a token spends. -/
def live (source : OAuthTokens) (account : Account) : Token → Option String
  | .incoming => if account.which .incoming = .incoming then source.held.refresh? else none
  | .sending =>
    if account.which .sending = .sending then
      match source.keyring.outgoingPassword with
      | some (.oauth _ refresh _) => some refresh
      | _ => source.keyring.oauthRefresh.bind Credential.refresh?
    else none

/-- The refresh token another token of the account is renewed from, once one is renewed. -/
def elsewhere (source : OAuthTokens) (account : Account) : Token → Option String
  | .incoming =>
    if account.which .sending = .sending then
      source.keyring.outgoingPassword.bind Credential.refresh?
    else none
  | .sending => if account.which .incoming = .incoming then source.held.refresh? else none

/-- The access token sessions are given. -/
def holds (source : OAuthTokens) : Token → Option String
  | .incoming => source.held.accessOf
  | .sending => source.keyring.outgoingPassword.bind Credential.accessOf

end OAuthTokens

/-- A rotated refresh token is written wherever it is kept, and no other token of the account is
renewed from the one it replaces. -/
def Keeps (account : Account) (source next : OAuthTokens) (weather : Weather) : Prop :=
  ∀ ask, next.asks = ask :: source.asks → ask.Rotates →
    (∀ purpose ∈ OAuthTokens.entries ask.token, weather.writes purpose = none) ∧
      source.elsewhere account ask.token ≠ some ask.presented

/-- A step that keeps what the issuer rotates, and asks after a refusal of the token held now or
where the one held was not minted after a refusal. -/
def Careful (account : Account) (source next : OAuthTokens) : Event → Prop
  | .current _ => True
  | .ahead _ weather => Keeps account source next weather
  | .afterRefusal token access weather =>
    Keeps account source next weather ∧
      (source.holds (account.which token) = some access ∨
        source.holds (account.which token) ≠ source.spent.on (account.which token))

def CarefulRun (account : Account) (source : OAuthTokens) : List Event → Prop
  | [] => True
  | event :: rest => ∀ next, step account source event = some next →
      Careful account source next event ∧ CarefulRun account next rest

/-! ## What a renewal comes to -/

section Renewal

variable {account : Account} {source : OAuthTokens} {weather : Weather} {token : Token}
  {presented : String} {scopes : List String}

/-- A renewal, whichever token it is of. -/
def renewal (source : OAuthTokens) (weather : Weather) (token : Token) (presented : String)
    (scopes : List String) : Outcome Credential :=
  (source.refresh weather token presented scopes).andThen fun renewed =>
    OAuthTokens.putAll weather renewed (OAuthTokens.entries token)

/-- A source with a request made of the issuer. -/
def asked (source : OAuthTokens) (weather : Weather) (token : Token) (presented : String)
    (scopes : List String) : OAuthTokens :=
  { source with asks := ⟨token, presented, scopes, weather.answer⟩ :: source.asks }

def keptUnder (credential : Credential) (purposes : List SecretPurpose) (keyring : Keyring) :
    Keyring :=
  purposes.foldl (fun keyring purpose => keyring.keep credential purpose) keyring

theorem entry_keep (keyring : Keyring) (credential : Credential) (purpose other : SecretPurpose) :
    (keyring.keep credential purpose).entry other =
      if other = purpose then some credential else keyring.entry other := by
  cases purpose <;> cases other <;> rfl

/-- Keeping a credential under entries either keeps it under all, or stops at a write that fails
with the rest as they were. -/
theorem putAll_cases (weather : Weather) (credential : Credential) (purposes : List SecretPurpose)
    (source : OAuthTokens) :
    (OAuthTokens.putAll weather credential purposes source =
        (.ok credential, { source with keyring := keptUnder credential purposes source.keyring }) ∧
      ∀ purpose ∈ purposes, weather.writes purpose = none) ∨
    ∃ fault keyring, OAuthTokens.putAll weather credential purposes source =
        (.error (.secrets fault), { source with keyring := keyring }) ∧
      (∃ purpose ∈ purposes, weather.writes purpose ≠ none) ∧
      ∀ purpose, keyring.entry purpose = source.keyring.entry purpose ∨
        (purpose ∈ purposes ∧ keyring.entry purpose = some credential) := by
  induction purposes generalizing source with
  | nil => exact .inl ⟨rfl, fun _ h => absurd h List.not_mem_nil⟩
  | cons purpose rest ih =>
    rw [OAuthTokens.putAll, OAuthTokens.put]
    cases hwrite : weather.writes purpose with
    | some fault =>
      refine .inr ⟨fault, source.keyring, rfl, ⟨purpose, .head _, ?_⟩, fun _ => .inl rfl⟩
      rw [hwrite]
      exact Option.some_ne_none fault
    | none =>
      rcases ih { source with keyring := source.keyring.keep credential purpose } with
        ⟨hall, hwrites⟩ | ⟨fault, keyring, hstop, ⟨failed, hfailed, hwrites⟩, hentries⟩
      · refine .inl ⟨hall, fun other hother => ?_⟩
        rcases List.mem_cons.mp hother with rfl | hrest
        · exact hwrite
        · exact hwrites other hrest
      · refine .inr ⟨fault, keyring, hstop, ⟨failed, .tail _ hfailed, hwrites⟩,
          fun other => ?_⟩
        rcases hentries other with hsame | ⟨hmem, hkept⟩
        · rw [hsame]
          dsimp only
          rw [entry_keep]
          split
          · rename_i heq
            exact .inr ⟨heq ▸ (.head _), rfl⟩
          · exact .inl rfl
        · exact .inr ⟨.tail _ hmem, hkept⟩

/-- A renewal either keeps the new credential everywhere, or ends in an error that leaves each entry
as it was or holding the new credential, and remembers a refusal of the issuer. -/
inductive Came (source : OAuthTokens) (weather : Weather) (token : Token) (presented : String) :
    Outcome Credential → Prop where
  | renewed (scopes : List String) (access : String) (rotated : Option String)
      (expiresAt : Option DateTime) (answer : weather.answer = .tokens access rotated expiresAt) :
      Came source weather token presented
        (.ok (.oauth access (rotated.getD presented) expiresAt),
          { asked source weather token presented scopes with
            keyring := keptUnder (.oauth access (rotated.getD presented) expiresAt)
              (OAuthTokens.entries token) source.keyring })
  | failed (scopes : List String) (error : CredentialError) (keyring : Keyring) (spent : Spent)
      (kept : ∀ purpose, keyring.entry purpose = source.keyring.entry purpose ∨
        (purpose ∈ OAuthTokens.entries token ∧ ∃ access expiresAt, keyring.entry purpose =
          some (.oauth access (weather.answer.rotated.getD presented) expiresAt)))
      (unwritten : weather.answer.rotated ≠ none →
        ∃ purpose ∈ OAuthTokens.entries token, weather.writes purpose ≠ none)
      (on : spent.on = source.spent.on)
      (refusals : ∀ other, (source.spent.refusal other).isSome →
        (spent.refusal other).isSome)
      (refusal : ∀ text, weather.answer = .refused text → (spent.refusal token).isSome) :
      Came source weather token presented
        (.error error, { asked source weather token presented scopes with keyring, spent })

theorem on_refuse (spent : Spent) (why : String) (token : Token) :
    (spent.refuse why token).on = spent.on := by
  funext other
  cases token <;> cases other <;> rfl

theorem refusal_refuse (spent : Spent) (why : String) (token other : Token) :
    (spent.refuse why token).refusal other =
      if other = token then some why else spent.refusal other := by
  cases token <;> cases other <;> rfl

theorem came_renewal (account : Account) :
    Came source weather token presented
      (OAuthTokens.judge account token (renewal source weather token presented scopes)) := by
  have hjudged : ∀ error keyring,
      (∀ purpose, keyring.entry purpose = source.keyring.entry purpose ∨
        (purpose ∈ OAuthTokens.entries token ∧ ∃ access expiresAt, keyring.entry purpose =
          some (.oauth access (weather.answer.rotated.getD presented) expiresAt))) →
      (weather.answer.rotated ≠ none →
        ∃ purpose ∈ OAuthTokens.entries token, weather.writes purpose ≠ none) →
      ((∃ text, weather.answer = .refused text) → error.needsReauth = true) →
      Came source weather token presented (OAuthTokens.judge account token
        (.error error, { asked source weather token presented scopes with keyring := keyring })) := by
    intro error keyring hkept hunwritten hrefused
    unfold OAuthTokens.judge
    dsimp only
    split
    · refine .failed scopes _ keyring _ hkept hunwritten (on_refuse _ _ _) ?_ ?_
      · intro other hother
        rw [refusal_refuse]
        split
        · rfl
        · exact hother
      · intro text htext
        rw [refusal_refuse, if_pos rfl]
        rfl
    · rename_i hnot
      exact .failed scopes _ keyring _ hkept hunwritten rfl (fun _ h => h)
        fun text htext => absurd (hrefused ⟨text, htext⟩) hnot
  cases hanswer : weather.answer with
  | tokens access rotated expiresAt =>
    have hrefresh : source.refresh weather token presented scopes =
        (.ok (.oauth access (rotated.getD presented) expiresAt),
          asked source weather token presented scopes) := by
      simp only [OAuthTokens.refresh, asked, hanswer]
    unfold renewal
    rw [hrefresh, Outcome.andThen_ok]
    rcases putAll_cases weather (.oauth access (rotated.getD presented) expiresAt)
      (OAuthTokens.entries token) (asked source weather token presented scopes) with
      ⟨hall, -⟩ | ⟨fault, keyring, hstop, hfailed, hentries⟩
    · rw [hall]
      exact .renewed scopes access rotated expiresAt hanswer
    · rw [hstop]
      refine hjudged (.secrets fault) keyring (fun purpose => ?_) (fun _ => hfailed)
        fun ⟨text, htext⟩ => by rw [hanswer] at htext; cases htext
      rcases hentries purpose with hsame | ⟨hmem, hkept⟩
      · exact .inl hsame
      · refine .inr ⟨hmem, access, expiresAt, ?_⟩
        rw [hkept, hanswer]
        rfl
  | refused text =>
    have hrefresh : source.refresh weather token presented scopes =
        (.error (.said ("the issuer could not renew the sign-in: the issuer refused it" ++ text)),
          asked source weather token presented scopes) := by
      simp only [OAuthTokens.refresh, asked, hanswer]
    unfold renewal
    rw [hrefresh, Outcome.andThen_error]
    exact hjudged _ source.keyring (fun _ => .inl rfl) (fun h => absurd (by rw [hanswer]; rfl) h)
      fun _ => rfl
  | unreachable text =>
    have hrefresh : source.refresh weather token presented scopes =
        (.error (.connect ("the issuer could not renew the sign-in: " ++ text)),
          asked source weather token presented scopes) := by
      simp only [OAuthTokens.refresh, asked, hanswer]
    unfold renewal
    rw [hrefresh, Outcome.andThen_error]
    exact hjudged _ source.keyring (fun _ => .inl rfl) (fun h => absurd (by rw [hanswer]; rfl) h)
      fun ⟨text, htext⟩ => by rw [hanswer] at htext; cases htext

/-! ## What an operation comes to -/

/-- A renewed incoming token is handed to the sessions. -/
def handed : Token → Outcome Credential → OAuthTokens
  | .incoming, (.ok renewed, source) => { source with held := renewed }
  | _, (_, source) => source

/-- An operation either asks the issuer nothing, or renews a token it was not refused for, from the
refresh token that token is renewed from. -/
inductive Acted (account : Account) (source : OAuthTokens) (weather : Weather) (token : Token) :
    OAuthTokens → Option Credential → Prop where
  | idle (spent : Spent) (on : spent.on = source.spent.on)
      (refusals : ∀ other, (source.spent.refusal other).isSome → (spent.refusal other).isSome) :
      Acted account source weather token { source with spent } none
  | renewed (presented : String) (outcome : Outcome Credential)
      (open' : source.spent.refusal token = none)
      (live : source.live account token = some presented)
      (came : Came source weather token presented outcome) :
      Acted account source weather token (handed token outcome) outcome.1.toOption

theorem acted_nothing : Acted account source weather token source none :=
  .idle source.spent rfl fun _ h => h

theorem acted_judged_error (error : CredentialError) :
    Acted account source weather token
      (OAuthTokens.judge account token (.error error, source)).2 none := by
  unfold OAuthTokens.judge
  dsimp only
  split
  · refine .idle _ (on_refuse _ _ _) fun other hother => ?_
    rw [refusal_refuse]
    split
    · rfl
    · exact hother
  · exact acted_nothing

theorem which_incoming (h : account.which token = .incoming) :
    account.which .incoming = .incoming := by
  cases hin : account.incoming with
  | graph => simp [Account.which, hin] at h
  | otherwise => simp [Account.which, hin]

theorem which_sending (h : account.which token = .sending) :
    account.which .sending = .sending := by
  cases hin : account.incoming with
  | graph => simp [Account.which, hin]
  | otherwise =>
    cases token with
    | incoming => simp [Account.which, hin] at h
    | sending => exact h

variable {silence : Option Silence}

theorem keptGraph_ok {held : Option Credential} (h : source.keptGraph silence = .ok held) :
    held = source.keyring.outgoingPassword := by
  unfold OAuthTokens.keptGraph OAuthTokens.get at h
  cases silence with
  | some silence =>
    cases silence <;> cases h
  | none =>
    dsimp only at h
    cases hentry : source.keyring.entry .outgoingPassword with
    | some | none =>
      rw [hentry] at h
      cases h
      exact hentry.symm

theorem signInRefresh_ok (h : source.signInRefresh weather = .ok presented) :
    source.keyring.oauthRefresh.bind Credential.refresh? = some presented := by
  unfold OAuthTokens.signInRefresh OAuthTokens.get at h
  cases hsilence : weather.signIn with
  | some silence => rw [hsilence] at h; cases h
  | none =>
    rw [hsilence] at h
    dsimp only at h
    have hentry : source.keyring.entry .oauthRefresh = source.keyring.oauthRefresh := rfl
    rw [hentry] at h
    cases hkept : source.keyring.oauthRefresh with
    | none => rw [hkept] at h; cases h
    | some credential =>
      rw [hkept] at h
      cases credential with
      | oauth access refresh expiresAt =>
        cases h
        rfl
      | _ => cases h

theorem graphRefresh_ok (h : source.graphRefresh weather silence = .ok presented)
    (which : account.which .sending = .sending) :
    source.live account .sending = some presented := by
  unfold OAuthTokens.graphRefresh at h
  unfold OAuthTokens.live
  rw [if_pos which]
  cases hkept : source.keptGraph silence with
  | error error => rw [hkept] at h; cases h
  | ok held =>
    rw [hkept] at h
    rw [← keptGraph_ok hkept]
    cases held with
    | none => exact signInRefresh_ok h
    | some credential =>
      cases credential with
      | oauth access refresh expiresAt =>
        cases h
        rfl
      | _ => exact signInRefresh_ok h

theorem refused_eq : source.refused token =
    match source.spent.refusal token with
    | some why => .error (.said why)
    | none => .ok () := rfl

theorem incoming_came (account : Account) (presented : String) :
    ∃ outcome, Came source weather .incoming presented outcome ∧
      source.incoming account weather presented = (outcome.1, handed .incoming outcome) := by
  have hcame : Came source weather .incoming presented (OAuthTokens.judge account .incoming
    (source.renewIncoming account weather presented)) := came_renewal account
  refine ⟨_, hcame, ?_⟩
  unfold OAuthTokens.incoming
  generalize OAuthTokens.judge account .incoming (source.renewIncoming account weather presented) =
    outcome
  obtain ⟨result, after⟩ := outcome
  cases result <;> rfl

theorem dueRefresh_some {now : DateTime} {credential : Credential}
    (h : account.dueRefresh now credential = some presented) :
    credential.refresh? = some presented := by
  cases credential with
  | oauth access refresh expiresAt =>
    simp only [Account.dueRefresh] at h
    split at h
    · exact h
    · cases h
  | _ => cases h

theorem graphToken_acted (open' : source.spent.refusal .sending = none)
    (which : account.which .sending = .sending) :
    ∃ made, Acted account source weather .sending
      (OAuthTokens.judge account .sending (source.graphToken account weather)).2 made := by
  have hmint : ∀ presented, source.live account .sending = some presented → ∃ made,
      Acted account source weather .sending
        (OAuthTokens.judge account .sending (source.mintGraph account weather presented)).2 made :=
    fun presented hlive => by
      have hcame : Came source weather .sending presented (OAuthTokens.judge account .sending
        (source.mintGraph account weather presented)) := came_renewal account
      exact ⟨_, .renewed presented _ open' hlive hcame⟩
  unfold OAuthTokens.graphToken
  cases hkept : source.keptGraph weather.kept with
  | error error => exact ⟨none, acted_judged_error error⟩
  | ok held =>
    have hheld := keptGraph_ok hkept
    have hsignIn : (∀ access refresh expiresAt, held ≠ some (.oauth access refresh expiresAt)) →
        ∀ presented, source.signInRefresh weather = .ok presented →
          source.live account .sending = some presented := by
      intro hnot presented hsign
      unfold OAuthTokens.live
      rw [if_pos which, ← hheld]
      cases held with
      | none => exact signInRefresh_ok hsign
      | some credential =>
        cases credential with
        | oauth access refresh expiresAt => exact absurd rfl (hnot access refresh expiresAt)
        | password | other => exact signInRefresh_ok hsign
    cases held with
    | none =>
      dsimp only
      cases hsign : source.signInRefresh weather with
      | error error => exact ⟨none, acted_judged_error error⟩
      | ok presented => exact hmint presented (hsignIn (fun _ _ _ h => by cases h) presented hsign)
    | some credential =>
      cases credential with
      | oauth access refresh expiresAt =>
        dsimp only
        cases hdue : account.dueRefresh weather.now (.oauth access refresh expiresAt) with
        | none => exact ⟨none, acted_nothing⟩
        | some presented =>
          refine hmint presented ?_
          unfold OAuthTokens.live
          rw [if_pos which, ← hheld]
          exact dueRefresh_some hdue
      | password | other =>
        dsimp only
        cases hsign : source.signInRefresh weather with
        | error error => exact ⟨none, acted_judged_error error⟩
        | ok presented => exact hmint presented (hsignIn (fun _ _ _ h => by cases h) presented hsign)

theorem aheadOf_acted (account : Account) (token : Token) :
    ∃ made, Acted account source weather (account.which token)
      (source.aheadOf account weather token).2 made := by
  unfold OAuthTokens.aheadOf
  dsimp only
  cases hwhich : account.which token with
  | incoming =>
    rw [refused_eq]
    cases hopen : source.spent.refusal .incoming with
    | some why => exact ⟨none, acted_nothing⟩
    | none =>
      dsimp only
      cases hdue : account.dueRefresh weather.now source.held with
      | none => exact ⟨none, acted_nothing⟩
      | some presented =>
        obtain ⟨outcome, hcame, heq⟩ := @incoming_came source weather
          account presented
        have hlive : source.live account .incoming = some presented := by
          unfold OAuthTokens.live
          rw [if_pos (which_incoming hwhich)]
          exact dueRefresh_some hdue
        refine ⟨outcome.1.toOption, ?_⟩
        · have hsame : ((source.incoming account weather presented).andThen
              fun _ source => ((.ok (), source) : Outcome Unit)).2 =
                handed .incoming outcome := by
            rw [heq]
            obtain ⟨result, after⟩ := outcome
            cases result <;> rfl
          dsimp only
          rw [hsame]
          exact .renewed presented outcome hopen hlive hcame
  | sending =>
    rw [refused_eq]
    cases hopen : source.spent.refusal .sending with
    | some why => exact ⟨none, acted_nothing⟩
    | none =>
      obtain ⟨made, hacted⟩ := @graphToken_acted account source weather hopen (which_sending hwhich)
      refine ⟨made, ?_⟩
      dsimp only
      generalize OAuthTokens.judge account .sending (source.graphToken account weather) =
        outcome at hacted ⊢
      obtain ⟨result, after⟩ := outcome
      cases result <;> exact hacted

/-- A refusal told a session: final for the token held when that was minted after a refusal, and
answered by a renewal otherwise. -/
theorem afterRefused_acted (account : Account) (token : Token) :
    (source.afterRefused account weather token = (.ok .stillRefused, source) ∧
      source.holds (account.which token) = source.spent.on (account.which token) ∧
      (source.holds (account.which token)).isSome) ∨
    ∃ next made result, Acted account source weather (account.which token) next made ∧
      source.afterRefused account weather token =
        (result, made.elim next (next.mintedFor (account.which token))) ∧
      result ≠ .ok .stillRefused := by
  unfold OAuthTokens.afterRefused
  dsimp only
  cases hwhich : account.which token with
  | incoming =>
    rw [refused_eq]
    cases hopen : source.spent.refusal .incoming with
    | some why =>
      exact .inr ⟨source, none, _, acted_nothing, rfl, fun h => by cases h⟩
    | none =>
      dsimp only
      cases hheld : source.held with
      | oauth access presented expiresAt =>
        dsimp only
        split
        · rename_i hspent
          have hholds : source.holds .incoming = some access := by
            unfold OAuthTokens.holds
            rw [hheld]
            rfl
          exact .inl ⟨rfl, hholds.trans hspent.symm, by rw [hholds]; rfl⟩
        · obtain ⟨outcome, hcame, heq⟩ := @incoming_came source weather
            account presented
          have hlive : source.live account .incoming = some presented := by
            unfold OAuthTokens.live
            rw [if_pos (which_incoming hwhich), hheld]
            rfl
          have hacted := Acted.renewed presented outcome hopen hlive hcame
          rw [heq]
          obtain ⟨result, after⟩ := outcome
          cases result with
          | ok | error =>
            exact .inr ⟨_, _, _, hacted, rfl, fun h => by cases h⟩
      | password | other =>
        exact .inr ⟨source, none, _, acted_nothing, rfl, fun h => by cases h⟩
  | sending =>
    rw [refused_eq]
    cases hopen : source.spent.refusal .sending with
    | some why =>
      exact .inr ⟨source, none, _, acted_nothing, rfl, fun h => by cases h⟩
    | none =>
      dsimp only
      cases hkept : source.keptGraph weather.kept with
      | error error =>
        exact .inr ⟨source, none, _, acted_nothing, rfl, fun h => by cases h⟩
      | ok held =>
        dsimp only
        have hheld := keptGraph_ok hkept
        split
        · rename_i hspent
          obtain ⟨access, haccess, heq⟩ := (Option.any_eq_true _ _).mp hspent
          have hholds : source.holds .sending = some access := by
            unfold OAuthTokens.holds
            rw [← hheld]
            exact haccess
          exact .inl ⟨rfl, hholds.trans (of_decide_eq_true heq).symm, by rw [hholds]; rfl⟩
        · cases hrefresh : source.graphRefresh weather weather.keptAgain with
          | error error =>
            exact .inr ⟨source, none, _, acted_nothing, rfl, fun h => by cases h⟩
          | ok presented =>
            have hlive := graphRefresh_ok hrefresh (which_sending hwhich)
            have hcame : Came source weather .sending presented
              (OAuthTokens.judge account .sending
                (source.mintGraph account weather presented)) := came_renewal account
            have hacted := Acted.renewed presented _ hopen hlive hcame
            dsimp only
            generalize OAuthTokens.judge account .sending
              (source.mintGraph account weather presented) = outcome at hacted ⊢
            obtain ⟨result, after⟩ := outcome
            cases result with
            | ok | error =>
              exact .inr ⟨_, _, _, hacted, rfl, fun h => by cases h⟩

end Renewal

/-! ## The invariant -/

/-- No token still renewed from was replaced; a refusal of the issuer is remembered, and what a
refusal minted is. -/
structure Sound (account : Account) (source : OAuthTokens) : Prop where
  fresh : ∀ token presented, source.live account token = some presented →
    presented ∉ replaced source.asks
  refusals : ∀ ask ∈ source.asks, ∀ text, ask.answer = .refused text →
    (source.spent.refusal ask.token).isSome
  minted : ∀ token access, source.spent.on token = some access → (token, access) ∈ source.minted
  law : Law source

section Sound

variable {account : Account} {source next : OAuthTokens} {weather : Weather} {token : Token}
  {presented : String}

theorem sound_start (signIn : Credential) (graph : Option Credential) :
    Sound account (.start signIn graph) where
  fresh _ _ _ := List.not_mem_nil
  refusals _ h := absurd h List.not_mem_nil
  minted token _ h := by cases token <;> cases h
  law := ⟨trivial, fun _ h => absurd h List.not_mem_nil, trivial⟩

theorem mem_replaced_cons {ask : Ask} {earlier : List Ask} {spent : String}
    (h : spent ∈ replaced (ask :: earlier)) :
    (spent ∈ replaced earlier ∨ (spent = ask.presented ∧ ask.Rotates)) ∧
      ask.answer.rotated ≠ some spent := by
  rw [replaced] at h
  cases hrotated : ask.answer.rotated with
  | none =>
    rw [hrotated] at h
    exact ⟨.inl h, fun heq => by cases heq⟩
  | some fresh =>
    rw [hrotated] at h
    obtain ⟨hmem, hne⟩ := List.mem_filter.mp h
    have hne : spent ≠ fresh := of_decide_eq_true hne
    refine ⟨?_, fun heq => hne (Option.some.inj heq).symm⟩
    rcases List.mem_cons.mp hmem with rfl | hearlier
    · exact .inr ⟨rfl, fresh, hrotated, hne.symm⟩
    · exact .inl hearlier

theorem renewed_fresh {ask : Ask} {earlier : List Ask} (h : ask.presented ∉ replaced earlier) :
    ask.answer.rotated.getD ask.presented ∉ replaced (ask :: earlier) := by
  intro hmem
  obtain ⟨hor, hne⟩ := mem_replaced_cons hmem
  cases hrotated : ask.answer.rotated with
  | none =>
    rw [hrotated, Option.getD_none] at hor
    rcases hor with hearlier | ⟨-, fresh, hfresh, -⟩
    · exact h hearlier
    · rw [hrotated] at hfresh
      cases hfresh
  | some fresh =>
    rw [hrotated] at hne
    exact hne rfl

/-- After a renewal kept everywhere, a token is renewed from what it left, or is another and is
renewed from what it was before. -/
theorem live_renewed {access fresh : String} {expiresAt : Option DateTime} {asks : List Ask}
    {other : Token} {refresh : String}
    (h : (handed token (.ok (.oauth access fresh expiresAt), { source with
      asks := asks
      keyring := keptUnder (.oauth access fresh expiresAt) (OAuthTokens.entries token)
        source.keyring })).live account other = some refresh) :
    refresh = fresh ∨
      (source.live account other = some refresh ∧ source.elsewhere account token = some refresh) := by
  cases token with
  | incoming =>
    cases other with
    | incoming =>
      simp only [handed, OAuthTokens.live, Credential.refresh?] at h
      split at h
      · exact .inl (Option.some.inj h).symm
      · cases h
    | sending =>
      simp only [handed, OAuthTokens.live, OAuthTokens.elsewhere, keptUnder,
        OAuthTokens.entries, List.foldl_cons, List.foldl_nil, Keyring.keep] at h ⊢
      split at h
      · rename_i hsending
        rw [if_pos hsending, if_pos hsending]
        split at h
        · rename_i hkept
          rw [hkept]
          exact .inr ⟨h, h⟩
        · exact .inl (Option.some.inj h).symm
      · cases h
  | sending =>
    cases other with
    | incoming =>
      simp only [handed, OAuthTokens.live, OAuthTokens.elsewhere] at h ⊢
      exact .inr ⟨h, h⟩
    | sending =>
      simp only [handed, OAuthTokens.live, keptUnder, OAuthTokens.entries, List.foldl_cons,
        List.foldl_nil, Keyring.keep] at h
      split at h
      · exact .inl (Option.some.inj h).symm
      · cases h

/-- After a renewal not kept everywhere, a token is renewed from what it was before, or from what
the renewal left. -/
theorem live_failed {keyring : Keyring} {spent : Spent} {asks : List Ask} {fresh : String}
    {error : CredentialError} {other : Token} {refresh : String}
    (kept : ∀ purpose, keyring.entry purpose = source.keyring.entry purpose ∨
      (purpose ∈ OAuthTokens.entries token ∧ ∃ access expiresAt, keyring.entry purpose =
        some (.oauth access fresh expiresAt)))
    (h : (handed token (.error error, { source with asks, keyring, spent })).live account other =
      some refresh) :
    refresh = fresh ∨ source.live account other = some refresh := by
  have hhanded : handed token (.error error, { source with asks, keyring, spent }) =
      { source with asks, keyring, spent } := by cases token <;> rfl
  rw [hhanded] at h
  cases other with
  | incoming => exact .inr h
  | sending =>
    simp only [OAuthTokens.live] at h ⊢
    have hout : keyring.outgoingPassword = source.keyring.outgoingPassword ∨ _ :=
      kept .outgoingPassword
    have hsign : keyring.oauthRefresh = source.keyring.oauthRefresh ∨ _ := kept .oauthRefresh
    split at h
    · rename_i hsending
      rw [if_pos hsending]
      rcases hout with hout | ⟨-, access, expiresAt, hout⟩
      · rw [hout] at h
        rcases hsign with hsign | ⟨-, access, expiresAt, hsign⟩
        · rw [hsign] at h
          exact .inr h
        · have hsign : keyring.oauthRefresh = some (.oauth access fresh expiresAt) := hsign
          rw [hsign] at h
          split at h
          · exact .inr h
          · exact .inl (Option.some.inj h).symm
      · have hout : keyring.outgoingPassword = some (.oauth access fresh expiresAt) := hout
        rw [hout] at h
        exact .inl (Option.some.inj h).symm
    · cases h

variable {made : Option Credential}

theorem acted_rest (h : Acted account source weather token next made) :
    next.minted = source.minted ∧ next.stillRefused = source.stillRefused ∧
      next.given = source.given ∧ next.spent.on = source.spent.on := by
  cases h with
  | idle spent on refusals => exact ⟨rfl, rfl, rfl, on⟩
  | renewed presented outcome open' live came =>
    cases came with
    | renewed scopes access rotated expiresAt answer => cases token <;> exact ⟨rfl, rfl, rfl, rfl⟩
    | failed scopes error keyring spent kept unwritten on refusals refusal =>
      cases token <;> exact ⟨rfl, rfl, rfl, on⟩

theorem asks_came {outcome : Outcome Credential}
    (came : Came source weather token presented outcome) :
    ∃ scopes, (handed token outcome).asks =
        ⟨token, presented, scopes, weather.answer⟩ :: source.asks ∧
      (∀ other, (source.spent.refusal other).isSome →
        ((handed token outcome).spent.refusal other).isSome) ∧
      ∀ text, weather.answer = .refused text →
        ((handed token outcome).spent.refusal token).isSome := by
  cases came with
  | renewed scopes access rotated expiresAt answer =>
    refine ⟨scopes, ?_, ?_, ?_⟩
    · cases token <;> rfl
    · cases token <;> exact fun _ h => h
    · intro text htext
      rw [answer] at htext
      cases htext
  | failed scopes error keyring spent kept unwritten on refusals refusal =>
    refine ⟨scopes, ?_, ?_, ?_⟩
    · cases token <;> rfl
    · cases token <;> exact refusals
    · cases token <;> exact refusal

theorem sound_acted (h : Sound account source)
    (hacted : Acted account source weather token next made)
    (keeps : Keeps account source next weather) : Sound account next := by
  obtain ⟨hminted, hstill, -, hon⟩ := acted_rest hacted
  have hmade : ∀ other access, next.spent.on other = some access →
      (other, access) ∈ next.minted := fun other access hspent => by
    rw [hminted]
    exact h.minted other access (hon ▸ hspent)
  have hfinal : ∀ told ∈ next.stillRefused, told ∈ next.minted := fun told htold => by
    rw [hminted]
    exact h.law.final told (hstill ▸ htold)
  cases hacted with
  | idle spent on refusals =>
    refine ⟨h.fresh, fun ask hask text htext => ?_, hmade, h.law.once, hfinal, h.law.quiet⟩
    exact refusals _ (h.refusals ask hask text htext)
  | renewed presented outcome open' live came =>
    obtain ⟨scopes, hasks, hrefusals, hrefusal⟩ := asks_came came
    have hkeeps := keeps _ hasks
    have hpresented := h.fresh token presented live
    refine ⟨fun other refresh hlive => ?_, fun ask hask text htext => ?_, hmade, ?_, hfinal, ?_⟩
    · rw [hasks]
      cases came with
      | renewed scopes' access rotated expiresAt answer =>
        have hrotated : weather.answer.rotated = rotated := by rw [answer]; rfl
        rcases live_renewed hlive with rfl | ⟨hbefore, helsewhere⟩
        · have hfresh := @renewed_fresh ⟨token, presented, scopes, weather.answer⟩ _
            hpresented
          rw [← hrotated]
          exact hfresh
        · intro hmem
          rcases (mem_replaced_cons hmem).1 with hearlier | ⟨rfl, hrotates⟩
          · exact h.fresh other refresh hbefore hearlier
          · exact (hkeeps hrotates).2 helsewhere
      | failed scopes' error keyring spent kept unwritten on refusals refusal =>
        have hsame : ¬ Ask.Rotates ⟨token, presented, scopes, weather.answer⟩ := by
          intro hrotates
          obtain ⟨fresh, hfresh, hne⟩ := hrotates
          have hsome : weather.answer.rotated ≠ none := by
            rw [hfresh]
            exact Option.some_ne_none fresh
          obtain ⟨purpose, hpurpose, hwrite⟩ := unwritten hsome
          exact hwrite ((hkeeps ⟨fresh, hfresh, hne⟩).1 purpose hpurpose)
        rcases live_failed kept hlive with rfl | hbefore
        · exact @renewed_fresh ⟨token, presented, scopes, weather.answer⟩ _ hpresented
        · intro hmem
          rcases (mem_replaced_cons hmem).1 with hearlier | ⟨-, hrotates⟩
          · exact h.fresh other refresh hbefore hearlier
          · exact hsame hrotates
    · rw [hasks] at hask
      rcases List.mem_cons.mp hask with rfl | hearlier
      · exact hrefusal text htext
      · exact hrefusals _ (h.refusals ask hearlier text htext)
    · rw [hasks]
      exact ⟨hpresented, h.law.once⟩
    · rw [hasks]
      refine ⟨fun old hold htoken text htext => ?_, h.law.quiet⟩
      have hsome := h.refusals old hold text htext
      rw [htoken] at hsome
      rw [open'] at hsome
      cases hsome

theorem sound_mintedFor (h : Sound account source) (token : Token) (credential : Credential) :
    Sound account (source.mintedFor token credential) := by
  refine ⟨h.fresh, fun ask hask text htext => ?_, fun other access hspent => ?_, h.law.once,
    fun told htold => List.mem_append_left _ (h.law.final told htold), h.law.quiet⟩
  · have hsame : (source.spent.spend credential.accessOf token).refusal =
        source.spent.refusal := by
      funext other
      cases token <;> cases other <;> rfl
    change ((source.spent.spend credential.accessOf token).refusal ask.token).isSome = true
    rw [hsame]
    exact h.refusals ask hask text htext
  · by_cases heq : other = token
    · subst heq
      have hon : (source.spent.spend credential.accessOf other).on other = credential.accessOf := by
        cases other <;> rfl
      have haccess : credential.accessOf = some access := hon.symm.trans hspent
      refine List.mem_append_right _ ?_
      rw [haccess]
      exact .head _
    · have hon : (source.spent.spend credential.accessOf token).on other =
          source.spent.on other := by
        cases token <;> cases other <;> first | rfl | exact absurd rfl heq
      exact List.mem_append_left _ (h.minted other access (hon.symm.trans hspent))

theorem sound_step {event : Event} (h : Sound account source)
    (hstep : step account source event = some next)
    (careful : Careful account source next event) : Sound account next := by
  cases event with
  | current token =>
    obtain ⟨credential, -, rfl⟩ := Option.map_eq_some_iff.mp hstep
    exact ⟨h.fresh, h.refusals, h.minted, h.law.once, h.law.final, h.law.quiet⟩
  | ahead token weather =>
    cases hstep
    obtain ⟨made, hacted⟩ := @aheadOf_acted source weather account token
    exact sound_acted h hacted careful
  | afterRefusal token access weather =>
    obtain ⟨hkeeps, hheld⟩ := careful
    simp only [step] at hstep
    split at hstep
    · rcases @afterRefused_acted source weather account token with
        ⟨heq, hspent, hsome⟩ | ⟨after, made, result, hacted, heq, hresult⟩
      · rw [heq] at hstep
        cases hstep
        have haccess : source.spent.on (account.which token) = some access := by
          rcases hheld with hheld | hne
          · rw [← hspent]
            exact hheld
          · exact absurd hspent hne
        refine ⟨h.fresh, h.refusals, h.minted, h.law.once, fun told htold => ?_, h.law.quiet⟩
        rcases List.mem_append.mp htold with hbefore | hnow
        · exact h.law.final told hbefore
        · rw [List.mem_singleton.mp hnow]
          exact h.minted _ _ haccess
      · rw [heq] at hstep
        have hnext : next = made.elim after (after.mintedFor (account.which token)) := by
          cases result with
          | error error =>
            cases hstep
            rfl
          | ok answer =>
            cases answer with
            | stillRefused => exact absurd rfl hresult
            | tryAgain | notRenewable =>
              cases hstep
              rfl
        have hasks : next.asks = after.asks := by
          rw [hnext]
          cases made <;> rfl
        have hafter := sound_acted h hacted fun ask hask => hkeeps ask (hasks.trans hask)
        rw [hnext]
        cases made with
        | none => exact hafter
        | some credential => exact sound_mintedFor hafter _ credential
    · cases hstep

theorem sound_run {events : List Event} {last : OAuthTokens} (h : Sound account source)
    (hrun : run account source events = some last) (careful : CarefulRun account source events) :
    Sound account last := by
  induction events generalizing source with
  | nil =>
    cases hrun
    exact h
  | cons event rest ih =>
    rw [run] at hrun
    obtain ⟨middle, hstep, hrest⟩ := Option.bind_eq_some_iff.mp hrun
    obtain ⟨hone, hmore⟩ := careful middle hstep
    exact ih (sound_step h hstep hone) hrest hmore

end Sound

/-- In every run that keeps what the issuer rotates, and asks after a refusal of the token held, a
sign-in is neither spent twice nor given up early. -/
theorem law_of_careful (account : Account) (signIn : Credential) (graph : Option Credential)
    (events : List Event) (last : OAuthTokens)
    (hrun : run account (.start signIn graph) events = some last)
    (careful : CarefulRun account (.start signIn graph) events) : Law last :=
  (sound_run (sound_start signIn graph) hrun careful).law

section Example

/-- An account that reads over IMAP and sends through Graph; a token is due from the moment it
expires. -/
def office : Account where
  address := "ann@example.org"
  incomingScopes := []
  outgoing := .graph
  incoming := .otherwise
  isDue expiresAt now := expiresAt.any fun at' => at' ≤ now

def signedIn : Credential := .oauth "a1" "r1" (some 100)

def calm (now : DateTime) (answer : Issued) : Weather := ⟨now, answer, none, none, none, fun _ => none⟩

/-- A renewal whose new token the keyring does not take, and the next one. -/
def unkept : List Event :=
  [.ahead .incoming { calm 100 (.tokens "a2" (some "r2") (some 200)) with
      writes := fun _ => some .locked },
    .ahead .incoming (calm 100 (.tokens "a3" (some "r3") (some 200)))]

/-- A Graph token minted from the sign-in, which is then renewed itself. -/
def shared : List Event :=
  [.ahead .sending (calm 0 (.tokens "g1" (some "r2") (some 200))),
    .ahead .incoming (calm 100 (.tokens "a2" (some "r3") (some 200)))]

def twoRefused : List Event :=
  [.current .incoming, .current .incoming,
    .afterRefusal .incoming "a1" (calm 0 (.tokens "a2" none (some 200))),
    .afterRefusal .incoming "a1" (calm 0 (.tokens "a3" none (some 200)))]

def refusedTwice : List Event :=
  [.current .incoming, .afterRefusal .incoming "a1" (calm 0 (.tokens "a2" (some "r2") (some 200))),
    .current .incoming, .afterRefusal .incoming "a2" (calm 110 (.unreachable ""))]

variable {next source : OAuthTokens}

theorem keeps_calm {now : DateTime} {answer : Issued}
    (h : ∀ ask, next.asks = ask :: source.asks →
      source.elsewhere office ask.token ≠ some ask.presented) :
    Keeps office source next (calm now answer) := fun ask hask _ => ⟨fun _ _ => rfl, h ask hask⟩

theorem careful_cons {event : Event} {rest : List Event}
    (hstep : step office source event = some next) (hone : Careful office source next event)
    (hrest : CarefulRun office next rest) : CarefulRun office source (event :: rest) := by
  intro other hother
  rw [hstep] at hother
  cases hother
  exact ⟨hone, hrest⟩

def mintedOnce : OAuthTokens where
  keyring := ⟨some (.oauth "a2" "r2" (some 200)), none, some (.oauth "a2" "r2" (some 200))⟩
  held := .oauth "a2" "r2" (some 200)
  spent := ⟨some "a2", none, none, none⟩
  asks := [⟨.incoming, "r1", [], .tokens "a2" (some "r2") (some 200)⟩]
  given := [(.incoming, "a1")]
  minted := [(.incoming, "a2")]
  stillRefused := []

/-- A careful run in which the second refusal is final. -/
theorem refusedTwice_law :
    (run office (.start signedIn none) refusedTwice).map OAuthTokens.stillRefused =
        some [(.incoming, "a2")] ∧
      ∀ last, run office (.start signedIn none) refusedTwice = some last → Law last := by
  have hgiven : step office { OAuthTokens.start signedIn none with given := [(.incoming, "a1")] }
      (.afterRefusal .incoming "a1" (calm 0 (.tokens "a2" (some "r2") (some 200)))) =
        some mintedOnce := by decide +kernel
  have hnext : step office { mintedOnce with given := [(.incoming, "a1"), (.incoming, "a2")] }
      (.afterRefusal .incoming "a2" (calm 110 (.unreachable ""))) =
        some { mintedOnce with
          given := [(.incoming, "a1"), (.incoming, "a2")]
          stillRefused := [(.incoming, "a2")] } := by decide +kernel
  refine ⟨by decide +kernel, fun last hrun =>
    law_of_careful office signedIn none refusedTwice last hrun ?_⟩
  refine careful_cons rfl trivial (careful_cons hgiven ⟨keeps_calm fun ask hask => ?_, .inl rfl⟩
    (careful_cons rfl trivial (careful_cons hnext ⟨fun ask hask => ?_, .inl rfl⟩ trivial)))
  · cases hask
    decide
  · have hlength : 1 = 1 + 1 := congrArg List.length hask
    exact absurd hlength (by decide)

/-- A token the keyring did not take is lost and the one it replaced presented again; a token the
Graph token was minted from is presented though an answer replaced it; and the second of two
sessions refused with one token is told no new one is worth minting. -/
theorem sign_in_spent_twice :
    (∃ last, run office (.start signedIn none) unkept = some last ∧ ¬ SpentOnce last.asks) ∧
      (∃ last, run office (.start signedIn none) shared = some last ∧ ¬ SpentOnce last.asks) ∧
      ∃ last, run office (.start signedIn none) twoRefused = some last ∧
        ¬ ∀ told ∈ last.stillRefused, told ∈ last.minted := by
  refine ⟨⟨_, rfl, fun h => h.1 ?_⟩, ⟨_, rfl, fun h => h.1 ?_⟩, ⟨_, rfl, fun h => ?_⟩⟩
  · decide
  · decide
  · have hminted := h (.incoming, "a1") (by decide)
    revert hminted
    decide

end Example

end Mailo.Secrets
