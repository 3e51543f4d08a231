import Tributary.Config.File

/-!
# The client certificate

A shipper presents the pair of files it has adopted last. Another pair on disk is read and
validated before it replaces that, and one that fails leaves it in place. The trust anchors
are read once and are the same in every client of a shipper, so that all there is to tell of
a client is the identity it presents.
-/

namespace Tributary.Credential

/-! ## A pair of files -/

/-- A validated client identity. -/
structure Identity where
  /-- the certificate chain and the key -/
  pem : Text
  notAfterEpoch : Int
  commonName : Option Text
deriving DecidableEq, Repr

inductive CredentialError where
  | io (e : String)
  | invalid (e : String)
  | missing (what : String)
  | expired (notAfterEpoch : Int)
deriving DecidableEq, Repr

/-- What the file system says of a file. -/
structure Stat where
  modified : Option Nat
  content : Except String Text

/-- The two files of `[output.tls]`. -/
structure Files where
  cert : Stat
  key : Stat

/-- What the PEM, X.509 and HTTP libraries do. -/
structure Pki where
  certs : Text → Except String (List Text)
  privateKey : Text → Except String (Option Text)
  /-- `notAfter` and the first common name of a certificate -/
  x509 : Text → Except String (Int × Option Text)
  /-- `reqwest::Identity::from_pem` -/
  fromPem : Text → Except String Unit
  /-- a client can be built that presents the pair -/
  build : Text → Except String Unit

/-- `changed_token`: both times of change, if there are both. -/
def Files.changedToken (files : Files) : Option (Nat × Nat) :=
  files.cert.modified.bind fun c => files.key.modified.map fun k => (c, k)

/-- The chain ends its line before the key. -/
def joinPem (certPem keyPem : Text) : Text :=
  (if certPem.getLast? = some '\n' then certPem else certPem ++ ['\n']) ++ keyPem

def refuseIf (c : Prop) [Decidable c] (e : CredentialError) : Except CredentialError Unit :=
  if c then .error e else .ok ()

/-- `load_pair`, at this number of seconds since the epoch. -/
def loadPair (pki : Pki) (files : Files) (now : Int) : Except CredentialError Identity := do
  let certPem ← files.cert.content.mapError .io
  let keyPem ← files.key.content.mapError .io
  let certs ← (pki.certs certPem).mapError fun e => .invalid s!"certificate PEM: {e}"
  let leaf ← certs.head?.elim (.error (.missing "certificate")) .ok
  let key ← (pki.privateKey keyPem).mapError fun e => .invalid s!"private key PEM: {e}"
  refuseIf (key = none) (.missing "private key")
  let parsed ← (pki.x509 leaf).mapError fun e => .invalid s!"x509 parse: {e}"
  refuseIf (parsed.1 ≤ now) (.expired parsed.1)
  let pem := joinPem certPem keyPem
  (pki.fromPem pem).mapError fun e => .invalid s!"reqwest rejected the pair: {e}"
  -- a throwaway client: the check that the key belongs to the certificate
  (pki.build pem).mapError fun e => .invalid s!"certificate and key do not match: {e}"
  .ok { pem, notAfterEpoch := parsed.1, commonName := parsed.2 }

/-! ## The live identity -/

/-- `RotatingIdentity`. -/
structure RotatingIdentity where
  /-- without one there is nothing to rotate: only trust anchors are configured -/
  source : Bool
  current : Option Identity
  token : Option (Nat × Nat)
  lastReloadOk : Bool
  reloadsRefused : Nat
deriving DecidableEq, Repr

namespace RotatingIdentity

def load (pki : Pki) (files : Files) (now : Int) : Except CredentialError RotatingIdentity := do
  let identity ← loadPair pki files now
  .ok { source := true, current := some identity, token := files.changedToken
        lastReloadOk := true, reloadsRefused := 0 }

def none : RotatingIdentity :=
  { source := false, current := .none, token := .none, lastReloadOk := true, reloadsRefused := 0 }

def reload (pki : Pki) (files : Files) (now : Int) (r : RotatingIdentity) :
    Except CredentialError Bool × RotatingIdentity :=
  if r.source = false then (.ok false, r)
  else if files.changedToken.isSome = true ∧ r.token = files.changedToken then (.ok false, r)
  else
    match loadPair pki files now with
    | .ok identity =>
        (.ok true, { r with
          current := some identity, token := files.changedToken, lastReloadOk := true })
    | .error e =>
        -- the token stays: the next look tries again
        (.error e, { r with lastReloadOk := false, reloadsRefused := r.reloadsRefused + 1 })

end RotatingIdentity

/-! ## The shipper's part -/

inductive RotateError where
  | credential (e : CredentialError)
  /-- the client cannot be built -/
  | client (e : String)
deriving DecidableEq, Repr

/-- What a shipper and its clones share. -/
structure Shipper where
  /-- the identity the live client presents -/
  client : Option Identity
  tls : Option RotatingIdentity
deriving DecidableEq, Repr

/-- `build_client`. -/
def buildClient (pki : Pki) : Option Identity → Except RotateError (Option Identity)
  | none => .ok none
  | some identity => do
      (pki.fromPem identity.pem).mapError fun e =>
        .credential (.invalid s!"reqwest rejected the pair: {e}")
      (pki.build identity.pem).mapError .client
      .ok (some identity)

namespace Shipper

def current (s : Shipper) : Option Identity := s.tls.bind RotatingIdentity.current

/-- The token of the pair adopted last. -/
def token (s : Shipper) : Option (Nat × Nat) := s.tls.bind RotatingIdentity.token

def new (pki : Pki) (tls : Option RotatingIdentity) : Except RotateError Shipper := do
  let client ← buildClient pki (tls.bind RotatingIdentity.current)
  .ok { client, tls }

def rotateCredentials (pki : Pki) (files : Files) (now : Int) (s : Shipper) :
    Except RotateError Bool × Shipper :=
  match s.tls with
  | none => (.ok false, s)
  | some rt =>
      match rt.reload pki files now with
      | (.error e, rt) => (.error (.credential e), { s with tls := some rt })
      | (.ok false, rt) => (.ok false, { s with tls := some rt })
      | (.ok true, rt) =>
          match buildClient pki rt.current with
          | .error e => (.error e, { s with tls := some rt })
          | .ok client => (.ok true, { client, tls := some rt })

/-- `rebuild_transport`: a fresh connection pool. -/
def rebuildTransport (pki : Pki) (s : Shipper) : Shipper :=
  match buildClient pki s.current with
  | .ok client => { s with client }
  | .error _ => s

end Shipper

/-- `build_shipper`, as far as it goes for the client certificate. -/
def buildShipper (pki : Pki) (tls : Option Config.Tls) (files : Files) (now : Int) :
    Except RotateError Shipper :=
  match tls with
  | none => Shipper.new pki none
  | some t =>
      match t.certFile, t.keyFile with
      | some _, some _ => do
          let identity ← (RotatingIdentity.load pki files now).mapError .credential
          Shipper.new pki (some identity)
      | _, _ => Shipper.new pki (if t.caFile.isSome then some .none else none)

/-! ## What loading tells -/

theorem mapError_eq_ok {ε ε' α : Type} {x : Except ε α} {f : ε → ε'} {a : α} :
    x.mapError f = .ok a ↔ x = .ok a := by
  cases x with
  | error e => exact ⟨nofun, nofun⟩
  | ok b => rw [Except.mapError, Except.ok.injEq, Except.ok.injEq]

theorem refuseIf_eq_ok {c : Prop} [Decidable c] {e : CredentialError} {u : Unit} :
    refuseIf c e = .ok u ↔ ¬ c := by
  by_cases h : c
  · simp [refuseIf, h]
  · simp [refuseIf, h]

section

variable {pki : Pki} {files : Files} {now t : Int} {i j : Identity} {s : Shipper}

/-- A pair that loads is not expired, can be presented, and loads at any other time before
it expires. -/
theorem loadPair_ok (h : loadPair pki files now = .ok i) :
    now < i.notAfterEpoch ∧ buildClient pki (some i) = .ok (some i)
      ∧ ∀ t < i.notAfterEpoch, loadPair pki files t = .ok i := by
  obtain ⟨certPem, hcert, h⟩ := Config.bind_eq_ok.mp h
  obtain ⟨keyPem, hkeyPem, h⟩ := Config.bind_eq_ok.mp h
  obtain ⟨certs, hcerts, h⟩ := Config.bind_eq_ok.mp h
  obtain ⟨leaf, hleaf, h⟩ := Config.bind_eq_ok.mp h
  obtain ⟨key, hkey, h⟩ := Config.bind_eq_ok.mp h
  obtain ⟨⟨⟩, hsome, h⟩ := Config.bind_eq_ok.mp h
  obtain ⟨parsed, hparsed, h⟩ := Config.bind_eq_ok.mp h
  obtain ⟨⟨⟩, hlive, h⟩ := Config.bind_eq_ok.mp h
  obtain ⟨⟨⟩, hpem, h⟩ := Config.bind_eq_ok.mp h
  obtain ⟨⟨⟩, hbuild, h⟩ := Config.bind_eq_ok.mp h
  cases h
  refine ⟨Int.not_le.mp (refuseIf_eq_ok.mp hlive), ?_, fun t ht => ?_⟩
  · have hpem' := mapError_eq_ok.mp hpem
    have hbuild' := mapError_eq_ok.mp hbuild
    exact Config.bind_eq_ok.mpr ⟨(), mapError_eq_ok.mpr hpem', Config.bind_eq_ok.mpr
      ⟨(), mapError_eq_ok.mpr hbuild', rfl⟩⟩
  · have hlive' : refuseIf (parsed.1 ≤ t) (.expired parsed.1) = .ok () :=
      refuseIf_eq_ok.mpr (Int.not_le.mpr ht)
    simp only [loadPair, bind, Except.bind, hcert, hkeyPem, hcerts, hleaf, hkey, hsome, hparsed,
      hlive', hpem, hbuild]

/-- At two times the files do not load as different pairs. -/
theorem loadPair_unique (hi : loadPair pki files now = .ok i) (hj : loadPair pki files t = .ok j) :
    i = j := by
  obtain ⟨hlive, -, hother⟩ := loadPair_ok hi
  obtain ⟨hlive', -, hother'⟩ := loadPair_ok hj
  rcases Int.le_total now t with h | h
  · exact Except.ok.inj (hi.symm.trans (hother' now (Int.lt_of_le_of_lt h hlive')))
  · exact Except.ok.inj ((hother t (Int.lt_of_le_of_lt h hlive)).symm.trans hj)

/-- A pair that loads has loaded before, too. -/
theorem loadPair_earlier (h : loadPair pki files now = .ok i) (ht : t ≤ now) :
    loadPair pki files t = .ok i :=
  (loadPair_ok h).2.2 t (Int.lt_of_le_of_lt ht (loadPair_ok h).1)

/-! ## What a shipper presents -/

namespace Shipper

/-- The live client presents the current identity, of which a client can be built; without
a source there is none. -/
structure Sound (pki : Pki) (s : Shipper) : Prop where
  client : s.client = s.current
  builds : buildClient pki s.current = .ok s.current
  source : ∀ rt, s.tls = some rt → rt.source = false → rt.current = none

/-- Whatever pair the files hold, if any, is the one that is presented. -/
def Shows (pki : Pki) (files : Files) (s : Shipper) : Prop :=
  ∀ t i, loadPair pki files t = .ok i → s.client = some i

/-- The same of the pairs that load from this time on. -/
def ShowsFrom (pki : Pki) (files : Files) (now : Int) (s : Shipper) : Prop :=
  ∀ t i, now ≤ t → loadPair pki files t = .ok i → s.client = some i

/-- A pair that looks like the one adopted last is that one. -/
def Notices (pki : Pki) (files : Files) (s : Shipper) : Prop :=
  s.token ≠ none → s.token = files.changedToken → s.Shows pki files

theorem shows_of_loaded (h : loadPair pki files now = .ok i) (hs : s.client = some i) :
    s.Shows pki files :=
  fun _ _ hj => hs.trans (congrArg some (loadPair_unique h hj))

/-- A fresh pool presents the same identity. -/
theorem Sound.rebuildTransport (h : s.Sound pki) : s.rebuildTransport pki = s := by
  rw [Shipper.rebuildTransport, h.builds, ← h.client]

theorem sound_new {tls : Option RotatingIdentity} (h : Shipper.new pki tls = .ok s)
    (hsource : ∀ rt, tls = some rt → rt.source = false → rt.current = none) :
    s.Sound pki ∧ s.tls = tls := by
  obtain ⟨client, hbuild, h⟩ := Config.bind_eq_ok.mp h
  cases h
  have hclient : client = tls.bind RotatingIdentity.current := by
    cases hcurrent : tls.bind RotatingIdentity.current with
    | none => rw [hcurrent] at hbuild; exact (Except.ok.inj hbuild).symm
    | some identity =>
        rw [hcurrent] at hbuild
        obtain ⟨-, -, hbuild⟩ := Config.bind_eq_ok.mp hbuild
        obtain ⟨-, -, hbuild⟩ := Config.bind_eq_ok.mp hbuild
        exact (Except.ok.inj hbuild).symm
  exact ⟨⟨hclient, by rw [hclient] at hbuild; exact hbuild, hsource⟩, rfl⟩

/-- **A shipper that is built** presents what the files hold, or never presents anything. -/
theorem buildShipper_ok {tls : Option Config.Tls} (h : buildShipper pki tls files now = .ok s) :
    s.Sound pki ∧ s.Notices pki files ∧ (s.client ≠ none → s.Shows pki files) := by
  have of_none {tls : Option RotatingIdentity} (h : Shipper.new pki tls = .ok s)
      (htls : tls = none ∨ tls = some .none) :
      s.Sound pki ∧ s.Notices pki files ∧ (s.client ≠ none → s.Shows pki files) := by
    obtain ⟨hsound, hs⟩ := sound_new h fun rt hrt _ => by
      rcases htls with rfl | rfl <;> cases hrt
      rfl
    have hnone : s.token = none ∧ s.client = none := by
      rw [hsound.client, Shipper.token, Shipper.current, hs]
      rcases htls with rfl | rfl <;> exact ⟨rfl, rfl⟩
    exact ⟨hsound, fun htoken => absurd hnone.1 htoken, fun hclient => absurd hnone.2 hclient⟩
  unfold buildShipper at h
  split at h
  · exact of_none h (.inl rfl)
  · split at h
    · obtain ⟨identity, hload, h⟩ := Config.bind_eq_ok.mp h
      obtain ⟨i, hpair, hidentity⟩ := Config.bind_eq_ok.mp (mapError_eq_ok.mp hload)
      cases hidentity
      obtain ⟨hsound, hs⟩ := sound_new h fun rt hrt hfalse => by
        cases hrt
        cases hfalse
      have hshows : s.Shows pki files := shows_of_loaded hpair (by
        rw [hsound.client, Shipper.current, hs]
        rfl)
      exact ⟨hsound, fun _ _ => hshows, fun _ => hshows⟩
    · refine of_none h ?_
      split
      · exact .inr rfl
      · exact .inl rfl

/-- **One look at the files**: there is nothing to rotate, or they look as they did, or the
pair is adopted, or it is refused. -/
theorem rotate_cases (files : Files) (now : Int) (h : s.Sound pki) :
    (s.rotateCredentials pki files now).2.Sound pki ∧
      (s.client = none ∧ (s.rotateCredentials pki files now).2 = s
        ∨ s.token ≠ none ∧ s.token = files.changedToken
          ∧ (s.rotateCredentials pki files now).2 = s
        ∨ (∃ i, loadPair pki files now = .ok i
          ∧ (s.rotateCredentials pki files now).2.client = some i)
        ∨ (∃ e, loadPair pki files now = .error e)
          ∧ (s.rotateCredentials pki files now).2.client = s.client
          ∧ (s.rotateCredentials pki files now).2.token = s.token) := by
  rw [rotateCredentials]
  cases htls : s.tls with
  | none =>
      refine ⟨h, .inl ⟨?_, rfl⟩⟩
      rw [h.client, current, htls]
      rfl
  | some rt =>
      have hcurrent : s.current = rt.current := by rw [current, htls]; rfl
      have htoken : s.token = rt.token := by rw [token, htls]; rfl
      have hsame : { s with tls := some rt } = s := by rw [← htls]
      by_cases hsource : rt.source = false
      · have hreload : rt.reload pki files now = (.ok false, rt) := if_pos hsource
        have hnone : s.client = none := by rw [h.client, hcurrent, h.source rt htls hsource]
        simp only [hreload, hsame]
        exact ⟨h, .inl ⟨hnone, trivial⟩⟩
      by_cases hseen : files.changedToken.isSome = true ∧ rt.token = files.changedToken
      · have hreload : rt.reload pki files now = (.ok false, rt) := by
          rw [RotatingIdentity.reload, if_neg hsource, if_pos hseen]
        have hsome : s.token ≠ none := by
          rw [htoken, hseen.2]
          exact Option.isSome_iff_ne_none.mp hseen.1
        simp only [hreload, hsame]
        exact ⟨h, .inr (.inl ⟨hsome, htoken.trans hseen.2, trivial⟩)⟩
      cases hload : loadPair pki files now with
      | ok identity =>
          have hreload : rt.reload pki files now = (.ok true, { rt with
              current := some identity, token := files.changedToken, lastReloadOk := true }) := by
            rw [RotatingIdentity.reload, if_neg hsource, if_neg hseen, hload]
          have hbuild := (loadPair_ok hload).2.1
          simp only [hreload, hbuild]
          exact ⟨⟨rfl, hbuild, fun _ hrt hfalse => by cases hrt; exact absurd hfalse hsource⟩,
            .inr (.inr (.inl ⟨identity, rfl, rfl⟩))⟩
      | error e =>
          have hreload : rt.reload pki files now = (.error e, { rt with
              lastReloadOk := false, reloadsRefused := rt.reloadsRefused + 1 }) := by
            rw [RotatingIdentity.reload, if_neg hsource, if_neg hseen, hload]
          simp only [hreload]
          refine ⟨⟨h.client.trans hcurrent, ?_, fun _ hrt hfalse => by
            cases hrt; exact absurd hfalse hsource⟩, .inr (.inr (.inr ⟨⟨e, rfl⟩, trivial, ?_⟩))⟩
          · have hbuilds := h.builds
            rw [hcurrent] at hbuilds
            exact hbuilds
          · rw [htoken]
            rfl

/-- After a look, what is presented is what the files hold from then on. -/
theorem Sound.rotated (now : Int) (h : s.Sound pki) (hnotices : s.Notices pki files) :
    (s.rotateCredentials pki files now).2.Notices pki files ∧
      ((s.rotateCredentials pki files now).2.client ≠ none →
        (s.rotateCredentials pki files now).2.ShowsFrom pki files now) := by
  rcases (rotate_cases files now h).2 with ⟨hnone, hs⟩ | ⟨hsome, hseen, hs⟩ |
    ⟨i, hload, hs⟩ | ⟨⟨e, hload⟩, hclient, htoken⟩
  · rw [hs]
    exact ⟨hnotices, fun hclient => absurd hnone hclient⟩
  · rw [hs]
    exact ⟨hnotices, fun _ t i _ => hnotices hsome hseen t i⟩
  · have hshows := shows_of_loaded hload hs
    exact ⟨fun _ _ => hshows, fun _ t i _ => hshows t i⟩
  · refine ⟨fun hsome hseen t i hi => ?_, fun _ t i ht hi => ?_⟩
    · rw [htoken] at hsome hseen
      exact hclient.trans (hnotices hsome hseen t i hi)
    · -- what does not load now has not been valid since
      rw [loadPair_earlier hi ht] at hload
      cases hload

end Shipper

end

end Tributary.Credential
