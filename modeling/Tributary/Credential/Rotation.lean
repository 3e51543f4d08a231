import Tributary.Credential
import Tributary.Lib.Run

/-!
# Token and pair

The pair of files and the token they change with are read one after the other, and the files
can be written between. `reload` reads the token first: what it then reads is the pair of
that token or of a later one, and a later token is noticed by the next look. `load` reads the
pair first.
-/

namespace Tributary.Credential

open Lib

/-! ## The reads of a call -/

namespace RotatingIdentity

/-- `reload` up to the read of the pair: the answer, unless it goes on. -/
def reloadToken (r : RotatingIdentity) (fresh : Option (Nat × Nat)) :
    Option (Except CredentialError Bool) :=
  if r.source = false then some (.ok false)
  else if fresh.isSome = true ∧ r.token = fresh then some (.ok false)
  else .none

/-- `reload` from there on. -/
def reloadPair (r : RotatingIdentity) (fresh : Option (Nat × Nat)) :
    Except CredentialError Identity → Except CredentialError Bool × RotatingIdentity
  | .ok identity =>
      (.ok true, { r with current := some identity, token := fresh, lastReloadOk := true })
  | .error e =>
      (.error e, { r with lastReloadOk := false, reloadsRefused := r.reloadsRefused + 1 })

/-- `load` behind the read of the pair. -/
def loadToken (identity : Identity) (token : Option (Nat × Nat)) : RotatingIdentity :=
  { source := true, current := some identity, token, lastReloadOk := true, reloadsRefused := 0 }

/-- A call that nothing comes between. -/
theorem reload_eq (pki : Pki) (files : Files) (now : Int) (r : RotatingIdentity) :
    r.reload pki files now =
      match r.reloadToken files.changedToken with
      | some answer => (answer, r)
      | .none => r.reloadPair files.changedToken (loadPair pki files now) := by
  unfold reload reloadToken
  by_cases hsource : r.source = false
  · rw [if_pos hsource, if_pos hsource]
  · rw [if_neg hsource, if_neg hsource]
    by_cases hseen : files.changedToken.isSome = true ∧ r.token = files.changedToken
    · rw [if_pos hseen, if_pos hseen]
    · rw [if_neg hseen, if_neg hseen]
      cases loadPair pki files now <;> rfl

theorem load_eq (pki : Pki) (files : Files) (now : Int) :
    load pki files now = (loadPair pki files now).map (loadToken · files.changedToken) := by
  unfold load
  cases loadPair pki files now <;> rfl

end RotatingIdentity

namespace Rotation

/-! ## The source and the calls -/

inductive Stage where
  | starting
  /-- `load` has read the pair, and is to read the token -/
  | loaded (identity : Identity)
  /-- `load` has failed, and the agent does not start -/
  | failed (e : CredentialError)
  | live (r : RotatingIdentity)

/-- The files, what they have been so far, and the calls. -/
structure World where
  files : Files
  /-- what the files have been, with what they are -/
  versions : List Files
  stage : Stage
  /-- the calls of `reload` that have read a token, and are to read the pair -/
  calls : List (Option (Nat × Nat))
  /-- the loads so far, each under the token it was to be seen by -/
  attempts : List (Option (Nat × Nat) × Except CredentialError Identity)

def start (files : Files) : World :=
  { files, versions := [files], stage := .starting, calls := [], attempts := [] }

inductive Event where
  /-- the files are written, as a valid pair or not, and look as they never did -/
  | change (files : Files)
  | loadPair (now : Int)
  | loadToken
  | reloadToken
  /-- this call reads the pair -/
  | reloadPair (k : Nat) (now : Int)

def step (pki : Pki) (w : World) : Event → Option World
  | .change files =>
      if files.changedToken ≠ none ∧ files.changedToken ∈ w.versions.map Files.changedToken
      then none
      else some { w with files, versions := w.versions ++ [files] }
  | .loadPair now =>
      match w.stage with
      | .starting =>
          match Credential.loadPair pki w.files now with
          | .ok identity => some { w with stage := .loaded identity }
          | .error e => some { w with stage := .failed e }
      | _ => none
  | .loadToken =>
      match w.stage with
      | .loaded identity =>
          some { w with
            stage := .live (.loadToken identity w.files.changedToken)
            attempts := [(w.files.changedToken, .ok identity)] }
      | _ => none
  | .reloadToken =>
      match w.stage with
      | .live r =>
          match r.reloadToken w.files.changedToken with
          | some _ => some w
          | none => some { w with calls := w.calls ++ [w.files.changedToken] }
      | _ => none
  | .reloadPair k now =>
      match w.stage, w.calls[k]? with
      | .live r, some fresh =>
          some { w with
            stage := .live (r.reloadPair fresh (Credential.loadPair pki w.files now)).2
            calls := w.calls.eraseIdx k
            attempts := w.attempts ++ [(fresh, Credential.loadPair pki w.files now)] }
      | _, _ => none

/-! ## The law -/

/-- The load failed. -/
def refused (a : Option (Nat × Nat) × Except CredentialError Identity) : Bool :=
  match a.2 with
  | .ok _ => false
  | .error _ => true

/-- What is true of the live identity whatever comes between the reads. -/
structure Kept (pki : Pki) (w : World) (r : RotatingIdentity) : Prop where
  /-- there is a pair, and it did validate -/
  current : ∃ i, r.current = some i ∧ ∃ files ∈ w.versions, ∃ t, loadPair pki files t = .ok i
  /-- the flag is down exactly when the last load failed -/
  alarm : r.lastReloadOk = false ↔ ∃ a, w.attempts.getLast? = some a ∧ refused a = true
  counted : r.reloadsRefused = w.attempts.countP refused
  /-- a token no load under which succeeded is not passed over -/
  retried : (∀ i, (w.files.changedToken, .ok i) ∉ w.attempts) →
    r.reloadToken w.files.changedToken = none

/-- If `reload` finds the token unchanged, the current pair is the one the source holds. -/
def Settled (pki : Pki) (w : World) (r : RotatingIdentity) : Prop :=
  r.reloadToken w.files.changedToken = some (.ok false) →
    ∃ i t, r.current = some i ∧ loadPair pki w.files t = .ok i

variable {pki : Pki} {w w' : World} {e : Event} {r : RotatingIdentity}

/-! ## What a step keeps -/

theorem reloadToken_eq_some (hsource : r.source = true) {fresh : Option (Nat × Nat)}
    {answer : Except CredentialError Bool} (h : r.reloadToken fresh = some answer) :
    fresh ≠ none ∧ r.token = fresh := by
  unfold RotatingIdentity.reloadToken at h
  rw [if_neg (by simp [hsource])] at h
  split at h
  · rename_i hseen
    exact ⟨Option.isSome_iff_ne_none.mp hseen.1, hseen.2⟩
  · cases h

/-- What carries the law: the token is one under which a load succeeded, and one the source
has had. -/
structure Inv (pki : Pki) (w : World) : Prop where
  held : w.files ∈ w.versions
  loaded : ∀ identity, w.stage = .loaded identity →
    ∃ files ∈ w.versions, ∃ t, loadPair pki files t = .ok identity
  calls : ∀ fresh ∈ w.calls, fresh ∈ w.versions.map Files.changedToken
  kept : ∀ r, w.stage = .live r → r.source = true ∧ r.token ∈ w.versions.map Files.changedToken
    ∧ (∃ i, (r.token, .ok i) ∈ w.attempts)
    ∧ (∃ i, r.current = some i ∧ ∃ files ∈ w.versions, ∃ t, loadPair pki files t = .ok i)
    ∧ (r.lastReloadOk = false ↔ ∃ a, w.attempts.getLast? = some a ∧ refused a = true)
    ∧ r.reloadsRefused = w.attempts.countP refused

theorem Inv.start (files : Files) : Inv pki (start files) where
  held := List.mem_singleton_self _
  loaded := nofun
  calls := nofun
  kept := nofun

theorem Inv.step (h : Inv pki w) (hs : Rotation.step pki w e = some w') : Inv pki w' := by
  cases e with
  | change files =>
      simp only [Rotation.step] at hs
      split at hs
      · cases hs
      · cases hs
        have hmem : ∀ {f : Files}, f ∈ w.versions → f ∈ w.versions ++ [files] :=
          fun hf => List.mem_append_left _ hf
        have htoken : ∀ {τ : Option (Nat × Nat)}, τ ∈ w.versions.map Files.changedToken →
            τ ∈ (w.versions ++ [files]).map Files.changedToken := by
          intro τ hτ
          rw [List.map_append]
          exact List.mem_append_left _ hτ
        refine ⟨List.mem_append_right _ (List.mem_singleton_self _), ?_, ?_, ?_⟩
        · intro identity hid
          obtain ⟨f, hf, ht⟩ := h.loaded identity hid
          exact ⟨f, hmem hf, ht⟩
        · exact fun fresh hfresh => htoken (h.calls fresh hfresh)
        · intro r hr
          obtain ⟨hsource, htok, hseen, ⟨i, hi, f, hf, ht⟩, halarm, hcounted⟩ := h.kept r hr
          exact ⟨hsource, htoken htok, hseen, ⟨i, hi, f, hmem hf, ht⟩, halarm, hcounted⟩
  | loadPair now =>
      simp only [Rotation.step] at hs
      split at hs
      · split at hs
        · rename_i identity hload
          cases hs
          refine ⟨h.held, ?_, h.calls, nofun⟩
          rintro _ ⟨⟩
          exact ⟨w.files, h.held, now, hload⟩
        · cases hs
          exact ⟨h.held, nofun, h.calls, nofun⟩
      · cases hs
  | loadToken =>
      simp only [Rotation.step] at hs
      split at hs
      · rename_i identity hstage
        cases hs
        refine ⟨h.held, nofun, h.calls, ?_⟩
        rintro _ ⟨⟩
        refine ⟨rfl, List.mem_map_of_mem h.held, ⟨identity, List.mem_singleton_self _⟩,
          ⟨identity, rfl, h.loaded identity hstage⟩, ?_, rfl⟩
        simp [RotatingIdentity.loadToken, refused]
      · cases hs
  | reloadToken =>
      simp only [Rotation.step] at hs
      split at hs
      · split at hs
        · cases hs
          exact h
        · cases hs
          refine ⟨h.held, h.loaded, ?_, h.kept⟩
          intro fresh hfresh
          rcases List.mem_append.mp hfresh with hfresh | hfresh
          · exact h.calls fresh hfresh
          · rw [List.mem_singleton.mp hfresh]
            exact List.mem_map_of_mem h.held
      · cases hs
  | reloadPair k now =>
      simp only [Rotation.step] at hs
      split at hs
      · rename_i r fresh hstage hcall
        cases hs
        have hfresh := h.calls fresh (List.mem_of_getElem? hcall)
        refine ⟨h.held, nofun, fun f hf => h.calls f (List.mem_of_mem_eraseIdx hf), ?_⟩
        obtain ⟨hsource, htok, ⟨j, hj⟩, hcurrent, halarm, hcounted⟩ := h.kept r hstage
        rintro _ ⟨⟩
        cases hload : loadPair pki w.files now with
        | ok identity =>
            have hlast : (fresh, .ok identity) ∈ w.attempts ++ [(fresh, .ok identity)] :=
              List.mem_append_right _ (List.mem_singleton_self _)
            refine ⟨hsource, hfresh, ⟨identity, hlast⟩,
              ⟨identity, rfl, w.files, h.held, now, hload⟩, ?_, ?_⟩
            · simp [RotatingIdentity.reloadPair, refused]
            · simp [RotatingIdentity.reloadPair, refused, hcounted]
        | error e =>
            refine ⟨hsource, htok, ⟨j, List.mem_append_left _ hj⟩, hcurrent, ?_, ?_⟩
            · simp [RotatingIdentity.reloadPair, refused]
            · simp [RotatingIdentity.reloadPair, refused, hcounted]
      · cases hs

/-- The pair that is presented is the one the source holds, if its token is the source's. -/
def Current (pki : Pki) (w : World) : Prop :=
  ∀ r, w.stage = .live r → w.files.changedToken ≠ none → r.token = w.files.changedToken →
    ∃ i t, r.current = some i ∧ loadPair pki w.files t = .ok i

theorem Current.settled (h : Current pki w) (hinv : Inv pki w) (hr : w.stage = .live r) :
    Settled pki w r := by
  intro hanswer
  obtain ⟨hsome, hsame⟩ := reloadToken_eq_some (hinv.kept r hr).1 hanswer
  exact h r hr hsome hsame

/-- **A live identity that is current stays so**, whatever comes between the reads. -/
theorem Current.step (h : Current pki w) (hinv : Inv pki w) (hlive : ∃ r, w.stage = .live r)
    (hs : Rotation.step pki w e = some w') : Current pki w' ∧ ∃ r, w'.stage = .live r := by
  obtain ⟨r, hr⟩ := hlive
  cases e with
  | change files =>
      simp only [Rotation.step] at hs
      split at hs
      · cases hs
      · rename_i hnew
        cases hs
        refine ⟨fun r' hr' hsome hsame => ?_, r, hr⟩
        -- the token is not one the source ever had
        have htok := (hinv.kept r' hr').2.1
        rw [hsame] at htok
        exact absurd ⟨hsome, htok⟩ hnew
  | loadPair now =>
      simp only [Rotation.step, hr] at hs
      cases hs
  | loadToken =>
      simp only [Rotation.step, hr] at hs
      cases hs
  | reloadToken =>
      simp only [Rotation.step, hr] at hs
      split at hs
      · cases hs
        exact ⟨h, r, hr⟩
      · cases hs
        exact ⟨fun r' hr' => h r' (hr.trans hr'), r, rfl⟩
  | reloadPair k now =>
      simp only [Rotation.step, hr] at hs
      split at hs
      · rename_i r' fresh hstage hcall
        cases hstage
        cases hs
        refine ⟨?_, _, rfl⟩
        rintro _ ⟨⟩ hsome hsame
        cases hload : loadPair pki w.files now with
        | ok identity => exact ⟨identity, now, rfl, hload⟩
        | error e =>
            rw [hload] at hsame
            exact h r hr hsome hsame
      · cases hs

/-! ## Runs -/

theorem Inv.run {es : List Event} (h : Inv pki w)
    (hr : Lib.run (Rotation.step pki) w es = some w') : Inv pki w' :=
  run_preserves (fun _ _ _ h hs => h.step hs) h hr

theorem Current.run {es : List Event} (h : Current pki w) (hinv : Inv pki w)
    (hlive : ∃ r, w.stage = .live r) (hr : Lib.run (Rotation.step pki) w es = some w') :
    Current pki w' := by
  induction es generalizing w with
  | nil =>
      cases Option.some.inj hr
      exact h
  | cons e es ih =>
      obtain ⟨u, hu, hrest⟩ := run_cons.mp hr
      obtain ⟨hcur, hlive'⟩ := h.step hinv hlive hu
      exact ih hcur (hinv.step hu) hlive' hrest

def named (name : Char) : Identity :=
  { pem := [name, '\n', 'k'], notAfterEpoch := 3600, commonName := some [name] }

end Rotation

end Tributary.Credential
