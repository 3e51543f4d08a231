import Mathlib.Logic.Function.Basic
import Tributary.Config.Hup
import Tributary.Credential
import Tributary.Lib.Poll
import Tributary.Lib.Run

/-!
# Renewing the client certificate

Each call of `build_shipper` makes an identity of its own, and the clones of a shipper share
theirs. Of the loops that send, only those of the tails look at the files: a renewal comes to
a shipper by a tail that holds a clone of it, or not at all.
-/

namespace Tributary.Credential

open Lib

/-! ## The loops that ship -/

inductive Role where
  | tail
  | otlp
  | metrics
  | journald
  | winlog
deriving DecidableEq, Repr

/-- The calls of `build_shipper`. -/
inductive Owner where
  | agent
  | otlp
  | metrics
deriving DecidableEq, Repr

/-- The loop of a pipeline; times are in milliseconds. -/
structure Loop where
  role : Role
  /-- whose shipper it sends with -/
  owner : Owner
  /-- `refresh_secs` -/
  refresh : Nat
  poll : Poll
  /-- not shutting down yet -/
  looping : Bool
deriving DecidableEq, Repr

namespace Loop

def enter (role : Role) (owner : Owner) (refresh now : Nat) : Loop :=
  { role, owner, refresh, poll := .enter now, looping := true }

/-- How long a pass of the loop has been at most. -/
def worst (l : Loop) (now : Nat) : Nat := if l.looping then l.poll.worst now else l.poll.longest

end Loop

/-- `refresh_secs`, or no end without `[output.tls]`. -/
def refreshOf (f : Config.File) : Nat :=
  1000 * f.output.tls.elim (2 ^ 64 - 1) Config.Tls.refreshSecs

/-- The sources of the file are tailed. -/
def tailing (f : Config.File) : Bool :=
  match f.sources with
  | [] => false
  | first :: _ => !first.pulls

/-- The loops a pipeline starts with. A glob has a tail for each file it finds, which is
entered when it is found; a source that is not tailed is pulled. -/
def loopsOf (f : Config.File) (now : Nat) : Config.Pipeline → List Loop
  | .metrics _ => [.enter .metrics .metrics (refreshOf f) now]
  | .otlp _ => [.enter .otlp (if f.sources = [] then .agent else .otlp) (refreshOf f) now]
  | .source t =>
      if tailing f then
        if Glob.isGlob t.path then [] else [.enter .tail .agent (refreshOf f) now]
      else if t.parser = .journald then [.enter .journald .agent (refreshOf f) now]
      else [.enter .winlog .agent (refreshOf f) now]
  | _ => []

/-! ## The agent -/

/-- A request as it is sent. -/
structure Sent where
  role : Role
  presented : Option Identity
  /-- the pair it should present by now -/
  due : Option Identity
deriving DecidableEq, Repr

structure World where
  /-- milliseconds since the epoch -/
  now : Nat
  files : Files
  /-- when they were written last, if they were since the start -/
  renewed : Option Nat
  shippers : Owner → Shipper
  /-- tails can be added -/
  tailing : Bool
  loops : List Loop
  sent : List Sent

/-- `epoch_now`. -/
def epoch (now : Nat) : Int := (now / 1000 : Nat)

/-- The agent as it has started; each shipper is built from the same files. -/
def start (pki : Pki) (f : Config.File) (files : Files) (now : Nat) : Except RotateError World := do
  let shipper ← buildShipper pki f.output.tls files (epoch now)
  .ok { now, files, renewed := none, shippers := fun _ => shipper, tailing := tailing f
        loops := f.attempts.flatMap fun a => loopsOf f now a.pipeline, sent := [] }

inductive Event where
  /-- the files are written, as a valid pair or not -/
  | renew (files : Files)
  /-- a tail is entered: of a source that a reload added, or of a file that a glob found -/
  | enter (refresh : Nat)
  /-- a loop comes round -/
  | pass (i : Nat)
  /-- a loop sends a request; an answer can make it shed its connections -/
  | send (i : Nat) (sheds : Bool)
  /-- a loop is left -/
  | leave (i : Nat)

namespace World

/-- The pair on disk is valid, and has been for longer than the period and a pass. -/
def due (pki : Pki) (w : World) (l : Loop) (now : Nat) : Option Identity :=
  match w.renewed with
  | none => none
  | some r =>
      if r + l.refresh + l.worst now < now ∧ (w.shippers l.owner).client ≠ none then
        (loadPair pki w.files (epoch now)).toOption
      else none

/-- The certificate check of `run_file_source`. -/
def look (pki : Pki) (w : World) (i : Nat) (l : Loop) (now : Nat) : World :=
  { w with
    now
    loops := w.loops.set i { l with poll := l.poll.look l.refresh now }
    shippers :=
      if l.poll.Due l.refresh now then
        Function.update w.shippers l.owner
          ((w.shippers l.owner).rotateCredentials pki w.files (epoch now)).2
      else w.shippers }

/-- The pass of a loop; no loop but a tail's looks at the files. -/
def pass (pki : Pki) (w : World) (i : Nat) (l : Loop) (now : Nat) : World :=
  if l.role = .tail then w.look pki i l now
  else { w with now, loops := w.loops.set i { l with poll := l.poll.pass now } }

def send (pki : Pki) (w : World) (l : Loop) (sheds : Bool) (now : Nat) : World :=
  let shipper := w.shippers l.owner
  { w with
    now
    sent := w.sent ++ [{ role := l.role, presented := shipper.client, due := w.due pki l now }]
    shippers :=
      if sheds then Function.update w.shippers l.owner (shipper.rebuildTransport pki)
      else w.shippers }

def leave (w : World) (i : Nat) (l : Loop) (now : Nat) : World :=
  { w with now, loops := w.loops.set i { l with poll := l.poll.leave now, looping := false } }

end World

/-- One event, at its time; no two are at the same time. -/
def step (pki : Pki) (w : World) (e : Nat × Event) : Option World :=
  if e.1 ≤ w.now then none
  else
    match e.2 with
    | .renew files => some { w with now := e.1, files, renewed := some e.1 }
    | .enter refresh =>
        if w.tailing then
          some { w with now := e.1, loops := w.loops ++ [.enter .tail .agent refresh e.1] }
        else none
    | .pass i =>
        (w.loops[i]?).bind fun l => if l.looping then some (w.pass pki i l e.1) else none
    | .send i sheds => (w.loops[i]?).map fun l => w.send pki l sheds e.1
    | .leave i => (w.loops[i]?).bind fun l => if l.looping then some (w.leave i l e.1) else none

/-! ## What is promised, and when it is kept -/

/-- Every request presented the pair that was due. -/
def World.Fresh (w : World) : Prop := ∀ x ∈ w.sent, ∀ i ∈ x.due, x.presented = some i

/-- A pair that is written is told from that adopted last by its times of change, or is
that. -/
def World.Tells (pki : Pki) (w : World) (e : Nat × Event) : Prop :=
  match e.2 with
  | .renew files => ∀ o, (w.shippers o).Notices pki files
  | _ => True

/-- A pair that is written is not presented yet. -/
def World.Renews (pki : Pki) (w : World) (e : Nat × Event) : Prop :=
  match e.2 with
  | .renew files => ∀ o t i, loadPair pki files t = .ok i → (w.shippers o).client ≠ some i
  | _ => True

/-- A loop that sends while a pair is due is that of a tail which was in it when the pair was
written, or holds a clone of the shipper of a tail which has looked since. -/
def World.Watched (pki : Pki) (w : World) (e : Nat × Event) : Prop :=
  match e.2 with
  | .send i _ => ∀ l, w.loops[i]? = some l → w.due pki l e.1 ≠ none → ∀ r ∈ w.renewed,
      (l.role = .tail ∧ l.looping = true ∧ l.poll.entered ≤ r) ∨
        ∃ l' ∈ w.loops, l'.role = .tail ∧ l'.owner = l.owner ∧ l'.poll.LookedAfter r
  | _ => True

section

variable {pki : Pki} {w w' : World} {l l' : Loop} {e : Nat × Event} {files : Files} {t : Nat}

/-! ## What the times of a loop are worth -/

theorem epoch_mono {a b : Nat} (h : a ≤ b) : epoch a ≤ epoch b := by
  rw [epoch, epoch]
  omega

/-- What always holds of the agent. -/
structure World.Wf (pki : Pki) (w : World) : Prop where
  sound : ∀ o, (w.shippers o).Sound pki
  renewed : ∀ r ∈ w.renewed, r ≤ w.now
  came : ∀ l ∈ w.loops, l.poll.came ≤ w.now
  kept : ∀ l ∈ w.loops, l.role = .tail → l.poll.Kept l.refresh

/-- A tail that has looked since the files were written: what its shipper presents is what
they hold from then on. -/
structure World.Adopts (pki : Pki) (w : World) : Prop where
  tells : ∀ o, (w.shippers o).Notices pki w.files
  adopted : ∀ r ∈ w.renewed, ∀ l ∈ w.loops, l.role = .tail → l.poll.LookedAfter r →
    (w.shippers l.owner).client ≠ none → (w.shippers l.owner).ShowsFrom pki w.files (epoch w.now)

/-- No tail with the shipper has looked since the files were written. -/
def World.Unseen (w : World) (o : Owner) : Prop :=
  ∃ r ∈ w.renewed, ∀ l ∈ w.loops, l.role = .tail → l.owner = o → ¬ l.poll.LookedAfter r

/-- A pair that is unseen is not presented. -/
def World.Waits (pki : Pki) (w : World) : Prop :=
  ∀ o, w.Unseen o → ∀ t i, loadPair pki w.files t = .ok i → (w.shippers o).client ≠ some i

/-- The tails hold the shipper of the agent, and no other loop does beside them. -/
structure World.Apart (w : World) : Prop where
  tails : ∀ l ∈ w.loops, l.role = .tail → l.owner = .agent ∧ w.tailing = true
  others : ∀ l ∈ w.loops, l.role ≠ .tail → l.owner = .agent → w.tailing = false

/-- The loop looks at the files no more than the other has. -/
def Loop.Follows (l' l : Loop) : Prop :=
  l'.role = l.role ∧ l'.owner = l.owner ∧ l'.poll.entered = l.poll.entered
    ∧ l'.poll.looked = l.poll.looked

theorem Loop.Follows.refl (l : Loop) : l.Follows l := ⟨rfl, rfl, rfl, rfl⟩

theorem Loop.Follows.lookedAfter (h : l'.Follows l) {r : Nat} :
    l'.poll.LookedAfter r ↔ l.poll.LookedAfter r := by
  rw [Poll.LookedAfter, Poll.LookedAfter, h.2.2.1, h.2.2.2]

/-- A step after which the same shippers present the same: each loop follows one there was,
or was entered. -/
structure Keeps (w w' : World) : Prop where
  now : w.now < w'.now
  files : w'.files = w.files
  renewed : w'.renewed = w.renewed
  shippers : w'.shippers = w.shippers
  came : ∀ l' ∈ w'.loops, l'.poll.came ≤ w'.now
  kept : ∀ l' ∈ w'.loops, l'.role = .tail → l'.poll.Kept l'.refresh
  tailing : w'.tailing = w.tailing
  follows : ∀ l' ∈ w'.loops, (∃ l ∈ w.loops, l'.Follows l) ∨
    (l'.poll.entered = l'.poll.looked ∧ l'.role = .tail ∧ l'.owner = .agent ∧ w.tailing = true)
  followed : ∀ l ∈ w.loops, ∃ l' ∈ w'.loops, l'.Follows l

theorem Keeps.wf (h : Keeps w w') (hw : w.Wf pki) : w'.Wf pki where
  sound := by rw [h.shippers]; exact hw.sound
  renewed r hr := Nat.le_trans (hw.renewed r (h.renewed ▸ hr)) (Nat.le_of_lt h.now)
  came := h.came
  kept := h.kept

theorem Keeps.adopts (h : Keeps w w') (hw : w.Adopts pki) : w'.Adopts pki where
  tells o := by rw [h.shippers, h.files]; exact hw.tells o
  adopted r hr l' hl' htail hlooked hclient t i ht hi := by
    rw [h.renewed] at hr
    rw [h.files] at hi
    rw [h.shippers] at hclient ⊢
    rcases h.follows l' hl' with ⟨l, hl, hfollows⟩ | ⟨hentered, -⟩
    · rw [hfollows.2.1] at hclient ⊢
      exact hw.adopted r hr l hl (hfollows.1 ▸ htail) (hfollows.lookedAfter.mp hlooked) hclient t i
        (Int.le_trans (epoch_mono (Nat.le_of_lt h.now)) ht) hi
    · exact absurd hlooked.2 (by rw [hentered]; exact Nat.lt_irrefl _)

theorem Keeps.apart (h : Keeps w w') (hw : w.Apart) : w'.Apart where
  tails l' hl' htail := by
    rw [h.tailing]
    rcases h.follows l' hl' with ⟨l, hl, hfollows⟩ | ⟨-, -, howner, htailing⟩
    · rw [hfollows.2.1]
      exact hw.tails l hl (hfollows.1 ▸ htail)
    · exact ⟨howner, htailing⟩
  others l' hl' hother howner := by
    rw [h.tailing]
    rcases h.follows l' hl' with ⟨l, hl, hfollows⟩ | ⟨-, htail, -⟩
    · exact hw.others l hl (hfollows.1 ▸ hother) (hfollows.2.1 ▸ howner)
    · exact absurd htail hother

theorem Keeps.waits (h : Keeps w w') (hw : w.Waits pki) : w'.Waits pki := by
  rintro o ⟨r, hr, hunseen⟩ t i hi
  rw [h.files] at hi
  rw [h.shippers]
  refine hw o ⟨r, h.renewed ▸ hr, fun l hl htail howner hlooked => ?_⟩ t i hi
  obtain ⟨l', hl', hfollows⟩ := h.followed l hl
  exact hunseen l' hl' (hfollows.1.trans htail) (hfollows.2.1.trans howner)
    (hfollows.lookedAfter.mpr hlooked)

/-! ## What a step does -/

theorem keeps_set {i : Nat} {l₁ : Loop} (hw : w.Wf pki) (ht : w.now < t) (hi : w.loops[i]? = some l)
    (hfollows : l₁.Follows l) (hcame : l₁.poll.came ≤ t)
    (hkept : l₁.role = .tail → l₁.poll.Kept l₁.refresh) :
    Keeps w { w with now := t, loops := w.loops.set i l₁ } where
  now := ht
  files := rfl
  renewed := rfl
  shippers := rfl
  came l' hl' := by
    rcases List.mem_or_eq_of_mem_set hl' with hl' | rfl
    · exact Nat.le_trans (hw.came l' hl') (Nat.le_of_lt ht)
    · exact hcame
  kept l' hl' := by
    rcases List.mem_or_eq_of_mem_set hl' with hl' | rfl
    · exact hw.kept l' hl'
    · exact hkept
  tailing := rfl
  follows l' hl' := by
    rcases List.mem_or_eq_of_mem_set hl' with hl' | rfl
    · exact .inl ⟨l', hl', .refl l'⟩
    · exact .inl ⟨l, List.mem_of_getElem? hi, hfollows⟩
  followed l₀ hl₀ := by
    obtain ⟨j, hj⟩ := List.mem_iff_getElem?.mp hl₀
    by_cases hij : i = j
    · subst hij
      obtain rfl := Option.some.inj (hi.symm.trans hj)
      exact ⟨l₁, List.mem_set (List.getElem?_eq_some_iff.mp hi).1 _, hfollows⟩
    · exact ⟨l₀, List.mem_of_getElem? ((List.getElem?_set_ne hij).trans hj), .refl l₀⟩

theorem keeps_enter {refresh : Nat} (hw : w.Wf pki) (ht : w.now < t) (htailing : w.tailing = true) :
    Keeps w { w with now := t, loops := w.loops ++ [.enter .tail .agent refresh t] } where
  now := ht
  files := rfl
  renewed := rfl
  shippers := rfl
  came l' hl' := by
    rcases List.mem_append.mp hl' with hl' | hl'
    · exact Nat.le_trans (hw.came l' hl') (Nat.le_of_lt ht)
    · rw [List.mem_singleton.mp hl']
      exact Nat.le_refl _
  kept l' hl' := by
    rcases List.mem_append.mp hl' with hl' | hl'
    · exact hw.kept l' hl'
    · rw [List.mem_singleton.mp hl']
      exact fun _ => Poll.kept_enter _ _
  tailing := rfl
  follows l' hl' := by
    rcases List.mem_append.mp hl' with hl' | hl'
    · exact .inl ⟨l', hl', .refl l'⟩
    · rw [List.mem_singleton.mp hl']
      exact .inr ⟨rfl, rfl, rfl, htailing⟩
  followed l₀ hl₀ := ⟨l₀, List.mem_append_left _ hl₀, .refl l₀⟩

/-- A request leaves everything but the record of it as it was. -/
theorem keeps_send {sheds : Bool} (hw : w.Wf pki) (ht : w.now < t) :
    Keeps w (w.send pki l sheds t) where
  now := ht
  files := rfl
  renewed := rfl
  shippers := by
    cases sheds with
    | false => rfl
    | true =>
        rw [World.send, (hw.sound l.owner).rebuildTransport]
        exact Function.update_eq_self _ _
  came l' hl' := Nat.le_trans (hw.came l' hl') (Nat.le_of_lt ht)
  kept := hw.kept
  tailing := rfl
  follows l' hl' := .inl ⟨l', hl', .refl l'⟩
  followed l₀ hl₀ := ⟨l₀, hl₀, .refl l₀⟩

/-- A step writes the files, keeps things as they are, sends a request, or is the look of a
tail that is due. -/
theorem step_cases (hw : w.Wf pki) (hs : step pki w e = some w') :
    w.now < e.1 ∧
      ((∃ files, e.2 = .renew files ∧ w' = { w with now := e.1, files, renewed := some e.1 })
      ∨ ((∀ i sheds, e.2 ≠ .send i sheds) ∧ Keeps w w' ∧ w'.sent = w.sent)
      ∨ (∃ i l sheds, e.2 = .send i sheds ∧ w.loops[i]? = some l ∧ w' = w.send pki l sheds e.1)
      ∨ ∃ i l, e.2 = .pass i ∧ w.loops[i]? = some l ∧ l.role = .tail
        ∧ l.poll.Due l.refresh e.1 ∧ w' = w.look pki i l e.1) := by
  rw [step] at hs
  split at hs
  · cases hs
  rename_i ht
  rw [Nat.not_le] at ht
  refine ⟨ht, ?_⟩
  cases he : e.2 with
  | renew files =>
      rw [he] at hs
      exact .inl ⟨files, rfl, (Option.some.inj hs).symm⟩
  | enter refresh =>
      rw [he] at hs
      dsimp only at hs
      split at hs <;> cases hs
      rename_i htailing
      exact .inr (.inl ⟨nofun, keeps_enter hw ht htailing, rfl⟩)
  | pass i =>
      rw [he] at hs
      obtain ⟨l, hi, hs⟩ := Option.bind_eq_some_iff.mp hs
      split at hs <;> cases hs
      have hl := List.mem_of_getElem? hi
      rw [World.pass]
      split
      · rename_i htail
        by_cases hdue : l.poll.Due l.refresh e.1
        · exact .inr (.inr (.inr ⟨i, l, rfl, hi, htail, hdue, rfl⟩))
        · have hlook : w.look pki i l e.1 = { w with
              now := e.1, loops := w.loops.set i { l with poll := l.poll.pass e.1 } } := by
            rw [World.look, if_neg hdue, Poll.look, if_neg hdue]
          have hkept := (hw.kept l hl htail).look (Nat.le_trans (hw.came l hl) (Nat.le_of_lt ht))
          rw [Poll.look, if_neg hdue] at hkept
          rw [hlook]
          exact .inr (.inl ⟨nofun,
            keeps_set hw ht hi ⟨rfl, rfl, rfl, rfl⟩ (Nat.le_refl _) fun _ => hkept, rfl⟩)
      · rename_i hother
        exact .inr (.inl ⟨nofun, keeps_set hw ht hi ⟨rfl, rfl, rfl, rfl⟩ (Nat.le_refl _)
          fun htail => absurd htail hother, rfl⟩)
  | send i sheds =>
      rw [he] at hs
      obtain ⟨l, hi, hs⟩ := Option.map_eq_some_iff.mp hs
      exact .inr (.inr (.inl ⟨i, l, sheds, rfl, hi, hs.symm⟩))
  | leave i =>
      rw [he] at hs
      obtain ⟨l, hi, hs⟩ := Option.bind_eq_some_iff.mp hs
      split at hs <;> cases hs
      have hl := List.mem_of_getElem? hi
      exact .inr (.inl ⟨nofun, keeps_set hw ht hi ⟨rfl, rfl, rfl, rfl⟩
        (Nat.le_trans (hw.came l hl) (Nat.le_of_lt ht))
        fun htail => ⟨(hw.kept l hl htail).entered, (hw.kept l hl htail).looked,
          (hw.kept l hl htail).due⟩, rfl⟩)

/-! ## The files are written -/

theorem World.Wf.renew (hw : w.Wf pki) (ht : w.now < t) :
    World.Wf pki { w with now := t, files, renewed := some t } where
  sound := hw.sound
  renewed _ hr := Nat.le_of_eq (Option.some.inj hr).symm
  came l hl := Nat.le_trans (hw.came l hl) (Nat.le_of_lt ht)
  kept := hw.kept

/-- No tail has looked since. -/
theorem World.Adopts.renew (hw : w.Wf pki) (ht : w.now < t)
    (htells : ∀ o, (w.shippers o).Notices pki files) :
    World.Adopts pki { w with now := t, files, renewed := some t } where
  tells := htells
  adopted _ hr l hl htail hlooked := by
    obtain rfl := Option.some.inj hr
    have hcame := Nat.le_trans (hw.kept l hl htail).looked (hw.came l hl)
    exact absurd hlooked.1 (Nat.not_lt.mpr (Nat.le_trans hcame (Nat.le_of_lt ht)))

/-! ## A tail looks at the files -/

theorem look_shippers (hdue : l.poll.Due l.refresh t) (i : Nat) (o : Owner) :
    (w.look pki i l t).shippers o = if o = l.owner
      then ((w.shippers l.owner).rotateCredentials pki w.files (epoch t)).2 else w.shippers o := by
  rw [World.look, if_pos hdue]
  exact Function.update_apply ..

theorem look_looked (hdue : l.poll.Due l.refresh t) : (l.poll.look l.refresh t).looked = t := by
  rw [Poll.look, if_pos hdue]

theorem World.Wf.look {i : Nat} (hw : w.Wf pki) (ht : w.now < t) (hl : l ∈ w.loops)
    (htail : l.role = .tail) (hdue : l.poll.Due l.refresh t) : (w.look pki i l t).Wf pki where
  sound o := by
    rw [look_shippers hdue]
    split
    · exact (Shipper.rotate_cases w.files (epoch t) (hw.sound l.owner)).1
    · exact hw.sound o
  renewed r hr := Nat.le_trans (hw.renewed r hr) (Nat.le_of_lt ht)
  came l' hl' := by
    rcases List.mem_or_eq_of_mem_set hl' with hl' | rfl
    · exact Nat.le_trans (hw.came l' hl') (Nat.le_of_lt ht)
    · exact Nat.le_of_eq (Poll.look_came ..)
  kept l' hl' htail' := by
    rcases List.mem_or_eq_of_mem_set hl' with hl' | rfl
    · exact hw.kept l' hl' htail'
    · exact (hw.kept l hl htail).look (Nat.le_trans (hw.came l hl) (Nat.le_of_lt ht))

theorem World.Adopts.look {i : Nat} (h : w.Adopts pki) (hw : w.Wf pki) (ht : w.now < t)
    (hdue : l.poll.Due l.refresh t) : (w.look pki i l t).Adopts pki := by
  obtain ⟨htells, hshows⟩ := (hw.sound l.owner).rotated (epoch t) (h.tells l.owner)
  constructor
  case tells =>
    intro o
    rw [look_shippers hdue]
    split
    · exact htells
    · exact h.tells o
  case adopted =>
    intro r hr l' hl' htail hlooked
    rw [look_shippers hdue]
    split
    · exact hshows
    · rename_i howner
      intro hclient t' j ht' hj
      rcases List.mem_or_eq_of_mem_set hl' with hl' | rfl
      · exact h.adopted r hr l' hl' htail hlooked hclient t' j
          (Int.le_trans (epoch_mono (Nat.le_of_lt ht)) ht') hj
      · exact absurd rfl howner

/-- A look of a tail is one for all that hold its shipper. -/
theorem World.Waits.look {i : Nat} (h : w.Waits pki) (hw : w.Wf pki) (ht : w.now < t)
    (hi : w.loops[i]? = some l) (htail : l.role = .tail) (hdue : l.poll.Due l.refresh t) :
    (w.look pki i l t).Waits pki := by
  rintro o ⟨r, hr, hunseen⟩ t' j hj
  have hl := List.mem_of_getElem? hi
  have howner : o ≠ l.owner := by
    rintro rfl
    have hlooked : (l.poll.look l.refresh t).LookedAfter r := by
      have hentered : (l.poll.look l.refresh t).entered = l.poll.entered := by
        rw [Poll.look, if_pos hdue]
        rfl
      have hkept := hw.kept l hl htail
      have hcame := hw.came l hl
      rw [Poll.LookedAfter, look_looked hdue, hentered]
      exact ⟨Nat.lt_of_le_of_lt (hw.renewed r hr) ht, Nat.lt_of_le_of_lt
        (Nat.le_trans hkept.entered (Nat.le_trans hkept.looked hcame)) ht⟩
    exact hunseen _ (List.mem_set (List.getElem?_eq_some_iff.mp hi).1 _) htail rfl hlooked
  rw [look_shippers hdue, if_neg howner]
  refine h o ⟨r, hr, fun l₀ hl₀ htail₀ howner₀ => ?_⟩ t' j hj
  obtain ⟨k, hk⟩ := List.mem_iff_getElem?.mp hl₀
  have hik : i ≠ k := by
    rintro rfl
    obtain rfl := Option.some.inj (hi.symm.trans hk)
    exact howner howner₀.symm
  exact hunseen l₀ (List.mem_of_getElem? ((List.getElem?_set_ne hik).trans hk)) htail₀ howner₀

theorem World.Apart.look {i : Nat} (h : w.Apart) (hl : l ∈ w.loops) : (w.look pki i l t).Apart where
  tails l' hl' := by
    rcases List.mem_or_eq_of_mem_set hl' with hl' | rfl
    · exact h.tails l' hl'
    · exact h.tails l hl
  others l' hl' := by
    rcases List.mem_or_eq_of_mem_set hl' with hl' | rfl
    · exact h.others l' hl'
    · exact h.others l hl

/-! ## A request -/

/-- What is due has been on disk for longer than a period and a pass of the loop. -/
theorem due_eq_some {i : Identity} (h : w.due pki l t = some i) :
    (∃ r, w.renewed = some r ∧ r + l.refresh + l.worst t < t)
      ∧ (w.shippers l.owner).client ≠ none ∧ loadPair pki w.files (epoch t) = .ok i := by
  rw [World.due] at h
  split at h
  · cases h
  · rename_i r hr
    split at h
    · rename_i hlate
      refine ⟨⟨r, hr, hlate.1⟩, hlate.2, ?_⟩
      cases hload : loadPair pki w.files (epoch t) with
      | error e =>
          rw [hload] at h
          cases h
      | ok j =>
          rw [hload] at h
          exact congrArg Except.ok (Option.some.inj h)
    · cases h

/-- **A request that is watched** presents the pair that is due. -/
theorem presented_of_watched {i : Identity} {r : Nat} (h : w.Adopts pki) (hw : w.Wf pki)
    (ht : w.now < t) (hl : l ∈ w.loops) (hr : w.renewed = some r) (hdue : w.due pki l t = some i)
    (hwatched : (l.role = .tail ∧ l.looping = true ∧ l.poll.entered ≤ r) ∨
      ∃ l' ∈ w.loops, l'.role = .tail ∧ l'.owner = l.owner ∧ l'.poll.LookedAfter r) :
    (w.shippers l.owner).client = some i := by
  obtain ⟨⟨r', hr', hlate⟩, hclient, hload⟩ := due_eq_some hdue
  obtain rfl := Option.some.inj (hr.symm.trans hr')
  have hsoon : epoch w.now ≤ epoch t := epoch_mono (Nat.le_of_lt ht)
  rcases hwatched with ⟨htail, hlooping, hentered⟩ | ⟨l', hl', htail, howner, hlooked⟩
  · -- its own looks come within the bound
    rw [Loop.worst, if_pos hlooping] at hlate
    have hlooked := (hw.kept l hl htail).lookedAfter hentered hlate
    exact h.adopted r hr l hl htail hlooked hclient _ i hsoon hload
  · rw [← howner] at hclient ⊢
    exact h.adopted r hr l' hl' htail hlooked hclient _ i hsoon hload

/-- **A request that is not** presents another. -/
theorem watched_of_presented {i : Identity} {r : Nat} (h : w.Waits pki) (hr : w.renewed = some r)
    (hdue : w.due pki l t = some i) (hpresented : (w.shippers l.owner).client = some i) :
    ∃ l' ∈ w.loops, l'.role = .tail ∧ l'.owner = l.owner ∧ l'.poll.LookedAfter r := by
  by_contra hnone
  have hunseen : w.Unseen l.owner :=
    ⟨r, hr, fun l' hl' htail howner hlooked => hnone ⟨l', hl', htail, howner, hlooked⟩⟩
  exact h l.owner hunseen _ i (due_eq_some hdue).2.2 hpresented

/-! ## A run -/

theorem World.Wf.step (hw : w.Wf pki) (hs : step pki w e = some w') : w'.Wf pki := by
  obtain ⟨ht, ⟨files, -, rfl⟩ | ⟨-, hkeeps, -⟩ | ⟨i, l, sheds, -, hi, rfl⟩ |
    ⟨i, l, -, hi, htail, hdue, rfl⟩⟩ := step_cases hw hs
  · exact hw.renew ht
  · exact hkeeps.wf hw
  · exact (keeps_send hw ht).wf hw
  · exact hw.look ht (List.mem_of_getElem? hi) htail hdue

theorem World.Adopts.step (h : w.Adopts pki) (hw : w.Wf pki) (htells : w.Tells pki e)
    (hs : step pki w e = some w') : w'.Adopts pki := by
  obtain ⟨ht, ⟨files, he, rfl⟩ | ⟨-, hkeeps, -⟩ | ⟨i, l, sheds, -, hi, rfl⟩ |
    ⟨i, l, -, -, -, hdue, rfl⟩⟩ := step_cases hw hs
  · rw [World.Tells, he] at htells
    exact .renew hw ht htells
  · exact hkeeps.adopts h
  · exact (keeps_send hw ht).adopts h
  · exact h.look hw ht hdue

theorem World.Waits.step (h : w.Waits pki) (hw : w.Wf pki) (hrenews : w.Renews pki e)
    (hs : step pki w e = some w') : w'.Waits pki := by
  obtain ⟨ht, ⟨files, he, rfl⟩ | ⟨-, hkeeps, -⟩ | ⟨i, l, sheds, -, hi, rfl⟩ |
    ⟨i, l, -, hi, htail, hdue, rfl⟩⟩ := step_cases hw hs
  · rw [World.Renews, he] at hrenews
    exact fun o _ => hrenews o
  · exact hkeeps.waits h
  · exact (keeps_send hw ht).waits h
  · exact h.look hw ht hi htail hdue

theorem World.Apart.step (h : w.Apart) (hw : w.Wf pki) (hs : step pki w e = some w') :
    w'.Apart := by
  obtain ⟨ht, ⟨files, -, rfl⟩ | ⟨-, hkeeps, -⟩ | ⟨i, l, sheds, -, hi, rfl⟩ |
    ⟨i, l, -, hi, -, -, rfl⟩⟩ := step_cases hw hs
  · exact ⟨h.tails, h.others⟩
  · exact hkeeps.apart h
  · exact (keeps_send hw ht).apart h
  · exact h.look (List.mem_of_getElem? hi)

/-- What a step adds to the requests, if it is one. -/
theorem sent_step (hw : w.Wf pki) (hs : step pki w e = some w') :
    (∀ i sheds, e.2 ≠ .send i sheds) ∧ w'.sent = w.sent
      ∨ ∃ i l sheds, e.2 = .send i sheds ∧ w.loops[i]? = some l ∧ w'.sent = w.sent ++
        [{ role := l.role, presented := (w.shippers l.owner).client, due := w.due pki l e.1 }] := by
  obtain ⟨-, ⟨files, he, rfl⟩ | ⟨hno, -, hsent⟩ | ⟨i, l, sheds, he, hi, rfl⟩ |
    ⟨i, l, he, -, -, -, rfl⟩⟩ := step_cases hw hs
  · exact .inl ⟨fun i sheds hsend => by simp [he] at hsend, rfl⟩
  · exact .inl ⟨hno, hsent⟩
  · exact .inr ⟨i, l, sheds, he, hi, rfl⟩
  · exact .inl ⟨fun i sheds hsend => by simp [he] at hsend, rfl⟩

/-- Watched requests are fresh. -/
theorem World.Fresh.step (h : w.Fresh) (hw : w.Wf pki) (hadopts : w.Adopts pki)
    (hwatched : w.Watched pki e) (hs : step pki w e = some w') : w'.Fresh := by
  rcases sent_step hw hs with ⟨-, hsent⟩ | ⟨i, l, sheds, he, hi, hsent⟩
  · rw [World.Fresh, hsent]
    exact h
  · intro x hx j hj
    rw [hsent] at hx
    rcases List.mem_append.mp hx with hx | hx
    · exact h x hx j hj
    · rw [List.mem_singleton.mp hx] at hj ⊢
      have hdue : w.due pki l e.1 = some j := hj
      obtain ⟨⟨r, hr, -⟩, -⟩ := due_eq_some hdue
      rw [World.Watched, he] at hwatched
      exact presented_of_watched hadopts hw (step_cases hw hs).1 (List.mem_of_getElem? hi) hr hdue
        (hwatched l hi (by rw [hdue]; exact Option.some_ne_none _) r hr)

/-- Fresh requests have been watched. -/
theorem World.Fresh.watched (h : w'.Fresh) (hw : w.Wf pki) (hwaits : w.Waits pki)
    (hs : Credential.step pki w e = some w') : w.Watched pki e := by
  rcases sent_step hw hs with ⟨hno, -⟩ | ⟨i, l, sheds, he, hi, hsent⟩
  · rw [World.Watched]
    split
    · rename_i i sheds he
      exact absurd he (hno i sheds)
    · trivial
  · rw [World.Watched, he]
    intro l' hi' hdue r hr
    obtain rfl := Option.some.inj (hi.symm.trans hi')
    obtain ⟨j, hj⟩ := Option.ne_none_iff_exists'.mp hdue
    have hpresented := h _ (by rw [hsent]; exact List.mem_append_right _ (List.mem_singleton_self _))
      j hj
    exact .inr (watched_of_presented hwaits hr hj hpresented)

theorem sent_mono {es : List (Nat × Event)} (hw : w.Wf pki) (hrun : run (step pki) w es = some w') :
    w.sent ⊆ w'.sent := by
  refine (run_invariant (I := fun v => v.Wf pki ∧ w.sent ⊆ v.sent) (fun v e v' hv _ hs => ?_)
    ⟨hw, List.Subset.refl _⟩ Meets.trivial hrun).2
  refine ⟨hv.1.step hs, ?_⟩
  rcases sent_step hv.1 hs with ⟨-, hsent⟩ | ⟨i, l, sheds, -, -, hsent⟩
  · rw [hsent]
    exact hv.2
  · rw [hsent]
    exact List.Subset.trans hv.2 (List.subset_append_left _ _)

/-- A run whose requests are fresh has been watched at every step. -/
theorem meets_watched {es : List (Nat × Event)} (hw : w.Wf pki) (hwaits : w.Waits pki)
    (hrenews : Meets (step pki) (World.Renews pki) w es) (hrun : run (step pki) w es = some w')
    (h : w'.Fresh) : Meets (step pki) (World.Watched pki) w es := by
  induction es generalizing w with
  | nil => trivial
  | cons e es ih =>
      obtain ⟨v, hv, hrest⟩ := run_cons.mp hrun
      have hwv := hw.step hv
      have hfresh : v.Fresh := fun x hx => h x (sent_mono hwv hrest hx)
      refine ⟨hfresh.watched hw hwaits hv, fun u hu => ?_⟩
      obtain rfl := Option.some.inj (hv.symm.trans hu)
      exact ih hwv (hwaits.step hw hrenews.1 hv) (hrenews.2 v hv) hrest

/-! ## The start -/

/-- A loop that is started is that of a tail, where there are tails, or holds another
shipper than they would. -/
theorem loop_of_mem_loopsOf {f : Config.File} {now : Nat} {q : Config.Pipeline}
    (hl : l ∈ loopsOf f now q) : l.poll = .enter now ∧
      (l.role = .tail ∧ l.owner = .agent ∧ tailing f = true
        ∨ l.role ≠ .tail ∧ (l.owner = .agent → tailing f = false)) := by
  unfold loopsOf at hl
  split at hl
  · rw [List.mem_singleton.mp hl]
    exact ⟨rfl, .inr ⟨nofun, nofun⟩⟩
  · rw [List.mem_singleton.mp hl]
    refine ⟨rfl, .inr ⟨nofun, fun howner => ?_⟩⟩
    by_cases hnone : f.sources = []
    · rw [tailing, hnone]
    · rw [Loop.enter, if_neg hnone] at howner
      cases howner
  · split at hl
    · rename_i htailing
      split at hl
      · cases hl
      · rw [List.mem_singleton.mp hl]
        exact ⟨rfl, .inl ⟨rfl, rfl, htailing⟩⟩
    · rename_i hpulled
      split at hl <;> rw [List.mem_singleton.mp hl] <;>
        exact ⟨rfl, .inr ⟨nofun, fun _ => Bool.not_eq_true _ |>.mp hpulled⟩⟩
  · cases hl

theorem start_ok {f : Config.File} {now : Nat} (h : start pki f files now = .ok w) :
    w.Wf pki ∧ w.Adopts pki ∧ w.Waits pki ∧ w.Apart ∧ w.Fresh := by
  obtain ⟨shipper, hshipper, h⟩ := Config.bind_eq_ok.mp h
  cases h
  obtain ⟨hsound, hnotices, -⟩ := Shipper.buildShipper_ok hshipper
  have hloops : ∀ l ∈ f.attempts.flatMap (fun a => loopsOf f now a.pipeline),
      l.poll = .enter now ∧ (l.role = .tail ∧ l.owner = .agent ∧ tailing f = true
        ∨ l.role ≠ .tail ∧ (l.owner = .agent → tailing f = false)) := by
    intro l hl
    obtain ⟨a, -, hl⟩ := List.mem_flatMap.mp hl
    exact loop_of_mem_loopsOf hl
  refine ⟨⟨fun _ => hsound, nofun, fun l hl => ?_, fun l hl _ => ?_⟩, ⟨fun _ => hnotices, nofun⟩,
    fun o ho => ?_, ⟨fun l hl htail => ?_, fun l hl hother => ?_⟩, nofun⟩
  · rw [(hloops l hl).1]
    exact Nat.le_refl _
  · rw [(hloops l hl).1]
    exact Poll.kept_enter _ _
  · obtain ⟨r, hr, -⟩ := ho
    cases hr
  · rcases (hloops l hl).2 with htails | hnot
    · exact htails.2
    · exact absurd htail hnot.1
  · rcases (hloops l hl).2 with htails | hnot
    · exact absurd htails.1 hother
    · exact hnot.2

end

/-- **A renewed certificate is adopted** where a tail looks for it. In a run whose renewals
can be told from what is presented, no request presents a superseded pair later than a
period and a pass after the renewal if each that is sent so late is watched; where the pairs
are new, only if each is. No loop but a tail's ever holds a shipper that a tail looks for. -/
theorem renewals_adopted (pki : Pki) (f : Config.File) (files : Files) (now : Nat)
    {w₀ w : World} {es : List (Nat × Event)} (hstart : start pki f files now = .ok w₀)
    (hrun : run (step pki) w₀ es = some w) :
    (Meets (step pki) (World.Tells pki) w₀ es → Meets (step pki) (World.Watched pki) w₀ es →
        w.Fresh)
      ∧ (Meets (step pki) (World.Renews pki) w₀ es → w.Fresh →
        Meets (step pki) (World.Watched pki) w₀ es)
      ∧ ∀ l ∈ w.loops, l.role ≠ .tail → ∀ l' ∈ w.loops, l'.role = .tail →
        l'.owner ≠ l.owner := by
  obtain ⟨hw, hadopts, hwaits, hapart, hfresh⟩ := start_ok hstart
  refine ⟨?_, ?_, ?_⟩
  · intro htells hwatched
    refine (run_invariant (I := fun v => v.Wf pki ∧ v.Adopts pki ∧ v.Fresh)
      (fun v e v' hv hok hs => ?_) ⟨hw, hadopts, hfresh⟩ (htells.and hwatched) hrun).2.2
    exact ⟨hv.1.step hs, hv.2.1.step hv.1 hok.1 hs, hv.2.2.step hv.1 hv.2.1 hok.2 hs⟩
  · intro hrenews h
    exact meets_watched hw hwaits hrenews hrun h
  · intro l hl hother l' hl' htail heq
    have hapart' := (run_invariant (I := fun v => v.Wf pki ∧ v.Apart)
      (fun v e v' hv _ hs => ⟨hv.1.step hs, hv.2.step hv.1 hs⟩) ⟨hw, hapart⟩ Meets.trivial hrun).2
    obtain ⟨howner, htailing⟩ := hapart'.tails l' hl' htail
    have hfalse := hapart'.others l hl hother (heq ▸ howner)
    rw [htailing] at hfalse
    cases hfalse

/-! ## A tail beside a receiver -/

/-- Libraries that take any pair, valid for an hour. -/
def anyPki : Pki :=
  { certs := fun pem => .ok [pem], privateKey := fun pem => .ok (some pem)
    x509 := fun _ => .ok (3600, none), fromPem := fun _ => .ok (), build := fun _ => .ok () }

/-- A certificate and its key, written at this time. -/
def pairOf (name : Char) (modified : Nat) : Files :=
  { cert := { modified := some modified, content := .ok [name] }
    key := { modified := some modified, content := .ok ['k'] } }

def identityOf (name : Char) : Identity :=
  { pem := [name, '\n', 'k'], notAfterEpoch := 3600, commonName := none }

/-- One tail and the receiver, with a client certificate. -/
def mixedFile : Config.File :=
  let f := Config.fileOf [Config.tailOf "a" none]
  { f with
    output := { f.output with
      url := "https://localhost:1963".toList
      tls := some { caFile := none, certFile := some "crt".toList, keyFile := some "key".toList
                    refreshSecs := 30 } }
    otlp := some { listen := "127.0.0.1:4318".toList, name := "otlp".toList, table := "logs".toList
                   tags := [], tagsStatic := [], fields := [], visibility := none } }

/-- The agent as it has started with it. -/
def mixedStart : World :=
  { now := 0, files := pairOf 'a' 0, renewed := none
    shippers := fun _ =>
      { client := some (identityOf 'a')
        tls := some { source := true, current := some (identityOf 'a'), token := some (0, 0)
                      lastReloadOk := true, reloadsRefused := 0 } }
    tailing := true
    loops := [.enter .otlp .otlp 30000 0, .enter .tail .agent 30000 0], sent := [] }

theorem start_mixedFile : start anyPki mixedFile (pairOf 'a' 0) 0 = .ok mixedStart := by
  rfl

/-- The certificate is renewed; the tail comes round every twenty seconds. -/
def tailRun : List (Nat × Event) :=
  [(1000, .renew (pairOf 'b' 1)), (20000, .pass 1), (40000, .pass 1), (60000, .pass 1),
    (60001, .send 1 false)]

theorem run_sent {w : World} {es : List (Nat × Event)} {sent : List Sent}
    (h : (run (step anyPki) mixedStart es).map World.sent = some sent)
    (hrun : run (step anyPki) mixedStart es = some w) : w.sent = sent := by
  rw [hrun] at h
  exact Option.some.inj h

theorem renewals_adopted_tail :
    ∃ w, run (step anyPki) mixedStart tailRun = some w ∧
      w.sent = [{ role := .tail, presented := some (identityOf 'b'), due := some (identityOf 'b') }] ∧
      Meets (step anyPki) (World.Watched anyPki) mixedStart tailRun := by
  have hsent : (run (step anyPki) mixedStart tailRun).map World.sent = some
      [{ role := .tail, presented := some (identityOf 'b'), due := some (identityOf 'b') }] := by
    decide +kernel
  obtain ⟨w, hrun, -⟩ := Option.map_eq_some_iff.mp hsent
  have hw := run_sent hsent hrun
  refine ⟨w, hrun, hw, (renewals_adopted anyPki mixedFile (pairOf 'a' 0) 0 start_mixedFile hrun).2.1
    ⟨fun o t i hi => ?_, fun v _ => Meets.of_forall fun e he u => ?_⟩ fun x hx i hi => ?_⟩
  · have hload : loadPair anyPki (pairOf 'b' 1) 0 = .ok (identityOf 'b') := rfl
    rw [loadPair_unique hi hload]
    show some (identityOf 'a') ≠ some (identityOf 'b')
    decide
  · -- no other event writes the files
    simp only [List.mem_cons, List.not_mem_nil, or_false] at he
    rcases he with rfl | rfl | rfl | rfl <;> trivial
  · rw [hw] at hx
    obtain rfl := List.mem_singleton.mp hx
    exact hi

/-- A configuration that loads. Beside a tail that presents the renewed pair, the receiver
presents the superseded one. -/
theorem receiver_keeps_superseded :
    Config.load Config.bareHost.toPlatform mixedFile = .ok mixedFile
      ∧ start anyPki mixedFile (pairOf 'a' 0) 0 = .ok mixedStart
      ∧ ∃ w, run (step anyPki) mixedStart (tailRun ++
          [(65000, .pass 0), (130000, .pass 0), (130001, .send 0 false)]) = some w
        ∧ w.sent =
          [{ role := .tail, presented := some (identityOf 'b'), due := some (identityOf 'b') },
            { role := .otlp, presented := some (identityOf 'a'), due := some (identityOf 'b') }]
        ∧ ¬ w.Fresh := by
  have hsent : (run (step anyPki) mixedStart (tailRun ++
      [(65000, .pass 0), (130000, .pass 0), (130001, .send 0 false)])).map World.sent = some
      [{ role := .tail, presented := some (identityOf 'b'), due := some (identityOf 'b') },
        { role := .otlp, presented := some (identityOf 'a'), due := some (identityOf 'b') }] := by
    decide +kernel
  obtain ⟨w, hrun, -⟩ := Option.map_eq_some_iff.mp hsent
  have hw := run_sent hsent hrun
  refine ⟨by decide +kernel, start_mixedFile, w, hrun, hw, fun h => ?_⟩
  have hpresented := h { role := .otlp, presented := some (identityOf 'a')
                         due := some (identityOf 'b') } (by rw [hw]; simp) (identityOf 'b') rfl
  exact absurd hpresented (by decide)

end Tributary.Credential
