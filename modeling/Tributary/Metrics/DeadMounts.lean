import Mathlib.Data.List.Nodup
import Mathlib.Logic.Function.Basic
import Tributary.Lib.Run

/-!
# Dead mounts

Disk is gathered mount by mount, each with a probe of its own that may block. A probe that does
not answer in time is held, and its mount is not probed again before it has answered. Tables
change between ticks, and probes answer whenever they like. A mount is known by its path, as
`PathBuf` compares paths.
-/

namespace Tributary.Metrics

open Lib

variable {μ π σ : Type}

/-! ## Held probes -/

/-- A `statvfs` in a blocking task; the answer of one that fails is `some none`. -/
structure Probe (μ σ : Type) where
  mount : μ
  answer : Option (Option σ)

def answerOf (probes : List (Probe μ σ)) (i : Nat) : Option (Option σ) :=
  probes[i]?.bind Probe.answer

/-- The path that a probe is for. -/
def pathOf (path : μ → π) (probes : List (Probe μ σ)) (i : Nat) : Option π :=
  probes[i]?.map fun probe => path probe.mount

section

variable {path : μ → π} {probes : List (Probe μ σ)} {m : μ} {i j : Nat} {p : π} {sample : Option σ}

end

/-- A mount whose probe timed out, keyed to the probe, by its number. -/
structure DeadMounts (π : Type) where
  pending : π → Option Nat

/-- Where a mount stands relative to a held probe. -/
inductive ProbeState (σ : Type) where
  | fresh
  | stillDead
  | recovered (probe : Nat) (sample : Option σ)

namespace DeadMounts

def default : DeadMounts π := { pending := fun _ => none }

variable [DecidableEq π]

/-- A finished probe is taken and its entry cleared. -/
def check (d : DeadMounts π) (probes : List (Probe μ σ)) (p : π) :
    ProbeState σ × DeadMounts π :=
  match d.pending p with
  | none => (.fresh, d)
  | some i =>
      match answerOf probes i with
      | none => (.stillDead, d)
      | some sample => (.recovered i sample, { pending := Function.update d.pending p none })

def hold (d : DeadMounts π) (p : π) (probe : Nat) : DeadMounts π :=
  { pending := Function.update d.pending p (some probe) }

/-- Drop held probes of mounts no longer present. -/
def prune (d : DeadMounts π) (present : List π) : DeadMounts π :=
  { pending := fun p => if p ∈ present then d.pending p else none }

end DeadMounts

/-! ## Ticks -/

/-- A tick that is under way. -/
structure Gather (μ π σ : Type) where
  todo : List μ
  /-- the probe that is waited for, and its path -/
  waiting : Option (π × Nat)
  /-- the samples so far, each with its probe -/
  out : List (Nat × σ)

structure Host (μ π σ : Type) where
  /-- every probe so far -/
  probes : List (Probe μ σ)
  dead : DeadMounts π
  /-- the paths of the last table that was read -/
  present : List π
  gather : Option (Gather μ π σ)
  /-- what each tick returned -/
  returned : List (List (Nat × σ))

inductive Event (μ σ : Type) where
  /-- a tick starts; `none` when the table cannot be read -/
  | tick (table : Option (List μ))
  /-- the next mount is looked at -/
  | check
  /-- the probe that is waited for has answered -/
  | inTime
  /-- it has not, and the time is up -/
  | elapsed
  /-- some probe answers -/
  | answer (probe : Nat) (sample : Option σ)
  /-- the table is through -/
  | finish

namespace Host

def start : Host μ π σ :=
  { probes := [], dead := .default, present := [], gather := none, returned := [] }

def emit (probe : Nat) (sample : Option σ) : List (Nat × σ) := sample.toList.map (probe, ·)

variable [DecidableEq π] (path : μ → π)

/-- One mount of the table, up to where its probe is waited for. -/
def visit (s : Host μ π σ) (m : μ) (todo : List μ) (out : List (Nat × σ)) : Host μ π σ :=
  match s.dead.check s.probes (path m) with
  | (.stillDead, dead) => { s with dead, gather := some { todo, waiting := none, out } }
  | (.recovered probe sample, dead) =>
      { s with dead, gather := some { todo, waiting := none, out := out ++ emit probe sample } }
  | (.fresh, dead) =>
      { s with
        dead
        probes := s.probes ++ [{ mount := m, answer := none }]
        gather := some { todo, waiting := some (path m, s.probes.length), out } }

/-- `gather_disks_linux`, and the probes beside it. -/
def step (s : Host μ π σ) : Event μ σ → Option (Host μ π σ)
  | .tick none => if s.gather.isNone then some { s with returned := s.returned ++ [[]] } else none
  | .tick (some mounts) =>
      if s.gather.isNone then
        some { s with
          present := mounts.map path
          gather := some { todo := mounts, waiting := none, out := [] } }
      else none
  | .check =>
      match s.gather with
      | some { todo := m :: todo, waiting := none, out } => some (s.visit path m todo out)
      | _ => none
  | .inTime =>
      match s.gather with
      | some { todo, waiting := some (_, probe), out } =>
          (answerOf s.probes probe).map fun sample =>
            { s with gather := some { todo, waiting := none, out := out ++ emit probe sample } }
      | _ => none
  | .elapsed =>
      match s.gather with
      | some { todo, waiting := some (p, probe), out } =>
          if (answerOf s.probes probe).isNone then
            some { s with
              dead := s.dead.hold p probe, gather := some { todo, waiting := none, out } }
          else none
      | _ => none
  | .answer probe sample =>
      match s.probes[probe]? with
      | some { mount, answer := none } =>
          some { s with probes := s.probes.set probe { mount, answer := some sample } }
      | _ => none
  | .finish =>
      match s.gather with
      | some { todo := [], waiting := none, out } =>
          some { s with
            dead := s.dead.prune s.present, gather := none, returned := s.returned ++ [out] }
      | _ => none

/-! ## What a step can do -/

/-- The steps, with what each needs. -/
inductive Step : Host μ π σ → Event μ σ → Host μ π σ → Prop
  | unreadable {s : Host μ π σ} (idle : s.gather = none) :
      Step s (.tick none) { s with returned := s.returned ++ [[]] }
  | tick {s : Host μ π σ} {mounts} (idle : s.gather = none) :
      Step s (.tick (some mounts)) { s with
        present := mounts.map path
        gather := some { todo := mounts, waiting := none, out := [] } }
  | stillDead {s : Host μ π σ} {m todo out i}
      (hg : s.gather = some { todo := m :: todo, waiting := none, out })
      (held : s.dead.pending (path m) = some i) (blocked : answerOf s.probes i = none) :
      Step s .check { s with gather := some { todo, waiting := none, out } }
  | recovered {s : Host μ π σ} {m todo out i sample}
      (hg : s.gather = some { todo := m :: todo, waiting := none, out })
      (held : s.dead.pending (path m) = some i) (answered : answerOf s.probes i = some sample) :
      Step s .check { s with
        dead := { pending := Function.update s.dead.pending (path m) none }
        gather := some { todo, waiting := none, out := out ++ emit i sample } }
  | fresh {s : Host μ π σ} {m todo out}
      (hg : s.gather = some { todo := m :: todo, waiting := none, out })
      (free : s.dead.pending (path m) = none) :
      Step s .check { s with
        probes := s.probes ++ [{ mount := m, answer := none }]
        gather := some { todo, waiting := some (path m, s.probes.length), out } }
  | inTime {s : Host μ π σ} {todo p i out sample}
      (hg : s.gather = some { todo, waiting := some (p, i), out })
      (answered : answerOf s.probes i = some sample) :
      Step s .inTime { s with
        gather := some { todo, waiting := none, out := out ++ emit i sample } }
  | elapsed {s : Host μ π σ} {todo p i out}
      (hg : s.gather = some { todo, waiting := some (p, i), out })
      (blocked : answerOf s.probes i = none) :
      Step s .elapsed { s with
        dead := s.dead.hold p i, gather := some { todo, waiting := none, out } }
  | answer {s : Host μ π σ} {i m sample}
      (blocked : s.probes[i]? = some { mount := m, answer := none }) :
      Step s (.answer i sample) { s with
        probes := s.probes.set i { mount := m, answer := some sample } }
  | finish {s : Host μ π σ} {out}
      (hg : s.gather = some { todo := [], waiting := none, out }) :
      Step s .finish { s with
        dead := s.dead.prune s.present, gather := none, returned := s.returned ++ [out] }

/-- A probe for the path that has not answered. -/
def Blocked (s : Host μ π σ) (p : π) (i : Nat) : Prop :=
  pathOf path s.probes i = some p ∧ answerOf s.probes i = none

/-- All samples so far, each with its probe. -/
def emitted (s : Host μ π σ) : List (Nat × σ) :=
  s.returned.flatten ++ (s.gather.elim [] Gather.out)

/-! ## What every state has -/

/-- A held probe is one of the path; the path whose probe is waited for has none held; samples
come from probes that have answered and are neither held nor waited for. -/
structure Inv (s : Host μ π σ) : Prop where
  held : ∀ p i, s.dead.pending p = some i → pathOf path s.probes i = some p
  waits : ∀ g p i, s.gather = some g → g.waiting = some (p, i) →
    s.dead.pending p = none ∧ pathOf path s.probes i = some p
  nodup : (s.emitted.map Prod.fst).Nodup
  sent : ∀ i x, (i, x) ∈ s.emitted → answerOf s.probes i = some (some x) ∧
    (∀ p, s.dead.pending p ≠ some i) ∧ ∀ g p, s.gather = some g → g.waiting ≠ some (p, i)
  listed : s.gather = none → ∀ p, s.dead.pending p ≠ none → p ∈ s.present

/-- A probe whose answer is taken, and only now. -/
def Taken (s s' : Host μ π σ) (i : Nat) (sample : Option σ) : Prop :=
  answerOf s.probes i = some sample ∧ s'.emitted = s.emitted ++ emit i sample

/-- Every table that is read lists the path. -/
def Lists (p : π) : Event μ σ → Prop
  | .tick (some mounts) => p ∈ mounts.map path
  | _ => True

/-- A probe for the path from the `n`-th on that has not answered is held, or waited for. -/
structure Stay (p : π) (n : Nat) (s : Host μ π σ) : Prop where
  inv : Inv path s
  listed : s.gather ≠ none → p ∈ s.present
  le : n ≤ s.probes.length
  kept : ∀ i, n ≤ i → Blocked path s p i →
    s.dead.pending p = some i ∨ ∃ g, s.gather = some g ∧ g.waiting = some (p, i)

variable {path} {p : π} {n : Nat}

omit [DecidableEq π] in
/-- Two such probes are one. -/
theorem Stay.unique {s : Host μ π σ} (h : Stay path p n s) {i j : Nat} (hi : n ≤ i) (hj : n ≤ j)
    (hbi : Blocked path s p i) (hbj : Blocked path s p j) : i = j := by
  rcases h.kept i hi hbi with hpi | ⟨g, hg, hwi⟩ <;>
    rcases h.kept j hj hbj with hpj | ⟨g', hg', hwj⟩
  · exact Option.some.inj (hpi.symm.trans hpj)
  · rw [(h.inv.waits g' p j hg' hwj).1] at hpi
    cases hpi
  · rw [(h.inv.waits g p i hg hwi).1] at hpj
    cases hpj
  · rw [hg] at hg'
    cases hg'
    rw [hwi] at hwj
    cases hwj
    rfl

/-! ## One tick -/

/-- A mount that is listed twice times out, and has answered by the next tick. -/
example : (run (step id) (start : Host Nat Nat Nat)
    [.tick (some [5, 5]), .check, .elapsed, .check, .finish, .answer 0 (some 7),
      .tick (some [5]), .check, .finish]).map Host.returned = some [[], [(0, 7)]] := rfl

end Host

end Tributary.Metrics
