import Mathlib.Order.Basic

/-!
# A poll inside a loop

A loop looks at something once in every pass, but no more often than its period says. How
late it can be is told by the longest pass the loop has made.
-/

namespace Tributary.Lib

/-- The times of a loop: when it was entered, when its last pass ended, how long its
longest pass was, and when it looked last. -/
structure Poll where
  entered : Nat
  came : Nat
  longest : Nat
  looked : Nat
deriving DecidableEq, Repr

namespace Poll

/-- A loop that is entered counts its period from there. -/
def enter (now : Nat) : Poll := { entered := now, came := now, longest := 0, looked := now }

/-- The longest pass, that which is under way included. -/
def worst (p : Poll) (now : Nat) : Nat := max p.longest (now - p.came)

/-- A pass ends, and the loop has not looked. -/
def pass (p : Poll) (now : Nat) : Poll := { p with came := now, longest := p.worst now }

/-- The loop is left, in the middle of a pass. -/
def leave (p : Poll) (now : Nat) : Poll := { p with longest := p.worst now }

def Due (p : Poll) (period now : Nat) : Prop := period ≤ now - p.looked

instance (p : Poll) (period now : Nat) : Decidable (p.Due period now) :=
  inferInstanceAs (Decidable (_ ≤ _))

/-- A pass ends, at the end of which the loop looks if that is due. -/
def look (p : Poll) (period now : Nat) : Poll :=
  if p.Due period now then { p.pass now with looked := now } else p.pass now

/-- The loop has looked after this time, and not only been entered. -/
def LookedAfter (p : Poll) (t : Nat) : Prop := t < p.looked ∧ p.entered < p.looked

instance (p : Poll) (t : Nat) : Decidable (p.LookedAfter t) := inferInstanceAs (Decidable (_ ∧ _))

/-- Each pass ended before the period was over, or with a look. -/
structure Kept (p : Poll) (period : Nat) : Prop where
  entered : p.entered ≤ p.looked
  looked : p.looked ≤ p.came
  due : p.came < p.looked + period ∨ p.came = p.looked

variable {p : Poll} {period now t : Nat}

theorem kept_enter (period now : Nat) : (enter now).Kept period :=
  ⟨Nat.le_refl _, Nat.le_refl _, .inr rfl⟩

theorem Kept.look (h : p.Kept period) (hnow : p.came ≤ now) : (p.look period now).Kept period := by
  obtain ⟨hentered, hlooked, -⟩ := h
  unfold Poll.look
  split
  · exact ⟨Nat.le_trans hentered (Nat.le_trans hlooked hnow), Nat.le_refl _, .inr rfl⟩
  · rename_i hnot
    rw [Due] at hnot
    exact ⟨hentered, Nat.le_trans hlooked hnow, .inl (by dsimp only [pass]; omega)⟩

theorem look_came (p : Poll) (period now : Nat) : (p.look period now).came = now := by
  unfold look
  split <;> rfl

/-- **How late a look is**: a period and a pass after a time at which the loop was in, it
has looked since. -/
theorem Kept.lookedAfter (h : p.Kept period) (hin : p.entered ≤ t)
    (hlate : t + period + p.worst now < now) : p.LookedAfter t := by
  obtain ⟨-, -, hdue⟩ := h
  have hcame : now - p.came ≤ p.worst now := Nat.le_max_right _ _
  have hlooked : t < p.looked := by omega
  exact ⟨hlooked, Nat.lt_of_le_of_lt hin hlooked⟩

end Poll

end Tributary.Lib
