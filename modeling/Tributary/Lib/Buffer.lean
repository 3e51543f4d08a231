import Mathlib.Data.List.Basic

/-!
# Actions on a growing buffer

A program that pushes onto a buffer and may refuse. `Appends m t` says that `m` goes
through and leaves `t` behind what the buffer held; it composes along the program
text, so that the output of a loop of pushes is read off its body.
-/

namespace Tributary.Lib

variable {α β ε : Type}

/-- An action on a buffer of `α` that may refuse with an `ε`. -/
abbrev BufferM (ε α : Type) := ExceptT ε (StateM (List α))

namespace BufferM

/-- Run on a buffer: how it ended, and the buffer afterwards. -/
def exec (m : BufferM ε α Unit) (out : List α) : Except ε Unit × List α := m.run.run out

/-- `out.push(x)`. -/
def push (x : α) : BufferM ε α Unit := modify (· ++ [x])

/-- `out.push_str(t)`. -/
def pushAll (t : List α) : BufferM ε α Unit := modify (· ++ t)

/-- The action goes through and appends `t`. -/
def Appends (m : BufferM ε α Unit) (t : List α) : Prop := ∀ out, m.exec out = (.ok (), out ++ t)

/-- The action refuses with `e` and leaves the buffer alone. -/
def Refuses (m : BufferM ε α Unit) (e : ε) : Prop := ∀ out, m.exec out = (.error e, out)

theorem appends_push (x : α) : Appends (ε := ε) (push x) [x] := fun _ => rfl

theorem appends_pushAll (t : List α) : Appends (ε := ε) (pushAll t) t := fun _ => rfl

theorem appends_pure : Appends (pure () : BufferM ε α Unit) [] := by
  intro out
  rw [List.append_nil]
  rfl

theorem refuses_throw (e : ε) : Refuses (throw e : BufferM ε α Unit) e := fun _ => rfl

theorem exec_bind (m k : BufferM ε α Unit) (out : List α) :
    (do m; k).exec out = match m.exec out with
      | (.ok _, out') => k.exec out'
      | (.error e, out') => (.error e, out') := by
  simp only [exec, ExceptT.run_bind, StateT.run_bind]
  rcases m.run.run out with ⟨e | _, out'⟩ <;> rfl

theorem Appends.bind {m k : BufferM ε α Unit} {t u : List α} (hm : Appends m t)
    (hk : Appends k u) : Appends (do m; k) (t ++ u) := by
  intro out
  rw [exec_bind, hm]
  simp only [hk _, List.append_assoc]

/-- Nothing runs after a refusal. -/
theorem Refuses.bind {m : BufferM ε α Unit} {e : ε} (hm : Refuses m e)
    (k : BufferM ε α Unit) : Refuses (do m; k) e := by
  intro out
  rw [exec_bind, hm]

/-- A refusal behind actions that push nothing. -/
theorem Appends.bind_refuses {m k : BufferM ε α Unit} {e : ε} (hm : Appends m [])
    (hk : Refuses k e) : Refuses (do m; k) e := by
  intro out
  rw [exec_bind, hm]
  simp only [List.append_nil, hk _]

theorem Appends.ite {p : Prop} [Decidable p] {m k : BufferM ε α Unit} {t u : List α}
    (hm : p → Appends m t) (hk : ¬ p → Appends k u) :
    Appends (if p then m else k) (if p then t else u) := by
  by_cases h : p
  · simpa only [if_pos h] using hm h
  · simpa only [if_neg h] using hk h

/-- **A loop appends what its bodies append, in order.** -/
theorem appends_forM {f : β → BufferM ε α Unit} {g : β → List α} {xs : List β}
    (h : ∀ x ∈ xs, Appends (f x) (g x)) : Appends (xs.forM f) (xs.flatMap g) := by
  induction xs with
  | nil => exact appends_pure
  | cons x xs ih =>
      have hx := h x (List.mem_cons_self ..)
      have hxs := ih fun y hy => h y (List.mem_cons_of_mem _ hy)
      exact hx.bind hxs

end BufferM

end Tributary.Lib
