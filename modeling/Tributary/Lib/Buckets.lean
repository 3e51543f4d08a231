import Mathlib.Data.List.Basic
import Mathlib.Logic.Function.Basic

/-!
# Buckets by key

Items are put into the bucket of their key; a bucket is emptied once it is full, or when
it is taken. What goes in for a key comes out for it in order, and what comes out for a
key depends on nothing but what is done to its bucket.
-/

namespace Tributary.Lib.Buckets

variable {κ α : Type*} [DecidableEq κ]

inductive Op (κ α : Type*) where
  | put (key : κ) (item : α)
  | take (key : κ)
deriving DecidableEq

/-- The bucket an operation is about. -/
def Op.key : Op κ α → κ
  | .put k _ => k
  | .take k => k

/-- What an operation puts in. -/
def Op.items : Op κ α → List α
  | .put _ a => [a]
  | .take _ => []

/-- One operation: what comes out of the bucket, and the buckets after it. -/
def step (full : List α → Bool) (held : κ → List α) : Op κ α → List α × (κ → List α)
  | .put k a =>
      if full (held k ++ [a]) then (held k ++ [a], Function.update held k [])
      else ([], Function.update held k (held k ++ [a]))
  | .take k => (held k, Function.update held k [])

/-- What comes out at each operation. -/
def outs (full : List α → Bool) : (κ → List α) → List (Op κ α) → List (Op κ α × List α)
  | _, [] => []
  | held, op :: ops => (op, (step full held op).1) :: outs full (step full held op).2 ops

/-- What comes out, without the operations at which nothing does. -/
def emptied (os : List (Op κ α × List α)) : List (κ × List α) :=
  os.filterMap fun o => if o.2.isEmpty then none else some (o.1.key, o.2)

/-- The buckets after all operations. -/
def after (full : List α → Bool) (held : κ → List α) (ops : List (Op κ α)) : κ → List α :=
  ops.foldl (fun held op => (step full held op).2) held

section

variable {full : List α → Bool} {held held' : κ → List α} {ops : List (Op κ α)} {k : κ}

/-- An operation on another bucket. -/
theorem step_other {op : Op κ α} (h : op.key ≠ k) : (step full held op).2 k = held k := by
  cases op with
  | put j a =>
      have hne : k ≠ j := Ne.symm h
      rw [step]
      split <;> exact Function.update_of_ne hne ..
  | take j => exact Function.update_of_ne (Ne.symm h) ..

/-- An operation on the bucket: what comes out and what stays is what was in it and what
is put in. -/
theorem step_own (full : List α → Bool) (held : κ → List α) (op : Op κ α) :
    (step full held op).1 ++ (step full held op).2 op.key = held op.key ++ op.items := by
  cases op with
  | put j a =>
      simp only [step, Op.key, Op.items]
      split <;> simp
  | take j => simp [step, Op.key, Op.items]

variable (full) in
/-- What comes out is read off the bucket, and so is what stays in it. -/
theorem step_congr {op : Op κ α} (h : held op.key = held' op.key) :
    (step full held op).1 = (step full held' op).1
      ∧ (step full held op).2 op.key = (step full held' op).2 op.key := by
  cases op with
  | put j a =>
      simp only [Op.key] at h
      simp only [step, Op.key, h]
      split <;> simp
  | take j => simpa [step, Op.key] using h

/-- **Nothing is lost, doubled or reordered** in a bucket. -/
theorem outs_conserve (full : List α → Bool) (held : κ → List α) (ops : List (Op κ α)) (k : κ) :
    ((outs full held ops).filter fun o => decide (o.1.key = k)).flatMap (·.2) ++ after full held ops k
      = held k ++ (ops.filter fun op => decide (op.key = k)).flatMap Op.items := by
  induction ops generalizing held with
  | nil => exact (List.append_nil _).symm
  | cons op ops ih =>
      rw [outs, after, List.foldl_cons, ← after]
      by_cases hk : op.key = k
      · rw [List.filter_cons_of_pos (by simpa using hk), List.filter_cons_of_pos (by simpa using hk),
          List.flatMap_cons, List.flatMap_cons, List.append_assoc, ih, ← List.append_assoc,
          ← List.append_assoc, ← hk, step_own]
      · rw [List.filter_cons_of_neg (by simpa using hk), List.filter_cons_of_neg (by simpa using hk),
          ih, step_other hk]

theorem emptied_key (os : List (Op κ α × List α)) (k : κ) :
    ((emptied os).filter fun m => decide (m.1 = k)).flatMap (·.2)
      = (os.filter fun o => decide (o.1.key = k)).flatMap (·.2) := by
  induction os with
  | nil => rfl
  | cons o os ih =>
      rw [emptied] at ih ⊢
      by_cases hout : o.2.isEmpty
      · rw [List.filterMap_cons_none (by simp [hout]), ih]
        have hnil : o.2 = [] := by simpa using hout
        by_cases hk : o.1.key = k <;> simp [hk, hnil]
      · rw [List.filterMap_cons_some (b := (o.1.key, o.2)) (by simp [hout])]
        by_cases hk : o.1.key = k
        · rw [List.filter_cons_of_pos (by simpa using hk), List.filter_cons_of_pos (by simpa using hk),
            List.flatMap_cons, List.flatMap_cons, ih]
        · rw [List.filter_cons_of_neg (by simpa using hk), List.filter_cons_of_neg (by simpa using hk),
            ih]

/-- **What comes out of a bucket depends on its own operations only.** -/
theorem outs_own (h : held k = held' k) :
    ((outs full held ops).filter fun o => decide (o.1.key = k))
      = outs full held' (ops.filter fun op => decide (op.key = k)) := by
  induction ops generalizing held held' with
  | nil => rfl
  | cons op ops ih =>
      rw [outs]
      by_cases hk : op.key = k
      · subst hk
        obtain ⟨hout, hheld⟩ := step_congr full h
        rw [List.filter_cons_of_pos (by simp), List.filter_cons_of_pos (by simp), outs,
          ih hheld, hout]
      · rw [List.filter_cons_of_neg (by simpa using hk), List.filter_cons_of_neg (by simpa using hk),
          ih (by rw [step_other hk, h])]

/-- A bucket holds what has not come out of it. -/
theorem after_eq_nil_iff (full : List α → Bool) (ops : List (Op κ α)) (k : κ) :
    after full (fun _ => []) ops k = []
      ↔ ((outs full (fun _ => []) ops).filter fun o => decide (o.1.key = k)).flatMap (·.2)
        = (ops.filter fun op => decide (op.key = k)).flatMap Op.items := by
  have h := outs_conserve full (fun _ => []) ops k
  rw [List.nil_append] at h
  rw [← h, List.self_eq_append_right]

end

end Tributary.Lib.Buckets
