import Tributary.Map

/-!
# The transform stage

What happens to a mapped record before the watermark counts it: filter, sample,
redact. The sample decision is a hash of the record's identity, so it is the same
on every replay.
-/

namespace Tributary.Transform

open Lp

structure Filter where
  field : Text
  equals : Text
  /-- a deny rule; otherwise an allow rule -/
  drop : Bool
deriving DecidableEq, Repr

structure Sample where
  field : Option Text
  equals : Option Text
  rate : Nat
deriving DecidableEq, Repr

structure Redact where
  field : Text
  pattern : Text
  replacement : Text
deriving DecidableEq, Repr

variable (libs : Libs)

/-- The string form values compare and hash by. -/
def valueText : Value → Text
  | .str s => s
  | .int n => Text.ofInt n
  | .float f => libs.display f
  | .bool true => "true".toList
  | .bool false => "false".toList

/-- The record has a tag or a field of this name with this value. -/
def fieldEquals (record : Record) (field equals : Text) : Bool :=
  (record.tags.any fun kv => decide (kv.1 = field) && decide (kv.2 = equals))
    || record.fields.any fun kv =>
      decide (kv.1 = field) && decide (valueText libs kv.2 = equals)

/-- Whether a record survives the filter rules: no deny rule matches, and an
allow rule does if there are any. -/
def keeps (record : Record) (filters : List Filter) : Bool :=
  let ruleMatches (f : Filter) := fieldEquals libs record f.field f.equals
  if filters.any fun f => f.drop && ruleMatches f then false
  else
    let allow := filters.filter fun f => !f.drop
    allow.isEmpty || allow.any ruleMatches

/-! ## Sampling -/

/-- One byte of FNV-1a. -/
def fnvByte (h : UInt64) (b : UInt8) : UInt64 := (h ^^^ b.toUInt64) * 0x100000001b3

def fnvBytes (h : UInt64) (bs : List UInt8) : UInt64 := bs.foldl fnvByte h

/-- A string, then a separator. -/
def fnvFeed (h : UInt64) (s : Text) : UInt64 :=
  fnvByte (fnvBytes h (s.flatMap String.utf8EncodeChar)) 0

/-- `i64::to_le_bytes`. -/
def leBytes (x : Int) : List UInt8 :=
  (List.range 8).map fun i => UInt8.ofNat ((x % 2 ^ 64).toNat / 256 ^ i)

def recordHash (record : Record) (sourceTs : Int) : UInt64 :=
  let h := record.tags.foldl (fun h kv => fnvFeed (fnvFeed h kv.1) kv.2) 0xcbf29ce484222325
  let h := record.fields.foldl
    (fun h kv => fnvFeed (fnvFeed h kv.1) (valueText libs kv.2)) h
  fnvBytes h (leBytes sourceTs)

/-- Whether a record survives the sample rules. -/
def sampleKeeps (record : Record) (sourceTs : Int) (rules : List Sample) : Bool :=
  rules.all fun r =>
    let applies := match r.field, r.equals with
      | some f, some e => fieldEquals libs record f e
      | _, _ => true
    !(applies && decide (1 < r.rate)
      && decide ((recordHash libs record sourceTs).toNat % r.rate ≠ 0))

/-! ## Redaction -/

/-- One rule, on the string fields of its name. -/
def redactField (rd : Redact) (kv : Text × Value) : Text × Value :=
  match kv with
  | (k, .str s) =>
      if k = rd.field then (k, .str (libs.replaceAll rd.pattern rd.replacement s)) else (k, .str s)
  | other => other

def applyRedacts (record : Record) (redacts : List Redact) : Record :=
  redacts.foldl (fun r rd => { r with fields := r.fields.map (redactField libs rd) }) record

/-- All rules, on one field. -/
def redactValue (redacts : List Redact) (kv : Text × Value) : Text × Value :=
  redacts.foldl (fun kv rd => redactField libs rd kv) kv

theorem applyRedacts_eq (record : Record) (redacts : List Redact) :
    applyRedacts libs record redacts =
      { record with fields := record.fields.map (redactValue libs redacts) } := by
  induction redacts generalizing record with
  | nil =>
      have hid : redactValue libs [] = id := rfl
      simp [applyRedacts, hid]
  | cons rd redacts ih =>
      have hrest := ih { record with fields := record.fields.map (redactField libs rd) }
      rw [applyRedacts] at hrest
      simp [applyRedacts, hrest, redactValue]

/-- Redaction changes strings and nothing else. -/
theorem restrings_redactValue (redacts : List Redact) : Restrings (redactValue libs redacts) := by
  intro kv
  induction redacts generalizing kv with
  | nil => exact .inl rfl
  | cons rd redacts ih =>
      obtain ⟨k, v⟩ := kv
      cases v with
      | str s =>
          obtain ⟨s', hs'⟩ : ∃ s', redactField libs rd (k, .str s) = (k, .str s') := by
            unfold redactField
            by_cases hk : k = rd.field <;> simp [hk]
          refine .inr ⟨s, ?_⟩
          rcases ih (k, .str s') with h | ⟨t, t', -, h⟩
          · exact ⟨s', rfl, by rw [redactValue, List.foldl_cons, hs']; exact h⟩
          · exact ⟨t', rfl, by rw [redactValue, List.foldl_cons, hs']; exact h⟩
      | int n => exact (ih (k, .int n)).imp_right fun ⟨s, s', hs, _⟩ => nomatch hs
      | float f => exact (ih (k, .float f)).imp_right fun ⟨s, s', hs, _⟩ => nomatch hs
      | bool b => exact (ih (k, .bool b)).imp_right fun ⟨s, s', hs, _⟩ => nomatch hs

/-- Redaction is no matter of whether a record has an encoding. -/
theorem encodable_applyRedacts (record : Record) (redacts : List Redact) :
    (applyRedacts libs record redacts).Encodable ↔ record.Encodable := by
  rw [applyRedacts_eq]
  have hfinite : ({ record with fields := record.fields.map (redactValue libs redacts) }
      : Record).firstNonFinite = record.firstNonFinite := by
    unfold Record.firstNonFinite
    rw [List.find?_map, Option.map_map]
    congr 1
    · funext kv
      rcases restrings_redactValue libs redacts kv with h | ⟨s, s', -, h⟩ <;> simp [h]
    · congr 1
      funext kv
      rcases restrings_redactValue libs redacts kv with h | ⟨s, s', hs, h⟩ <;> simp [*]
  simp [Record.Encodable, hfinite]

end Tributary.Transform
