import Tributary.Map.Allowlist
import Tributary.Otlp.Unique

/-!
# Attributes and the allowlist

A log record is read through the allowlist like a line, once its attributes and those of
its scope and resource are laid over one another. The body and the severity have keys of
their own, which an attribute can have too.
-/

namespace Tributary.Otlp

open Lp Map

/-! ## Which value a key has -/

/-- The value of the last of these attributes that has this key and a value. -/
def valueIn (attrs : List KeyValue) (key : Text) : Option Json :=
  attrs.reverse.findSome? fun kv => if kv.key = key then kv.value.map anyToJson else none

/-- What the log record says of itself. -/
def own (lr : LogRecord) (key : Text) : Option Json :=
  if key = "severity_number".toList ∧ lr.severityNumber ≠ 0 then
    some (.number (.int lr.severityNumber))
  else if key = "severity_text".toList ∧ lr.severityText ≠ [] then some (.string lr.severityText)
  else if key = "body".toList then lr.body.map anyToJson
  else none

/-- The name of a scope, which counts as the first of its attributes. -/
def scopeName (scope : InstrumentationScope) (key : Text) : Option Json :=
  if key = "scope.name".toList ∧ scope.name ≠ [] then some (.string scope.name) else none

/-- The most specific value of a key: of the record itself, of its attributes, of its
scope, of its resource. -/
def mostSpecific (resource : Option Resource) (scope : Option InstrumentationScope)
    (lr : LogRecord) (key : Text) : Option Json :=
  (own lr key).or ((valueIn lr.attributes key).or
    ((scope.bind fun s => (valueIn s.attributes key).or (scopeName s key)).or
      (resource.bind fun r => valueIn r.attributes key)))

/-! ## Flattening -/

variable {m : List (Text × Json)} {key : Text}

theorem get_putAttrs (attrs : List KeyValue) (m : List (Text × Json)) (key : Text) :
    BTree.get (putAttrs attrs m) key = (valueIn attrs key).or (BTree.get m key) := by
  induction attrs using List.reverseRecOn with
  | nil => rfl
  | append_singleton attrs kv ih =>
      have hput : putAttrs (attrs ++ [kv]) m = kv.value.elim (putAttrs attrs m)
          fun v => BTree.insert kv.key (anyToJson v) (putAttrs attrs m) := by
        rw [putAttrs, List.foldl_append]
        cases hv : kv.value <;> simp [putAttrs, hv]
      have hattr : valueIn (attrs ++ [kv]) key
          = (if kv.key = key then kv.value.map anyToJson else none).or (valueIn attrs key) := by
        rw [valueIn, List.reverse_append, List.reverse_singleton, List.singleton_append,
          List.findSome?_cons]
        cases h : (if kv.key = key then kv.value.map anyToJson else none) <;> rfl
      rw [hput, hattr]
      cases hv : kv.value with
      | none => simp [ih]
      | some v =>
          by_cases hk : kv.key = key
          · simp [BTree.get_insert, hk]
          · simp [BTree.get_insert, Ne.symm hk, hk, ih]

theorem get_insertIf {c : Prop} [Decidable c] (k : Text) (v : Json) :
    BTree.get (if c then m else BTree.insert k v m) key
      = if key = k ∧ ¬ c then some v else BTree.get m key := by
  by_cases hc : c
  · simp [hc]
  · by_cases hk : key = k
    · simp [hc, hk, BTree.get_insert]
    · simp [hc, hk, BTree.get_insert]

/-- **The flattened map** has the most specific value of every key. -/
theorem get_flatten (resource : Option Resource) (scope : Option InstrumentationScope)
    (lr : LogRecord) (key : Text) :
    BTree.get (flatten resource scope lr) key = mostSpecific resource scope lr key := by
  have hbody (m : List (Text × Json)) (b : AnyValue) :
      BTree.get (BTree.insert "body".toList (anyToJson b) m) key
        = (if key = "body".toList then some (anyToJson b) else none).or (BTree.get m key) := by
    rw [BTree.get_insert]
    split <;> rfl
  have hname (s : InstrumentationScope) (m : List (Text × Json)) :
      BTree.get (if s.name = [] then m
        else BTree.insert "scope.name".toList (.string s.name) m) key
        = (scopeName s key).or (BTree.get m key) := by
    rw [get_insertIf, scopeName]
    split <;> rfl
  have hnil : BTree.get ([] : List (Text × Json)) key = none := rfl
  -- the body, the scope and the resource are there or not
  cases hb : lr.body <;> cases scope <;> cases resource <;>
    simp only [flatten, hb, get_insertIf, hbody, hname, get_putAttrs, mostSpecific, own,
      Option.bind_some, Option.bind_none, Option.map_some, Option.map_none, Option.or_assoc,
      Option.none_or, Option.or_none, hnil, ite_self] <;>
    split <;> (try split) <;> rfl

variable (libs : Libs) (src : Source)

/-- The results of a request are those of its flattened records. -/
theorem mapExportRequest_getElem? {req : ExportLogsServiceRequest} {now : Nat → Int} {i : Nat}
    {resource : Option Resource} {scope : Option InstrumentationScope} {lr : LogRecord}
    (h : (logRecords req)[i]? = some (resource, scope, lr)) :
    (mapExportRequest libs src req now)[i]?
      = some (buildRecord libs src (flatten resource scope lr) (recordTsNs lr (now i))) := by
  rw [mapExportRequest, List.getElem?_mapIdx, h]
  rfl

/-! ## The law -/

/-- What the allowlist promises of a source. -/
structure Allowlisted : Prop where
  /-- keys that are not listed do not matter -/
  congr : ∀ parsed parsed' ts, AgreeOnListed src parsed parsed' →
    buildRecord libs src parsed ts = buildRecord libs src parsed' ts
  faithful : ∀ parsed ts record ts', buildRecord libs src parsed ts = .ok (record, ts') →
    Faithful libs src parsed record
  /-- a log record is mapped like a line in which each key has its most specific value -/
  otlp : ∀ req now i resource scope lr, (logRecords req)[i]? = some (resource, scope, lr) →
    ∃ flat, (mapExportRequest libs src req now)[i]?
        = some (buildRecord libs src flat (recordTsNs lr (now i))) ∧
      ∀ key, BTree.get flat key = mostSpecific resource scope lr key

/-- **The allowlist holds for every source**, for lines and for log records. -/
theorem allowlisted : Allowlisted libs src where
  congr _ _ ts h := buildRecord_congr h ts
  faithful _ _ _ _ h := Map.faithful h
  otlp _ _ _ _ _ _ h :=
    ⟨_, mapExportRequest_getElem? libs src h, fun key => get_flatten _ _ _ key⟩

/-! ## The key of the body -/

/-- A resource with an attribute `body`. -/
def bodyAttribute : Resource := { attributes := [⟨"body".toList, some (.stringValue "x".toList)⟩] }

/-- A log record without a body. -/
def bodyless : LogRecord := { bodyRecord "" with body := none }

/-- The body of a record that has none is an attribute of that name. -/
theorem body_not_reserved :
    ¬ ∀ (resource : Option Resource) (scope : Option InstrumentationScope) (lr : LogRecord)
      (ts : Int) (record : Record) (ts' : Int),
      buildRecord plainLibs bodySource (flatten resource scope lr) ts = .ok (record, ts') →
        ∀ f ∈ record.fields, f.1 = "body".toList → lr.body.isSome = true := by
  intro h
  have hflat : flatten (some bodyAttribute) none bodyless
      = [("body".toList, .string "x".toList)] := rfl
  have hbuild : buildRecord plainLibs bodySource (flatten (some bodyAttribute) none bodyless) 0
      = .ok (recordOf plainLibs bodySource [("body".toList, .string "x".toList)]
          [("body".toList, .str "x".toList)], 0) := by
    rw [hflat]
    rfl
  have hsome := h (some bodyAttribute) none bodyless 0 _ 0 hbuild
    ("body".toList, .str "x".toList) (by simp [recordOf]) rfl
  cases hsome

end Tributary.Otlp
