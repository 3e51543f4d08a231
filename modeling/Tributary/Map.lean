import Mathlib.Data.List.Sort
import Tributary.K8s
import Tributary.Lp
import Tributary.Stamp

/-!
# From a parsed line to a record

The tag allowlist, the static tags, the identity and visibility tags, and the
declared fields with their coercion. What the standard library and the JSON
library do with floats and with rendering is a parameter.
-/

namespace Tributary

/-! ## Ordered maps -/

namespace BTree

variable {α : Type}

/-- `BTreeMap::insert` into the entries in key order. -/
def insert (k : Text) (v : α) : List (Text × α) → List (Text × α)
  | [] => [(k, v)]
  | e :: es =>
      if k < e.1 then (k, v) :: e :: es
      else if k = e.1 then (k, v) :: es
      else e :: insert k v es

def get (m : List (Text × α)) (k : Text) : Option α :=
  (m.find? fun e => decide (e.1 = k)).map (·.2)

/-- Collecting pairs into a map: the last value of a key wins. -/
def collect (es : List (Text × α)) : List (Text × α) :=
  es.foldl (fun m e => insert e.1 e.2 m) []

theorem get_insert (k : Text) (v : α) (m : List (Text × α)) (j : Text) :
    get (insert k v m) j = if j = k then some v else get m j := by
  induction m with
  | nil => by_cases h : j = k <;> simp [insert, get, h, eq_comm]
  | cons e es ih =>
      rw [insert]
      split
      · by_cases h : j = k <;> simp [get, h, eq_comm]
      · split
        · rename_i heq
          by_cases h : j = k
          · simp [get, h]
          · simp [get, h, Ne.symm h, ← heq]
        · rename_i hlt hne
          have hcons : ∀ m : List (Text × α),
              get (e :: m) j = if e.1 = j then some e.2 else get m j := by
            intro m
            by_cases h : e.1 = j <;> simp [get, h]
          rw [hcons, hcons, ih]
          by_cases hj : j = k
          · simp [hj, Ne.symm hne]
          · simp [hj]

/-- The last pair is the last one inserted. -/
theorem collect_concat (es : List (Text × α)) (e : Text × α) :
    collect (es ++ [e]) = insert e.1 e.2 (collect es) := by
  simp [collect, List.foldl_append]

end BTree

/-! ## Values -/

/-- A JSON number as serde_json holds it. -/
inductive Number where
  | int (n : Int)
  | float (f : F64)
deriving DecidableEq, Repr

/-- A JSON value. An object keeps its entries in key order. -/
inductive Json where
  | null
  | bool (b : Bool)
  | number (n : Number)
  | string (s : Text)
  | array (items : List Json)
  | object (entries : List (Text × Json))

/-- What the libraries do. -/
structure Libs where
  /-- `Display` of a float -/
  display : F64 → Text
  /-- `str::parse::<f64>` -/
  parseF64 : Text → Option F64
  /-- an integer as a float -/
  floatOf : Int → F64
  /-- `serde_json::Value::to_string` -/
  render : Json → Text
  /-- `serde_json::from_str` into a map in key order -/
  parseJson : Text → Except String (List (Text × Json))
  /-- `serde_json::from_str` into any value -/
  parseValue : Text → Except String Json
  /-- the text of the error `str::parse::<i64>` gives -/
  intError : Text → String
  /-- an RFC 3339 time in nanoseconds -/
  parseRfc3339 : Text → Except String Int
  /-- `String::from_utf8_lossy`, on bytes as characters -/
  decodeLossy : Text → Text
  /-- a pattern of the regex library found in a text -/
  isMatch : (pattern text : Text) → Bool
  /-- every match of the pattern replaced -/
  replaceAll : (pattern replacement text : Text) → Text

/-- `Value::as_str` or else the rendering, as tags and timestamps read values. -/
def Json.text (libs : Libs) : Json → Text
  | .string s => s
  | other => libs.render other

namespace Map

open Lp

/-! ## Configuration -/

inductive FieldType where
  | string
  | integer
  | float
  | boolean
deriving DecidableEq, Repr

inductive Parser where
  | json
  | plain
  | dockerJson
  | cri
  | journald
  | winlog
deriving DecidableEq, Repr

structure Timestamp where
  /-- the parsed key that holds the timestamp; without one the clock is read -/
  field : Option Text
  format : Text
  /-- parsed when the configuration was validated -/
  resolution : Resolution
deriving DecidableEq, Repr

/-- The part of a source's configuration that mapping reads. -/
structure Source where
  name : Text
  path : Text
  table : Text
  parser : Parser
  timestamp : Timestamp
  tags : List Text
  /-- in key order -/
  tagsStatic : List (Text × Text)
  /-- in key order -/
  fields : List (Text × FieldType)
  visibility : Option Text
  kubernetes : Bool
deriving DecidableEq, Repr

def Source.resolution (src : Source) : Resolution := src.timestamp.resolution

inductive MapError where
  | empty
  | unparseable (e : String)
  | badTimestamp (e : String)
  | uncoercibleField (key : Text) (want : FieldType) (got : Text)
deriving DecidableEq, Repr

/-! ## Mapping -/

variable (libs : Libs)

/-- A value as the declared type of its field. -/
def coerce (key : Text) (want : FieldType) (raw : Json) : Except MapError Value :=
  let uncoercible : Except MapError Value :=
    .error (.uncoercibleField key want (libs.render raw))
  match want, raw with
  | .string, .string s => .ok (.str s)
  | .string, other => .ok (.str (libs.render other))
  | .integer, .number (.int n) => if FitsI64 n then .ok (.int n) else uncoercible
  | .integer, .string s =>
      match Text.parseI64 s.trim with
      | some n => .ok (.int n)
      | none => uncoercible
  | .float, .number (.int n) => .ok (.float (libs.floatOf n))
  | .float, .number (.float f) => .ok (.float f)
  | .float, .string s =>
      match libs.parseF64 s.trim with
      | some f => .ok (.float f)
      | none => uncoercible
  | .boolean, .bool b => .ok (.bool b)
  | .boolean, .string s =>
      if s.trim ∈ [['t', 'r', 'u', 'e'], ['T', 'r', 'u', 'e'], ['T', 'R', 'U', 'E'], ['t'], ['T']]
      then .ok (.bool true)
      else if s.trim ∈ [['f', 'a', 'l', 's', 'e'], ['F', 'a', 'l', 's', 'e'],
        ['F', 'A', 'L', 'S', 'E'], ['f'], ['F']]
      then .ok (.bool false)
      else uncoercible
  | _, _ => uncoercible

/-- An allowlisted key that is present and not empty becomes a tag. -/
def allowedTag (parsed : List (Text × Json)) (key : Text) : Option (Text × Text) :=
  (BTree.get parsed key).bind fun v =>
    if v.text libs = [] then none else some (key, v.text libs)

/-- The tags in the order they are seeded; a later one overrides. -/
def seedTags (src : Source) (parsed : List (Text × Json)) : List (Text × Text) :=
  [("stream".toList, src.name)]
    ++ src.tagsStatic
    ++ src.tags.filterMap (allowedTag libs parsed)
    ++ src.visibility.toList.map (fun vis => ("_visibility".toList, vis))
    ++ (if src.kubernetes then
          match K8s.parseCriPath src.path with
          | some m => [("namespace".toList, m.namespace_), ("pod".toList, m.pod),
              ("container".toList, m.container)]
          | none => []
        else [])

/-- The declared fields that are present, in declaration order. -/
def buildFields (parsed : List (Text × Json)) :
    List (Text × FieldType) → Except MapError (List (Text × Value))
  | [] => .ok []
  | (key, want) :: rest =>
      match BTree.get parsed key with
      | none => buildFields parsed rest
      | some raw => do
          let v ← coerce libs key want raw
          let more ← buildFields parsed rest
          .ok ((key, v) :: more)

/-- The record of a parsed line with its fields coerced; its timestamp is
assigned by the stamper. -/
def recordOf (src : Source) (parsed : List (Text × Json)) (fields : List (Text × Value)) :
    Record :=
  { table := src.table
    tags := BTree.collect (seedTags libs src parsed)
    fields := fields.insertionSort fun a b => a.1 ≤ b.1
    tsNs := 0 }

/-- `build_record`. -/
def buildRecord (src : Source) (parsed : List (Text × Json)) (sourceTsNs : Int) :
    Except MapError (Record × Int) := do
  let fields ← buildFields libs parsed src.fields
  .ok (recordOf libs src parsed fields, sourceTsNs)

/-- A timestamp text in a given format; the products are those of `i64`. -/
def parseTimestamp (raw format : Text) : Except MapError Int :=
  let scaled (unit : Int) : Except MapError Int :=
    match Text.parseI64 raw.trim with
    | some v => .ok (wrap64 (v * unit))
    | none => .error (.badTimestamp (libs.intError raw.trim))
  if format = "unix_s".toList then scaled 1000000000
  else if format = "unix_ms".toList then scaled 1000000
  else if format = "unix_us".toList then scaled 1000
  else if format = "unix_ns".toList then scaled 1
  else if format = "rfc3339".toList then
    match libs.parseRfc3339 raw.trim with
    | .ok v => .ok (wrap64 v)
    | .error e => .error (.badTimestamp e)
  else .error (.badTimestamp s!"unknown timestamp format {repr (String.ofList format)}")

/-- The map a line parses to: a JSON object, or the text under `message`. -/
def parseLine (parser : Parser) (line : Text) : Except MapError (List (Text × Json)) :=
  match parser with
  | .plain => .ok [("message".toList, .string line)]
  | _ =>
      match libs.parseJson line with
      | .ok parsed => .ok parsed
      | .error e => .error (.unparseable e)

/-- The source timestamp of a parsed line; `now` is the wall clock. -/
def lineTimestamp (ts : Timestamp) (parsed : List (Text × Json)) (now : Int) :
    Except MapError Int :=
  match ts.field with
  | none => .ok now
  | some key =>
      match BTree.get parsed key with
      | none => .error (.badTimestamp s!"no '{String.ofList key}' in line")
      | some raw => parseTimestamp libs (raw.text libs) ts.format

/-- `line.trim_end_matches(['\n', '\r'])`. -/
def trimEol (line : Text) : Text :=
  (line.reverse.dropWhile fun c => c = '\n' ∨ c = '\r').reverse

/-- `map_line`: one raw line as a record and its source timestamp. -/
def mapLine (src : Source) (line : Text) (now : Int) : Except MapError (Record × Int) :=
  let line := trimEol line
  if line.trim = [] then .error .empty
  else do
    let parsed ← parseLine libs src.parser line
    let sourceTsNs ← lineTimestamp libs src.timestamp parsed now
    buildRecord libs src parsed sourceTsNs

/-! ## What mapping depends on -/

variable {libs} {src : Source} {line : Text} {now : Int}

variable (libs) in
theorem coerce_ne_empty (key : Text) (want : FieldType) (raw : Json) :
    coerce libs key want raw ≠ .error .empty := by
  unfold coerce
  split <;> (try split) <;> (try split) <;> simp

variable (libs) in
theorem buildFields_ne_empty (parsed : List (Text × Json)) (fields : List (Text × FieldType)) :
    buildFields libs parsed fields ≠ .error .empty := by
  induction fields with
  | nil => simp [buildFields]
  | cons f fields ih =>
      obtain ⟨key, want⟩ := f
      rw [buildFields]
      cases BTree.get parsed key with
      | none => exact ih
      | some raw =>
          have hne := coerce_ne_empty libs key want raw
          simp only [bind, Except.bind]
          cases hc : coerce libs key want raw with
          | error e => simpa [hc] using hne
          | ok v =>
              cases hf : buildFields libs parsed fields with
              | error e => simpa [hf] using ih
              | ok more => simp

variable (libs) in
theorem lineTimestamp_ne_empty (ts : Timestamp) (parsed : List (Text × Json)) (now : Int) :
    lineTimestamp libs ts parsed now ≠ .error .empty := by
  have hparse : ∀ raw format, parseTimestamp libs raw format ≠ .error .empty := by
    intro raw format
    unfold parseTimestamp
    repeat' split
    all_goals simp
  unfold lineTimestamp
  split
  · simp
  · split
    · simp
    · exact hparse _ _

variable (libs) in
theorem parseLine_ne_empty (parser : Parser) (line : Text) :
    parseLine libs parser line ≠ .error .empty := by
  unfold parseLine
  split
  · simp
  · split <;> simp

/-- A line is mapped in three steps, each of which can refuse it; only the
timestamp depends on the clock. -/
theorem mapLine_eq_ok_iff {record : Record} {ts : Int} :
    mapLine libs src line now = .ok (record, ts)
      ↔ (trimEol line).trim ≠ [] ∧ ∃ parsed fields,
          parseLine libs src.parser (trimEol line) = .ok parsed
          ∧ lineTimestamp libs src.timestamp parsed now = .ok ts
          ∧ buildFields libs parsed src.fields = .ok fields
          ∧ record = recordOf libs src parsed fields := by
  rw [mapLine]
  by_cases htrim : (trimEol line).trim = []
  · simp [htrim]
  · simp only [if_neg htrim]
    cases hparse : parseLine libs src.parser (trimEol line) with
    | error e => simp [bind, Except.bind]
    | ok parsed =>
        cases hts : lineTimestamp libs src.timestamp parsed now with
        | error e => simp [bind, Except.bind, hts]
        | ok ts' =>
            cases hf : buildFields libs parsed src.fields with
            | error e => simp [bind, Except.bind, hts, hf, buildRecord]
            | ok fields =>
                simp [bind, Except.bind, hts, hf, buildRecord, htrim, and_comm, eq_comm]

/-- A line is empty because it is blank, for no other reason. -/
theorem mapLine_eq_empty_iff :
    mapLine libs src line now = .error .empty ↔ (trimEol line).trim = [] := by
  rw [mapLine]
  by_cases htrim : (trimEol line).trim = []
  · simp [htrim]
  · simp only [htrim, if_false, iff_false]
    have hparse := parseLine_ne_empty libs src.parser (trimEol line)
    cases hp : parseLine libs src.parser (trimEol line) with
    | error e => simpa [hp, bind, Except.bind] using hparse
    | ok parsed =>
        have hts := lineTimestamp_ne_empty libs src.timestamp parsed now
        cases ht : lineTimestamp libs src.timestamp parsed now with
        | error e => simpa [bind, Except.bind, ht] using hts
        | ok ts =>
            have hfields := buildFields_ne_empty libs parsed src.fields
            cases hf : buildFields libs parsed src.fields with
            | error e => simpa [bind, Except.bind, ht, hf, buildRecord] using hfields
            | ok fields => simp [bind, Except.bind, ht, hf, buildRecord]

end Map

end Tributary
