import Tributary.Transform

/-!
# Accepting a configuration

The checks `Config::read` makes of the sources, in its order, after the file has
parsed. The resolution of a source is held as parsed.
-/

namespace Tributary.Config

open Map Transform

/-- One `[[source]]`. -/
structure Entry where
  source : Source
  /-- `[source.multiline]` is present -/
  multiline : Bool
  filter : List Filter
  sample : List Sample
  redact : List Redact
deriving DecidableEq, Repr

def Entry.name (e : Entry) : Text := e.source.name
def Entry.path (e : Entry) : Text := e.source.path

/-- What the checks look at beside the sources. -/
structure Build where
  /-- the `journald` feature -/
  journald : Bool
  /-- the `winlog` feature -/
  winlog : Bool
  /-- an OTLP receiver or host metrics are configured -/
  others : Bool
  /-- the regex library compiles the pattern -/
  compiles : Text → Bool

inductive ReadError where
  /-- nothing to do -/
  | nothing
  /-- the parser needs a feature this binary was built without -/
  | notBuilt (name : Text) (parser : Parser)
  /-- a winlog source names no channel -/
  | noChannel (name : Text)
  /-- no `path` to tail -/
  | noPath (name : Text)
  /-- journald and winlog sources cannot be combined with other sources -/
  | combined (name : Text) (parser : Parser)
  /-- two sources share the name -/
  | sharedName (name : Text)
  /-- the parser's reassembler owns framing -/
  | multiline (name : Text) (parser : Parser)
  /-- a filter needs a non-empty `field` and `equals` -/
  | filter (name : Text)
  /-- a sample needs `rate >= 1` -/
  | sampleRate (name : Text)
  /-- a sample needs both `field` and `equals`, or neither -/
  | samplePair (name : Text)
  /-- a redact needs a non-empty `field` -/
  | redactField (name : Text)
  /-- not a valid regex -/
  | redactPattern (name pattern : Text)
deriving DecidableEq, Repr

/-! ## The checks -/

variable (b : Build)

/-- What the source reads from must be there. -/
def checkInput (e : Entry) : Except ReadError Unit :=
  match e.source.parser with
  | .journald => if b.journald then .ok () else .error (.notBuilt e.name .journald)
  | .winlog =>
      if !b.winlog then .error (.notBuilt e.name .winlog)
      else if e.path.trim = [] then .error (.noChannel e.name)
      else .ok ()
  | _ => if e.path.trim = [] then .error (.noPath e.name) else .ok ()

/-- A pull source is the only one. -/
def checkAlone (e : Entry) : Except ReadError Unit :=
  match e.source.parser with
  | .journald => .error (.combined e.name .journald)
  | .winlog => .error (.combined e.name .winlog)
  | _ => .ok ()

/-- `names.insert` for each source; they key the checkpoint and the queue. -/
def checkNames (seen : List Text) : List Entry → Except ReadError Unit
  | [] => .ok ()
  | e :: es => if e.name ∈ seen then .error (.sharedName e.name) else checkNames (e.name :: seen) es

def checkFilter (e : Entry) (f : Filter) : Except ReadError Unit :=
  if f.field.trim = [] ∨ f.equals.trim = [] then .error (.filter e.name) else .ok ()

def checkSample (e : Entry) (sm : Sample) : Except ReadError Unit :=
  if sm.rate = 0 then .error (.sampleRate e.name)
  else if sm.field.isSome ≠ sm.equals.isSome then .error (.samplePair e.name)
  else .ok ()

def checkRedact (e : Entry) (rd : Redact) : Except ReadError Unit :=
  if rd.field.trim = [] then .error (.redactField e.name)
  else if b.compiles rd.pattern then .ok ()
  else .error (.redactPattern e.name rd.pattern)

def checkFraming (e : Entry) : Except ReadError Unit :=
  if (e.source.parser = .dockerJson ∨ e.source.parser = .cri) ∧ e.multiline then
    .error (.multiline e.name e.source.parser)
  else .ok ()

/-- What a source says of its lines. -/
def checkEntry (e : Entry) : Except ReadError Unit := do
  checkFraming e
  e.filter.forM (checkFilter e)
  e.sample.forM (checkSample e)
  e.redact.forM (checkRedact b e)

/-- `Config::read`, on the sources. -/
def read (sources : List Entry) : Except ReadError Unit := do
  if sources = [] ∧ !b.others then .error .nothing
  sources.forM (checkInput b)
  if 1 < sources.length then
    sources.forM checkAlone
    checkNames [] sources
  sources.forM (checkEntry b)

/-! ## What an accepted configuration has -/

variable {b} {sources : List Entry}

theorem checkNames_eq_ok {seen : List Text} :
    checkNames seen sources = .ok ()
      ↔ (sources.map Entry.name).Nodup ∧ ∀ e ∈ sources, e.name ∉ seen := by
  induction sources generalizing seen with
  | nil => simp [checkNames]
  | cons e es ih =>
      rw [checkNames]
      by_cases hmem : e.name ∈ seen
      · simp [hmem]
      · rw [if_neg hmem, ih]
        simp only [List.mem_cons, not_or, List.map_cons, List.nodup_cons, List.mem_map,
          not_exists, not_and]
        constructor
        · rintro ⟨hnodup, hseen⟩
          refine ⟨⟨fun x hx heq => (hseen x hx).1 heq, hnodup⟩, ?_⟩
          rintro x (rfl | hx)
          · exact hmem
          · exact (hseen x hx).2
        · rintro ⟨⟨hhead, hnodup⟩, hseen⟩
          exact ⟨hnodup, fun x hx => ⟨hhead x hx, hseen x (.inr hx)⟩⟩

theorem bind_eq_ok {ε α β : Type} {x : Except ε α} {f : α → Except ε β} {r : β} :
    (x >>= f) = .ok r ↔ ∃ a, x = .ok a ∧ f a = .ok r := by
  cases x with
  | error e => simp [bind, Except.bind]
  | ok a => simp [bind, Except.bind]

end Tributary.Config
