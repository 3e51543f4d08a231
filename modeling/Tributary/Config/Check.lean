import Tributary.Config.Hup

/-!
# Checking a file without its environment

`Config::read` expands the static tags in two modes: a start needs every variable, a check
leaves the reference of one that is not set as it stands and collects its name. A value is
read once as a template of texts and references; the modes differ in what they make of it.
-/

namespace Tributary.Config

open Map Transform

/-! ## Reading -/

/-- What an unset variable means to the caller. -/
inductive Env where
  /-- an error: the agent starts -/
  | require
  /-- its name is collected: `--check-config` -/
  | note
deriving DecidableEq, Repr

/-- A reference as the file spells it. -/
def spelled (var : Text) : Text := '$' :: '\x7b' :: var ++ ['\x7d']

/-- `expand_env_into`, over what is left of the value. -/
def expandInto (mode : Env) (env : Text → Option Text) (value : Text) :
    Nat → Text → List Text → Except FileError (Text × List Text)
  | 0, rest, unset => .ok (rest, unset)
  | fuel + 1, rest, unset =>
      match findReference rest with
      | none => .ok (rest, unset)
      | some (before, after) =>
          if '\x7d' ∈ after then
            let var := after.takeWhile (· ≠ '\x7d')
            let rest := (after.dropWhile (· ≠ '\x7d')).tail
            match env var with
            | some val => do
                let (out, unset) ← expandInto mode env value fuel rest unset
                .ok (before ++ val ++ out, unset)
            | none =>
                match mode with
                | .note => do
                    let unset := if var ∈ unset then unset else unset ++ [var]
                    let (out, unset) ← expandInto mode env value fuel rest unset
                    .ok (before ++ spelled var ++ out, unset)
                | .require => .error (.unset var)
          else .error (.unterminated value)

def expandTagsInto (mode : Env) (env : Text → Option Text) :
    List (Text × Text) → List Text → Except FileError (List (Text × Text) × List Text)
  | [], unset => .ok ([], unset)
  | (k, v) :: tags, unset => do
      let (v, unset) ← expandInto mode env v v.length v unset
      let (tags, unset) ← expandTagsInto mode env tags unset
      .ok ((k, v) :: tags, unset)

def expandSourcesInto (mode : Env) (env : Text → Option Text) :
    List SourceTable → List Text → Except FileError (List SourceTable × List Text)
  | [], unset => .ok ([], unset)
  | t :: sources, unset => do
      let (tagsStatic, unset) ← expandTagsInto mode env t.tagsStatic unset
      let (sources, unset) ← expandSourcesInto mode env sources unset
      .ok ({ t with tagsStatic } :: sources, unset)

/-- `Config::read`, of a file that has parsed. -/
def readFile (p : Platform) (mode : Env) (f : File) : Except FileError (File × List Text) := do
  let (sources, unset) ← expandSourcesInto mode p.env f.sources []
  check p { f with sources }
  .ok ({ f with sources }, unset)

inductive TextError where
  /-- not a TOML file of this shape -/
  | toml (e : String)
  | file (e : FileError)
deriving DecidableEq, Repr

/-- `Config::read`; `parse` is `toml::from_str`. -/
def readText (parse : Text → Except String File) (p : Platform) (mode : Env) (text : Text) :
    Except TextError (File × List Text) := do
  let f ← (parse text).mapError .toml
  (readFile p mode f).mapError .file

/-- `Config::load`. -/
def loadText (parse : Text → Except String File) (p : Platform) (text : Text) :
    Except TextError File := (readText parse p .require text).map (·.1)

/-- `Config::check`. -/
def checkText (parse : Text → Except String File) (p : Platform) (text : Text) :
    Except TextError (File × List Text) := readText parse p .note text

/-! ## Templates -/

inductive Piece where
  | text (t : Text)
  | ref (var : Text)
deriving DecidableEq, Repr

def piecesFrom : Nat → Text → Option (List Piece)
  | 0, rest => some [.text rest]
  | fuel + 1, rest =>
      match findReference rest with
      | none => some [.text rest]
      | some (before, after) =>
          if '\x7d' ∈ after then
            (piecesFrom fuel (after.dropWhile (· ≠ '\x7d')).tail).map fun ps =>
              .text before :: .ref (after.takeWhile (· ≠ '\x7d')) :: ps
          else none

/-- The pieces of a value, unless a reference is not terminated. -/
def template (value : Text) : Option (List Piece) := piecesFrom value.length value

def pieces (value : Text) : List Piece := (template value).getD []

/-- A template with the values of an environment in it; a variable that is not set is
spelled. -/
def fillIn (env : Text → Option Text) (ps : List Piece) : Text :=
  ps.flatMap fun
    | .text t => t
    | .ref v => (env v).getD (spelled v)

/-- The same template with the variables that are set no longer in it. -/
def leave (env : Text → Option Text) (ps : List Piece) : List Piece :=
  ps.map fun
    | .text t => .text t
    | .ref v => (env v).elim (.ref v) .text

/-- A template as the file spells it. -/
def literal (ps : List Piece) : Text := fillIn (fun _ => none) ps

def refs (ps : List Piece) : List Text :=
  ps.filterMap fun
    | .text _ => none
    | .ref v => some v

/-- The names collected on the way. -/
def collectUnset (env : Text → Option Text) (unset vars : List Text) : List Text :=
  vars.foldl (fun unset v => if env v = none ∧ v ∉ unset then unset ++ [v] else unset) unset

/-- The source with other values of its static tags. -/
def SourceTable.mapTags (g : Text → Text) (t : SourceTable) : SourceTable :=
  { t with tagsStatic := t.tagsStatic.map fun kv => (kv.1, g kv.2) }

def File.mapTags (g : Text → Text) (f : File) : File :=
  { f with sources := f.sources.map (SourceTable.mapTags g) }

/-- The values of the static tags. -/
def File.values (f : File) : List Text :=
  f.sources.flatMap fun t => t.tagsStatic.map (·.2)

/-- The variables that the file references. -/
def File.references (f : File) : List Text := f.values.flatMap fun v => refs (pieces v)

/-- Each reference has its closing brace. -/
def File.Terminated (f : File) : Prop := ∀ v ∈ f.values, (template v).isSome = true

/-! ## What the modes make of a template -/

variable {mode : Env} {env env' : Text → Option Text} {value rest : Text} {unset : List Text}
  {ps : List Piece} {v : Text}

@[simp] theorem fillIn_nil : fillIn env [] = [] := rfl

@[simp] theorem fillIn_text (t : Text) : fillIn env (.text t :: ps) = t ++ fillIn env ps := rfl

@[simp] theorem fillIn_ref :
    fillIn env (.ref v :: ps) = (env v).getD (spelled v) ++ fillIn env ps := rfl

@[simp] theorem refs_text (t : Text) : refs (.text t :: ps) = refs ps := rfl

@[simp] theorem refs_ref : refs (.ref v :: ps) = v :: refs ps := rfl

theorem collectUnset_cons (vars : List Text) :
    collectUnset env unset (v :: vars)
      = collectUnset env (if env v = none ∧ v ∉ unset then unset ++ [v] else unset) vars := rfl

theorem collectUnset_append (a b : List Text) :
    collectUnset env unset (a ++ b) = collectUnset env (collectUnset env unset a) b :=
  List.foldl_append

theorem collectUnset_of_set {vars : List Text} (h : ∀ v ∈ vars, env v ≠ none) :
    collectUnset env unset vars = unset := by
  induction vars with
  | nil => rfl
  | cons v vars ih =>
      rw [List.forall_mem_cons] at h
      rw [collectUnset_cons, if_neg fun hv => h.1 hv.1]
      exact ih h.2

theorem mem_collectUnset {vars : List Text} :
    v ∈ collectUnset env unset vars ↔ v ∈ unset ∨ v ∈ vars ∧ env v = none := by
  induction vars generalizing unset with
  | nil => simp [collectUnset]
  | cons x vars ih =>
      rw [collectUnset_cons, ih]
      by_cases hx : env x = none ∧ x ∉ unset
      · rw [if_pos hx, List.mem_append, List.mem_singleton, List.mem_cons, or_assoc]
        refine or_congr_right ⟨?_, ?_⟩
        · rintro (rfl | ⟨hv, hnone⟩)
          · exact ⟨.inl rfl, hx.1⟩
          · exact ⟨.inr hv, hnone⟩
        · rintro ⟨rfl | hv, hnone⟩
          · exact .inl rfl
          · exact .inr ⟨hv, hnone⟩
      · rw [if_neg hx, List.mem_cons]
        constructor
        · exact fun h => h.imp_right fun h => ⟨.inr h.1, h.2⟩
        · rintro (h | ⟨rfl | hv, hnone⟩)
          · exact .inl h
          · exact .inl (not_not.mp fun h => hx ⟨hnone, h⟩)
          · exact .inr ⟨hv, hnone⟩

/-- **A value expands** when its references are terminated and, at a start, set. -/
theorem expandInto_eq_ok_iff {fuel : Nat} {r : Text × List Text} :
    expandInto mode env value fuel rest unset = .ok r ↔
      ∃ ps, piecesFrom fuel rest = some ps ∧ (mode = .require → ∀ v ∈ refs ps, env v ≠ none)
        ∧ r = (fillIn env ps, collectUnset env unset (refs ps)) := by
  induction fuel generalizing rest unset r with
  | zero => simp [expandInto, piecesFrom, refs, collectUnset, eq_comm]
  | succ fuel ih =>
      rw [expandInto, piecesFrom]
      cases hfind : findReference rest with
      | none => simp [refs, collectUnset, eq_comm]
      | some found =>
          obtain ⟨before, after⟩ := found
          by_cases hclosed : '\x7d' ∈ after
          · simp only [if_pos hclosed, Option.map_eq_some_iff]
            generalize after.takeWhile (· ≠ '\x7d') = var
            cases hval : env var with
            | some val =>
                simp only [bind_eq_ok, ih]
                constructor
                · rintro ⟨_, ⟨ps, hps, hset, rfl⟩, hr⟩
                  refine ⟨_, ⟨ps, hps, rfl⟩, fun hmode => ?_, ?_⟩
                  · simpa [hval] using hset hmode
                  · cases hr
                    simp [hval, collectUnset_cons]
                · rintro ⟨_, ⟨ps, hps, rfl⟩, hset, rfl⟩
                  refine ⟨_, ⟨ps, hps, fun hmode => ?_, rfl⟩, ?_⟩
                  · have hall := hset hmode
                    rw [refs_text, refs_ref, List.forall_mem_cons] at hall
                    exact hall.2
                  · simp [hval, collectUnset_cons]
            | none =>
                cases mode with
                | require =>
                    refine ⟨nofun, ?_⟩
                    rintro ⟨_, ⟨ps, hps, rfl⟩, hset, -⟩
                    exact absurd hval (hset rfl _ (List.mem_cons_self ..))
                | note =>
                    simp only [bind_eq_ok, ih]
                    constructor
                    · rintro ⟨_, ⟨ps, hps, -, rfl⟩, hr⟩
                      refine ⟨_, ⟨ps, hps, rfl⟩, nofun, ?_⟩
                      cases hr
                      simp [hval, collectUnset_cons, ite_not]
                    · rintro ⟨_, ⟨ps, hps, rfl⟩, -, rfl⟩
                      refine ⟨_, ⟨ps, hps, nofun, rfl⟩, ?_⟩
                      simp [hval, collectUnset_cons, ite_not]
          · simp [hclosed]

/-- The values of several tags, in their order. -/
theorem expandTagsInto_eq_ok_iff {tags : List (Text × Text)}
    {r : List (Text × Text) × List Text} :
    expandTagsInto mode env tags unset = .ok r ↔
      (∀ kv ∈ tags, (template kv.2).isSome = true) ∧
        (mode = .require → ∀ v ∈ tags.flatMap (fun kv => refs (pieces kv.2)), env v ≠ none) ∧
          r = (tags.map (fun kv => (kv.1, fillIn env (pieces kv.2))),
            collectUnset env unset (tags.flatMap fun kv => refs (pieces kv.2))) := by
  induction tags generalizing unset r with
  | nil =>
      constructor
      · rintro ⟨⟩
        exact ⟨by simp, by simp, rfl⟩
      · rintro ⟨-, -, rfl⟩
        rfl
  | cons kv tags ih =>
      obtain ⟨k, v⟩ := kv
      simp only [expandTagsInto, bind_eq_ok, expandInto_eq_ok_iff, ih, List.forall_mem_cons,
        List.flatMap_cons, List.map_cons, List.forall_mem_append, collectUnset_append]
      constructor
      · rintro ⟨_, ⟨ps, hps, hset, rfl⟩, _, ⟨hall, hsets, rfl⟩, hr⟩
        have hpieces : pieces v = ps := by rw [pieces, template, hps]; rfl
        have htemplate : (template v).isSome = true := by rw [template, hps]; rfl
        cases hr
        rw [hpieces]
        exact ⟨⟨htemplate, hall⟩, fun hmode => ⟨hset hmode, hsets hmode⟩, rfl⟩
      · rintro ⟨⟨hv, hall⟩, hset, rfl⟩
        obtain ⟨ps, hps⟩ := Option.isSome_iff_exists.mp hv
        have hpieces : pieces v = ps := by rw [pieces, hps]; rfl
        rw [hpieces] at hset ⊢
        exact ⟨_, ⟨ps, hps, fun hmode => (hset hmode).1, rfl⟩, _,
          ⟨hall, fun hmode => (hset hmode).2, rfl⟩, rfl⟩

theorem expandSourcesInto_eq_ok_iff {f : File} {r : List SourceTable × List Text} :
    expandSourcesInto mode env f.sources [] = .ok r ↔
      f.Terminated ∧ (mode = .require → ∀ v ∈ f.references, env v ≠ none) ∧
        r = ((f.mapTags fun v => fillIn env (pieces v)).sources,
          collectUnset env [] f.references) := by
  unfold File.Terminated File.references File.values File.mapTags
  generalize f.sources = sources
  generalize ([] : List Text) = unset
  induction sources generalizing unset r with
  | nil =>
      constructor
      · rintro ⟨⟩
        exact ⟨by simp, by simp, rfl⟩
      · rintro ⟨-, -, rfl⟩
        rfl
  | cons t sources ih =>
      simp only [expandSourcesInto, bind_eq_ok, expandTagsInto_eq_ok_iff, ih, List.flatMap_cons,
        List.map_cons, List.forall_mem_append, List.flatMap_append, collectUnset_append,
        List.forall_mem_map, List.flatMap_map]
      constructor
      · rintro ⟨_, ⟨hall, hset, rfl⟩, _, ⟨halls, hsets, rfl⟩, hr⟩
        cases hr
        exact ⟨⟨hall, halls⟩, fun hmode => ⟨hset hmode, hsets hmode⟩, rfl⟩
      · rintro ⟨⟨hall, halls⟩, hset, rfl⟩
        exact ⟨_, ⟨hall, fun hmode => (hset hmode).1, rfl⟩, _,
          ⟨halls, fun hmode => (hset hmode).2, rfl⟩, rfl⟩

/-! ## Reading a file -/

variable {p : Platform} {f : File}

theorem forM_mapTags {ε : Type} {k : SourceTable → Except ε Unit} {g : Text → Text}
    (hk : ∀ t : SourceTable, k (t.mapTags g) = k t) (sources : List SourceTable) :
    (sources.map (SourceTable.mapTags g)).forM k = sources.forM k := by
  induction sources with
  | nil => rfl
  | cons t sources ih =>
      show (k (t.mapTags g) >>= fun _ => (sources.map (SourceTable.mapTags g)).forM k)
        = (k t >>= fun _ => sources.forM k)
      rw [hk, ih]

theorem checkNames_mapTags (g : Text → Text) (seen : List Text) (sources : List SourceTable) :
    checkNames seen ((sources.map (SourceTable.mapTags g)).map SourceTable.entry)
      = checkNames seen (sources.map SourceTable.entry) := by
  induction sources generalizing seen with
  | nil => rfl
  | cons t sources ih =>
      show (if t.name ∈ seen then Except.error (ReadError.sharedName t.name)
          else checkNames (t.name :: seen)
            ((sources.map (SourceTable.mapTags g)).map SourceTable.entry)) = _
      rw [ih]
      rfl

theorem checkMany_mapTags (g : Text → Text) (sources : List SourceTable) :
    checkMany (sources.map (SourceTable.mapTags g)) = checkMany sources := by
  unfold checkMany
  rw [List.length_map, checkNames_mapTags, forM_mapTags fun _ => rfl]

/-- The checks do not look at the static tags, nor at the environment. -/
theorem check_mapTags (g : Text → Text) : check { p with env } (f.mapTags g) = check p f := by
  have hsome : checkSome (f.mapTags g) = checkSome f := by
    have hempty : (f.mapTags g).sources = [] ↔ f.sources = [] := List.map_eq_nil_iff
    unfold checkSome
    simp only [hempty]
    rfl
  have hinput : (f.mapTags g).sources.forM (fun t => ofRead (checkInput (p.build f) t.entry))
      = f.sources.forM (fun t => ofRead (checkInput (p.build f) t.entry)) :=
    forM_mapTags (fun _ => rfl) f.sources
  have hsource : (f.mapTags g).sources.forM (checkSource (p.build f))
      = f.sources.forM (checkSource (p.build f)) := forM_mapTags (fun _ => rfl) f.sources
  have hmany : checkMany (f.mapTags g).sources = checkMany f.sources :=
    checkMany_mapTags g f.sources
  show (do
    checkSome (f.mapTags g)
    f.metrics.toList.forM checkMetrics
    f.otlp.toList.forM checkOtlp
    (f.mapTags g).sources.forM fun t => ofRead (checkInput (p.build f) t.entry)
    checkMany (f.mapTags g).sources
    f.output.tls.toList.forM (checkTls f.output.url)
    (f.mapTags g).sources.forM (checkSource (p.build f))) = check p f
  rw [hsome, hinput, hmany, hsource]
  rfl

/-- **A file is read** when its references are terminated, set at a start, and it passes the
checks. -/
theorem readFile_eq_ok_iff {r : File × List Text} :
    readFile { p with env } mode f = .ok r ↔
      f.Terminated ∧ (mode = .require → ∀ v ∈ f.references, env v ≠ none)
        ∧ check p f = .ok ()
        ∧ r = (f.mapTags fun v => fillIn env (pieces v), collectUnset env [] f.references) := by
  have hfile (g : Text → Text) : { f with sources := (f.mapTags g).sources } = f.mapTags g := rfl
  simp only [readFile, bind_eq_ok, expandSourcesInto_eq_ok_iff]
  constructor
  · rintro ⟨_, ⟨hterm, hset, rfl⟩, ⟨⟩, hcheck, hr⟩
    rw [hfile, check_mapTags] at hcheck
    exact ⟨hterm, hset, hcheck, (Except.ok.inj hr).symm⟩
  · rintro ⟨hterm, hset, hcheck, rfl⟩
    refine ⟨_, ⟨hterm, hset, rfl⟩, (), ?_, rfl⟩
    rw [hfile, check_mapTags, hcheck]

theorem expandInto_require (fuel : Nat) :
    expandInto .require env value fuel rest unset
      = (expandFrom env value fuel rest).map fun t => (t, unset) := by
  induction fuel generalizing rest with
  | zero => rfl
  | succ fuel ih =>
      rw [expandInto, expandFrom]
      cases hfind : findReference rest with
      | none => rfl
      | some found =>
          obtain ⟨before, after⟩ := found
          by_cases hclosed : '\x7d' ∈ after
          · simp only [if_pos hclosed, ih]
            cases env (after.takeWhile (· ≠ '\x7d')) with
            | none => rfl
            | some val =>
                simp only
                cases expandFrom env value fuel (after.dropWhile (· ≠ '\x7d')).tail <;> rfl
          · simp only [if_neg hclosed]
            rfl

theorem expandTagsInto_require (tags : List (Text × Text)) :
    expandTagsInto .require env tags unset
      = (tags.mapM fun kv => (expandEnv env kv.2).map (kv.1, ·)).map fun t => (t, unset) := by
  induction tags with
  | nil => rfl
  | cons kv tags ih =>
      rw [expandTagsInto, expandInto_require, List.mapM_cons, expandEnv]
      cases expandFrom env kv.2 kv.2.length kv.2 with
      | error e => rfl
      | ok v =>
          show (expandTagsInto .require env tags unset >>= _) = _
          rw [ih]
          cases tags.mapM fun kv => (expandEnv env kv.2).map (kv.1, ·) <;> rfl

theorem expandSourcesInto_require (sources : List SourceTable) :
    expandSourcesInto .require env sources unset
      = (sources.mapM (expandTags env)).map fun t => (t, unset) := by
  induction sources with
  | nil => rfl
  | cons t sources ih =>
      rw [expandSourcesInto, expandTagsInto_require, List.mapM_cons, expandTags]
      cases t.tagsStatic.mapM fun kv => (expandEnv env kv.2).map (kv.1, ·) with
      | error e => rfl
      | ok tags =>
          show (expandSourcesInto .require env sources unset >>= _) = _
          rw [ih]
          cases sources.mapM (expandTags env) <;> rfl

/-- At a start, reading is the loading of the rest of the development. -/
theorem load_eq (p : Platform) (f : File) : load p f = (readFile p .require f).map (·.1) := by
  rw [load, readFile, expandSourcesInto_require]
  cases f.sources.mapM (expandTags p.env) with
  | error e => rfl
  | ok sources =>
      show (check p { f with sources } >>= _) = Except.map _ (check p { f with sources } >>= _)
      cases check p { f with sources } <;> rfl

/-! ## Environments -/

/-- A name a variable can have. -/
def Settable (v : Text) : Prop := v ≠ [] ∧ '=' ∉ v ∧ '\x00' ∉ v

/-- What `std::env::var` finds: no variable whose name cannot be set. -/
structure Environment where
  var : Text → Option Text
  settable : ∀ v, var v ≠ none → Settable v

/-- The machine with this environment. -/
def Platform.within (p : Platform) (e : Environment) : Platform := { p with env := e.var }

/-- The second environment has values for exactly these variables beside. -/
def Supplies (e e' : Environment) (unset : List Text) : Prop :=
  (∀ v ∈ unset, e'.var v ≠ none) ∧ ∀ v, v ∉ unset → e'.var v = e.var v

/-- What a check leaves of a value: the template without the variables that are set. -/
def leftOf (e : Environment) (value : Text) : List Piece := leave e.var (pieces value)

/-- `check` and `load` agree on the text. -/
structure Agree (parse : Text → Except String File) (p : Platform) (e : Environment)
    (text : Text) : Prop where
  /-- a file that is checked loads, once its variables have values, with these values in
  the places of the references it has left literal -/
  loads : ∀ cfg unset, checkText parse (p.within e) text = .ok (cfg, unset) →
    (∃ e', Supplies e e' unset) ∧ ∃ f, parse text = .ok f
      ∧ cfg = f.mapTags (fun v => literal (leftOf e v))
      ∧ ∀ e', Supplies e e' unset → loadText parse (p.within e') text
          = .ok (f.mapTags fun v => fillIn e'.var (leftOf e v))
  /-- a file that loads is checked, and nothing is unset -/
  checks : ∀ cfg, loadText parse (p.within e) text = .ok cfg →
    checkText parse (p.within e) text = .ok (cfg, [])

variable {parse : Text → Except String File} {e e' : Environment} {text : Text}

theorem literal_leave (ps : List Piece) : literal (leave env ps) = fillIn env ps := by
  induction ps with
  | nil => rfl
  | cons piece ps ih =>
      cases piece with
      | text t => exact congrArg (t ++ ·) ih
      | ref v =>
          cases hv : env v with
          | none =>
              show fillIn _ ((env v).elim (.ref v) .text :: leave env ps) = _
              rw [hv, fillIn_ref, hv]
              exact congrArg (spelled v ++ ·) ih
          | some x =>
              show fillIn _ ((env v).elim (.ref v) .text :: leave env ps) = _
              rw [hv, fillIn_ref, hv]
              exact congrArg (x ++ ·) ih

/-- What is filled in later goes where nothing was before. -/
theorem fillIn_leave {ps : List Piece}
    (h : ∀ v ∈ refs ps, env v ≠ none → env' v = env v) :
    fillIn env' (leave env ps) = fillIn env' ps := by
  induction ps with
  | nil => rfl
  | cons piece ps ih =>
      cases piece with
      | text t => exact congrArg (t ++ ·) (ih h)
      | ref v =>
          rw [refs_ref, List.forall_mem_cons] at h
          show fillIn _ ((env v).elim (.ref v) .text :: leave env ps) = _
          cases hv : env v with
          | none => exact congrArg ((env' v).getD (spelled v) ++ ·) (ih h.2)
          | some x =>
              have hsame : env' v = some x := (h.1 (by rw [hv]; nofun)).trans hv
              rw [fillIn_ref, hsame]
              exact congrArg (x ++ ·) (ih h.2)

theorem mapTags_congr {g g' : Text → Text} (h : ∀ v ∈ f.values, g v = g' v) :
    f.mapTags g = f.mapTags g' := by
  unfold File.mapTags
  congr 1
  apply List.map_congr_left
  intro t ht
  unfold SourceTable.mapTags
  congr 1
  apply List.map_congr_left
  intro kv hkv
  have hmem : kv.2 ∈ f.values := List.mem_flatMap.mpr ⟨t, ht, List.mem_map_of_mem hkv⟩
  rw [h kv.2 hmem]

theorem mem_references {v : Text} (hvalue : value ∈ f.values) (hv : v ∈ refs (pieces value)) :
    v ∈ f.references := List.mem_flatMap.mpr ⟨value, hvalue, hv⟩

theorem checkText_eq_ok_iff {r : File × List Text} :
    checkText parse (p.within e) text = .ok r ↔
      ∃ f, parse text = .ok f ∧ f.Terminated ∧ check p f = .ok ()
        ∧ r = (f.mapTags fun v => fillIn e.var (pieces v),
          collectUnset e.var [] f.references) := by
  cases hparse : parse text with
  | error err => simp [checkText, readText, hparse, Except.mapError, bind, Except.bind]
  | ok f =>
      have hread : checkText parse (p.within e) text
          = (readFile { p with env := e.var } .note f).mapError .file := by
        rw [checkText, readText, hparse]
        rfl
      have herror {x : Except FileError (File × List Text)} :
          x.mapError TextError.file = .ok r ↔ x = .ok r := by
        cases x <;> simp [Except.mapError]
      rw [hread, herror, readFile_eq_ok_iff]
      simp

theorem loadText_eq_ok_iff {cfg : File} :
    loadText parse (p.within e) text = .ok cfg ↔
      ∃ f, parse text = .ok f ∧ f.Terminated ∧ (∀ v ∈ f.references, e.var v ≠ none)
        ∧ check p f = .ok () ∧ cfg = f.mapTags fun v => fillIn e.var (pieces v) := by
  cases hparse : parse text with
  | error err => simp [loadText, readText, hparse, Except.mapError, bind, Except.bind, Except.map]
  | ok f =>
      have hread : loadText parse (p.within e) text
          = ((readFile { p with env := e.var } .require f).mapError .file).map (·.1) := by
        rw [loadText, readText, hparse]
        rfl
      have herror {x : Except FileError (File × List Text)} :
          (x.mapError TextError.file).map (·.1) = .ok cfg ↔ ∃ unset, x = .ok (cfg, unset) := by
        cases x <;> simp [Except.mapError, Except.map, Prod.ext_iff]
      rw [hread, herror]
      simp only [readFile_eq_ok_iff, Prod.mk.injEq, Except.ok.injEq, exists_eq_left']
      exact ⟨fun ⟨_, hterm, hset, hcheck, hcfg, _⟩ => ⟨hterm, hset trivial, hcheck, hcfg⟩,
        fun ⟨hterm, hset, hcheck, hcfg⟩ => ⟨_, hterm, fun _ => hset, hcheck, hcfg, rfl⟩⟩

/-! ## The law -/

/-- Every variable a file references can be set, if the file passes the checks. -/
def Fillable (parse : Text → Except String File) (p : Platform) (text : Text) : Prop :=
  ∀ f, parse text = .ok f → f.Terminated → check p f = .ok () → ∀ v ∈ f.references, Settable v

/-- What is supplied, where there is nothing yet. -/
def Environment.extend (e : Environment) (unset : List Text) (h : ∀ v ∈ unset, Settable v) :
    Environment where
  var v := if v ∈ unset then some ['x'] else e.var v
  settable v hv := by
    by_cases hmem : v ∈ unset
    · exact h v hmem
    · rw [if_neg hmem] at hv
      exact e.settable v hv

/-- **`check` and `load` agree** on a text exactly if all it references can be set. -/
theorem check_agrees_iff (parse : Text → Except String File) (p : Platform) (e : Environment)
    (text : Text) : Agree parse p e text ↔ Fillable parse p text := by
  constructor
  · intro h f hparse hterm hcheck v hv
    obtain ⟨⟨e', hset, -⟩, -⟩ :=
      h.loads _ _ (checkText_eq_ok_iff.mpr ⟨f, hparse, hterm, hcheck, rfl⟩)
    cases hvar : e.var v with
    | some x => exact e.settable v (by rw [hvar]; nofun)
    | none => exact e'.settable v (hset v (mem_collectUnset.mpr (.inr ⟨hv, hvar⟩)))
  · intro hfill
    constructor
    case loads =>
      intro cfg unset hok
      obtain ⟨f, hparse, hterm, hcheck, hr⟩ := checkText_eq_ok_iff.mp hok
      obtain ⟨rfl, rfl⟩ := Prod.mk.inj hr
      have hunset : ∀ v ∈ collectUnset e.var [] f.references, Settable v := by
        intro v hv
        rcases mem_collectUnset.mp hv with hnil | ⟨href, -⟩
        · cases hnil
        · exact hfill f hparse hterm hcheck v href
      refine ⟨⟨e.extend _ hunset, fun v hv => ?_, fun v hv => if_neg hv⟩, f, hparse, ?_, ?_⟩
      · show (if v ∈ collectUnset e.var [] f.references then some ['x'] else e.var v) ≠ none
        rw [if_pos hv]
        nofun
      · exact mapTags_congr fun v _ => (literal_leave (pieces v)).symm
      · intro e' hsup
        have hkept : ∀ v, e.var v ≠ none → e'.var v = e.var v := by
          intro v hv
          refine hsup.2 v fun hmem => ?_
          rcases mem_collectUnset.mp hmem with hnil | ⟨-, hnone⟩
          · cases hnil
          · exact hv hnone
        have hall : ∀ v ∈ f.references, e'.var v ≠ none := by
          intro v hv
          by_cases hnone : e.var v = none
          · exact hsup.1 v (mem_collectUnset.mpr (.inr ⟨hv, hnone⟩))
          · rw [hkept v hnone]
            exact hnone
        refine loadText_eq_ok_iff.mpr ⟨f, hparse, hterm, hall, hcheck, ?_⟩
        exact mapTags_congr fun v _ => fillIn_leave fun x _ hx => hkept x hx
    case checks =>
      intro cfg hok
      obtain ⟨f, hparse, hterm, hset, hcheck, rfl⟩ := loadText_eq_ok_iff.mp hok
      refine checkText_eq_ok_iff.mpr ⟨f, hparse, hterm, hcheck, ?_⟩
      rw [collectUnset_of_set hset]

/-! ## A reference without a name -/

/-- The machine has no variables. -/
def bareEnvironment : Environment := { var := fun _ => none, settable := fun _ h => absurd rfl h }

/-- A static tag whose value references the empty name. -/
def namelessFile : File :=
  fileOf [{ tailOf "a" none with tagsStatic := [("node".toList, spelled [])] }]

/-- It is checked and found to need a variable that no machine can have. -/
theorem check_nameless :
    ¬ ∀ (parse : Text → Except String File) (p : Platform) (e : Environment) (text : Text),
      Agree parse p e text := by
  intro h
  have hcheck : checkText (fun _ => .ok namelessFile) (bareHost.toPlatform.within bareEnvironment)
      [] = .ok (namelessFile, [[]]) := by decide +kernel
  obtain ⟨⟨e', hset, -⟩, -⟩ :=
    (h (fun _ => .ok namelessFile) bareHost.toPlatform bareEnvironment []).loads _ _ hcheck
  exact (e'.settable [] (hset [] (List.mem_singleton_self _))).1 rfl

end Tributary.Config
