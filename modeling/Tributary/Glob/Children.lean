import Tributary.FileSource
import Tributary.Glob

/-!
# The children of a glob source

Each matched file is tailed under a source made from the glob's own: its path, the
identity of its series, the labels of its pod. Its state is kept under its own key,
its stamper is its own.
-/

namespace Tributary.Glob

open FileSource Lp Map Stamp

/-- `dir.join(file)`, as text. -/
def Path.text (p : Path) : Text :=
  let file := toStringLossy p.file
  if p.dir = [] then file
  else if p.dir.getLast? = some '/' then p.dir ++ file
  else p.dir ++ '/' :: file

/-- The `stream` tag of a child: the label without the container id, or else the
state key. -/
def childName (template : Source) (path : Path) : Text :=
  if template.kubernetes then (K8s.streamLabel path.text).getD (streamId template.name path)
  else streamId template.name path

/-- The source `spawn_glob_child` makes; `labels` are those the resolver gave for the
pod, none when none is allowlisted. -/
def syntheticSource (template : Source) (labels : List (Text × Text)) (path : Path) : Source :=
  { template with
    name := childName template path
    path := path.text
    tagsStatic :=
      if (K8s.parseCriPath path.text).isSome then
        labels.foldl (fun tags kv => BTree.insert kv.1 kv.2 tags) template.tagsStatic
      else template.tagsStatic }

/-- The pipeline of a child, as far as its records depend on it. -/
structure Child where
  source : Source
  stamper : Stamper
  watermark : Watermark

/-- A framed line of one of the children. -/
structure Read where
  child : Nat
  line : Text
  now : Int

variable (libs : Libs) (rules : Rules)

/-- The child after its line; the rules are the template's. -/
def Child.after (c : Child) (e : Read) : Child :=
  let (_, stamper, watermark) := build libs c.source rules e.line e.now c.stamper c.watermark
  { c with stamper, watermark }

/-- What the child makes of its line. -/
def Child.record (c : Child) (e : Read) : Option Record :=
  match (build libs c.source rules e.line e.now c.stamper c.watermark).1 with
  | .ok (.ready record _) => some record
  | _ => none

/-- The records of the children, in the order their lines came. -/
def produced : List Child → List Read → List (Nat × Record)
  | _, [] => []
  | children, e :: es =>
      match children[e.child]? with
      | none => produced children es
      | some c =>
          ((c.record libs rules e).map (e.child, ·)).toList
            ++ produced (children.set e.child (c.after libs rules e)) es

end Tributary.Glob
