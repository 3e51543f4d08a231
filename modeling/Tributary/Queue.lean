import Tributary.Lib.Decimal

/-!
# The disk queue

A directory of segment files `{seq:012}.lp`, written through a `.tmp` and a
rename, and the in-memory `Queue` over it. The content of a segment is of any
type `β` with a size; the file system may refuse each step of a spool, for lack
of space or otherwise.
-/

namespace Tributary

open Lib

namespace Queue

/-! ## The directory -/

/-- A file name as character codes, split at the last dot. -/
structure FileName where
  stem : List Nat
  ext : List Nat
deriving DecidableEq, Repr

/-- `"lp"`. -/
def lp : List Nat := [108, 112]

/-- `"tmp"`. -/
def tmp : List Nat := [116, 109, 112]

/-- The whole name, which is what paths are compared by. -/
def FileName.codes (p : FileName) : List Nat := p.stem ++ 46 :: p.ext

/-- `path.with_extension(..)`. -/
def FileName.withExtension (p : FileName) (ext : List Nat) : FileName := { p with ext := ext }

/-- `format!("{:012}.lp", seq)`. -/
def segmentName (seq : Nat) : FileName := ⟨Decimal.zeroPad 12 seq, lp⟩

/-- A file's content: written in full, or cut off in the middle. -/
inductive Content (β : Type) where
  | whole (body : β)
  | part
deriving DecidableEq, Repr

/-- The entries of a directory in the order `read_dir` happens to list them. -/
abbrev Dir (β : Type) := List (FileName × Content β)

namespace Dir

variable {β : Type}

def get (dir : Dir β) (p : FileName) : Option (Content β) :=
  (dir.find? fun e => decide (e.1 = p)).map (·.2)

def remove (dir : Dir β) (p : FileName) : Dir β := dir.filter fun e => decide (e.1 ≠ p)

/-- Create or overwrite a file. -/
def write (dir : Dir β) (p : FileName) (c : Content β) : Dir β := dir.remove p ++ [(p, c)]

/-- `rename`, replacing the target. -/
def rename (dir : Dir β) (src dst : FileName) : Dir β :=
  match dir.get src with
  | some c => (dir.remove src).write dst c
  | none => dir

/-- The entries with a given extension. -/
def withExt (dir : Dir β) (ext : List Nat) : Dir β := dir.filter fun e => decide (e.1.ext = ext)

end Dir

/-- The size of a file; only the log line about swept files reads it of a
partial one. -/
def Content.len {β : Type} (size : β → Nat) : Content β → Nat
  | .whole body => size body
  | .part => 0

/-! ## I/O errors -/

/-- An I/O error as `out_of_space` sees it. -/
structure IoError where
  storageFull : Bool
  rawOsError : Option Int
deriving DecidableEq, Repr

/-- ENOSPC on unix. -/
def OUT_OF_SPACE_CODES : List Int := [28]

def outOfSpace (e : IoError) : Bool :=
  e.storageFull || e.rawOsError.any fun c => OUT_OF_SPACE_CODES.contains c

/-- The steps of writing one segment. -/
inductive SpoolStep where
  | create
  | write
  | sync
  | rename
deriving DecidableEq, Repr

/-- What the file system does to one spool: nothing, or an error at a step. -/
inductive Io where
  | ok
  | fail (at_ : SpoolStep) (e : IoError)
deriving DecidableEq, Repr

/-- The answer a full disk gives. -/
def enospc : IoError := { storageFull := true, rawOsError := some 28 }

end Queue

open Queue

/-- The state a running queue keeps in memory. -/
structure Queue where
  maxBytes : Nat
  bytes : Nat
  nextSeq : Nat
  segments : List FileName
  /-- reading must stop while this is set -/
  full : Bool
  spilledTotal : Nat
  drainedTotal : Nat
deriving DecidableEq, Repr

namespace Queue

variable {β : Type} (size : β → Nat)

/-! ## Opening -/

/-- The `.lp` files of the directory in path order. -/
def scan (dir : Dir β) : List FileName :=
  ((dir.withExt lp).map (·.1)).insertionSort fun p q => p.codes ≤ q.codes

/-- Delete the half-written segments. -/
def sweep (dir : Dir β) : Dir β := dir.filter fun e => decide (e.1.ext ≠ tmp)

/-- Open a queue, adopting what a previous run left behind. -/
def «open» (dir : Dir β) (maxBytes : Nat) : Dir β × Queue :=
  let segments := scan dir
  let bytes := (segments.map fun p => ((dir.get p).map (Content.len size)).getD 0).sum
  let nextSeq := match segments.getLast?.bind fun p => Decimal.parse p.stem with
    | some n => n + 1
    | none => 0
  (sweep dir,
    { maxBytes, bytes, nextSeq, segments, full := false, spilledTotal := 0, drainedTotal := 0 })

/-! ## Spooling -/

/-- `write_segment`: create, write and sync the temporary file. -/
def writeSegment (dir : Dir β) (p : FileName) (body : β) : Io → Dir β × Option IoError
  | .fail .create e => (dir, some e)
  | .fail .write e => (dir.write p .part, some e)
  | .fail .sync e => (dir.write p (.whole body), some e)
  | .fail .rename _ => (dir.write p (.whole body), none)
  | .ok => (dir.write p (.whole body), none)

/-- The error of the rename step, if that is where the spool fails. -/
def renameError : Io → Option IoError
  | .fail .rename e => some e
  | _ => none

/-- Write one segment. `ok false`: the file system is out of space. -/
def spool (q : Queue) (dir : Dir β) (body : β) (io : Io) :
    Except IoError Bool × Queue × Dir β :=
  let path := segmentName q.nextSeq
  let tmpPath := path.withExtension tmp
  let refuse (dir : Dir β) (e : IoError) : Except IoError Bool × Queue × Dir β :=
    -- our own partial file takes up the space we just ran out of
    let dir := dir.remove tmpPath
    if outOfSpace e then (.ok false, q, dir) else (.error e, q, dir)
  match writeSegment dir tmpPath body io with
  | (dir, some e) => refuse dir e
  | (dir, none) =>
      match renameError io with
      | some e => refuse dir e
      | none =>
          (.ok true,
            { q with
              nextSeq := q.nextSeq + 1
              bytes := q.bytes + size body
              segments := q.segments ++ [path]
              spilledTotal := q.spilledTotal + 1 },
            dir.rename tmpPath path)

/-- Spool a batch not yet read off the source; `ok false` means the caller must
stop reading. -/
def push (q : Queue) (dir : Dir β) (body : β) (io : Io) :
    Except IoError Bool × Queue × Dir β :=
  if q.maxBytes < q.bytes + size body then (.ok false, { q with full := true }, dir)
  else
    match spool size q dir body io with
    | (.ok false, q, dir) => (.ok false, { q with full := true }, dir)
    | r => r

/-- Spool a batch that must be kept although the queue is over its cap. -/
def pushForced (q : Queue) (dir : Dir β) (body : β) (io : Io) :
    Except IoError Bool × Queue × Dir β :=
  match spool size q dir body io with
  | (.ok wrote, q, dir) => (.ok wrote, { q with full := true }, dir)
  | r => r

/-! ## Draining -/

/-- The oldest queued batch. -/
def front (q : Queue) : Option FileName := q.segments.head?

/-- `Queue::read`; a partial file cannot be named by a segment. -/
def read (dir : Dir β) (p : FileName) : Option β :=
  match dir.get p with
  | some (.whole body) => some body
  | _ => none

/-- The memory after a segment of length `len` left. -/
def retire (q : Queue) (len : Nat) : Queue :=
  let q := { q with
    segments := q.segments.tail
    bytes := q.bytes - len
    drainedTotal := q.drainedTotal + 1 }
  -- hysteresis: resume at half full
  if q.full ∧ q.bytes * 2 ≤ q.maxBytes then { q with full := false } else q

/-- Retire a segment that shipped; fails if the file is gone. -/
def pop (q : Queue) (dir : Dir β) (p : FileName) : Option (Queue × Dir β) :=
  (dir.get p).map fun c => (q.retire (c.len size), dir.remove p)

def isEmpty (q : Queue) : Bool := q.segments.isEmpty

end Queue

end Tributary
