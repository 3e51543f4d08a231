import Tributary.Text

/-!
# Durable progress

The content of a checkpoint file. `files` says where reading resumes,
`lastTickNs` and `nextSeq` restore the stamper, `latenessNs` the watermark's
estimate, and `cursor` is the resume token of a cursor source.
-/

namespace Tributary

/-- Identity and position of one file: the inode, not the path. -/
structure FileMark where
  dev : Nat
  ino : Nat
  offset : Nat
deriving DecidableEq, Repr

/-- The format version this agent writes. -/
def checkpointFormatVersion : Nat := 1

/-- What is saved on disk. -/
structure Checkpoint where
  format : Nat := checkpointFormatVersion
  files : List FileMark := []
  lastTickNs : Option Int := none
  nextSeq : Int := 0
  latenessNs : Option Int := none
  cursor : Option Text := none
deriving DecidableEq, Repr

end Tributary
