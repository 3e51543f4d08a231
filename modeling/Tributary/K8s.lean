import Tributary.Text

/-!
# Container log paths

A CRI log file is named `<pod>_<namespace>_<container>-<container-id>.log`; none
of the three names has an underscore, and the id has no hyphen.
-/

namespace Tributary.K8s

/-- The identifiers a CRI log path carries. -/
structure CriMeta where
  pod : Text
  namespace_ : Text
  container : Text
deriving DecidableEq, Repr

def isHexDigit (c : Char) : Bool :=
  c.isDigit || ('a' ≤ c && c ≤ 'f') || ('A' ≤ c && c ≤ 'F')

/-- The full width tells the id from a name that ends in something hex-ish. -/
def looksLikeContainerId (s : Text) : Bool := s.length = 64 && s.all isHexDigit

/-- What follows the last character that meets `p`. -/
def afterLast (p : Char → Bool) (s : Text) : Text := (s.reverse.takeWhile (!p ·)).reverse

/-- `str::strip_suffix`. -/
def stripSuffix (s suffix : Text) : Option Text :=
  if suffix.isSuffixOf s then some (s.take (s.length - suffix.length)) else none

/-- `str::split_once`. -/
def splitOnce (c : Char) (s : Text) : Option (Text × Text) :=
  match s.dropWhile (· != c) with
  | [] => none
  | _ :: rest => some (s.takeWhile (· != c), rest)

/-- `str::rsplit_once`. -/
def rsplitOnce (c : Char) (s : Text) : Option (Text × Text) :=
  (splitOnce c s.reverse).map fun halves => (halves.2.reverse, halves.1.reverse)

/-- `parse_cri_path`: only the file name matters. -/
def parseCriPath (path : Text) : Option CriMeta := do
  let file := afterLast (fun c => c = '/' || c = '\\') path
  let stem ← stripSuffix file ['.', 'l', 'o', 'g']
  let (pod, rest) ← splitOnce '_' stem
  let (namespace_, containerAndId) ← splitOnce '_' rest
  if pod = [] ∨ namespace_ = [] ∨ '_' ∈ containerAndId then none
  else do
    let (container, id) ← rsplitOnce '-' containerAndId
    if container = [] ∨ !looksLikeContainerId id then none
    else some { pod, namespace_, container }

/-- `stream_label`: the identifiers without the id. -/
def streamLabel (path : Text) : Option Text :=
  (parseCriPath path).map fun m => m.pod ++ '_' :: m.namespace_ ++ '_' :: m.container

end Tributary.K8s
