import Mathlib.Data.List.GetD
import Tributary.Lib.Utf8
import Tributary.Text

/-!
# Mounts

The mounts that `/proc/self/mountinfo` lists, and the lines that the kernel writes for them.
-/

namespace Tributary.Metrics

open Lib

/-! ## The code -/

/-- A mount from `/proc/self/mountinfo`: what to report and what to statvfs. -/
structure MountInfo where
  source : Text
  path : Text
  fstype : Text
deriving DecidableEq, Repr

/-- Pseudo filesystems. -/
def IGNORE : List Text :=
  ["tmpfs", "devtmpfs", "devfs", "iso9660", "overlay", "aufs", "squashfs", "proc", "sysfs",
    "cgroup", "cgroup2", "devpts", "mqueue", "hugetlbfs", "debugfs", "tracefs", "securityfs",
    "pstore", "bpf", "configfs", "fusectl", "binfmt_misc", "autofs", "nsfs", "ramfs",
    "rpc_pipefs", "selinuxfs", "efivarfs"].map String.toList

def ignoreFs (fstype : Text) : Bool := IGNORE.contains fstype

/-- `u8::from_str_radix(_, 8)`: digits after an optional plus, in range. -/
def fromStrRadix8 (bs : List Nat) : Option Nat :=
  let ds := match bs with
    | 43 :: rest => rest
    | rest => rest
  if ds ≠ [] ∧ ∀ d ∈ ds, 48 ≤ d ∧ d ≤ 55 then
    let n := ds.foldl (fun n d => n * 8 + (d - 48)) 0
    if n < 256 then some n else none
  else none

/-- A backslash and three octal digits are the byte they name; every other byte is itself. -/
def unescapeBytes : List Nat → List Nat
  | 92 :: a :: b :: c :: rest =>
      match fromStrRadix8 [a, b, c] with
      | some n => n :: unescapeBytes rest
      | none => 92 :: unescapeBytes (a :: b :: c :: rest)
  | b :: rest => b :: unescapeBytes rest
  | [] => []

def unescapeMountinfo (s : Text) : Text := Utf8.decodeLossy (unescapeBytes (Utf8.encode s))

/-- The mount of a line, or `none` where the line is skipped. -/
def parseLine (line : Text) : Option MountInfo :=
  let toks := line.splitOn ' '
  (toks.findIdx? (· = ['-'])).bind fun sep =>
    if toks.length ≤ 4 ∨ toks.length ≤ sep + 2 then none
    else
      let fstype := toks.getD (sep + 1) []
      if ignoreFs fstype then none
      else some { source := unescapeMountinfo (toks.getD (sep + 2) [])
                  path := unescapeMountinfo (toks.getD 4 []), fstype }

def parseMountinfo (text : Text) : List MountInfo := (Text.lines text).filterMap parseLine

/-! ## The kernel's lines -/

/-- A character as the kernel writes it in a field. -/
def escapeChar (c : Char) : Text :=
  if c = ' ' then "\\040".toList
  else if c = '\t' then "\\011".toList
  else if c = '\n' then "\\012".toList
  else if c = '\\' then "\\134".toList
  else [c]

def escape (t : Text) : Text := t.flatMap escapeChar

/-- A mount as the kernel holds it. -/
structure Mount where
  id : Nat
  parent : Nat
  major : Nat
  minor : Nat
  /-- the directory of the filesystem that is mounted -/
  root : Text
  mountPoint : Text
  readOnly : Bool
  /-- the options after `rw` or `ro` -/
  options : Text
  /-- the fields before the separator -/
  optional : List Text
  fstype : Text
  source : Text
  superReadOnly : Bool
  superOptions : Text
  mountPoint_slash : mountPoint.head? = some '/'
  root_ne : root ≠ ['-']
  optional_ne : ∀ o ∈ optional, o ≠ ['-']

namespace Mount

def access (readOnly : Bool) : Text := ['r', if readOnly then 'o' else 'w']

/-- The fields before the separator. -/
def before (m : Mount) : List Text :=
  [Nat.toDigits 10 m.id, Nat.toDigits 10 m.parent,
    Nat.toDigits 10 m.major ++ ':' :: Nat.toDigits 10 m.minor, escape m.root,
    escape m.mountPoint, access m.readOnly ++ escape m.options] ++ m.optional.map escape

/-- `ID PARENT MAJ:MIN ROOT MOUNTPOINT OPTS [optional tags] - FSTYPE SOURCE SUPEROPTS`. -/
def line (m : Mount) : Text :=
  [' '].intercalate (m.before ++ [['-'], escape m.fstype, escape m.source,
    access m.superReadOnly ++ escape m.superOptions])

/-- What is to be reported of it; the type as it is written. -/
def info (m : Mount) : MountInfo :=
  { source := m.source, path := m.mountPoint, fstype := escape m.fstype }

end Mount

/-- `/proc/self/mountinfo`. -/
def format (ms : List Mount) : Text := ms.flatMap fun m => m.line ++ ['\n']

/-! ## One field -/

variable {c : Char} {s t : Text} {bs : List Nat}

@[simp] theorem escape_cons : escape (c :: t) = escapeChar c ++ escape t := rfl

/-- The kernel leaves no character of its own format in a field. -/
theorem not_mem_escapeChar {d : Char} (h : d = ' ' ∨ d = '\n') : d ∉ escapeChar c := by
  unfold escapeChar
  split
  · rcases h with rfl | rfl <;> decide
  split
  · rcases h with rfl | rfl <;> decide
  split
  · rcases h with rfl | rfl <;> decide
  split
  · rcases h with rfl | rfl <;> decide
  · rw [List.mem_singleton]
    rintro rfl
    rcases h with rfl | rfl <;> contradiction

theorem not_mem_escape {d : Char} (h : d = ' ' ∨ d = '\n') : d ∉ escape t := by
  intro hmem
  obtain ⟨c, -, hc⟩ := List.mem_flatMap.mp hmem
  exact not_mem_escapeChar h hc

/-- Bytes other than the backslash stand for themselves. -/
theorem unescapeBytes_append (h : ∀ b ∈ bs, b ≠ 92) (rest : List Nat) :
    unescapeBytes (bs ++ rest) = bs ++ unescapeBytes rest := by
  induction bs with
  | nil => rfl
  | cons b bs ih =>
      rw [List.cons_append, unescapeBytes]
      · rw [ih fun d hd => h d (List.mem_cons_of_mem _ hd)]
        rfl
      · rintro a b c rest rfl
        exact absurd rfl (h 92 (List.mem_cons_self ..))

theorem unescapeBytes_encodeChar (c : Char) (rest : List Nat) :
    unescapeBytes (Utf8.encode (escapeChar c) ++ rest) = Utf8.encodeChar c ++ unescapeBytes rest
    := by
  unfold escapeChar
  by_cases hspace : c = ' '
  · rw [if_pos hspace, hspace]
    rfl
  by_cases htab : c = '\t'
  · rw [if_neg hspace, if_pos htab, htab]
    rfl
  by_cases hnewline : c = '\n'
  · rw [if_neg hspace, if_neg htab, if_pos hnewline, hnewline]
    rfl
  by_cases hbackslash : c = '\\'
  · rw [if_neg hspace, if_neg htab, if_neg hnewline, if_pos hbackslash, hbackslash]
    rfl
  rw [if_neg hspace, if_neg htab, if_neg hnewline, if_neg hbackslash, Utf8.encode,
    List.flatMap_cons, List.flatMap_nil, List.append_nil]
  refine unescapeBytes_append (fun b hb => ?_) rest
  rintro rfl
  have hc := Utf8.toNat_of_mem_encodeChar hb (by decide)
  exact hbackslash (Char.toNat_inj.mp hc)

/-- **A field reads back**, whatever it contains. -/
theorem unescapeMountinfo_escape (t : Text) : unescapeMountinfo (escape t) = t := by
  have hbytes : unescapeBytes (Utf8.encode (escape t)) = Utf8.encode t := by
    induction t with
    | nil => rfl
    | cons c t ih =>
        rw [escape_cons, Utf8.encode, List.flatMap_append]
        exact (unescapeBytes_encodeChar c _).trans (congrArg (Utf8.encodeChar c ++ ·) ih)
  rw [unescapeMountinfo, hbytes, Utf8.decodeLossy_encode]

/-! ## One line -/

/-- What a field becomes is told apart by what it was. -/
theorem escape_injective (h : escape s = escape t) : s = t := by
  rw [← unescapeMountinfo_escape s, h, unescapeMountinfo_escape]

theorem escape_eq_hyphen (h : escape t = ['-']) : t = ['-'] :=
  escape_injective (t := ['-']) h

theorem escape_eq_self (h : ∀ c ∈ t, c ∉ [' ', '\t', '\n', '\\']) : escape t = t := by
  induction t with
  | nil => rfl
  | cons c t ih =>
      have hc := h c (List.mem_cons_self ..)
      simp only [List.mem_cons, List.not_mem_nil, or_false, not_or] at hc
      rw [escape_cons, ih fun d hd => h d (List.mem_cons_of_mem _ hd), escapeChar, if_neg hc.1,
        if_neg hc.2.1, if_neg hc.2.2.1, if_neg hc.2.2.2]
      rfl

theorem plain_of_mem_IGNORE : ∀ u ∈ IGNORE, ∀ c ∈ u, c ∉ [' ', '\t', '\n', '\\'] := by
  have hall : (IGNORE.all fun u => u.all fun c => !([' ', '\t', '\n', '\\'].contains c)) = true :=
    rfl
  simpa only [List.all_eq_true, Bool.not_eq_true', List.contains_eq_mem,
    decide_eq_false_iff_not] using hall

/-- Whether a filesystem is ignored does not depend on how it is written. -/
theorem ignoreFs_escape (t : Text) : ignoreFs (escape t) = ignoreFs t := by
  have hplain : ∀ u ∈ IGNORE, escape u = u := fun u hu =>
    escape_eq_self (plain_of_mem_IGNORE u hu)
  rw [Bool.eq_iff_iff]
  simp only [ignoreFs, List.contains_iff_mem]
  constructor
  · intro h
    have := escape_injective (hplain _ h)
    rwa [this] at h
  · intro h
    rwa [hplain _ h]

namespace Mount

variable (m : Mount)

theorem length_before : m.before.length = m.optional.length + 6 := by
  simp [before]

/-- No field before the separator is taken for it. -/
theorem hyphen_not_mem_before : ['-'] ∉ m.before := by
  have hdigits (n : Nat) : ['-'] ≠ Nat.toDigits 10 n := fun h =>
    absurd (Text.isDigit_of_mem_toDigits (n := n) (h ▸ List.mem_singleton_self '-')) (by decide)
  have hcolon : ∀ ds es : Text, ['-'] ≠ ds ++ ':' :: es := fun ds es h => by
    have := h ▸ List.mem_append_right ds (List.mem_cons_self (a := ':') (l := es))
    exact absurd (List.mem_singleton.mp this) (by decide)
  have hpoint : ['-'] ≠ escape m.mountPoint := fun h => by
    have := m.mountPoint_slash
    rw [escape_eq_hyphen h.symm] at this
    exact absurd this (by decide)
  have haccess : ∀ o, ['-'] ≠ access m.readOnly ++ o := fun o h => by
    rw [access, List.cons_append] at h
    exact absurd (List.cons.inj h).1 (by decide)
  simp only [before, List.mem_append, List.mem_cons, List.mem_map, List.not_mem_nil, or_false,
    not_or, not_exists, not_and]
  exact ⟨⟨hdigits _, hdigits _, hcolon _ _, fun h => m.root_ne (escape_eq_hyphen h.symm),
    hpoint, haccess _⟩, fun o ho h => m.optional_ne o ho (escape_eq_hyphen h)⟩

theorem not_mem_access {d : Char} (h : d = ' ' ∨ d = '\n') (b : Bool) : d ∉ access b := by
  rcases h with rfl | rfl <;> cases b <;> decide

theorem not_mem_toDigits {d : Char} (h : d = ' ' ∨ d = '\n') (n : Nat) :
    d ∉ Nat.toDigits 10 n := fun hmem => by
  have := Text.isDigit_of_mem_toDigits hmem
  rcases h with rfl | rfl <;> exact absurd this (by decide)

/-- No field holds a separator of fields or of lines. -/
theorem not_mem_before {d : Char} (h : d = ' ' ∨ d = '\n') : ∀ f ∈ m.before, d ∉ f := by
  have hcolon : d ≠ ':' := by
    rcases h with rfl | rfl <;> decide
  intro f hf
  simp only [before, List.mem_append, List.mem_cons, List.mem_map, List.not_mem_nil,
    or_false] at hf
  rcases hf with (rfl | rfl | rfl | rfl | rfl | rfl) | ⟨o, -, rfl⟩
  · exact not_mem_toDigits h _
  · exact not_mem_toDigits h _
  · rw [List.mem_append, List.mem_cons]
    exact not_or_intro (not_mem_toDigits h _) (not_or_intro hcolon (not_mem_toDigits h _))
  · exact not_mem_escape h
  · exact not_mem_escape h
  · rw [List.mem_append]
    exact not_or_intro (not_mem_access h _) (not_mem_escape h)
  · exact not_mem_escape h

/-- The fields of the line with `last` for the last one. -/
def fields (last : Text) : List Text :=
  m.before ++ [['-'], escape m.fstype, escape m.source, last]

theorem not_mem_fields {d : Char} (h : d = ' ' ∨ d = '\n') {last : Text} (hlast : d ∉ last) :
    ∀ f ∈ m.fields last, d ∉ f := by
  intro f hf
  simp only [fields, List.mem_append, List.mem_cons, List.not_mem_nil, or_false] at hf
  rcases hf with hf | rfl | rfl | rfl | rfl
  · exact m.not_mem_before h f hf
  · rcases h with rfl | rfl <;> decide
  · exact not_mem_escape h
  · exact not_mem_escape h
  · exact hlast

/-- **The fields are found**, however many stand before the separator and whatever the last
one is. -/
theorem parseLine_fields {last : Text} (hlast : ' ' ∉ last) :
    parseLine ([' '].intercalate (m.fields last))
      = if ignoreFs m.fstype then none else some m.info := by
  have hsplit : ([' '].intercalate (m.fields last)).splitOn ' ' = m.fields last :=
    List.splitOn_intercalate ' ' (m.not_mem_fields (.inl rfl) hlast) (by simp [fields])
  have hsep : (m.fields last).findIdx? (· = ['-']) = some m.before.length := by
    have hbefore : m.before.findIdx? (· = ['-']) = none := by
      rw [List.findIdx?_eq_none_iff]
      intro f hf
      exact decide_eq_false fun h => m.hyphen_not_mem_before (h ▸ hf)
    rw [fields, List.findIdx?_append, hbefore, List.findIdx?_cons, if_pos (by simp)]
    simp
  have hafter (k : Nat) : (m.fields last).getD (m.before.length + k) []
      = [['-'], escape m.fstype, escape m.source, last].getD k [] := by
    rw [fields, List.getD_append_right _ _ _ _ (Nat.le_add_right ..), Nat.add_sub_cancel_left]
  have hpath : (m.fields last).getD 4 [] = escape m.mountPoint := rfl
  have hlength : (m.fields last).length = m.before.length + 4 := by simp [fields]
  have hsix : m.before.length = m.optional.length + 6 := m.length_before
  rw [parseLine, hsplit, hsep, Option.bind_some, if_neg (by omega), hafter 1, hafter 2, hpath]
  simp only [List.getD_cons_succ, List.getD_cons_zero, ignoreFs_escape, unescapeMountinfo_escape]
  rfl

/-! ## All lines -/

theorem intercalate_concat (fs : List Text) (last : Text) :
    [' '].intercalate (fs ++ [last]) = fs.flatMap (· ++ [' ']) ++ last := by
  induction fs with
  | nil => simp
  | cons f fs ih =>
      rw [List.cons_append, List.intercalate_cons_of_ne_nil (by simp), ih, List.flatMap_cons]
      simp

/-- What the line has before its last field. -/
def head : Text := (m.before ++ [['-'], escape m.fstype, escape m.source]).flatMap (· ++ [' '])

theorem intercalate_fields (last : Text) :
    [' '].intercalate (m.fields last) = m.head ++ last := by
  rw [head, ← intercalate_concat, fields, List.append_assoc]
  rfl

theorem newline_not_mem_head : '\n' ∉ m.head := by
  intro h
  obtain ⟨f, hf, hmem⟩ := List.mem_flatMap.mp h
  have hfields : f ∈ m.fields [] := by
    rw [fields]
    simp only [List.mem_append, List.mem_cons] at hf ⊢
    tauto
  have hfield : '\n' ∉ f := m.not_mem_fields (.inr rfl) List.not_mem_nil f hfields
  rcases List.mem_append.mp hmem with hmem | hmem
  · exact hfield hmem
  · exact absurd (List.mem_singleton.mp hmem) (by decide)

/-- The last field. -/
def superField : Text := access m.superReadOnly ++ escape m.superOptions

theorem not_mem_superField {d : Char} (h : d = ' ' ∨ d = '\n') : d ∉ m.superField := by
  rw [superField, List.mem_append]
  exact not_or_intro (not_mem_access h _) (not_mem_escape h)

theorem line_eq : m.line = m.head ++ m.superField := m.intercalate_fields _

theorem newline_not_mem_line : '\n' ∉ m.line := by
  rw [line_eq, List.mem_append]
  exact not_or_intro m.newline_not_mem_head (m.not_mem_superField (.inr rfl))

theorem parseLine_head {last : Text} (hlast : ' ' ∉ last) :
    parseLine (m.head ++ last) = if ignoreFs m.fstype then none else some m.info := by
  rw [← intercalate_fields, m.parseLine_fields hlast]

/-- The line is read as it was written, or without a carriage return at its end. -/
theorem parseLine_stripEol :
    parseLine (Text.stripEol (m.line ++ ['\n']))
      = if ignoreFs m.fstype then none else some m.info := by
  have hspace : ' ' ∉ m.superField := m.not_mem_superField (.inl rfl)
  have hne : m.superField ≠ [] := by simp [superField, access]
  by_cases hreturn : m.line.getLast? = some '\r'
  · rw [line_eq, List.getLast?_append_of_ne_nil _ hne] at hreturn
    obtain ⟨last, hlast⟩ := List.getLast?_eq_some_iff.mp hreturn
    have hstrip : Text.stripEol (m.line ++ ['\n']) = m.head ++ last := by
      rw [line_eq, hlast, ← List.append_assoc, Text.stripEol_return]
    rw [hstrip]
    exact m.parseLine_head fun h => hspace (hlast ▸ List.mem_append_left _ h)
  · rw [Text.stripEol_concat hreturn, line_eq]
    exact m.parseLine_head hspace

end Mount

/-- **The kernel's format is undone**: of any mounts, those whose type is not ignored are
reported, in order, each with its own mount point and source. -/
theorem mounts_read_back (ms : List Mount) :
    parseMountinfo (format ms) = (ms.filter fun m => !ignoreFs m.fstype).map Mount.info := by
  induction ms with
  | nil => rfl
  | cons m ms ih =>
      have hlines : Text.lines (format (m :: ms))
          = Text.stripEol (m.line ++ ['\n']) :: Text.lines (format ms) := by
        rw [format, List.flatMap_cons, List.append_assoc, List.singleton_append,
          Text.lines_append_newline m.newline_not_mem_line]
        rfl
      rw [parseMountinfo, hlines, List.filterMap_cons, m.parseLine_stripEol]
      by_cases hignored : ignoreFs m.fstype = true
      · rw [if_pos hignored, List.filter_cons_of_neg (by simp [hignored])]
        exact ih
      · rw [if_neg hignored, List.filter_cons_of_pos (by simp [hignored]), List.map_cons]
        exact congrArg (m.info :: ·) ih

/-- A mount whose point and source look like escapes. -/
example : (parseMountinfo (format [
    { id := 40, parent := 25, major := 8, minor := 32, root := ['/'],
      mountPoint := "/a \\040".toList, readOnly := false, options := [],
      optional := ["shared:1".toList, []], fstype := "ext4".toList, source := "\\".toList,
      superReadOnly := false, superOptions := "\r".toList, mountPoint_slash := rfl,
      root_ne := by decide, optional_ne := by decide }])).map MountInfo.path
    = ["/a \\040".toList] := by
  decide

end Tributary.Metrics
