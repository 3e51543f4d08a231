import Mathlib.Algebra.Ring.Nat
import Mathlib.Data.List.Induction
import Tributary.Text

/-!
# The kernel's counters

What the collector reads of `/proc/stat`, `/proc/diskstats` and `/proc/meminfo`, and the lines
that the kernel writes there.
-/

namespace Tributary.Metrics

open Text (isWhitespace)

/-! ## The code -/

/-- `str::split_whitespace`. -/
def splitWhitespace (t : Text) : List Text := (t.splitOnP isWhitespace).filter (· ≠ [])

/-- Without an optional plus sign. -/
def unsigned (t : Text) : Text :=
  match t with
  | '+' :: rest => rest
  | rest => rest

/-- `str::parse::<u64>`: digits, in range. -/
def parseU64 (t : Text) : Option Nat :=
  let ds := unsigned t
  if ds ≠ [] ∧ ds.all Char.isDigit then
    let n := Nat.ofDigitChars 10 ds 0
    if n < 2 ^ 64 then some n else none
  else none

/-- Zero where the token is no number. -/
def number (t : Text) : Nat := (parseU64 t).getD 0

/-- Cumulative CPU jiffies from one `/proc/stat` line. -/
structure CpuTimes where
  user : Nat := 0
  nice : Nat := 0
  system : Nat := 0
  idle : Nat := 0
  iowait : Nat := 0
  irq : Nat := 0
  softirq : Nat := 0
  steal : Nat := 0
  guest : Nat := 0
  guestNice : Nat := 0
deriving DecidableEq, Repr

/-- Missing trailing columns are zero. -/
def CpuTimes.ofColumns (v : List Nat) : CpuTimes :=
  { user := v.getD 0 0, nice := v.getD 1 0, system := v.getD 2 0, idle := v.getD 3 0
    iowait := v.getD 4 0, irq := v.getD 5 0, softirq := v.getD 6 0, steal := v.getD 7 0
    guest := v.getD 8 0, guestNice := v.getD 9 0 }

/-- The value of the `cpu` tag. -/
def cpuName (label : Text) : Text :=
  if label = "cpu".toList then "cpu-total".toList else label

/-- The lines up to the first that has another label; empty ones are passed over. -/
def cpuLines : List Text → List (Text × CpuTimes)
  | [] => []
  | line :: lines =>
      match splitWhitespace line with
      | [] => cpuLines lines
      | label :: rest =>
          if "cpu".toList.isPrefixOf label then
            (cpuName label, .ofColumns (rest.map number)) :: cpuLines lines
          else []

def parseProcStat (text : Text) : List (Text × CpuTimes) := cpuLines (Text.lines text)

/-- Per-device I/O counters. -/
structure DiskIoSample where
  name : Text
  reads : Nat
  writes : Nat
  readBytes : Nat
  writeBytes : Nat
  readTime : Nat
  writeTime : Nat
  ioTime : Nat
  weightedIoTime : Nat
  iopsInProgress : Nat
deriving DecidableEq, Repr

/-- Always, whatever the device's sector size. -/
def SECTOR : Nat := 512

/-- Virtual devices. -/
def skipDevice (name : Text) : Bool :=
  "loop".toList.isPrefixOf name || "ram".toList.isPrefixOf name

def diskstatsLine (line : Text) : Option DiskIoSample :=
  let f := splitWhitespace line
  if f.length < 14 then none
  else
    let name := f.getD 2 []
    if skipDevice name then none
    else
      let n (i : Nat) := number (f.getD i [])
      some { name, reads := n 3, readBytes := n 5 * SECTOR % 2 ^ 64, readTime := n 6
             writes := n 7, writeBytes := n 9 * SECTOR % 2 ^ 64, writeTime := n 10
             iopsInProgress := n 11, ioTime := n 12, weightedIoTime := n 13 }

def parseDiskstats (text : Text) : List DiskIoSample :=
  (Text.lines text).filterMap diskstatsLine

/-- Reclaimable memory the kernel spends on buffers and page cache. -/
structure MemCache where
  buffered : Nat
  cached : Nat
deriving DecidableEq, Repr

/-- The second word of a line, in kB. -/
def valBytes (line : Text) : Option Nat :=
  (splitWhitespace line)[1]?.bind fun word => (parseU64 word).map (· * 1024 % 2 ^ 64)

/-- What the loop over `/proc/meminfo` has found. -/
structure MemLines where
  buffered : Option Nat := none
  cached : Option Nat := none
  sreclaimable : Nat := 0
  shmem : Nat := 0

def MemLines.next (m : MemLines) (line : Text) : MemLines :=
  if "Buffers:".toList.isPrefixOf line then { m with buffered := valBytes line }
  else if "Cached:".toList.isPrefixOf line then { m with cached := valBytes line }
  else if "SReclaimable:".toList.isPrefixOf line then
    { m with sreclaimable := (valBytes line).getD 0 }
  else if "Shmem:".toList.isPrefixOf line then { m with shmem := (valBytes line).getD 0 }
  else m

/-- `cached` is the `Cached:` line, with what can be reclaimed and without what is shared; sum and
difference saturate. -/
def memCacheFrom (meminfo : Text) : Option MemCache :=
  let m := (Text.lines meminfo).foldl MemLines.next {}
  m.buffered.bind fun buffered =>
    m.cached.map fun cached =>
      { buffered, cached := min (cached + m.sreclaimable) (2 ^ 64 - 1) - m.shmem }

/-! ## Words -/

theorem splitWhitespace_break {c : Char} (hc : isWhitespace c = true) (s t : Text) :
    splitWhitespace (s ++ c :: t) = splitWhitespace s ++ splitWhitespace t := by
  rw [splitWhitespace, List.splitOnP_append_cons s t hc, List.filter_append]
  rfl

theorem splitWhitespace_cons {c : Char} (hc : isWhitespace c = true) (t : Text) :
    splitWhitespace (c :: t) = splitWhitespace t := splitWhitespace_break hc [] t

/-- Not empty, and nothing in it breaks it. -/
def Word (w : Text) : Prop := w ≠ [] ∧ ∀ c ∈ w, isWhitespace c = false

instance : DecidablePred Word := fun w =>
  decidable_of_iff (w ≠ [] ∧ w.all (fun c => !isWhitespace c) = true) (by simp [Word])

theorem Word.splitWhitespace {w : Text} (h : Word w) : splitWhitespace w = [w] := by
  rw [Metrics.splitWhitespace, List.splitOnP_eq_singleton h.2]
  simp [h.1]

theorem isWhitespace_of_isDigit {c : Char} (h : c.isDigit = true) : isWhitespace c = false := by
  simp only [Char.isDigit, Bool.and_eq_true, decide_eq_true_eq, ge_iff_le,
    UInt32.le_iff_toNat_le] at h
  have hlow : 48 ≤ c.toNat := h.1
  have hhigh : c.toNat ≤ 57 := h.2
  simp [isWhitespace]
  omega

theorem word_toDigits (n : Nat) : Word (Nat.toDigits 10 n) :=
  ⟨List.ne_nil_of_length_pos Nat.length_toDigits_pos,
    fun _ hc => isWhitespace_of_isDigit (Text.isDigit_of_mem_toDigits hc)⟩

theorem parseU64_toDigits {n : Nat} (h : n < 2 ^ 64) : parseU64 (Nat.toDigits 10 n) = some n := by
  have hne : Nat.toDigits 10 n ≠ [] := List.ne_nil_of_length_pos Nat.length_toDigits_pos
  have hall : (Nat.toDigits 10 n).all Char.isDigit = true :=
    List.all_eq_true.mpr fun c hc => Text.isDigit_of_mem_toDigits hc
  have hds : unsigned (Nat.toDigits 10 n) = Nat.toDigits 10 n := by
    rw [unsigned]
    intro rest heq
    rw [heq, List.all_cons] at hall
    cases hall
  simp only [parseU64, hds, if_pos (And.intro hne hall), Nat.ofDigitChars_ten_toDigits, if_pos h]

theorem number_toDigits {n : Nat} (h : n < 2 ^ 64) : number (Nat.toDigits 10 n) = n := by
  rw [number, parseU64_toDigits h]
  rfl

/-- Numbers as the kernel writes them after a label, each behind a space. -/
def columnsText (ns : List Nat) : Text := ns.flatMap fun n => ' ' :: Nat.toDigits 10 n

theorem splitWhitespace_columns (ns : List Nat) {w : Text} (hw : Word w) :
    splitWhitespace (w ++ columnsText ns) = w :: ns.map (Nat.toDigits 10) := by
  induction ns generalizing w with
  | nil => simp [columnsText, hw.splitWhitespace]
  | cons n ns ih =>
      have htext : columnsText (n :: ns) = ' ' :: (Nat.toDigits 10 n ++ columnsText ns) := rfl
      rw [htext, splitWhitespace_break (by decide), hw.splitWhitespace, ih (word_toDigits n)]
      rfl

/-! ## The kernel's lines -/

namespace CpuTimes

def columns (t : CpuTimes) : List Nat :=
  [t.user, t.nice, t.system, t.idle, t.iowait, t.irq, t.softirq, t.steal, t.guest, t.guestNice]

theorem ofColumns_columns (t : CpuTimes) : ofColumns t.columns = t := rfl

/-- Each counter is a `u64`. -/
def Fits (t : CpuTimes) : Prop := ∀ n ∈ t.columns, n < 2 ^ 64

instance : DecidablePred Fits := fun t =>
  inferInstanceAs (Decidable (∀ n ∈ t.columns, n < 2 ^ 64))

end CpuTimes

/-- The aggregate, the cores that are online, the interrupts, and what follows. -/
structure ProcStat where
  total : CpuTimes
  cores : List (Nat × CpuTimes)
  intr : List Nat
  rest : Text

namespace ProcStat

def coreName (i : Nat) : Text := "cpu".toList ++ Nat.toDigits 10 i

def coreLine (c : Nat × CpuTimes) : Text := coreName c.1 ++ columnsText c.2.columns

/-- Two spaces stand behind the aggregate's label. -/
def totalLine (t : CpuTimes) : Text := "cpu".toList ++ ' ' :: columnsText t.columns

def text (s : ProcStat) : Text :=
  totalLine s.total ++ '\n' ::
    (s.cores.flatMap (fun c => coreLine c ++ ['\n'])
      ++ ("intr".toList ++ columnsText s.intr ++ '\n' :: s.rest))

/-- Each counter is a `u64`. -/
def Fits (s : ProcStat) : Prop := s.total.Fits ∧ ∀ c ∈ s.cores, c.2.Fits

end ProcStat

theorem printable_toDigits (n : Nat) : Text.Printable (Nat.toDigits 10 n) :=
  Text.printable_ofInt (.ofNat n)

theorem printable_columnsText (ns : List Nat) : (columnsText ns).Printable :=
  .flatMap fun n _ => (printable_toDigits n).cons (by decide)

theorem printable_cpu : Text.Printable "cpu".toList := by simp [Text.Printable]

theorem columns_read {t : CpuTimes} (h : t.Fits) :
    CpuTimes.ofColumns ((t.columns.map (Nat.toDigits 10)).map number) = t := by
  have hnumbers : (t.columns.map (Nat.toDigits 10)).map number = t.columns := by
    rw [List.map_map]
    exact (List.map_congr_left fun n hn => number_toDigits (h n hn)).trans (List.map_id _)
  rw [hnumbers, CpuTimes.ofColumns_columns]

theorem cpuLines_cons {line label : Text} {rest : List Text} {t : CpuTimes} (h : t.Fits)
    (hwords : splitWhitespace line = label :: t.columns.map (Nat.toDigits 10))
    (hlabel : "cpu".toList.isPrefixOf label = true) :
    cpuLines (line :: rest) = (cpuName label, t) :: cpuLines rest := by
  rw [cpuLines, hwords]
  simp only [hlabel, if_true, columns_read h]

theorem cpuLines_cores (cores : List (Nat × CpuTimes)) (h : ∀ c ∈ cores, c.2.Fits) (rest : Text) :
    cpuLines (Text.lines (cores.flatMap (fun c => ProcStat.coreLine c ++ ['\n']) ++ rest))
      = cores.map (fun c => (ProcStat.coreName c.1, c.2)) ++ cpuLines (Text.lines rest) := by
  induction cores with
  | nil => rfl
  | cons c cores ih =>
      have hword : Word (ProcStat.coreName c.1) := by
        refine ⟨by simp [ProcStat.coreName], fun x hx => ?_⟩
        rcases List.mem_append.mp hx with hx | hx
        · exact (by decide : Word "cpu".toList).2 x hx
        · exact (word_toDigits c.1).2 x hx
      have hprint : (ProcStat.coreLine c).Printable :=
        (printable_cpu.append (printable_toDigits _)).append (printable_columnsText _)
      have hwords : splitWhitespace (ProcStat.coreLine c)
          = ProcStat.coreName c.1 :: c.2.columns.map (Nat.toDigits 10) :=
        splitWhitespace_columns _ hword
      have hprefix : "cpu".toList.isPrefixOf (ProcStat.coreName c.1) = true := by
        simp [ProcStat.coreName]
      -- a core has a digit behind the word
      have hname : cpuName (ProcStat.coreName c.1) = ProcStat.coreName c.1 := by
        rw [cpuName, if_neg]
        intro heq
        have hlen := congrArg List.length heq
        have hpos := Nat.length_toDigits_pos (b := 10) (n := c.1)
        simp [ProcStat.coreName] at hlen
      rw [List.flatMap_cons, List.append_assoc, List.append_assoc, List.singleton_append,
        hprint.lines, cpuLines_cons (h c (List.mem_cons_self ..)) hwords hprefix, hname,
        ih fun d hd => h d (List.mem_cons_of_mem _ hd)]
      rfl

/-- **The CPU counters are read as the kernel wrote them**, the aggregate under its own name and
each core under its number, whatever stands below. -/
theorem procStat_read_back (s : ProcStat) (h : s.Fits) :
    parseProcStat s.text
      = ("cpu-total".toList, s.total) :: s.cores.map fun c => (ProcStat.coreName c.1, c.2) := by
  have htotal : splitWhitespace (ProcStat.totalLine s.total)
      = "cpu".toList :: s.total.columns.map (Nat.toDigits 10) := by
    have hfirst : columnsText s.total.columns
        = ' ' :: (Nat.toDigits 10 s.total.user ++ columnsText (s.total.columns.drop 1)) := rfl
    rw [ProcStat.totalLine, splitWhitespace_break (by decide), hfirst,
      splitWhitespace_cons (by decide), splitWhitespace_columns _ (word_toDigits _)]
    rfl
  have hprint : (ProcStat.totalLine s.total).Printable :=
    printable_cpu.append ((printable_columnsText _).cons (by decide))
  -- the first line of another label ends the reading, whatever stands below it
  have hintr : cpuLines (Text.lines ("intr".toList ++ columnsText s.intr ++ '\n' :: s.rest))
      = [] := by
    have hintrPrint : Text.Printable ("intr".toList ++ columnsText s.intr) :=
      .append (by simp [Text.Printable]) (printable_columnsText _)
    have hword : Word "intr".toList := by decide
    rw [hintrPrint.lines, cpuLines, splitWhitespace_columns _ hword]
    rfl
  rw [parseProcStat, ProcStat.text, hprint.lines, cpuLines_cons h.1 htotal (by decide),
    cpuLines_cores _ h.2, hintr, List.append_nil]
  rfl

/-- The first core is offline. -/
def secondCore : ProcStat :=
  { total := { user := 300, system := 20, idle := 80, guest := 7 }
    cores := [(1, { user := 300, system := 20, idle := 80, guest := 7 })]
    intr := [4096, 0, 9], rest := "ctxt 77\ncpu9 1 2 3\n".toList }

theorem procStat_read_back_secondCore :
    parseProcStat secondCore.text = [("cpu-total".toList, secondCore.total),
      ("cpu1".toList, secondCore.total)] :=
  procStat_read_back secondCore (And.intro (by decide) (by decide))

/-! ## Block devices -/

/-- A line of `/proc/diskstats`: what is read of it, what stands between, and the columns that
newer kernels append. -/
structure Device where
  major : Nat
  minor : Nat
  name : Text
  reads : Nat
  readsMerged : Nat
  sectorsRead : Nat
  readTime : Nat
  writes : Nat
  writesMerged : Nat
  sectorsWritten : Nat
  writeTime : Nat
  inProgress : Nat
  ioTime : Nat
  weightedIoTime : Nat
  more : List Nat

namespace Device

def columns (d : Device) : List Nat :=
  [d.reads, d.readsMerged, d.sectorsRead, d.readTime, d.writes, d.writesMerged, d.sectorsWritten,
    d.writeTime, d.inProgress, d.ioTime, d.weightedIoTime] ++ d.more

def padded (width n : Nat) : Text :=
  List.replicate (width - (Nat.toDigits 10 n).length) ' ' ++ Nat.toDigits 10 n

def line (d : Device) : Text :=
  padded 4 d.major ++ ' ' :: (padded 7 d.minor ++ ' ' :: (d.name ++ columnsText d.columns))

def text (ds : List Device) : Text := ds.flatMap fun d => d.line ++ ['\n']

/-- What the line is read as, with sectors in bytes. -/
def sample (d : Device) : DiskIoSample :=
  { name := d.name, reads := d.reads, readBytes := d.sectorsRead * SECTOR, readTime := d.readTime
    writes := d.writes, writeBytes := d.sectorsWritten * SECTOR, writeTime := d.writeTime
    iopsInProgress := d.inProgress, ioTime := d.ioTime, weightedIoTime := d.weightedIoTime }

/-- The name is one printable word, each counter is a `u64`, and so are the bytes. -/
structure Fits (d : Device) : Prop where
  word : Word d.name
  printable : d.name.Printable
  columns : ∀ n ∈ d.columns, n < 2 ^ 64
  read : d.sectorsRead * SECTOR < 2 ^ 64
  written : d.sectorsWritten * SECTOR < 2 ^ 64

theorem splitWhitespace_padded (width n : Nat) :
    splitWhitespace (padded width n) = [Nat.toDigits 10 n] := by
  rw [padded]
  induction width - (Nat.toDigits 10 n).length with
  | zero => exact (word_toDigits n).splitWhitespace
  | succ k ih => exact (splitWhitespace_cons (by decide) _).trans ih

theorem printable_padded (width n : Nat) : Text.Printable (padded width n) := by
  refine .append (fun c hc => ?_) (printable_toDigits n)
  rw [List.eq_of_mem_replicate hc]
  decide

theorem Fits.printable_line {d : Device} (h : d.Fits) : d.line.Printable :=
  (printable_padded _ _).append (.cons (by decide) ((printable_padded _ _).append
    (.cons (by decide) (h.printable.append (printable_columnsText _)))))

theorem diskstatsLine_line {d : Device} (h : d.Fits) :
    diskstatsLine d.line = if skipDevice d.name then none else some d.sample := by
  have hwords : splitWhitespace d.line = Nat.toDigits 10 d.major :: Nat.toDigits 10 d.minor
      :: d.name :: d.columns.map (Nat.toDigits 10) := by
    rw [line, splitWhitespace_break (by decide), splitWhitespace_break (by decide),
      splitWhitespace_padded, splitWhitespace_padded, splitWhitespace_columns _ h.word]
    rfl
  have hnumber : ∀ n ∈ d.columns, number (Nat.toDigits 10 n) = n := fun n hn =>
    number_toDigits (h.columns n hn)
  rw [diskstatsLine, hwords]
  simp only [columns, List.cons_append, List.nil_append, List.map_cons, List.length_cons,
    List.getD_cons_succ, List.getD_cons_zero]
  rw [if_neg (by omega)]
  split
  · rfl
  · simp only [columns, List.cons_append, List.nil_append, List.forall_mem_cons] at hnumber
    obtain ⟨h1, -, h3, h4, h5, -, h7, h8, h9, h10, h11, -⟩ := hnumber
    rw [h1, h3, h4, h5, h7, h8, h9, h10, h11, Nat.mod_eq_of_lt h.read,
      Nat.mod_eq_of_lt h.written]
    rfl

end Device

/-- **The devices are read as the kernel wrote them**, but for loop and ram devices. -/
theorem diskstats_read_back (ds : List Device) (h : ∀ d ∈ ds, d.Fits) :
    parseDiskstats (Device.text ds)
      = (ds.filter fun d => !skipDevice d.name).map Device.sample := by
  induction ds with
  | nil => rfl
  | cons d ds ih =>
      have hd := h d (List.mem_cons_self ..)
      have hrest := ih fun e he => h e (List.mem_cons_of_mem _ he)
      have htext : Device.text (d :: ds) = d.line ++ '\n' :: Device.text ds := by
        simp [Device.text]
      rw [parseDiskstats] at hrest ⊢
      rw [htext, hd.printable_line.lines, List.filterMap_cons, Device.diskstatsLine_line hd, hrest]
      cases hskip : skipDevice d.name <;> simp [hskip]

/-- A disk beside a loop device. -/
def sda : Device :=
  { major := 8, minor := 0, name := "sda".toList, reads := 12, readsMerged := 1, sectorsRead := 96
    readTime := 5, writes := 3, writesMerged := 0, sectorsWritten := 24, writeTime := 2
    inProgress := 0, ioTime := 6, weightedIoTime := 7, more := [0, 0, 0, 0] }

theorem diskstats_read_back_sda :
    parseDiskstats (Device.text [{ sda with major := 7, name := "loop0".toList }, sda])
      = [sda.sample] := by
  have hcolumns : ∀ n ∈ sda.columns, n < 2 ^ 64 := by decide
  have hread : sda.sectorsRead * SECTOR < 2 ^ 64 := by decide
  have hwritten : sda.sectorsWritten * SECTOR < 2 ^ 64 := by decide
  have hfits : ∀ name : Text, Word name → name.Printable → ∀ major,
      Device.Fits { sda with major, name } := fun name hword hprint major =>
    { word := hword, printable := hprint, columns := hcolumns, read := hread
      written := hwritten }
  have hloop := hfits "loop0".toList (by decide) (by simp [Text.Printable]) 7
  have hsda := hfits "sda".toList (by decide) (by simp [Text.Printable]) 8
  exact diskstats_read_back _ (List.forall_mem_cons.mpr ⟨hloop, List.forall_mem_singleton.mpr hsda⟩)

/-! ## Memory -/

/-- A line of `/proc/meminfo`. -/
structure MemEntry where
  label : Text
  padding : Nat
  kb : Nat
  /-- A count of pages has none. -/
  unit : Bool

namespace MemEntry

def line (e : MemEntry) : Text :=
  e.label ++ ':' :: (List.replicate (e.padding + 1) ' ' ++ Nat.toDigits 10 e.kb
    ++ if e.unit then " kB".toList else [])

def text (es : List MemEntry) : Text := es.flatMap fun e => e.line ++ ['\n']

/-- What the last line of the label says, in bytes. -/
def last (es : List MemEntry) (label : String) : Option Nat :=
  (es.reverse.find? (·.label = label.toList)).map (·.kb * 1024)

structure Fits (e : MemEntry) : Prop where
  word : ∀ c ∈ e.label, isWhitespace c = false
  colon : ':' ∉ e.label
  printable : e.label.Printable
  bytes : e.kb * 1024 < 2 ^ 64

theorem Fits.printable_line {e : MemEntry} (h : e.Fits) : e.line.Printable := by
  have hunit : Text.Printable (if e.unit then " kB".toList else []) := by
    split <;> simp [Text.Printable]
  refine h.printable.append (.cons (by decide) (.append (.append (fun c hc => ?_)
    (printable_toDigits _)) hunit))
  rw [List.eq_of_mem_replicate hc]
  decide

theorem splitWhitespace_replicate (k : Nat) (t : Text) :
    splitWhitespace (List.replicate k ' ' ++ t) = splitWhitespace t := by
  induction k with
  | zero => rfl
  | succ k ih => exact (splitWhitespace_cons (by decide) _).trans ih

theorem Fits.valBytes_line {e : MemEntry} (h : e.Fits) : valBytes e.line = some (e.kb * 1024) := by
  have hword : Word (e.label ++ [':']) := by
    refine ⟨by simp, fun c hc => ?_⟩
    rcases List.mem_append.mp hc with hc | hc
    · exact h.word c hc
    · rw [List.mem_singleton.mp hc]
      decide
  have hline : e.line = (e.label ++ [':']) ++ ' ' :: (List.replicate e.padding ' '
      ++ (Nat.toDigits 10 e.kb ++ if e.unit then " kB".toList else [])) := by
    simp [line, List.replicate_succ]
  have hfigure : splitWhitespace (Nat.toDigits 10 e.kb ++ if e.unit then " kB".toList else [])
      = Nat.toDigits 10 e.kb :: if e.unit then ["kB".toList] else [] := by
    cases e.unit with
    | false =>
        simp only [Bool.false_eq_true, if_false, List.append_nil]
        exact (word_toDigits e.kb).splitWhitespace
    | true =>
        have hbreak : " kB".toList = ' ' :: "kB".toList := rfl
        simp only [if_true]
        rw [hbreak, splitWhitespace_break (by decide), (word_toDigits e.kb).splitWhitespace]
        rfl
  have hwords : splitWhitespace e.line = (e.label ++ [':']) :: Nat.toDigits 10 e.kb
      :: if e.unit then ["kB".toList] else [] := by
    rw [hline, splitWhitespace_break (by decide) (e.label ++ [':']), hword.splitWhitespace,
      splitWhitespace_replicate, hfigure]
    rfl
  have hkb : e.kb < 2 ^ 64 := by
    have hbytes := h.bytes
    omega
  rw [valBytes, hwords]
  simp only [List.getElem?_cons_succ, List.getElem?_cons_zero, Option.bind_some,
    parseU64_toDigits hkb, Option.map_some, Nat.mod_eq_of_lt h.bytes]

/-- The colon behind the label guards it: a label is no prefix of another. -/
theorem Fits.isPrefixOf {e : MemEntry} (h : e.Fits) {label : Text} (hlabel : ':' ∉ label) :
    (label ++ [':']).isPrefixOf e.line = true ↔ e.label = label := by
  have htake : ∀ (s : Text) (r : Text), ':' ∉ s → (s ++ ':' :: r).takeWhile (· ≠ ':') = s := by
    intro s r hs
    rw [List.takeWhile_append_of_pos fun c hc => by
      simpa using ne_of_mem_of_not_mem hc hs]
    simp
  rw [List.isPrefixOf_iff_prefix]
  constructor
  · rintro ⟨rest, hrest⟩
    rw [List.append_assoc, List.singleton_append] at hrest
    have heq := congrArg (List.takeWhile (· ≠ ':')) hrest
    rw [htake _ _ hlabel, line, htake _ _ h.colon] at heq
    exact heq.symm
  · rintro rfl
    exact ⟨_, by rw [line, List.append_assoc, List.singleton_append]⟩

/-- What the loop has found behind the lines. -/
def found (es : List MemEntry) : MemLines :=
  { buffered := last es "Buffers", cached := last es "Cached"
    sreclaimable := (last es "SReclaimable").getD 0, shmem := (last es "Shmem").getD 0 }

theorem last_append (es : List MemEntry) (e : MemEntry) (label : String) :
    last (es ++ [e]) label
      = if e.label = label.toList then some (e.kb * 1024) else last es label := by
  rw [last, List.reverse_append, List.reverse_singleton, List.singleton_append, List.find?_cons]
  by_cases h : e.label = label.toList
  · simp [h]
  · simp [h, last]

theorem next_found (es : List MemEntry) {e : MemEntry} (h : e.Fits) :
    (found es).next e.line = found (es ++ [e]) := by
  have hbuffers : "Buffers:".toList.isPrefixOf e.line = true ↔ e.label = "Buffers".toList :=
    h.isPrefixOf (by decide : ':' ∉ "Buffers".toList)
  have hcached : "Cached:".toList.isPrefixOf e.line = true ↔ e.label = "Cached".toList :=
    h.isPrefixOf (by decide : ':' ∉ "Cached".toList)
  have hsreclaimable :
      "SReclaimable:".toList.isPrefixOf e.line = true ↔ e.label = "SReclaimable".toList :=
    h.isPrefixOf (by decide : ':' ∉ "SReclaimable".toList)
  have hshmem : "Shmem:".toList.isPrefixOf e.line = true ↔ e.label = "Shmem".toList :=
    h.isPrefixOf (by decide : ':' ∉ "Shmem".toList)
  rw [MemLines.next]
  simp only [hbuffers, hcached, hsreclaimable, hshmem, h.valBytes_line]
  by_cases hb : e.label = "Buffers".toList
  · simp [found, last_append, hb]
  by_cases hc : e.label = "Cached".toList
  · simp [found, last_append, hc]
  by_cases hr : e.label = "SReclaimable".toList
  · simp [found, last_append, hr]
  by_cases hs : e.label = "Shmem".toList
  · simp [found, last_append, hs]
  rw [if_neg hb, if_neg hc, if_neg hr, if_neg hs]
  simp only [found, last_append, if_neg hb, if_neg hc, if_neg hr, if_neg hs]

end MemEntry

/-- **Buffers and page cache are what the lines of their labels say**, in bytes, whatever other
lines there are. -/
theorem meminfo_read_back (es : List MemEntry) (h : ∀ e ∈ es, e.Fits) :
    memCacheFrom (MemEntry.text es) = (MemEntry.last es "Buffers").bind fun buffered =>
      (MemEntry.last es "Cached").map fun cached =>
        { buffered, cached := min (cached + (MemEntry.last es "SReclaimable").getD 0) (2 ^ 64 - 1)
            - (MemEntry.last es "Shmem").getD 0 } := by
  have hfold : (Text.lines (MemEntry.text es)).foldl MemLines.next {} = MemEntry.found es := by
    have hlines : ∀ es : List MemEntry, (∀ e ∈ es, e.Fits) →
        Text.lines (MemEntry.text es) = es.map MemEntry.line := by
      intro es h
      induction es with
      | nil => rfl
      | cons e es ih =>
          have htext : MemEntry.text (e :: es) = e.line ++ '\n' :: MemEntry.text es := by
            simp [MemEntry.text]
          rw [htext, (h e (List.mem_cons_self ..)).printable_line.lines,
            ih fun d hd => h d (List.mem_cons_of_mem _ hd), List.map_cons]
    rw [hlines es h]
    induction es using List.reverseRecOn with
    | nil => rfl
    | append_singleton es e ih =>
        rw [List.map_append, List.foldl_append, ih fun d hd => h d (List.mem_append_left _ hd)]
        exact MemEntry.next_found es (h e (by simp))
  rw [memCacheFrom, hfold]
  rfl

/-- Lines whose labels end alike, or go on, and one without a unit. -/
def cachedLines : List MemEntry :=
  [("Buffers", 10, true), ("Cached", 200, true), ("SwapCached", 7, true), ("Shmem", 30, true),
    ("SReclaimable", 40, true), ("ShmemHugePages", 9, true), ("HugePages_Total", 3, false)].map
      fun e => { label := e.1.toList, padding := 3, kb := e.2.1, unit := e.2.2 }

theorem meminfo_read_back_cached :
    memCacheFrom (MemEntry.text cachedLines)
      = some { buffered := 10 * 1024, cached := 210 * 1024 } := by
  have hfits : ∀ e ∈ cachedLines, e.Fits := by
    have hall : cachedLines.all (fun e =>
        e.label.all (fun c => !isWhitespace c && decide (0x20 ≤ c.toNat))
          && decide (':' ∉ e.label) && decide (e.kb * 1024 < 2 ^ 64)) = true := by decide +kernel
    intro e he
    have hentry := List.all_eq_true.mp hall e he
    simp only [Bool.and_eq_true, List.all_eq_true, Bool.not_eq_true', decide_eq_true_eq] at hentry
    obtain ⟨⟨hlabel, hcolon⟩, hbytes⟩ := hentry
    exact ⟨fun c hc => (hlabel c hc).1, hcolon, fun c hc => (hlabel c hc).2, hbytes⟩
  rw [meminfo_read_back cachedLines hfits]
  decide +kernel

end Tributary.Metrics
