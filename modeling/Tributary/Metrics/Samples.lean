import Tributary.Config.File
import Tributary.Lib.Rounding
import Tributary.Lp.Encode
import Tributary.Metrics.InjectTags
import Tributary.Metrics.Mountinfo
import Tributary.Metrics.Proc

/-!
# Samples and their records

What a collector reads, and the record it is written as. Integers of the machine are unbounded
here and wrap where they become an `i64`; percentages are doubles, given by their patterns.
-/

namespace Tributary.Metrics

open Lib Binary64 Lp

/-! ## Samples -/

structure MemSample where
  total : Nat
  available : Nat
  used : Nat
  free : Nat
  cache : Option MemCache
deriving DecidableEq, Repr

structure SwapSample where
  total : Nat
  used : Nat
  free : Nat
deriving DecidableEq, Repr

/-- The per-state CPU breakdown, in percent. -/
structure CpuStates where
  user : Nat := 0
  system : Nat := 0
  iowait : Nat := 0
  nice : Nat := 0
  irq : Nat := 0
  softirq : Nat := 0
  steal : Nat := 0
  guest : Nat := 0
  guestNice : Nat := 0
deriving DecidableEq, Repr

/-- One core, or the aggregate. -/
structure CpuSample where
  name : Text
  usage : Nat
  states : Option CpuStates
deriving DecidableEq, Repr

structure InodeStats where
  total : Nat
  free : Nat
  used : Nat
deriving DecidableEq, Repr

/-- Nothing where there are no inodes. -/
def inodeStatsFrom (files ffree : Nat) : Option InodeStats :=
  if files = 0 then none else some { total := files, free := ffree, used := files - ffree }

structure DiskSample where
  device : Text
  path : Text
  fstype : Text
  total : Nat
  free : Nat
  inodes : Option InodeStats
deriving DecidableEq, Repr

/-- What `statvfs` says of a mount. -/
structure Statvfs where
  frsize : Nat
  blocks : Nat
  bavail : Nat
  files : Nat
  ffree : Nat

def statvfsSample (m : MountInfo) (s : Statvfs) : DiskSample :=
  { device := m.source, path := m.path, fstype := m.fstype
    total := s.blocks * s.frsize % 2 ^ 64, free := s.bavail * s.frsize % 2 ^ 64
    inodes := inodeStatsFrom s.files s.ffree }

structure NetSample where
  iface : Text
  bytesRecv : Nat
  bytesSent : Nat
  packetsRecv : Nat
  packetsSent : Nat
  errIn : Nat
  errOut : Nat
deriving DecidableEq, Repr

structure SystemSample where
  load1 : F64
  load5 : F64
  load15 : F64
  nCpus : Nat
  uptime : Nat
deriving DecidableEq, Repr

/-! ## The context -/

def fieldvalueToLp : Config.FieldValue → Value
  | .bool b => .bool b
  | .integer n => .int n
  | .float f => .float f
  | .str s => .str s

/-- The host, the global tags and the static fields. -/
structure Ctx extends Exec.Ctx where
  staticFields : List (Text × Value)
  /-- they are a map -/
  nodup : (staticFields.map Prod.fst).Nodup

/-- The measurement's own fields, then any static field of another name. -/
def Ctx.fields (ctx : Ctx) (base : List (Text × Value)) : List (Text × Value) :=
  base ++ ctx.staticFields.filter fun kv => kv.1 ∉ base.map Prod.fst

/-! ## Percentages -/

@[irreducible] def hundred : Nat := ofNat 100

def pct (part whole : Nat) : Nat :=
  if whole = 0 then 0 else mul (div (ofNat part) (ofNat whole)) hundred

theorem units_ofNat_one : units (ofNat 1) ≠ 0 := by decide +kernel

theorem units_ofNat_ne_zero {n : Nat} (h : 0 < n) : units (ofNat n) ≠ 0 := by
  have hone := units_strictMono.monotone (ofNat_mono h)
  have hpos := Nat.pos_of_ne_zero units_ofNat_one
  exact Nat.ne_of_gt (Nat.lt_of_lt_of_le hpos hone)

theorem hundred_lt : hundred < infinity := by decide +kernel

/-- **A part is at most a hundred percent**, however the divisions round. -/
theorem pct_le_hundred {part whole : Nat} (h : part ≤ whole) : pct part whole ≤ hundred := by
  rw [pct]
  split
  · exact Nat.zero_le _
  · rename_i hwhole
    have hdiv := div_le_one (ofNat_mono h) (units_ofNat_ne_zero (Nat.pos_of_ne_zero hwhole))
    calc mul (div (ofNat part) (ofNat whole)) hundred ≤ mul one hundred := mul_mono hdiv
      _ = hundred := mul_one_left (Nat.le_of_lt hundred_lt)

/-- Of a `u64`, it is a number. -/
theorem pct_lt_infinity {part : Nat} (h : part < 2 ^ 64) (whole : Nat) :
    pct part whole < infinity := by
  rw [pct]
  split
  · decide
  · rename_i hwhole
    have hdiv : div (ofNat part) (ofNat whole) ≤ div (ofNat (2 ^ 64)) (ofNat 1) :=
      div_mono (ofNat_mono (Nat.le_of_lt h)) units_ofNat_one
        (ofNat_mono (Nat.pos_of_ne_zero hwhole))
    have hmost : mul (div (ofNat (2 ^ 64)) (ofNat 1)) hundred < infinity := by decide +kernel
    exact Nat.lt_of_le_of_lt (mul_mono hdiv) hmost

/-! ## Records -/

/-- `as i64`. -/
def asI64 (n : Nat) : Value := .int (wrap64 n)

def float (u : Nat) : Value := .float (F64.ofPattern false u)

def memFields (s : MemSample) : List (Text × Value) :=
  [("total".toList, asI64 s.total), ("available".toList, asI64 s.available),
    ("used".toList, asI64 s.used), ("free".toList, asI64 s.free),
    ("used_percent".toList, float (pct s.used s.total)),
    ("available_percent".toList, float (pct s.available s.total))]
    ++ match s.cache with
      | some c => [("buffered".toList, asI64 c.buffered), ("cached".toList, asI64 c.cached)]
      | none => []

def memRecord (s : MemSample) (ctx : Ctx) (tsNs : Int) : Record :=
  { table := "mem".toList, tags := ctx.tags [], fields := ctx.fields (memFields s), tsNs }

def swapFields (s : SwapSample) : List (Text × Value) :=
  [("total".toList, asI64 s.total), ("used".toList, asI64 s.used), ("free".toList, asI64 s.free),
    ("used_percent".toList, float (pct s.used s.total))]

def swapRecord (s : SwapSample) (ctx : Ctx) (tsNs : Int) : Record :=
  { table := "swap".toList, tags := ctx.tags [], fields := ctx.fields (swapFields s), tsNs }

/-- `usage_idle` is `(100.0 - usage).max(0.0)`. -/
def cpuFields (s : CpuSample) : List (Text × Value) :=
  [("usage_idle".toList, float (sub hundred s.usage)), ("usage_active".toList, float s.usage)]
    ++ match s.states with
      | some st =>
          [("usage_user".toList, float st.user), ("usage_system".toList, float st.system),
            ("usage_iowait".toList, float st.iowait), ("usage_nice".toList, float st.nice),
            ("usage_irq".toList, float st.irq), ("usage_softirq".toList, float st.softirq),
            ("usage_steal".toList, float st.steal), ("usage_guest".toList, float st.guest),
            ("usage_guest_nice".toList, float st.guestNice)]
      | none => []

def cpuTags (s : CpuSample) : Exec.Tags := [("cpu".toList, s.name)]

def cpuRecord (s : CpuSample) (ctx : Ctx) (tsNs : Int) : Record :=
  { table := "cpu".toList, tags := ctx.tags (cpuTags s), fields := ctx.fields (cpuFields s), tsNs }

def diskFields (s : DiskSample) : List (Text × Value) :=
  let used := s.total - s.free
  [("total".toList, asI64 s.total), ("free".toList, asI64 s.free), ("used".toList, asI64 used),
    ("used_percent".toList, float (pct used s.total))]
    ++ match s.inodes with
      | some i =>
          [("inodes_total".toList, asI64 i.total), ("inodes_free".toList, asI64 i.free),
            ("inodes_used".toList, asI64 i.used)]
      | none => []

def diskTags (s : DiskSample) : Exec.Tags :=
  [("device".toList, s.device), ("path".toList, s.path), ("fstype".toList, s.fstype)]

def diskRecord (s : DiskSample) (ctx : Ctx) (tsNs : Int) : Record :=
  { table := "disk".toList, tags := ctx.tags (diskTags s), fields := ctx.fields (diskFields s)
    tsNs }

def netFields (s : NetSample) : List (Text × Value) :=
  [("bytes_recv".toList, asI64 s.bytesRecv), ("bytes_sent".toList, asI64 s.bytesSent),
    ("packets_recv".toList, asI64 s.packetsRecv), ("packets_sent".toList, asI64 s.packetsSent),
    ("err_in".toList, asI64 s.errIn), ("err_out".toList, asI64 s.errOut)]

def netTags (s : NetSample) : Exec.Tags := [("interface".toList, s.iface)]

def netRecord (s : NetSample) (ctx : Ctx) (tsNs : Int) : Record :=
  { table := "net".toList, tags := ctx.tags (netTags s), fields := ctx.fields (netFields s), tsNs }

def systemFields (s : SystemSample) : List (Text × Value) :=
  [("load1".toList, .float s.load1), ("load5".toList, .float s.load5),
    ("load15".toList, .float s.load15), ("n_cpus".toList, asI64 s.nCpus),
    ("uptime".toList, asI64 s.uptime)]

def systemRecord (s : SystemSample) (ctx : Ctx) (tsNs : Int) : Record :=
  { table := "system".toList, tags := ctx.tags [], fields := ctx.fields (systemFields s), tsNs }

def diskioFields (s : DiskIoSample) : List (Text × Value) :=
  [("reads".toList, asI64 s.reads), ("writes".toList, asI64 s.writes),
    ("read_bytes".toList, asI64 s.readBytes), ("write_bytes".toList, asI64 s.writeBytes),
    ("read_time".toList, asI64 s.readTime), ("write_time".toList, asI64 s.writeTime),
    ("io_time".toList, asI64 s.ioTime), ("weighted_io_time".toList, asI64 s.weightedIoTime),
    ("iops_in_progress".toList, asI64 s.iopsInProgress)]

def diskioTags (s : DiskIoSample) : Exec.Tags := [("name".toList, s.name)]

def diskioRecord (s : DiskIoSample) (ctx : Ctx) (tsNs : Int) : Record :=
  { table := "diskio".toList, tags := ctx.tags (diskioTags s)
    fields := ctx.fields (diskioFields s), tsNs }

/-- One of the samples of a tick. -/
inductive Sample where
  | mem (s : MemSample)
  | swap (s : SwapSample)
  | system (s : SystemSample)
  | disk (s : DiskSample)
  | net (s : NetSample)
  | diskio (s : DiskIoSample)
  | cpu (s : CpuSample)
deriving DecidableEq, Repr

namespace Sample

def record (ctx : Ctx) (tsNs : Int) : Sample → Record
  | .mem s => memRecord s ctx tsNs
  | .swap s => swapRecord s ctx tsNs
  | .system s => systemRecord s ctx tsNs
  | .disk s => diskRecord s ctx tsNs
  | .net s => netRecord s ctx tsNs
  | .diskio s => diskioRecord s ctx tsNs
  | .cpu s => cpuRecord s ctx tsNs

/-- The measurement a sample is written to. -/
def table : Sample → Text
  | .mem _ => "mem".toList
  | .swap _ => "swap".toList
  | .system _ => "system".toList
  | .disk _ => "disk".toList
  | .net _ => "net".toList
  | .diskio _ => "diskio".toList
  | .cpu _ => "cpu".toList

/-- The tags of its own. -/
def tags : Sample → Exec.Tags
  | .mem _ | .swap _ | .system _ => []
  | .disk s => diskTags s
  | .net s => netTags s
  | .diskio s => diskioTags s
  | .cpu s => cpuTags s

/-- The fields of its own. -/
def fields : Sample → List (Text × Value)
  | .mem s => memFields s
  | .swap s => swapFields s
  | .system s => systemFields s
  | .disk s => diskFields s
  | .net s => netFields s
  | .diskio s => diskioFields s
  | .cpu s => cpuFields s

variable {ctx : Ctx} {ts : Int} {s : Sample}

theorem record_eq (ctx : Ctx) (ts : Int) (s : Sample) : s.record ctx ts
    = { table := s.table, tags := ctx.tags s.tags, fields := ctx.fields s.fields, tsNs := ts } := by
  cases s <;> rfl

/-! ### Keys -/

/-- The measurement tells which tags are the sample's own. -/
def ownKeys (table : Text) : List Text :=
  if table = "disk".toList then ["device", "path", "fstype"].map String.toList
  else if table = "net".toList then ["interface".toList]
  else if table = "diskio".toList then ["name".toList]
  else if table = "cpu".toList then ["cpu".toList]
  else []

theorem keys_tags (s : Sample) : s.tags.map Prod.fst = ownKeys s.table := by
  cases s <;> rfl

theorem ownKeys_nodup (table : Text) : (ownKeys table).Nodup := by
  rw [ownKeys]
  split
  · decide
  split
  · decide
  split
  · decide
  split <;> decide

theorem tags_nodup (s : Sample) : (s.tags.map Prod.fst).Nodup := by
  rw [keys_tags]
  exact ownKeys_nodup s.table

theorem fields_nodup (s : Sample) : (s.fields.map Prod.fst).Nodup := by
  cases s with
  | mem s =>
      rw [fields, memFields]
      cases s.cache <;> simp
  | disk s =>
      rw [fields, diskFields]
      cases s.inodes <;> simp
  | cpu s =>
      rw [fields, cpuFields]
      cases s.states <;> simp
  | swap s => simp [fields, swapFields]
  | net s => simp [fields, netFields]
  | system s => simp [fields, systemFields]
  | diskio s => simp [fields, diskioFields]

theorem table_ne_nil (s : Sample) : s.table ≠ [] := by
  cases s <;> simp [table]

theorem fields_ne_nil (s : Sample) : s.fields ≠ [] := by
  cases s <;> simp [fields, memFields, swapFields, systemFields, diskFields, netFields,
    diskioFields, cpuFields]

end Sample

/-- No key is there twice. -/
theorem Ctx.fields_nodup (ctx : Ctx) {base : List (Text × Value)}
    (h : (base.map Prod.fst).Nodup) : ((ctx.fields base).map Prod.fst).Nodup := by
  rw [fields, List.map_append]
  refine List.nodup_append.mpr ⟨h, ctx.nodup.sublist (List.filter_sublist.map _), ?_⟩
  intro k hk l hl
  obtain ⟨kv, hkv, rfl⟩ := List.mem_map.mp hl
  rintro rfl
  simpa [hk] using (List.mem_filter.mp hkv).2

/-! ### Tags of one's own -/

theorem lookup_cons_eq (x : Text) (kv : Text × Text) (m : Exec.Tags) :
    List.lookup x (kv :: m) = if x = kv.1 then some kv.2 else m.lookup x := by
  rw [List.lookup_cons]
  by_cases hx : x = kv.1
  · rw [if_pos hx, beq_iff_eq.mpr hx]
  · rw [if_neg hx, beq_eq_false_iff_ne.mpr hx]

theorem lookup_insertTag (k v : Text) (m : Exec.Tags) (x : Text) :
    (Exec.insertTag k v m).lookup x = if x = k then some v else m.lookup x := by
  induction m with
  | nil => exact lookup_cons_eq x (k, v) []
  | cons kv m ih =>
      rw [Exec.insertTag]
      split
      · exact lookup_cons_eq x (k, v) (kv :: m)
      split
      · rename_i heq
        rw [lookup_cons_eq, lookup_cons_eq, ← heq]
        split <;> rfl
      · rename_i hne
        rw [lookup_cons_eq, lookup_cons_eq, ih]
        by_cases hx : x = kv.1
        · rw [if_pos hx, if_pos hx, if_neg (hx ▸ Ne.symm hne)]
        · rw [if_neg hx, if_neg hx]

/-- What is inserted last stands, under keys that differ. -/
theorem lookup_foldl_insertTag {own : Exec.Tags} (h : (own.map Prod.fst).Nodup) (m : Exec.Tags)
    {kv : Text × Text} (hkv : kv ∈ own) :
    (own.foldl (fun m kv => Exec.insertTag kv.1 kv.2 m) m).lookup kv.1 = some kv.2 := by
  induction own using List.reverseRecOn with
  | nil => cases hkv
  | append_singleton own last ih =>
      rw [List.map_append, List.nodup_append] at h
      obtain ⟨hown, -, hlast⟩ := h
      rw [List.foldl_append, List.foldl_cons, List.foldl_nil, lookup_insertTag]
      rcases List.mem_append.mp hkv with hkv | hkv
      · have hne : kv.1 ≠ last.1 := hlast kv.1 (List.mem_map_of_mem hkv) last.1 (by simp)
        rw [if_neg hne]
        exact ih hown hkv
      · rw [List.mem_singleton.mp hkv, if_pos rfl]

/-- Tags of one's own can be read off the record's. -/
theorem own_tags {ctx : Exec.Ctx} {own own' : Exec.Tags}
    (hkeys : own.map Prod.fst = own'.map Prod.fst) (hnodup : (own.map Prod.fst).Nodup)
    (h : ctx.tags own = ctx.tags own') : own = own' := by
  have hlength : own.length = own'.length := by simpa using congrArg List.length hkeys
  refine List.ext_getElem hlength fun i hi hi' => ?_
  have hkey : own[i].1 = own'[i].1 := by
    have hget := List.getElem_of_eq hkeys (by simpa using hi)
    simpa using hget
  have hvalue := lookup_foldl_insertTag hnodup
    (Exec.insertTag "host".toList ctx.host ctx.globalTags) (List.getElem_mem hi)
  have hvalue' := lookup_foldl_insertTag (hkeys ▸ hnodup)
    (Exec.insertTag "host".toList ctx.host ctx.globalTags) (List.getElem_mem hi')
  rw [← hkey] at hvalue'
  have htags := congrArg (List.lookup own[i].1) h
  rw [Exec.Ctx.tags, Exec.Ctx.tags, hvalue, hvalue'] at htags
  exact Prod.ext hkey (Option.some.inj htags)

/-! ### What can be written -/

/-- No infinity, and a number. -/
def finite : Value → Bool
  | .float f => f.isFinite
  | _ => true

theorem finite_float {u : Nat} (h : u < infinity) : finite (float u) = true := by
  have hu : u < 2 ^ 64 := Nat.lt_trans h (by decide)
  have hbits : (F64.ofPattern false u).bits.toNat = u := by
    simp only [F64.ofPattern, Bool.false_eq_true, if_false]
    exact UInt64.toNat_ofNat_of_lt' hu
  have hexp : u / 2 ^ 52 % 2 ^ 11 ≠ 2047 := by
    simp only [infinity] at h
    omega
  have hfloat : finite (float u) = (F64.ofPattern false u).isFinite := rfl
  rw [hfloat, F64.isFinite, hbits]
  exact bne_iff_ne.mpr hexp

/-- The load averages are numbers, and the rest is of 64 bits. -/
def Sample.Fits : Sample → Prop
  | .mem s => s.used < 2 ^ 64 ∧ s.available < 2 ^ 64
  | .swap s => s.used < 2 ^ 64
  | .system s => s.load1.isFinite = true ∧ s.load5.isFinite = true ∧ s.load15.isFinite = true
  | .disk s => s.total < 2 ^ 64
  | .net _ | .diskio _ => True
  | .cpu s => s.usage < infinity ∧ ∀ st, s.states = some st →
      ∀ u ∈ [st.user, st.system, st.iowait, st.nice, st.irq, st.softirq, st.steal, st.guest,
        st.guestNice], u < infinity

theorem Sample.finite_fields {s : Sample} (h : s.Fits) : ∀ kv ∈ s.fields, finite kv.2 = true := by
  have hint : ∀ n, finite (asI64 n) = true := fun _ => rfl
  have hfloat : ∀ f, finite (.float f) = f.isFinite := fun _ => rfl
  cases s with
  | mem s =>
      have hused := finite_float (pct_lt_infinity h.1 s.total)
      have havailable := finite_float (pct_lt_infinity h.2 s.total)
      rw [fields, memFields]
      cases s.cache <;> simp [hint, hused, havailable]
  | swap s =>
      have hused := finite_float (pct_lt_infinity h s.total)
      simp [fields, swapFields, hint, hused]
  | system s => simp [fields, systemFields, hint, hfloat, h.1, h.2.1, h.2.2]
  | disk s =>
      have hsum : s.total - s.free < 2 ^ 64 := Nat.lt_of_le_of_lt (Nat.sub_le _ _) h
      have hused := finite_float (pct_lt_infinity hsum s.total)
      rw [fields, diskFields]
      cases s.inodes <;> simp [hint, hused]
  | net s => simp [fields, netFields, hint]
  | diskio s => simp [fields, diskioFields, hint]
  | cpu s =>
      have hactive := finite_float h.1
      have hidle := finite_float
        (Nat.lt_of_le_of_lt (sub_le (q := s.usage) (Nat.le_of_lt hundred_lt)) hundred_lt)
      rw [fields, cpuFields]
      cases hstates : s.states with
      | none => simp [hactive, hidle]
      | some st =>
          have hst := h.2 st hstates
          simp only [List.forall_mem_cons] at hst
          obtain ⟨h1, h2, h3, h4, h5, h6, h7, h8, h9, -⟩ := hst
          simp [hactive, hidle, finite_float h1, finite_float h2, finite_float h3, finite_float h4,
            finite_float h5, finite_float h6, finite_float h7, finite_float h8, finite_float h9]

/-- Each static field is finite, or a field of the sample's own has its name. -/
def Writes (ctx : Ctx) (s : Sample) : Prop :=
  ∀ kv ∈ ctx.staticFields, kv.1 ∈ s.fields.map Prod.fst ∨ finite kv.2 = true

instance (ctx : Ctx) (s : Sample) : Decidable (Writes ctx s) :=
  inferInstanceAs (Decidable (∀ _ ∈ _, _))

/-- **A record can be written just where no static field stands in the way.** -/
theorem Sample.encodable_iff {s : Sample} (h : s.Fits) (ctx : Ctx) (ts : Int) :
    (s.record ctx ts).Encodable ↔ Writes ctx s := by
  have hfields : (s.record ctx ts).fields = ctx.fields s.fields := by rw [record_eq]
  have htable : (s.record ctx ts).table ≠ [] := by
    rw [record_eq]
    exact s.table_ne_nil
  have hne : ctx.fields s.fields ≠ [] := by simp [Ctx.fields, s.fields_ne_nil]
  have hfinite : (s.record ctx ts).firstNonFinite = none
      ↔ ∀ kv ∈ ctx.fields s.fields, finite kv.2 = true := by
    rw [Record.firstNonFinite, Option.map_eq_none_iff, List.find?_eq_none, hfields]
    refine forall₂_congr fun kv _ => ?_
    cases kv.2 <;> simp [finite]
  rw [Record.Encodable, hfinite, hfields]
  constructor
  · rintro ⟨-, -, hall⟩ kv hkv
    by_cases hown : kv.1 ∈ s.fields.map Prod.fst
    · exact .inl hown
    · have hkept : kv ∈ ctx.staticFields.filter fun kv => kv.1 ∉ s.fields.map Prod.fst :=
        List.mem_filter.mpr ⟨hkv, by simpa using hown⟩
      exact .inr (hall kv (List.mem_append_right _ hkept))
  · intro hwrites
    refine ⟨htable, hne, fun kv hkv => ?_⟩
    rcases List.mem_append.mp hkv with hkv | hkv
    · exact finite_fields h kv hkv
    · obtain ⟨hstatic, hnot⟩ := List.mem_filter.mp hkv
      exact (hwrites kv hstatic).resolve_left (by simpa using hnot)

end Tributary.Metrics
