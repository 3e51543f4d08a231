import Tributary.Lib.Run
import Tributary.Metrics.Samples

/-!
# The collector loop

A tick reads the machine, stamps every row with one time that no tick before it had, and queues
the lines of the rows. CPU percentages are of the window since the last reading of `/proc/stat`.
-/

namespace Tributary.Metrics

open Lib Binary64 Lp

/-! ## CPU windows -/

namespace CpuTimes

/-- What has been counted since, each difference saturating. -/
def since (curr prev : CpuTimes) : CpuTimes :=
  { user := curr.user - prev.user, nice := curr.nice - prev.nice
    system := curr.system - prev.system, idle := curr.idle - prev.idle
    iowait := curr.iowait - prev.iowait, irq := curr.irq - prev.irq
    softirq := curr.softirq - prev.softirq, steal := curr.steal - prev.steal
    guest := curr.guest - prev.guest, guestNice := curr.guestNice - prev.guestNice }

/-- Guest time is in user time already. -/
def total (d : CpuTimes) : Nat :=
  (d.user + d.nice + d.system + d.idle + d.iowait + d.irq + d.softirq + d.steal) % 2 ^ 64

def percent (d : CpuTimes) (x : Nat) : Nat := mul (div (ofNat x) (ofNat d.total)) hundred

end CpuTimes

/-- The active percentage of a window and its split. -/
def windowStates (d : CpuTimes) : Nat × CpuStates :=
  if d.total = 0 then (0, {})
  else
    -- a total that has wrapped may lie below the idle time: the source's difference is then
    -- negative, and this one zero
    (sub hundred (d.percent d.idle),
      { user := d.percent (d.user - d.guest), nice := d.percent (d.nice - d.guestNice)
        system := d.percent d.system, iowait := d.percent d.iowait, irq := d.percent d.irq
        softirq := d.percent d.softirq, steal := d.percent d.steal
        guest := d.percent d.guest, guestNice := d.percent d.guestNice })

def cpuDelta (prev curr : CpuTimes) : Nat × CpuStates := windowStates (curr.since prev)

abbrev CpuBaseline := List (Text × CpuTimes)

/-- The sample of one cpu. -/
def cpuSample (name : Text) (delta : Nat × CpuStates) : CpuSample :=
  { name, usage := delta.1, states := some delta.2 }

/-- The samples, and the baseline for the next call; `none` where `/proc/stat` could not be
read. Of two lines of one name in the baseline the later counts. -/
def gatherCpu (prev : CpuBaseline) (stat : Option Text) : List CpuSample × CpuBaseline :=
  match stat with
  | none => ([], prev)
  | some text =>
      let curr := parseProcStat text
      (if prev = [] then []
        else curr.filterMap fun c => (prev.reverse.lookup c.1).map fun pt =>
          cpuSample c.1 (cpuDelta pt c.2), curr)

/-! ## The tick -/

inductive Collector where
  | cpu
  | mem
  | disk
  | diskio
  | net
  | system
  | swap
deriving DecidableEq, Repr

def resolveCollector (name : Text) : Option Collector :=
  if name = "cpu".toList then some .cpu
  else if name = "mem".toList then some .mem
  else if name = "disk".toList then some .disk
  else if name = "diskio".toList then some .diskio
  else if name = "net".toList then some .net
  else if name = "system".toList then some .system
  else if name = "swap".toList then some .swap
  else none

def resolveCollectors (names : List Text) : List Collector := names.filterMap resolveCollector

/-- What the machine says at a tick. -/
structure Readings where
  /-- nanoseconds since the epoch, as an `i64` -/
  now : Int
  mem : MemSample
  meminfo : Option Text
  swap : SwapSample
  system : SystemSample
  /-- the mounts that answered -/
  mounts : List (MountInfo × Statvfs)
  nets : List NetSample
  diskstats : Option Text
  stat : Option Text

def gatherMem (r : Readings) : MemSample := { r.mem with cache := r.meminfo.bind memCacheFrom }

def gatherDiskio (r : Readings) : List DiskIoSample := (r.diskstats.map parseDiskstats).getD []

/-- A row, with the tick that wrote it. -/
structure Row where
  tick : Nat
  sample : Sample
  ts : Int
deriving DecidableEq, Repr

/-- What is held across ticks, the rows of all ticks so far, and what was queued for them. -/
structure State where
  baseline : CpuBaseline := []
  firstTick : Bool := true
  lastTs : Int := 0
  ticks : Nat := 0
  rows : List Row := []
  pushed : List Text := []

section

variable (collectors : List Collector) (ctx : Ctx)

def wanted (c : Collector) (samples : List Sample) : List Sample :=
  if c ∈ collectors then samples else []

/-- The samples of a tick, in order, and the baseline behind it. -/
def samplesOf (s : State) (r : Readings) : List Sample × CpuBaseline :=
  let cpu := if .cpu ∈ collectors then gatherCpu s.baseline r.stat else ([], s.baseline)
  (wanted collectors .mem [.mem (gatherMem r)]
    ++ wanted collectors .swap [.swap r.swap]
    ++ wanted collectors .system [.system r.system]
    ++ wanted collectors .disk (r.mounts.map fun m => .disk (statvfsSample m.1 m.2))
    ++ wanted collectors .net (r.nets.map .net)
    ++ wanted collectors .diskio ((gatherDiskio r).map .diskio)
    -- the first window is cold
    ++ (if s.firstTick then [] else cpu.1.map .cpu), cpu.2)

/-- Later than any tick before. -/
def stampOf (s : State) (r : Readings) : Int := max r.now (wrap64 (s.lastTs + 1))

def tick (s : State) (r : Readings) : State :=
  let (samples, baseline) := samplesOf collectors s r
  let ts := stampOf s r
  let lines := Record.encodeShared (samples.map (·.record ctx ts)) []
  { baseline, firstTick := false, lastTs := ts, ticks := s.ticks + 1
    rows := s.rows ++ samples.map fun sample => { tick := s.ticks, sample, ts }
    -- an empty body is not queued
    pushed := if lines = [] then s.pushed else s.pushed ++ [lines] }

/-- The loop. -/
def step (s : State) (r : Readings) : Option State := some (tick collectors ctx s r)

end

/-! ## Primary keys -/

variable {collectors : List Collector} {ctx : Ctx} {s t : State} {r : Readings} {rs : List Readings}

def Row.record (ctx : Ctx) (row : Row) : Record := row.sample.record ctx row.ts

/-- What the store tells rows apart by. -/
def primaryKey (r : Record) : Text × Exec.Tags × Int := (r.table, r.tags, r.tsNs)

/-- There is a later time than that of the last tick. -/
def InTime (s : State) (_ : Readings) : Prop := s.lastTs < i64Max

instance : DecidableRel InTime := fun s _ => inferInstanceAs (Decidable (s.lastTs < i64Max))

/-- Rows are of ticks that are over, and of one time just where they are of one tick. -/
structure Stamped (s : State) : Prop where
  start : 0 ≤ s.lastTs
  before : ∀ row ∈ s.rows, row.tick < s.ticks ∧ row.ts ≤ s.lastTs
  same : ∀ a ∈ s.rows, ∀ b ∈ s.rows, a.ts = b.ts ↔ a.tick = b.tick

theorem lt_stampOf (hs : 0 ≤ s.lastTs) (h : InTime s r) : s.lastTs < stampOf s r := by
  have hfits : FitsI64 (s.lastTs + 1) := by
    simp only [InTime, i64Max] at h
    simp only [FitsI64, i64Min, i64Max]
    omega
  rw [stampOf, wrap64_of_fits hfits]
  omega

theorem Stamped.step (h : Stamped s) (htime : InTime s r)
    (ht : step collectors ctx s r = some t) : Stamped t := by
  cases ht
  have hlater := lt_stampOf h.start htime
  have hnew : ∀ row ∈ (tick collectors ctx s r).rows, row ∈ s.rows
      ∨ row.tick = s.ticks ∧ row.ts = stampOf s r := by
    intro row hrow
    rcases List.mem_append.mp hrow with hold | hnew
    · exact .inl hold
    · obtain ⟨sample, -, rfl⟩ := List.mem_map.mp hnew
      exact .inr ⟨rfl, rfl⟩
  refine ⟨?_, fun row hrow => ?_, fun a ha b hb => ?_⟩
  · exact Int.le_of_lt (Int.lt_of_le_of_lt h.start hlater)
  · rcases hnew row hrow with hold | ⟨htick, hts⟩
    · obtain ⟨htick, hts⟩ := h.before row hold
      exact ⟨Nat.lt_succ_of_lt htick, Int.le_trans hts (Int.le_of_lt hlater)⟩
    · exact ⟨htick ▸ Nat.lt_succ_self _, Int.le_of_eq hts⟩
  · -- a row of this tick is later than one of before in both, and agrees in both with its like
    rcases hnew a ha with hold | ⟨hatick, hats⟩ <;> rcases hnew b hb with hold' | ⟨hbtick, hbts⟩
    · exact h.same a hold b hold'
    · obtain ⟨htick, hts⟩ := h.before a hold
      omega
    · obtain ⟨htick, hts⟩ := h.before b hold'
      omega
    · simp [hatick, hats, hbtick, hbts]

/-- **Rows share a primary key just where one tick wrote them for the same thing**: the same
measurement and the same values of its own tags. No clock and no global tag makes rows of two
ticks, or of two devices, one. -/
theorem rows_keyed (htime : Meets (step collectors ctx) InTime {} rs)
    (hr : run (step collectors ctx) {} rs = some s) :
    ∀ a ∈ s.rows, ∀ b ∈ s.rows, primaryKey (a.record ctx) = primaryKey (b.record ctx)
      ↔ a.tick = b.tick ∧ a.sample.table = b.sample.table ∧ a.sample.tags = b.sample.tags := by
  have hstart : Stamped {} := ⟨Int.le_refl _, by simp, by simp⟩
  have h := run_invariant (fun _ _ _ h htime ht => h.step htime ht) hstart htime hr
  intro a ha b hb
  rw [primaryKey, primaryKey, Row.record, Row.record, Sample.record_eq, Sample.record_eq,
    Prod.mk.injEq, Prod.mk.injEq, h.same a ha b hb]
  constructor
  · rintro ⟨htable, htags, htick⟩
    -- rows of one measurement have tags of the same keys, which no global tag replaces
    have hkeys : a.sample.tags.map Prod.fst = b.sample.tags.map Prod.fst := by
      rw [Sample.keys_tags, Sample.keys_tags]
      exact congrArg Sample.ownKeys htable
    exact ⟨htick, htable, own_tags hkeys a.sample.tags_nodup htags⟩
  · rintro ⟨htick, htable, htags⟩
    exact ⟨htable, congrArg ctx.tags htags, htick⟩

/-- A machine with two disks of one device, and one core. -/
def machine (now : Int) (stat : Option Text) : Readings :=
  { now, mem := { total := 100, available := 40, used := 60, free := 30, cache := none }
    meminfo := none, swap := { total := 0, used := 0, free := 0 }
    system := { load1 := ⟨0⟩, load5 := ⟨0⟩, load15 := ⟨0⟩, nCpus := 1, uptime := 9 }
    mounts := ["/", "/data"].map fun path =>
      ({ source := "sda".toList, path := path.toList, fstype := "ext4".toList },
        { frsize := 4096, blocks := 10, bavail := 4, files := 0, ffree := 0 })
    nets := [], diskstats := none, stat }

def plainCtx (staticFields : List (Text × Value)) (nodup : (staticFields.map Prod.fst).Nodup) :
    Ctx :=
  { host := "h".toList, globalTags := [("path".toList, "x".toList)]
    sorted := List.pairwise_singleton _ _, staticFields, nodup }

/-- The clock goes back between the two ticks. -/
theorem rows_keyed_clockBack :
    ∃ s, run (step [.disk] (plainCtx [] List.nodup_nil)) {} [machine 10 none, machine 5 none]
        = some s
      ∧ s.rows.map (fun row => (row.tick, row.ts)) = [(0, 10), (0, 10), (1, 11), (1, 11)]
      ∧ ∀ a ∈ s.rows, ∀ b ∈ s.rows,
        primaryKey (a.record (plainCtx [] List.nodup_nil))
            = primaryKey (b.record (plainCtx [] List.nodup_nil))
          ↔ a.tick = b.tick ∧ a.sample.table = b.sample.table
            ∧ a.sample.tags = b.sample.tags := by
  have hrun : (run (step [.disk] (plainCtx [] List.nodup_nil)) {}
      [machine 10 none, machine 5 none]).map (fun s => s.rows.map fun row => (row.tick, row.ts))
      = some [(0, 10), (0, 10), (1, 11), (1, 11)] := by decide +kernel
  obtain ⟨s, hs, hrows⟩ := Option.map_eq_some_iff.mp hrun
  exact ⟨s, hs, hrows, rows_keyed (by decide +kernel) hs⟩

/-! ## What is written -/

/-- What the machine says is of 64 bits, and its load averages are numbers. -/
structure Readings.Fits (r : Readings) : Prop where
  used : r.mem.used < 2 ^ 64
  available : r.mem.available < 2 ^ 64
  swap : r.swap.used < 2 ^ 64
  load1 : r.system.load1.isFinite = true
  load5 : r.system.load5.isFinite = true
  load15 : r.system.load15.isFinite = true

theorem number_lt (t : Text) : number t < 2 ^ 64 := by
  have hparse : ∀ n, parseU64 t = some n → n < 2 ^ 64 := by
    intro n hn
    simp only [parseU64] at hn
    split at hn
    · split at hn
      · rename_i hlt
        exact Option.some.inj hn ▸ hlt
      · cases hn
    · cases hn
  rw [number]
  cases h : parseU64 t with
  | none => decide
  | some n => exact hparse n h

theorem CpuTimes.fits_ofColumns {v : List Nat} (h : ∀ n ∈ v, n < 2 ^ 64) :
    (CpuTimes.ofColumns v).Fits := by
  have hget : ∀ i, v.getD i 0 < 2 ^ 64 := by
    intro i
    rcases Nat.lt_or_ge i v.length with hi | hi
    · rw [List.getD_eq_getElem _ _ hi]
      exact h _ (List.getElem_mem hi)
    · rw [List.getD_eq_default _ _ hi]
      decide
  simp only [Fits, columns, ofColumns, List.forall_mem_cons]
  exact ⟨hget 0, hget 1, hget 2, hget 3, hget 4, hget 5, hget 6, hget 7, hget 8, hget 9, by simp⟩

theorem fits_cpuLines {lines : List Text} : ∀ c ∈ cpuLines lines, c.2.Fits := by
  induction lines with
  | nil => simp [cpuLines]
  | cons line lines ih =>
      intro c hc
      rw [cpuLines] at hc
      split at hc
      · exact ih c hc
      · rename_i label rest _
        split at hc
        · rcases List.mem_cons.mp hc with rfl | hc
          · refine CpuTimes.fits_ofColumns fun n hn => ?_
            obtain ⟨word, -, rfl⟩ := List.mem_map.mp hn
            exact number_lt word
          · exact ih c hc
        · cases hc

theorem CpuTimes.Fits.since {curr : CpuTimes} (h : curr.Fits) (prev : CpuTimes) :
    (curr.since prev).Fits := by
  have hsub : ∀ a b, a < 2 ^ 64 → a - b < 2 ^ 64 := fun a b ha =>
    Nat.lt_of_le_of_lt (Nat.sub_le a b) ha
  simp only [Fits, columns, List.forall_mem_cons] at h
  obtain ⟨h1, h2, h3, h4, h5, h6, h7, h8, h9, h10, -⟩ := h
  simp only [Fits, columns, CpuTimes.since, List.forall_mem_cons]
  exact ⟨hsub _ _ h1, hsub _ _ h2, hsub _ _ h3, hsub _ _ h4, hsub _ _ h5, hsub _ _ h6,
    hsub _ _ h7, hsub _ _ h8, hsub _ _ h9, hsub _ _ h10, by simp⟩

theorem CpuTimes.percent_eq {d : CpuTimes} (h : d.total ≠ 0) (x : Nat) :
    d.percent x = pct x d.total := by
  rw [percent, pct, if_neg h]

/-- Every percentage of a window is a number. -/
theorem fits_cpuSample (name : Text) {d : CpuTimes} (h : d.Fits) :
    (Sample.cpu (cpuSample name (windowStates d))).Fits := by
  simp only [CpuTimes.Fits, CpuTimes.columns, List.forall_mem_cons] at h
  obtain ⟨h1, h2, h3, h4, h5, h6, h7, h8, h9, h10, -⟩ := h
  rw [windowStates]
  split
  · have hzero : 0 < infinity := by decide
    refine ⟨hzero, fun st hst => ?_⟩
    rw [← Option.some.inj hst]
    simp only [List.forall_mem_cons]
    exact ⟨hzero, hzero, hzero, hzero, hzero, hzero, hzero, hzero, hzero, by simp⟩
  · rename_i htotal
    have husage : sub hundred (d.percent d.idle) < infinity :=
      Nat.lt_of_le_of_lt (sub_le (Nat.le_of_lt hundred_lt)) hundred_lt
    have hpercent : ∀ x, x < 2 ^ 64 → d.percent x < infinity := by
      intro x hx
      rw [CpuTimes.percent_eq htotal]
      exact pct_lt_infinity hx d.total
    have hsub : ∀ x y, x < 2 ^ 64 → d.percent (x - y) < infinity := fun x y hx =>
      hpercent _ (Nat.lt_of_le_of_lt (Nat.sub_le x y) hx)
    refine ⟨husage, fun st hst => ?_⟩
    rw [← Option.some.inj hst]
    simp only [List.forall_mem_cons]
    exact ⟨hsub _ _ h1, hpercent _ h3, hpercent _ h5, hsub _ _ h2, hpercent _ h6, hpercent _ h7,
      hpercent _ h8, hpercent _ h9, hpercent _ h10, by simp⟩

theorem mem_gatherCpu {prev : CpuBaseline} {stat : Option Text} {c : CpuSample}
    (h : c ∈ (gatherCpu prev stat).1) : ∃ text name pt ct, stat = some text
      ∧ (name, ct) ∈ parseProcStat text ∧ (name, pt) ∈ prev
      ∧ c = cpuSample name (windowStates (ct.since pt)) := by
  cases stat with
  | none => cases h
  | some text =>
      simp only [gatherCpu] at h
      split at h
      · cases h
      · obtain ⟨⟨name, ct⟩, hct, hpt⟩ := List.mem_filterMap.mp h
        obtain ⟨pt, hlookup, rfl⟩ := Option.map_eq_some_iff.mp hpt
        obtain ⟨_, _, hprev, -⟩ := List.lookup_eq_some_iff.mp hlookup
        have hmem : (name, pt) ∈ prev := List.mem_reverse.mp (by simp [hprev])
        exact ⟨text, name, pt, ct, rfl, hct, hmem, rfl⟩

theorem mem_wanted {c : Collector} {samples : List Sample} {sample : Sample}
    (h : sample ∈ wanted collectors c samples) : sample ∈ samples := by
  rw [wanted] at h
  split at h
  · exact h
  · cases h

theorem fits_samplesOf (h : r.Fits) : ∀ sample ∈ (samplesOf collectors s r).1, sample.Fits := by
  intro sample hsample
  simp only [samplesOf, List.mem_append] at hsample
  rcases hsample with (((((hmem | hswap) | hsystem) | hdisk) | hnet) | hdiskio) | hcpu
  · rw [List.mem_singleton.mp (mem_wanted hmem)]
    exact ⟨h.used, h.available⟩
  · rw [List.mem_singleton.mp (mem_wanted hswap)]
    exact h.swap
  · rw [List.mem_singleton.mp (mem_wanted hsystem)]
    exact ⟨h.load1, h.load5, h.load15⟩
  · obtain ⟨m, -, rfl⟩ := List.mem_map.mp (mem_wanted hdisk)
    exact Nat.mod_lt _ (by decide)
  · obtain ⟨n, -, rfl⟩ := List.mem_map.mp (mem_wanted hnet)
    exact True.intro
  · obtain ⟨d, -, rfl⟩ := List.mem_map.mp (mem_wanted hdiskio)
    exact True.intro
  · split at hcpu
    · cases hcpu
    · obtain ⟨c, hc, rfl⟩ := List.mem_map.mp hcpu
      split at hc
      · obtain ⟨text, name, pt, ct, -, hct, -, rfl⟩ := mem_gatherCpu hc
        exact fits_cpuSample name ((fits_cpuLines _ hct).since pt)
      · cases hc

theorem filterMap_ite {α β : Type} (p : α → Prop) [DecidablePred p] (f : α → β) (xs : List α) :
    xs.filterMap (fun x => if p x then some (f x) else none) = (xs.filter p).map f := by
  induction xs with
  | nil => rfl
  | cons x xs ih => by_cases hx : p x <;> simp [hx, ih]

/-- What a record adds to the lines. -/
theorem encoding_record {sample : Sample} (h : sample.Fits) (ts : Int) :
    Record.encoding (sample.record ctx ts) = if Writes ctx sample then
      some ((sample.record ctx ts).line F64.display) else none := by
  have hencodable := Sample.encodable_iff h ctx ts
  rw [Record.encoding_eq]
  by_cases hwrites : Writes ctx sample
  · rw [if_pos hwrites, (Record.encode_eq_ok_iff _).mpr ⟨hencodable.mpr hwrites, rfl⟩]
    rfl
  · rw [if_neg hwrites]
    cases hencode : (sample.record ctx ts).encode F64.display with
    | error e => rfl
    | ok line =>
        exact absurd (hencodable.mp ((Record.encode_eq_ok_iff _).mp hencode).1) hwrites

theorem filterMap_encoding {samples : List Sample} (h : ∀ sample ∈ samples, sample.Fits)
    (ts : Int) : (samples.map (·.record ctx ts)).filterMap Record.encoding
      = (samples.filter fun sample => Writes ctx sample).map fun sample =>
        (sample.record ctx ts).line F64.display := by
  rw [List.filterMap_map, ← filterMap_ite]
  exact List.filterMap_congr fun sample hsample => encoding_record (h sample hsample) ts

/-- **What is queued is what was sampled**, line for line and in order, but for the rows whose
record cannot be written: where a static field is not a number and no field of the sample's own
has its name. -/
theorem rows_written (hfits : ∀ r ∈ rs, r.Fits)
    (hr : run (step collectors ctx) {} rs = some s) :
    s.pushed.flatten = ((s.rows.filter fun row => Writes ctx row.sample).map
      fun row => (row.record ctx).line F64.display).flatten := by
  have hok : Meets (step collectors ctx) (fun _ r => r.Fits) {} rs :=
    .of_forall fun r hr _ => hfits r hr
  refine run_invariant
    (I := fun s => s.pushed.flatten = ((s.rows.filter fun row => Writes ctx row.sample).map
      fun row => (row.record ctx).line F64.display).flatten) ?_ rfl hok hr
  rintro s r t h hfits ⟨⟩
  have hsamples : ∀ sample ∈ (samplesOf collectors s r).1, sample.Fits := fits_samplesOf hfits
  have hlines : ((samplesOf collectors s r).1.map (·.record ctx (stampOf s r))).filterMap
      Record.encoding = _ := filterMap_encoding hsamples (stampOf s r)
  have hpushed : (tick collectors ctx s r).pushed.flatten = s.pushed.flatten
      ++ Record.encodeShared
        ((samplesOf collectors s r).1.map (·.record ctx (stampOf s r))) [] := by
    simp only [tick]
    split
    · rename_i hempty
      rw [hempty, List.append_nil]
    · rw [List.flatten_append, List.flatten_singleton]
  rw [hpushed, Record.encodeShared_eq, List.nil_append, hlines, h]
  simp only [tick, List.filter_append, List.map_append, List.flatten_append, List.filter_map,
    List.map_map]
  rfl

/-- A static field that is no number, of a name that memory has a field of and the system has
not. -/
def nanCtx : Ctx := plainCtx [("used".toList, .float ⟨0x7FF8000000000000⟩)] (List.nodup_singleton _)

theorem rows_written_nan :
    ∃ s, run (step [.mem, .system] nanCtx) {} [machine 10 none] = some s
      ∧ (s.rows.length, (s.rows.filter fun row => Writes nanCtx row.sample).length) = (2, 1)
      ∧ s.pushed.flatten = ((s.rows.filter fun row => Writes nanCtx row.sample).map
        fun row => (row.record nanCtx).line F64.display).flatten := by
  have hrun : (run (step [.mem, .system] nanCtx) {} [machine 10 none]).map
      (fun s => (s.rows.length, (s.rows.filter fun row => Writes nanCtx row.sample).length))
      = some (2, 1) := by decide +kernel
  obtain ⟨s, hs, hrows⟩ := Option.map_eq_some_iff.mp hrun
  refine ⟨s, hs, hrows, rows_written ?_ hs⟩
  rintro r hr
  rw [List.mem_singleton.mp hr]
  exact { used := by decide, available := by decide, swap := by decide, load1 := by decide
          load5 := by decide, load15 := by decide }

/-! ## Percentages -/

/-- Between zero and a hundred. -/
def Percentage (v : Value) : Prop := ∃ u ≤ hundred, v = float u

/-- The shares of a whole; guest time is not among those the total is made of. -/
def percentKeys : List Text :=
  ["usage_idle", "usage_active", "usage_user", "usage_system", "usage_iowait", "usage_nice",
    "usage_irq", "usage_softirq", "usage_steal"].map String.toList

/-- The shares that a row of CPU times or of disk space shows. -/
def Shares : Sample → Prop
  | .cpu c => ∀ kv ∈ cpuFields c, kv.1 ∈ percentKeys → Percentage kv.2
  | .disk d => ∀ kv ∈ diskFields d, kv.1 = "used_percent".toList → Percentage kv.2
  | _ => True

namespace CpuTimes

/-- Before it wraps. -/
def sum (t : CpuTimes) : Nat :=
  t.user + t.nice + t.system + t.idle + t.iowait + t.irq + t.softirq + t.steal

theorem total_since {curr : CpuTimes} (h : curr.sum < 2 ^ 64) (prev : CpuTimes) :
    (curr.since prev).total = (curr.since prev).sum := by
  refine Nat.mod_eq_of_lt (Nat.lt_of_le_of_lt ?_ h)
  simp only [since, sum]
  omega

end CpuTimes

theorem shares_cpuSample (name : Text) {d : CpuTimes} (h : d.total = d.sum) :
    Shares (.cpu (cpuSample name (windowStates d))) := by
  rw [Shares, cpuFields]
  simp only [cpuSample, List.cons_append, List.nil_append, List.forall_mem_cons]
  by_cases hzero : d.total = 0
  · -- no time has passed: idle shows as a hundred
    have hnone : Percentage (float 0) := ⟨0, Nat.zero_le _, rfl⟩
    have hidle : Percentage (float (sub hundred 0)) :=
      ⟨_, sub_le (Nat.le_of_lt hundred_lt), rfl⟩
    simp only [windowStates, if_pos hzero]
    exact ⟨fun _ => hidle, fun _ => hnone, fun _ => hnone, fun _ => hnone, fun _ => hnone,
      fun _ => hnone, fun _ => hnone, fun _ => hnone, fun _ => hnone, fun _ => hnone,
      fun _ => hnone, by simp⟩
  · have hpart : ∀ x, x ≤ d.sum → Percentage (float (d.percent x)) := by
      intro x hx
      rw [CpuTimes.percent_eq hzero, h]
      exact ⟨_, pct_le_hundred hx, rfl⟩
    have hrest : ∀ u, Percentage (float (sub hundred u)) := fun _ =>
      ⟨_, sub_le (Nat.le_of_lt hundred_lt), rfl⟩
    simp only [windowStates, if_neg hzero]
    refine ⟨fun _ => hrest _, fun _ => hrest _, fun _ => hpart _ ?_, fun _ => hpart _ ?_,
      fun _ => hpart _ ?_, fun _ => hpart _ ?_, fun _ => hpart _ ?_, fun _ => hpart _ ?_,
      fun _ => hpart _ ?_, fun hkey => absurd hkey (by decide), fun hkey => absurd hkey (by decide),
      by simp⟩
    all_goals
      rw [CpuTimes.sum]
      omega

theorem shares_disk (d : DiskSample) : Shares (.disk d) := by
  have hused : Percentage (float (pct (d.total - d.free) d.total)) :=
    ⟨_, pct_le_hundred (Nat.sub_le d.total d.free), rfl⟩
  have hother : ∀ key : String, key.toList ≠ "used_percent".toList → ∀ v,
      key.toList = "used_percent".toList → Percentage v := fun _ hne _ heq => absurd heq hne
  rw [Shares, diskFields]
  cases d.inodes with
  | none =>
      simp only [List.append_nil, List.forall_mem_cons]
      exact ⟨hother "total" (by decide) _, hother "free" (by decide) _,
        hother "used" (by decide) _, fun _ => hused, by simp⟩
  | some i =>
      simp only [List.cons_append, List.nil_append, List.forall_mem_cons]
      exact ⟨hother "total" (by decide) _, hother "free" (by decide) _,
        hother "used" (by decide) _, fun _ => hused, hother "inodes_total" (by decide) _,
        hother "inodes_free" (by decide) _, hother "inodes_used" (by decide) _, by simp⟩

/-- A tick writes shares that are shares, where the counters it reads do not wrap in their sum. -/
theorem shares_samplesOf
    (h : ∀ text, r.stat = some text → ∀ c ∈ parseProcStat text, c.2.sum < 2 ^ 64) :
    ∀ sample ∈ (samplesOf collectors s r).1, Shares sample := by
  intro sample hsample
  cases sample with
  | cpu c =>
      simp only [samplesOf, List.mem_append] at hsample
      rcases hsample with (((((hmem | hswap) | hsystem) | hdisk) | hnet) | hdiskio) | hcpu
      · cases List.mem_singleton.mp (mem_wanted hmem)
      · cases List.mem_singleton.mp (mem_wanted hswap)
      · cases List.mem_singleton.mp (mem_wanted hsystem)
      · obtain ⟨m, -, heq⟩ := List.mem_map.mp (mem_wanted hdisk)
        cases heq
      · obtain ⟨n, -, heq⟩ := List.mem_map.mp (mem_wanted hnet)
        cases heq
      · obtain ⟨d, -, heq⟩ := List.mem_map.mp (mem_wanted hdiskio)
        cases heq
      · split at hcpu
        · cases hcpu
        · obtain ⟨c, hc, ⟨⟩⟩ := List.mem_map.mp hcpu
          split at hc
          · obtain ⟨text, name, pt, ct, htext, hct, -, rfl⟩ := mem_gatherCpu hc
            exact shares_cpuSample name (CpuTimes.total_since (h text htext _ hct) pt)
          · cases hc
  | disk d => exact shares_disk d
  | mem _ | swap _ | system _ | net _ | diskio _ => exact True.intro

/-- **A share is between zero and a hundred percent**, in every row that was ever written of CPU
times or of disk space, whatever the counters did in between. -/
theorem shares_in_range
    (hsum : ∀ r ∈ rs, ∀ text, r.stat = some text → ∀ c ∈ parseProcStat text, c.2.sum < 2 ^ 64)
    (hr : run (step collectors ctx) {} rs = some s) : ∀ row ∈ s.rows, Shares row.sample := by
  have hok : Meets (step collectors ctx) (fun _ r => ∀ text, r.stat = some text →
      ∀ c ∈ parseProcStat text, c.2.sum < 2 ^ 64) {} rs := .of_forall fun r hr _ => hsum r hr
  refine run_invariant (I := fun s => ∀ row ∈ s.rows, Shares row.sample) ?_ (by simp) hok hr
  rintro s r t h hsum ⟨⟩ row hrow
  rcases List.mem_append.mp hrow with hold | hnew
  · exact h row hold
  · obtain ⟨sample, hsample, rfl⟩ := List.mem_map.mp hnew
    exact shares_samplesOf hsum sample hsample

/-- What is counted is a third of the window, and idle time. -/
def firstStat : Text := "cpu  100 0 50 850 0 0 0 0 0 0\nintr 1\n".toList

def secondStat : Text := "cpu  110 0 50 870 0 0 0 0 0 0\nintr 2\n".toList

theorem shares_in_range_third :
    ∃ s, run (step [.cpu, .disk] (plainCtx [] List.nodup_nil)) {}
        [machine 10 (some firstStat), machine 20 none, machine 30 (some secondStat)] = some s
      ∧ s.rows.length = 7 ∧ ∀ row ∈ s.rows, Shares row.sample := by
  have hrun : (run (step [.cpu, .disk] (plainCtx [] List.nodup_nil)) {}
      [machine 10 (some firstStat), machine 20 none, machine 30 (some secondStat)]).map
      (fun s => s.rows.length) = some 7 := by decide +kernel
  obtain ⟨s, hs, hrows⟩ := Option.map_eq_some_iff.mp hrun
  refine ⟨s, hs, hrows, shares_in_range ?_ hs⟩
  have hfirst : ∀ c ∈ parseProcStat firstStat, c.2.sum < 2 ^ 64 := by decide +kernel
  have hsecond : ∀ c ∈ parseProcStat secondStat, c.2.sum < 2 ^ 64 := by decide +kernel
  simp only [List.forall_mem_cons]
  exact ⟨by rintro text ⟨⟩; exact hfirst, by rintro text ⟨⟩, by rintro text ⟨⟩; exact hsecond,
    by simp⟩

/-! ## No jiffy twice -/

namespace CpuTimes

def add (a b : CpuTimes) : CpuTimes :=
  { user := a.user + b.user, nice := a.nice + b.nice, system := a.system + b.system
    idle := a.idle + b.idle, iowait := a.iowait + b.iowait, irq := a.irq + b.irq
    softirq := a.softirq + b.softirq, steal := a.steal + b.steal, guest := a.guest + b.guest
    guestNice := a.guestNice + b.guestNice }

/-- No counter has gone back. -/
structure Grows (prev curr : CpuTimes) : Prop where
  user : prev.user ≤ curr.user
  nice : prev.nice ≤ curr.nice
  system : prev.system ≤ curr.system
  idle : prev.idle ≤ curr.idle
  iowait : prev.iowait ≤ curr.iowait
  irq : prev.irq ≤ curr.irq
  softirq : prev.softirq ≤ curr.softirq
  steal : prev.steal ≤ curr.steal
  guest : prev.guest ≤ curr.guest
  guestNice : prev.guestNice ≤ curr.guestNice

theorem Grows.add_since {prev curr : CpuTimes} (h : Grows prev curr) :
    prev.add (curr.since prev) = curr := by
  obtain ⟨h1, h2, h3, h4, h5, h6, h7, h8, h9, h10⟩ := h
  simp only [add, since, Nat.add_sub_cancel' h1, Nat.add_sub_cancel' h2, Nat.add_sub_cancel' h3,
    Nat.add_sub_cancel' h4, Nat.add_sub_cancel' h5, Nat.add_sub_cancel' h6,
    Nat.add_sub_cancel' h7, Nat.add_sub_cancel' h8, Nat.add_sub_cancel' h9,
    Nat.add_sub_cancel' h10]

end CpuTimes

/-- The cpu is listed once. -/
def Listed (name : Text) (b : CpuBaseline) (t : CpuTimes) : Prop :=
  (b.filter fun c => c.1 = name) = [(name, t)]

/-- A reading lists the cpu, with counters that have not gone back. -/
def Counts (name : Text) (s : State) (r : Readings) : Prop :=
  ∀ text, r.stat = some text → ∃ t, Listed name (parseProcStat text) t
    ∧ ∀ p, Listed name s.baseline p → p.Grows t

def cpuOf (name : Text) : Sample → Option CpuSample
  | .cpu c => if c.name = name then some c else none
  | _ => none

/-- The samples that were written of the cpu. -/
def State.cpuSamples (s : State) (name : Text) : List CpuSample :=
  s.rows.filterMap fun row => cpuOf name row.sample

theorem lookup_eq_head (name : Text) (b : CpuBaseline) :
    b.lookup name = (b.filter fun c => c.1 = name).head?.map Prod.snd := by
  induction b with
  | nil => rfl
  | cons c b ih =>
      rw [List.lookup_cons, List.filter_cons]
      by_cases hc : c.1 = name
      · simp [hc]
      · rw [beq_eq_false_iff_ne.mpr (Ne.symm hc)]
        simpa [hc] using ih

theorem Listed.lookup {name : Text} {b : CpuBaseline} {t : CpuTimes} (h : Listed name b t) :
    b.reverse.lookup name = some t := by
  rw [lookup_eq_head, List.filter_reverse, h]
  rfl

theorem Listed.ne_nil {name : Text} {b : CpuBaseline} {t : CpuTimes} (h : Listed name b t) :
    b ≠ [] := by
  rintro rfl
  cases h

/-- One window for the cpu where both readings list it. -/
theorem gatherCpu_listed {name : Text} {prev : CpuBaseline} {text : Text} {p t : CpuTimes}
    (hp : Listed name prev p) (ht : Listed name (parseProcStat text) t) :
    (gatherCpu prev (some text)).1.filterMap (fun c => cpuOf name (.cpu c))
      = [cpuSample name (windowStates (t.since p))] := by
  have hkey : ∀ c : Text × CpuTimes,
      ((prev.reverse.lookup c.1).map fun pt => cpuSample c.1 (cpuDelta pt c.2)).bind
          (fun c => cpuOf name (.cpu c))
        = if c.1 = name then some (cpuSample name (windowStates (c.2.since p))) else none := by
    intro c
    by_cases hc : c.1 = name
    · rw [if_pos hc, hc, hp.lookup, Option.map_some, Option.bind_some, cpuOf]
      exact if_pos rfl
    · rw [if_neg hc]
      cases prev.reverse.lookup c.1 with
      | none => rfl
      | some pt => exact if_neg hc
  simp only [gatherCpu, if_neg hp.ne_nil, List.filterMap_filterMap, hkey]
  rw [filterMap_ite, ht]
  rfl

theorem cpuOf_samplesOf (hcpu : .cpu ∈ collectors) (name : Text) :
    (samplesOf collectors s r).1.filterMap (cpuOf name) = if s.firstTick then []
      else (gatherCpu s.baseline r.stat).1.filterMap fun c => cpuOf name (.cpu c) := by
  have hother : ∀ {α : Type} (c : Collector) (f : α → Sample) (xs : List α),
      (∀ x, cpuOf name (f x) = none) →
        (wanted collectors c (xs.map f)).filterMap (cpuOf name) = [] := by
    intro α c f xs hf
    rw [wanted]
    split
    · rw [List.filterMap_map, List.filterMap_eq_nil_iff]
      exact fun x _ => hf x
    · rfl
  have hmem := hother .mem .mem [gatherMem r] fun _ => rfl
  have hswap := hother .swap .swap [r.swap] fun _ => rfl
  have hsystem := hother .system .system [r.system] fun _ => rfl
  have hdisk := hother .disk (fun m => .disk (statvfsSample m.1 m.2)) r.mounts fun _ => rfl
  have hnet := hother .net .net r.nets fun _ => rfl
  have hdiskio := hother .diskio .diskio (gatherDiskio r) fun _ => rfl
  simp only [List.map_cons, List.map_nil] at hmem hswap hsystem
  simp only [samplesOf, List.filterMap_append, hmem, hswap, hsystem, hdisk, hnet, hdiskio,
    List.nil_append, if_pos hcpu]
  split
  · rfl
  · rw [List.filterMap_map]
    rfl

theorem cpuSamples_tick (hcpu : .cpu ∈ collectors) (name : Text) :
    (tick collectors ctx s r).cpuSamples name = s.cpuSamples name ++ if s.firstTick then []
      else (gatherCpu s.baseline r.stat).1.filterMap fun c => cpuOf name (.cpu c) := by
  rw [← cpuOf_samplesOf hcpu name, State.cpuSamples, State.cpuSamples, tick]
  simp only [List.filterMap_append, List.filterMap_map]
  rfl

theorem baseline_tick (hcpu : .cpu ∈ collectors) :
    (tick collectors ctx s r).baseline = (gatherCpu s.baseline r.stat).2 := by
  simp only [tick, samplesOf, if_pos hcpu]

/-- What the baseline is at the end: the last reading. -/
theorem baseline_run (hcpu : .cpu ∈ collectors) (hr : run (step collectors ctx) s rs = some t) :
    t.baseline = ((rs.filterMap (·.stat)).getLast?.map parseProcStat).getD s.baseline := by
  induction rs generalizing s with
  | nil =>
      cases hr
      rfl
  | cons r rs ih =>
      obtain ⟨u, hu, hrest⟩ := run_cons.mp hr
      cases hu
      rw [ih hrest, baseline_tick hcpu, List.filterMap_cons]
      cases r.stat with
      | none => rfl
      | some text =>
          rw [List.getLast?_cons]
          cases (rs.filterMap (·.stat)).getLast? <;> rfl

/-- Once a reading lists the cpu, each further one gives it a window. -/
theorem windows_from {name : Text} (hcpu : .cpu ∈ collectors) {p : CpuTimes}
    (hp : Listed name s.baseline p) (hwarm : s.firstTick = false)
    (hcounts : Meets (step collectors ctx) (Counts name) s rs)
    (hr : run (step collectors ctx) s rs = some t) :
    ∃ (last : CpuTimes) (windows : List CpuTimes), Listed name t.baseline last
      ∧ t.cpuSamples name
        = s.cpuSamples name ++ windows.map (fun w => cpuSample name (windowStates w))
      ∧ windows.length = (rs.filterMap (·.stat)).length
      ∧ windows.foldl CpuTimes.add p = last := by
  induction rs generalizing s p with
  | nil =>
      cases hr
      exact ⟨p, [], hp, by simp, rfl, rfl⟩
  | cons r rs ih =>
      obtain ⟨u, hu, hrest⟩ := run_cons.mp hr
      have hmore := hcounts.2 u hu
      cases hu
      have hsamples : (tick collectors ctx s r).cpuSamples name = _ := cpuSamples_tick hcpu name
      have hbaseline : (tick collectors ctx s r).baseline = _ := baseline_tick hcpu
      rw [if_neg (by simp [hwarm])] at hsamples
      cases hstat : r.stat with
      | none =>
          rw [hstat] at hsamples hbaseline
          rw [List.filterMap_cons_none hstat]
          have hlisted : Listed name (tick collectors ctx s r).baseline p := by
            rw [hbaseline]
            exact hp
          obtain ⟨last, windows, hlast, hall, hlength, hsum⟩ := ih hlisted rfl hmore hrest
          exact ⟨last, windows, hlast, by simpa [hsamples, gatherCpu] using hall, hlength, hsum⟩
      | some text =>
          obtain ⟨ct, hct, hgrows⟩ := hcounts.1 text hstat
          rw [hstat] at hsamples hbaseline
          rw [gatherCpu_listed hp hct] at hsamples
          rw [List.filterMap_cons_some hstat]
          have hlisted : Listed name (tick collectors ctx s r).baseline ct := by
            rw [hbaseline]
            exact hct
          obtain ⟨last, windows, hlast, hall, hlength, hsum⟩ := ih hlisted rfl hmore hrest
          refine ⟨last, ct.since p :: windows, hlast, ?_, by simp [hlength], ?_⟩
          · rw [hall, hsamples, List.append_assoc]
            rfl
          · rw [List.foldl_cons, (hgrows p hp).add_since, hsum]

/-- Before the first reading there are no windows. -/
theorem windows_until {name : Text} (hcpu : .cpu ∈ collectors) (hcold : s.baseline = [])
    (hcounts : Meets (step collectors ctx) (Counts name) s rs)
    (hr : run (step collectors ctx) s rs = some t) {text : Text} {texts : List Text}
    (htexts : rs.filterMap (·.stat) = text :: texts) :
    ∃ (first last : CpuTimes) (windows : List CpuTimes), Listed name (parseProcStat text) first
      ∧ Listed name t.baseline last
      ∧ t.cpuSamples name
        = s.cpuSamples name ++ windows.map (fun w => cpuSample name (windowStates w))
      ∧ windows.length = texts.length
      ∧ windows.foldl CpuTimes.add first = last := by
  induction rs generalizing s with
  | nil => cases htexts
  | cons r rs ih =>
      obtain ⟨u, hu, hrest⟩ := run_cons.mp hr
      have hmore := hcounts.2 u hu
      cases hu
      have hsamples : (tick collectors ctx s r).cpuSamples name = _ := cpuSamples_tick hcpu name
      have hbaseline : (tick collectors ctx s r).baseline = _ := baseline_tick hcpu
      have hnone : (tick collectors ctx s r).cpuSamples name = s.cpuSamples name := by
        rw [hsamples, hcold]
        split
        · rw [List.append_nil]
        · cases r.stat <;> simp [gatherCpu]
      cases hstat : r.stat with
      | none =>
          rw [hstat] at hbaseline
          rw [List.filterMap_cons_none hstat] at htexts
          obtain ⟨first, last, windows, hfirst, hlast, hall, hlength, hsum⟩ :=
            ih (hbaseline.trans hcold) hmore hrest htexts
          exact ⟨first, last, windows, hfirst, hlast, hnone ▸ hall, hlength, hsum⟩
      | some text' =>
          obtain ⟨ct, hct, -⟩ := hcounts.1 text' hstat
          rw [hstat] at hbaseline
          rw [List.filterMap_cons_some hstat] at htexts
          obtain ⟨rfl, rfl⟩ := List.cons.inj htexts
          have hlisted : Listed name (tick collectors ctx s r).baseline ct := by
            rw [hbaseline]
            exact hct
          obtain ⟨last, windows, hlast, hall, hlength, hsum⟩ :=
            windows_from hcpu hlisted rfl hmore hrest
          exact ⟨ct, last, windows, hct, hlast, hnone ▸ hall, hlength, hsum⟩

/-- **The windows of a cpu tile the time**: over any number of ticks, whether or not
`/proc/stat` could be read at each, what the windows of its rows count adds up to what was counted
from the first reading to the last. -/
theorem windows_tile {name : Text} (hcpu : .cpu ∈ collectors)
    (hcounts : Meets (step collectors ctx) (Counts name) {} rs)
    (hr : run (step collectors ctx) {} rs = some s) {text : Text} {texts : List Text}
    (htexts : rs.filterMap (·.stat) = text :: texts) :
    ∃ (first last : CpuTimes) (windows : List CpuTimes), Listed name (parseProcStat text) first
      ∧ Listed name (parseProcStat ((text :: texts).getLast (List.cons_ne_nil _ _))) last
      ∧ s.cpuSamples name = windows.map (fun w => cpuSample name (windowStates w))
      ∧ windows.length = texts.length
      ∧ windows.foldl CpuTimes.add first = last := by
  obtain ⟨first, last, windows, hfirst, hlast, hall, hlength, hsum⟩ :=
    windows_until hcpu rfl hcounts hr htexts
  rw [baseline_run hcpu hr, htexts, List.getLast?_eq_getLast_of_ne_nil (List.cons_ne_nil _ _)]
    at hlast
  exact ⟨first, last, windows, hfirst, hlast, hall, hlength, hsum⟩

/-- The reading in between fails. -/
theorem windows_tile_missed :
    ∃ s, run (step [.cpu] (plainCtx [] List.nodup_nil)) {}
        [machine 10 (some firstStat), machine 20 none, machine 30 (some secondStat)] = some s
      ∧ ∃ (first last : CpuTimes) (windows : List CpuTimes),
        Listed "cpu-total".toList (parseProcStat firstStat) first
        ∧ Listed "cpu-total".toList (parseProcStat secondStat) last
        ∧ s.cpuSamples "cpu-total".toList
          = windows.map (fun w => cpuSample "cpu-total".toList (windowStates w))
        ∧ windows.length = 1
        ∧ windows.foldl CpuTimes.add first = last := by
  have hcpu : Collector.cpu ∈ [Collector.cpu] := List.mem_singleton_self _
  have hfirst : Listed "cpu-total".toList (parseProcStat firstStat)
      { user := 100, system := 50, idle := 850 } := by
    rw [Listed]
    decide +kernel
  have hsecond : Listed "cpu-total".toList (parseProcStat secondStat)
      { user := 110, system := 50, idle := 870 } := by
    rw [Listed]
    decide +kernel
  have hcounts : Meets (step [.cpu] (plainCtx [] List.nodup_nil)) (Counts "cpu-total".toList) {}
      [machine 10 (some firstStat), machine 20 none, machine 30 (some secondStat)] := by
    refine ⟨?_, fun s hs => ⟨?_, fun t ht => ⟨?_, fun _ _ => trivial⟩⟩⟩
    · rintro text ⟨⟩
      exact ⟨_, hfirst, fun p hp => by cases hp⟩
    · rintro text ⟨⟩
    · rintro text ⟨⟩
      refine ⟨_, hsecond, fun p hp => ?_⟩
      have hrun : run (step [.cpu] (plainCtx [] List.nodup_nil)) {}
          [machine 10 (some firstStat), machine 20 none] = some t :=
        run_cons.mpr ⟨s, hs, run_cons.mpr ⟨t, ht, rfl⟩⟩
      have hkept : t.baseline = parseProcStat firstStat := baseline_run hcpu hrun
      rw [hkept] at hp
      obtain rfl := (Prod.mk.inj (List.singleton_inj.mp (Eq.trans (Eq.symm hfirst) hp))).2
      constructor <;> decide
  exact ⟨_, rfl, windows_tile hcpu hcounts rfl rfl⟩

end Tributary.Metrics
