import Tributary.Config.Startup
import Tributary.Coordinator.Reload

/-!
# A reload of what the file says

The coordinator of an agent to which nothing happens but new files. A task fails if
its source does not start, and returns if it is told to; a reload of a file that
loads should not stop the agent.
-/

namespace Tributary.Config

open Map Glob

/-! ## The agent -/

open Coordinator (Joined)
open Lib

section

variable (p : Platform)

/-- What the tail of a source needs, and loading has not checked. -/
structure Tailable (o : Output) (t : SourceTable) : Prop where
  patterns : t.Tails → t.parser ≠ .dockerJson → t.parser ≠ .cri →
    ∀ m ∈ t.multiline, p.compiles m.startsWith = true
  capacity : t.Tails → o.batchLines * 24 < 2 ^ 63

/-- A task of the coordinator and what it was started from. -/
structure Started where
  id : Nat
  output : Output
  source : SourceTable

/-- The coordinator, and the tasks it has started. -/
structure Agent where
  coordinator : Coordinator.State
  started : List Started

/-- Nothing but files happens to the agent: a task returns because it is told to, or
fails because its source does not start. -/
inductive Event where
  /-- a SIGHUP, with the file as it parsed -/
  | reload (f : File)
  | finish (id : Nat)
  /-- the source does not start, with these files about -/
  | fail (id : Nat) (r : Joined) (readDir : ReadDir)
  | join (id : Nat)
  | leave

/-- The tasks of `set` from `first` on, with their sources in the file. -/
def startedIn (f : File) (first : Nat) (set : List Coordinator.Task) : List Started :=
  set.filterMap fun t =>
    if first ≤ t.id then
      (f.sources.find? fun src => decide (src.name = t.name)).map (⟨t.id, f.output, ·⟩)
    else none

/-- The agent as `main` starts it on a file with sources to tail. -/
def Agent.start (f : File) : Agent :=
  { coordinator := Coordinator.start f.names
    started := startedIn f 0 (Coordinator.start f.names).set }

/-- `reload_source_set`, with the file to load. -/
def reload (a : Agent) (f : File) : Option Agent :=
  match load p f with
  | .error _ => some a
  | .ok cfg =>
      (Coordinator.step a.coordinator (.reload (some cfg.names))).map fun s =>
        { coordinator := s, started := a.started ++ startedIn cfg a.coordinator.nextId s.set }

def step (a : Agent) : Event → Option Agent
  | .reload f => reload p a f
  | .finish id =>
      if a.coordinator.set.any fun t => decide (t.id = id) && a.coordinator.stops t then
        (Coordinator.step a.coordinator (.finish id .ok)).map ({ a with coordinator := · })
      else none
  | .fail id r readDir =>
      if r ≠ .ok ∧ a.started.any fun st => decide (st.id = id)
          && decide (sourceStart p st.output readDir st.source ≠ .ok ()) then
        (Coordinator.step a.coordinator (.finish id r)).map ({ a with coordinator := · })
      else none
  | .join id => (Coordinator.step a.coordinator (.join id)).map ({ a with coordinator := · })
  | .leave => (Coordinator.step a.coordinator .leave).map ({ a with coordinator := · })

/-- The condition on a reload: a file that loads has a source, and each source it
adds can be tailed and has no task left. -/
def Survives (a : Agent) : Event → Prop
  | .reload f => ∀ cfg, load p f = .ok cfg →
      cfg.sources ≠ [] ∧ Coordinator.Collected a.coordinator cfg.names ∧
        ∀ t ∈ cfg.sources, t.name ∉ a.coordinator.running.map (·.1) → Tailable p cfg.output t
  | _ => True

end

/-! ## Tasks -/

section

open Coordinator

variable {s s' : State}

/-- Spawning adds tasks that have not returned, one for each name. -/
theorem spawns_set (added : List Text) (s : State) :
    (∀ t ∈ s.set, t ∈ (added.foldl spawnSource s).set) ∧
      (∀ n ∈ added, ∃ t ∈ (added.foldl spawnSource s).set, t.name = n ∧ t.returned = none) ∧
      ∀ t ∈ (added.foldl spawnSource s).set, t ∈ s.set ∨ t.returned = none ∧ t.name ∈ added := by
  induction added generalizing s with
  | nil => exact ⟨fun _ ht => ht, by simp, fun t ht => .inl ht⟩
  | cons name added ih =>
      obtain ⟨hold, hnew, honly⟩ := ih (spawnSource s name)
      have hspawned : (⟨s.nextId, name, none⟩ : Task) ∈ (spawnSource s name).set := by
        simp [spawnSource]
      refine ⟨fun t ht => hold t (List.mem_append_left _ ht), ?_, ?_⟩
      · intro n hn
        rcases List.mem_cons.mp hn with rfl | hn
        · exact ⟨_, hold _ hspawned, rfl, rfl⟩
        · exact hnew n hn
      · intro t ht
        rcases honly t ht with ht | ⟨hlive, hname⟩
        · rcases List.mem_append.mp ht with ht | ht
          · exact .inl ht
          · rw [List.mem_singleton.mp ht]
            exact .inr ⟨rfl, List.mem_cons_self ..⟩
        · exact .inr ⟨hlive, List.mem_cons_of_mem _ hname⟩

/-- The tasks a reload adds. -/
theorem reload_set {configured : List Text} (hnodup : configured.Nodup) :
    (∀ t ∈ s.set, t ∈ (reloadSourceSet s configured).set) ∧
      (∀ n ∈ configured, n ∉ s.running.map (·.1) →
        ∃ t ∈ (reloadSourceSet s configured).set, t.name = n ∧ t.returned = none) ∧
      ∀ t ∈ (reloadSourceSet s configured).set, t ∈ s.set ∨
        t.returned = none ∧ t.name ∈ configured ∧ t.name ∉ s.running.map (·.1) := by
  let added := configured.filter fun n => !(s.running.map (·.1)).contains n
  let stopped := (diffSourceSet (s.running.map (·.1)) configured).1.foldl stopSource s
  have hstopped : stopped.set = s.set := stops_set _ s
  have hset : (reloadSourceSet s configured).set = (added.foldl spawnSource stopped).set := by
    rw [reloadSourceSet_eq hnodup]
  obtain ⟨hold, hnew, honly⟩ := spawns_set added stopped
  have hadded : ∀ n, n ∈ added ↔ n ∈ configured ∧ n ∉ s.running.map (·.1) := by
    intro n
    simp [added, List.mem_filter]
  rw [hset]
  rw [hstopped] at hold honly
  refine ⟨hold, fun n hn hnot => hnew n ((hadded n).mpr ⟨hn, hnot⟩), fun t ht => ?_⟩
  exact (honly t ht).imp_right fun ⟨hlive, hname⟩ => ⟨hlive, (hadded _).mp hname⟩

theorem spawns_goes (names : List Text) (s : State) :
    (names.foldl spawnSource s).signalled = s.signalled
      ∧ (names.foldl spawnSource s).ended = s.ended := by
  induction names generalizing s with
  | nil => exact ⟨rfl, rfl⟩
  | cons name names ih => exact ih (spawnSource s name)

theorem stops_goes (names : List Text) (s : State) :
    (names.foldl stopSource s).signalled = s.signalled
      ∧ (names.foldl stopSource s).ended = s.ended := by
  induction names generalizing s with
  | nil => exact ⟨rfl, rfl⟩
  | cons name names ih =>
      have hone : (stopSource s name).signalled = s.signalled
          ∧ (stopSource s name).ended = s.ended := by
        unfold stopSource
        split <;> exact ⟨rfl, rfl⟩
      exact ⟨(ih _).1.trans hone.1, (ih _).2.trans hone.2⟩

/-- Every configured source has a live task, and no task has failed. -/
structure Alive (s : State) : Prop where
  inv : Inv s
  sources : s.configured ≠ []
  live : ∀ n ∈ s.configured, ∃ t ∈ s.set, t.name = n ∧ t.returned = none
  clean : ∀ t ∈ s.set, t.returned = none ∨ t.returned = some .ok
  goes : s.signalled = false ∧ s.ended = false

theorem Alive.reload (h : Alive s) {configured : List Text} (hnodup : configured.Nodup)
    (hsome : configured ≠ []) (hcollected : Collected s configured) :
    Alive (reloadSourceSet s configured) := by
  obtain ⟨hold, hnew, honly⟩ := reload_set (s := s) hnodup
  have hconfigured : (reloadSourceSet s configured).configured = configured := by
    rw [reloadSourceSet_eq hnodup]
  refine ⟨h.inv.reload hnodup hcollected, by rwa [hconfigured], ?_, ?_, ?_⟩
  · intro n hn
    rw [hconfigured] at hn
    by_cases hrunning : n ∈ s.running.map (·.1)
    · obtain ⟨t, ht, hname⟩ := h.live n (h.inv.known n hrunning)
      exact ⟨t, hold t ht, hname⟩
    · exact hnew n hn hrunning
  · intro t ht
    rcases honly t ht with ht | ⟨hlive, -⟩
    · exact h.clean t ht
    · exact .inl hlive
  · rw [reloadSourceSet_eq hnodup]
    simp only [spawns_goes, stops_goes, h.goes, and_self]

/-- A task that is to stop has no configured name. -/
theorem Alive.stops (h : Alive s) {t : Task} (ht : t ∈ s.set) (hlive : t.returned = none)
    (hname : t.name ∈ s.configured) : s.stops t = false :=
  h.inv.oneTask.runs h.goes.1 t ht (by simp [Task.live, hlive]) hname

theorem Alive.finish (h : Alive s) {id : Nat} {t : Task} (hid : t.id = id)
    (hstops : s.stops t = true) (hs : Coordinator.finish s id .ok = some s') : Alive s' := by
  have hinv := h.inv.finish hs
  unfold Coordinator.finish at hs
  split at hs
  · obtain rfl := Option.some.inj hs
    refine ⟨hinv, h.sources, ?_, ?_, h.goes⟩
    · intro n hn
      obtain ⟨u, hu, hname, hlive⟩ := h.live n hn
      have hne : u.id ≠ id := by
        intro heq
        -- whether a task stops is told by its number
        have hsame : s.stops u = s.stops t := by
          unfold State.stops
          rw [heq, hid]
        rw [hstops, h.stops hu hlive (hname ▸ hn)] at hsame
        cases hsame
      exact ⟨u, List.mem_map.mpr ⟨u, hu, by simp [hne]⟩, hname, hlive⟩
    · intro u hu
      obtain ⟨v, hv, rfl⟩ := List.mem_map.mp hu
      by_cases hvid : v.id = id
      · simp [hvid]
      · simpa [hvid] using h.clean v hv
  · cases hs

/-- Only the numbers and names of a task that is live find it. -/
theorem Alive.join (h : Alive s) {id : Nat} (hs : Coordinator.join s id = some s') : Alive s' := by
  have hinv := h.inv.join hs
  obtain ⟨t, r, ht, hid, hreturned, hcases⟩ := join_cases hs
  have hr : r = .ok := by
    rcases h.clean t ht with hnone | hok
    · exact nomatch hnone.symm.trans hreturned
    · exact Option.some.inj (hreturned.symm.trans hok)
  -- the task of a configured name is another one
  have hother : ∀ u ∈ s.set, u.name ∈ s.configured → u.returned = none → u.id ≠ id := by
    intro u hu hn hlive heq
    have hsender := State.sender_mem (h.inv.matched.held u hu hn)
    have hname : u.name = t.name := h.inv.matched.owner _ hsender t ht (heq.trans hid.symm)
    obtain rfl : u = t := List.inj_on_of_nodup_map h.inv.matched.unique hu ht hname
    exact nomatch hlive.symm.trans hreturned
  rcases hcases with ⟨-, rfl⟩ | ⟨herr, -⟩ | ⟨hpanicked, -⟩
  · refine ⟨hinv, h.sources, ?_, ?_, h.goes⟩
    · intro n hn
      obtain ⟨u, hu, hname, hlive⟩ := h.live n hn
      refine ⟨u, List.mem_filter.mpr ⟨hu, ?_⟩, hname, hlive⟩
      simpa using hother u hu (hname ▸ hn) hlive
    · exact fun u hu => h.clean u (List.mem_filter.mp hu).1
  · exact nomatch hr.symm.trans herr
  · exact nomatch hr.symm.trans hpanicked

/-- With a task for each configured name the coordinator does not leave its loop. -/
theorem Alive.not_leave (h : Alive s) : Coordinator.step s .leave = none := by
  obtain ⟨n, hn⟩ := List.exists_mem_of_ne_nil _ h.sources
  obtain ⟨t, ht, -⟩ := h.live n hn
  have hset : s.set.isEmpty = false := by
    exact List.isEmpty_eq_false_iff_exists_mem.mpr ⟨t, ht⟩
  simp [Coordinator.step, h.goes.2, hset]

end

/-! ## Runs -/

section

variable {α : Type} {h : Host α} {p : Platform} {f cfg : File} {a b : Agent}

theorem mem_startedIn {first : Nat} {set : List Coordinator.Task} {st : Started}
    (hst : st ∈ startedIn f first set) : st.output = f.output ∧ st.source ∈ f.sources ∧
      ∃ t ∈ set, first ≤ t.id ∧ st.source.name = t.name := by
  obtain ⟨t, ht, hmade⟩ := List.mem_filterMap.mp hst
  split at hmade
  · rename_i hid
    obtain ⟨src, hfind, rfl⟩ := Option.map_eq_some_iff.mp hmade
    have hname : src.name = t.name := by simpa using List.find?_some hfind
    exact ⟨rfl, List.mem_of_find?_eq_some hfind, t, ht, hid, hname⟩
  · cases hmade

theorem Tailable.start (hc : Checked p f) {t : SourceTable} (ht : t ∈ f.sources)
    (htail : Tailable p f.output t) : ∀ readDir, sourceStart p f.output readDir t = .ok () :=
  sourceStart_iff.mpr fun htails =>
    (tailStart_iff hc ht).mpr ⟨htail.patterns htails, htail.capacity htails⟩

/-- The coordinator has its tasks, and each was started from a source that starts. -/
structure Sound (p : Platform) (a : Agent) : Prop where
  alive : Alive a.coordinator
  starts : ∀ st ∈ a.started, ∀ readDir, sourceStart p st.output readDir st.source = .ok ()

theorem Sound.reload (ha : Sound p a) (hok : Survives p a (.reload f))
    (hstep : reload p a f = some b) : Sound p b := by
  unfold Config.reload at hstep
  split at hstep
  · exact Option.some.inj hstep ▸ ha
  · rename_i cfg hload
    obtain ⟨hsources, hcollected, htailable⟩ := hok cfg hload
    have hc := checked_of_load hload
    have hreload : Coordinator.step a.coordinator (.reload (some cfg.names))
        = some (Coordinator.reloadSourceSet a.coordinator cfg.names) := by
      simp [Coordinator.step, ha.alive.goes]
    rw [hreload] at hstep
    obtain rfl := Option.some.inj hstep
    refine ⟨ha.alive.reload hc.names (by simpa [File.names] using hsources) hcollected, ?_⟩
    intro st hst
    rcases List.mem_append.mp hst with hst | hst
    · exact ha.starts st hst
    · obtain ⟨houtput, hsource, t, ht, hid, hname⟩ := mem_startedIn hst
      rcases (reload_set hc.names).2.2 t ht with hold | ⟨-, -, hnew⟩
      · exact absurd (ha.alive.inv.matched.fresh t hold) (Nat.not_lt.mpr hid)
      · rw [houtput]
        exact (htailable st.source hsource (hname ▸ hnew)).start hc hsource

theorem Sound.step {e : Event} (ha : Sound p a) (hok : Survives p a e)
    (hstep : step p a e = some b) : Sound p b := by
  cases e with
  | reload f => exact ha.reload hok hstep
  | finish id =>
      simp only [Config.step] at hstep
      split at hstep
      · rename_i hstops
        obtain ⟨s, hs, rfl⟩ := Option.map_eq_some_iff.mp hstep
        obtain ⟨t, -, ht⟩ := List.any_eq_true.mp hstops
        simp only [Bool.and_eq_true, decide_eq_true_eq] at ht
        have hs : Coordinator.finish a.coordinator id .ok = some s := by
          simpa [Coordinator.step, ha.alive.goes.2] using hs
        exact ⟨ha.alive.finish ht.1 ht.2 hs, ha.starts⟩
      · cases hstep
  | fail id r readDir =>
      simp only [Config.step] at hstep
      split at hstep
      · rename_i hfails
        obtain ⟨st, hst, hbroken⟩ := List.any_eq_true.mp hfails.2
        simp only [Bool.and_eq_true, decide_eq_true_eq] at hbroken
        exact absurd (ha.starts st hst readDir) hbroken.2
      · cases hstep
  | join id =>
      obtain ⟨s, hs, rfl⟩ := Option.map_eq_some_iff.mp hstep
      have hs : Coordinator.join a.coordinator id = some s := by
        simpa [Coordinator.step, ha.alive.goes.2] using hs
      exact ⟨ha.alive.join hs, ha.starts⟩
  | leave =>
      obtain ⟨s, hs, rfl⟩ := Option.map_eq_some_iff.mp hstep
      exact nomatch ha.alive.not_leave.symm.trans hs

end

/-! ## Two files -/

/-- A machine whose regex library refuses an open group. -/
def bareHost : Host Text :=
  { journald := false, winlog := false, windows := false, compiles := fun s => decide (s ≠ ['('])
    env := fun _ => none, socketAddr := fun _ => none, inUse := fun _ _ => false }

def tailOf (name : String) (multiline : Option Multiline) : SourceTable :=
  { name := name.toList, path := "/var/log/".toList ++ name.toList, table := "logs".toList
    parser := .plain
    timestamp := { field := none, format := "unix_ms".toList, resolution := "ms".toList }
    tags := [], tagsStatic := [], fields := [("message".toList, .string)], visibility := none
    multiline, filter := [], sample := [], redact := [], kubernetes := none }

/-- The defaults of `[output]`, and these sources. -/
def fileOf (sources : List SourceTable) : File :=
  { output :=
      { url := "http://localhost:1963".toList, database := "logs".toList, batchLines := 5000
        gzip := true, tokenFile := none, queueMaxBytes := 2 ^ 31, maxInflight := 4
        watermarkFloorMs := 100, watermarkCeilingMs := 60000
        watermarkTable := "tributary_watermarks".toList, watermarkEverySecs := 10, tls := none
        rpoReportSecs := 60 }
    sources, telemetry := none, log := none, otlp := none, metrics := none }

@[simp] theorem fileOf_sources (sources : List SourceTable) :
    (fileOf sources).sources = sources := rfl

end Tributary.Config
