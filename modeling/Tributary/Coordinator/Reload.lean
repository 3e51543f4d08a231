import Tributary.Coordinator
import Tributary.Lib.Run

/-!
# Reloads of the source set

What a reload leaves behind: one live task for each configured source, with its
sender held. This needs that no reload starts a name whose earlier task is still
in the join set; a name leaves `running` as soon as it is removed, and the task
drains on.
-/

namespace Tributary.Coordinator

open Tributary.Lib

/-! ## Senders -/

namespace State

variable {s : State} {name n : Text}

theorem sender_mem {tx : Nat} (h : s.sender name = some tx) : (name, tx) ∈ s.running := by
  obtain ⟨e, he, rfl⟩ := Option.map_eq_some_iff.mp h
  have hname : e.1 = name := by simpa using List.find?_some he
  exact hname ▸ List.mem_of_find?_eq_some he

theorem sender_isSome (h : name ∈ s.running.map (·.1)) : ∃ tx, s.sender name = some tx := by
  obtain ⟨e, he, rfl⟩ := List.mem_map.mp h
  have hsome : (s.running.find? fun x => decide (x.1 = e.1)).isSome := by
    rw [List.find?_isSome]
    exact ⟨e, he, by simp⟩
  obtain ⟨x, hx⟩ := Option.isSome_iff_exists.mp hsome
  exact ⟨x.2, by simp [sender, hx]⟩

theorem find?_filter_ne {α β : Type*} [DecidableEq α] (l : List (α × β)) {a b : α}
    (h : a ≠ b) : ((l.filter fun e => decide (e.1 ≠ b)).find? fun e => decide (e.1 = a))
      = l.find? fun e => decide (e.1 = a) := by
  rw [List.find?_filter]
  congr 1
  funext e
  by_cases he : e.1 = a
  · simp [he, h]
  · simp [he]

/-- Removing one name leaves the senders of the others. -/
theorem sender_remove (h : n ≠ name) : (s.remove name).sender n = s.sender n := by
  simp only [sender, remove, find?_filter_ne s.running h]

theorem sender_spawnSource_self : (spawnSource s name).sender name = some s.nextId := by
  have hnone : ((s.running.filter fun e => decide (e.1 ≠ name)).find?
      fun e => decide (e.1 = name)) = none := by
    rw [List.find?_eq_none]
    intro e he
    simpa using (List.mem_filter.mp he).2
  simp only [sender, spawnSource, List.find?_append, hnone, Option.none_or]
  simp

theorem sender_spawnSource (h : n ≠ name) : (spawnSource s name).sender n = s.sender n := by
  have hne : ¬ name = n := fun h' => h h'.symm
  simp only [sender, spawnSource, List.find?_append, find?_filter_ne s.running h]
  simp [hne]

end State

/-! ## What every reload keeps -/

/-- **One live task for each configured source**, its sender held, and not told
to stop while the agent runs. -/
structure OneTask (s : State) : Prop where
  unique : ((s.set.filter Task.live).map Task.name).Nodup
  held : ∀ t ∈ s.set, t.live → t.name ∈ s.configured → s.sender t.name = some t.id
  runs : s.signalled = false →
    ∀ t ∈ s.set, t.live → t.name ∈ s.configured → s.stops t = false

/-- Tasks and senders belong together; `held` and `untold` speak of the names in
`names`. -/
structure Matched (names : List Text) (s : State) : Prop where
  /-- also of tasks that have returned -/
  unique : (s.set.map Task.name).Nodup
  fresh : ∀ t ∈ s.set, t.id < s.nextId
  issued : ∀ e ∈ s.running, e.2 < s.nextId
  sent : ∀ i ∈ s.told, i < s.nextId
  owner : ∀ e ∈ s.running, ∀ t ∈ s.set, e.2 = t.id → e.1 = t.name
  held : ∀ t ∈ s.set, t.name ∈ names → s.sender t.name = some t.id
  untold : s.signalled = false → ∀ t ∈ s.set, t.name ∈ names → t.id ∉ s.told

theorem Matched.anti {names fewer : List Text} {s : State} (h : Matched names s)
    (hsub : ∀ n ∈ fewer, n ∈ names) : Matched fewer s where
  unique := h.unique
  fresh := h.fresh
  issued := h.issued
  sent := h.sent
  owner := h.owner
  held t ht hn := h.held t ht (hsub _ hn)
  untold hs t ht hn := h.untold hs t ht (hsub _ hn)

theorem Matched.configure {names configured : List Text} {s : State} (h : Matched names s) :
    Matched names { s with configured } :=
  ⟨h.unique, h.fresh, h.issued, h.sent, h.owner, h.held, h.untold⟩

/-- Tasks return or leave; ids and names stay. -/
theorem Matched.narrow {names : List Text} {s : State} {set : List Task} {ended : Bool}
    (h : Matched names s)
    (hsub : (set.map fun t => (t.id, t.name)).Sublist (s.set.map fun t => (t.id, t.name))) :
    Matched names { s with set, ended } := by
  have hold : ∀ t ∈ set, ∃ u ∈ s.set, u.id = t.id ∧ u.name = t.name := by
    intro t ht
    obtain ⟨u, hu, heq⟩ := List.mem_map.mp (hsub.subset (List.mem_map_of_mem ht))
    exact ⟨u, hu, congrArg Prod.fst heq, congrArg Prod.snd heq⟩
  have hnames : (set.map Task.name).Sublist (s.set.map Task.name) := by
    have := hsub.map Prod.snd
    rwa [List.map_map, List.map_map] at this
  refine ⟨h.unique.sublist hnames, ?_, h.issued, h.sent, ?_, ?_, ?_⟩
  · intro t ht
    obtain ⟨u, hu, hid, -⟩ := hold t ht
    exact hid ▸ h.fresh u hu
  · intro e he t ht heq
    obtain ⟨u, hu, hid, hname⟩ := hold t ht
    exact hname ▸ h.owner e he u hu (heq.trans hid.symm)
  · intro t ht hn
    obtain ⟨u, hu, hid, hname⟩ := hold t ht
    rw [← hname] at hn ⊢
    exact hid ▸ h.held u hu hn
  · intro hs t ht hn
    obtain ⟨u, hu, hid, hname⟩ := hold t ht
    exact hid ▸ h.untold hs u hu (hname ▸ hn)

/-- Spawning a name that has no task in the join set. -/
theorem Matched.spawnSource {names : List Text} {s : State} (h : Matched names s)
    {name : Text} (hnew : name ∉ s.set.map Task.name) :
    Matched (name :: names) (spawnSource s name) := by
  have hother : ∀ t ∈ s.set, t.name ≠ name := by
    rintro t ht rfl
    exact hnew (List.mem_map_of_mem ht)
  refine ⟨?_, ?_, ?_, ?_, ?_, ?_, ?_⟩
  · rw [Coordinator.spawnSource, List.map_append, List.nodup_append]
    refine ⟨h.unique, List.nodup_singleton _, ?_⟩
    rintro n hn _ hm rfl
    obtain rfl := List.mem_singleton.mp hm
    exact hnew hn
  · intro t ht
    rcases List.mem_append.mp ht with ht | ht
    · exact Nat.lt_succ_of_lt (h.fresh t ht)
    · rw [List.mem_singleton.mp ht]
      exact Nat.lt_succ_self _
  · intro e he
    rcases List.mem_append.mp he with he | he
    · exact Nat.lt_succ_of_lt (h.issued e (List.mem_filter.mp he).1)
    · rw [List.mem_singleton.mp he]
      exact Nat.lt_succ_self _
  · exact fun i hi => Nat.lt_succ_of_lt (h.sent i hi)
  · intro e he t ht heq
    rcases List.mem_append.mp he with he | he <;> rcases List.mem_append.mp ht with ht | ht
    · exact h.owner e (List.mem_filter.mp he).1 t ht heq
    · have hlt := h.issued e (List.mem_filter.mp he).1
      rw [List.mem_singleton.mp ht] at heq
      exact absurd heq (Nat.ne_of_lt hlt)
    · have hlt := h.fresh t ht
      rw [List.mem_singleton.mp he] at heq
      exact absurd heq.symm (Nat.ne_of_lt hlt)
    · rw [List.mem_singleton.mp he, List.mem_singleton.mp ht]
  · intro t ht hn
    rcases List.mem_append.mp ht with ht | ht
    · have hne := hother t ht
      rw [State.sender_spawnSource hne]
      exact h.held t ht ((List.mem_cons.mp hn).resolve_left hne)
    · rw [List.mem_singleton.mp ht]
      exact State.sender_spawnSource_self
  · intro hs t ht hn
    rcases List.mem_append.mp ht with ht | ht
    · exact h.untold hs t ht ((List.mem_cons.mp hn).resolve_left (hother t ht))
    · rw [List.mem_singleton.mp ht]
      exact fun hi => Nat.lt_irrefl _ (h.sent _ hi)

/-- Stopping a name outside `names`. -/
theorem Matched.stopSource {names : List Text} {s : State} (h : Matched names s)
    {name : Text} (hout : name ∉ names) : Matched names (stopSource s name) := by
  unfold Coordinator.stopSource
  split
  · rename_i tx htx
    have hrow := State.sender_mem htx
    refine ⟨h.unique, h.fresh, ?_, ?_, ?_, ?_, ?_⟩
    · exact fun e he => h.issued e (List.mem_filter.mp he).1
    · intro i hi
      rcases List.mem_append.mp hi with hi | hi
      · exact h.sent i hi
      · rw [List.mem_singleton.mp hi]
        exact h.issued _ hrow
    · exact fun e he => h.owner e (List.mem_filter.mp he).1
    · intro t ht hn
      have hne : t.name ≠ name := fun heq => hout (heq ▸ hn)
      exact (State.sender_remove hne).trans (h.held t ht hn)
    · intro hs t ht hn hi
      rcases List.mem_append.mp hi with hi | hi
      · exact h.untold hs t ht hn hi
      · have heq : name = t.name := h.owner _ hrow t ht (List.mem_singleton.mp hi).symm
        exact hout (heq ▸ hn)
  · exact h

/-! ## A whole reload -/

theorem stopSource_set (s : State) (name : Text) : (stopSource s name).set = s.set := by
  unfold stopSource
  split <;> rfl

theorem stopSource_running {s : State} {name : Text} {e : Text × Nat} :
    e ∈ (stopSource s name).running ↔ e ∈ s.running ∧ e.1 ≠ name := by
  unfold stopSource
  split
  · simp [State.remove]
  · rename_i hnone
    refine ⟨fun he => ⟨he, ?_⟩, And.left⟩
    rintro rfl
    obtain ⟨tx, htx⟩ := State.sender_isSome (List.mem_map_of_mem (f := (·.1)) he)
    rw [hnone] at htx
    cases htx

theorem stops_set (removed : List Text) (s : State) :
    (removed.foldl stopSource s).set = s.set := by
  induction removed generalizing s with
  | nil => rfl
  | cons name removed ih => exact (ih _).trans (stopSource_set s name)

theorem stops_running {removed : List Text} {s : State} {e : Text × Nat} :
    e ∈ (removed.foldl stopSource s).running ↔ e ∈ s.running ∧ e.1 ∉ removed := by
  induction removed generalizing s with
  | nil => simp
  | cons name removed ih =>
      rw [List.foldl_cons, ih, stopSource_running, List.mem_cons]
      tauto

theorem Matched.stops {names removed : List Text} {s : State} (h : Matched names s)
    (hout : ∀ n ∈ removed, n ∉ names) : Matched names (removed.foldl Coordinator.stopSource s) := by
  induction removed generalizing s with
  | nil => exact h
  | cons name removed ih =>
      exact ih (h.stopSource (hout name (List.mem_cons_self ..)))
        fun n hn => hout n (List.mem_cons_of_mem _ hn)

theorem spawns_running {added : List Text} {s : State} {n : Text} :
    n ∈ (added.foldl spawnSource s).running.map (·.1)
      ↔ n ∈ s.running.map (·.1) ∨ n ∈ added := by
  induction added generalizing s with
  | nil => simp
  | cons name added ih =>
      rw [List.foldl_cons, ih, List.mem_cons]
      by_cases h : n = name
      · simp [h, spawnSource]
      · simp [spawnSource, h]

theorem spawns_configured (added : List Text) (s : State) :
    (added.foldl spawnSource s).configured = s.configured := by
  induction added generalizing s with
  | nil => rfl
  | cons name added ih => exact ih (spawnSource s name)

theorem Matched.spawns {names added : List Text} {s : State} (h : Matched names s)
    (hnew : ∀ n ∈ added, n ∉ s.set.map Task.name) (hadded : added.Nodup) :
    Matched (names ++ added) (added.foldl Coordinator.spawnSource s) := by
  induction added generalizing s names with
  | nil => simpa using h
  | cons name added ih =>
      obtain ⟨hname, hadded⟩ := List.nodup_cons.mp hadded
      have hstep := h.spawnSource (hnew name (List.mem_cons_self ..))
      refine (ih hstep ?_ hadded).anti ?_
      · intro n hn hmem
        simp only [Coordinator.spawnSource, List.map_append, List.mem_append, List.map_singleton,
          List.mem_singleton] at hmem
        rcases hmem with hmem | rfl
        · exact hnew n (List.mem_cons_of_mem _ hn) hmem
        · exact hname hn
      · intro n hn
        simp only [List.mem_append, List.mem_cons] at hn ⊢
        tauto

/-- The names a reload starts. -/
theorem added_names (running configured : List Text) :
    (diffSourceSet running configured).2.map (fun i => configured.getD i [])
      = configured.filter fun n => !running.contains n := by
  have hget : configured = (List.range configured.length).map fun i => configured.getD i [] := by
    refine List.ext_getElem (by simp) fun i h₁ h₂ => ?_
    simp [List.getD_eq_getElem?_getD, List.getElem?_eq_getElem h₁]
  conv_rhs => rw [hget, List.filter_map]
  rfl

theorem mem_removed {running configured : List Text} {n : Text} :
    n ∈ (diffSourceSet running configured).1 ↔ n ∈ running ∧ n ∉ configured := by
  simp [diffSourceSet, List.mem_insertionSort]

theorem reloadSourceSet_eq {s : State} {configured : List Text} (h : configured.Nodup) :
    reloadSourceSet s configured =
      { (configured.filter fun n => !(s.running.map (·.1)).contains n).foldl spawnSource
          ((diffSourceSet (s.running.map (·.1)) configured).1.foldl stopSource s)
        with configured } := by
  rw [reloadSourceSet, if_pos h]
  simp only [← added_names (s.running.map (·.1)) configured, List.foldl_map]

/-! ## Runs -/

/-- What holds between two events. -/
structure Inv (s : State) : Prop where
  matched : Matched s.configured s
  /-- only configured names have a sender -/
  known : ∀ n ∈ s.running.map (·.1), n ∈ s.configured

theorem Inv.oneTask {s : State} (h : Inv s) : OneTask s where
  unique := h.matched.unique.sublist (List.filter_sublist.map _)
  held t ht _ hn := h.matched.held t ht hn
  runs hs t ht _ hn := by
    have hsender := State.sender_mem (h.matched.held t ht hn)
    have hkept : t.id ∈ s.running.map (·.2) := List.mem_map_of_mem (f := (·.2)) hsender
    have htold := h.matched.untold hs t ht hn
    simp [State.stops, htold, hkept]

/-- No name is started while a task of an earlier configuration still has it. -/
def Collected (s : State) (configured : List Text) : Prop :=
  ∀ n ∈ configured, n ∉ s.running.map (·.1) → n ∉ s.set.map Task.name

instance (s : State) (configured : List Text) : Decidable (Collected s configured) := by
  unfold Collected
  infer_instance

/-- **A reload of collected names** leaves each configured name with its one task. -/
theorem Inv.reload {s : State} {configured : List Text} (h : Inv s) (hnodup : configured.Nodup)
    (hcollected : Collected s configured) : Inv (reloadSourceSet s configured) := by
  let running := s.running.map (·.1)
  let removed := (diffSourceSet running configured).1
  let kept := configured.filter fun n => running.contains n
  let added := configured.filter fun n => !running.contains n
  have hkept : Matched kept s :=
    h.matched.anti fun n hn => h.known n (by simpa [running] using (List.mem_filter.mp hn).2)
  have hstopped : Matched kept (removed.foldl stopSource s) :=
    hkept.stops fun n hn hm => (mem_removed.mp hn).2 (List.mem_filter.mp hm).1
  have hnew : ∀ n ∈ added, n ∉ (removed.foldl stopSource s).set.map Task.name := by
    intro n hn
    obtain ⟨hn, hrunning⟩ := List.mem_filter.mp hn
    rw [stops_set]
    exact hcollected n hn (by simpa [running] using hrunning)
  have hspawned := hstopped.spawns hnew (hnodup.filter _)
  have hall : ∀ n ∈ configured, n ∈ kept ++ added := by
    intro n hn
    by_cases hr : running.contains n
    · exact List.mem_append_left _ (List.mem_filter.mpr ⟨hn, hr⟩)
    · exact List.mem_append_right _ (List.mem_filter.mpr ⟨hn, by simpa using hr⟩)
  rw [reloadSourceSet_eq hnodup]
  refine ⟨(hspawned.anti hall).configure, ?_⟩
  intro n hn
  rcases spawns_running.mp hn with hn | hn
  · obtain ⟨e, he, rfl⟩ := List.mem_map.mp hn
    obtain ⟨he, hout⟩ := stops_running.mp he
    by_contra hc
    exact hout (mem_removed.mpr ⟨List.mem_map_of_mem (f := (·.1)) he, hc⟩)
  · exact (List.mem_filter.mp hn).1

theorem Inv.signalAll {s : State} (h : Inv s) : Inv s.signalAll where
  matched :=
    { unique := h.matched.unique
      fresh := h.matched.fresh
      issued := h.matched.issued
      sent := by
        intro i hi
        rcases List.mem_append.mp hi with hi | hi
        · exact h.matched.sent i hi
        · obtain ⟨e, he, rfl⟩ := List.mem_map.mp hi
          exact h.matched.issued e he
      owner := h.matched.owner
      held := h.matched.held
      untold := fun hs => nomatch hs }
  known := h.known

theorem Inv.finish {s s' : State} {id : Nat} {r : Joined} (h : Inv s)
    (hs : finish s id r = some s') : Inv s' := by
  simp only [Coordinator.finish] at hs
  split at hs
  · obtain rfl := Option.some.inj hs
    refine ⟨h.matched.narrow ?_, h.known⟩
    have hsame : ((s.set.map fun t => if t.id = id then { t with returned := some r } else t).map
        fun t => (t.id, t.name)) = s.set.map fun t => (t.id, t.name) := by
      rw [List.map_map]
      refine List.map_congr_left fun t _ => ?_
      by_cases ht : t.id = id <;> simp [ht]
    rw [hsame]
  · cases hs

/-- The task that is collected is the one that had the name. -/
theorem join_cases {s s' : State} {id : Nat} (hs : join s id = some s') :
    ∃ t r, t ∈ s.set ∧ t.id = id ∧ t.returned = some r ∧
      let left := { s with set := s.set.filter fun t => decide (t.id ≠ id) }
      ((r = .ok ∧ s' = left.remove t.name) ∨ (r = .err ∧ s' = (left.remove t.name).signalAll)
        ∨ (r = .panicked ∧ s' = left.signalAll)) := by
  unfold join at hs
  split at hs
  · rename_i i name r hfind
    have hid : i = id := by simpa using List.find?_some hfind
    refine ⟨_, r, List.mem_of_find?_eq_some hfind, hid, rfl, ?_⟩
    cases r with
    | ok => exact .inl ⟨rfl, (Option.some.inj hs).symm⟩
    | err => exact .inr (.inl ⟨rfl, (Option.some.inj hs).symm⟩)
    | panicked => exact .inr (.inr ⟨rfl, (Option.some.inj hs).symm⟩)
  · cases hs

theorem Inv.remove {s : State} {name : Text} (h : Inv s) (hgone : name ∉ s.set.map Task.name) :
    Inv (s.remove name) where
  matched :=
    { unique := h.matched.unique
      fresh := h.matched.fresh
      issued := fun e he => h.matched.issued e (List.mem_filter.mp he).1
      sent := h.matched.sent
      owner := fun e he => h.matched.owner e (List.mem_filter.mp he).1
      held := by
        intro t ht hn
        have hne : t.name ≠ name := fun heq => hgone (heq ▸ List.mem_map_of_mem ht)
        exact (State.sender_remove hne).trans (h.matched.held t ht hn)
      untold := h.matched.untold }
  known := by
    intro n hn
    obtain ⟨e, he, rfl⟩ := List.mem_map.mp hn
    exact h.known _ (List.mem_map_of_mem (f := (·.1)) (List.mem_filter.mp he).1)

theorem Inv.join {s s' : State} {id : Nat} (h : Inv s) (hs : join s id = some s') : Inv s' := by
  obtain ⟨t, r, ht, hid, -, hcases⟩ := join_cases hs
  have hleft : Inv { s with set := s.set.filter fun t => decide (t.id ≠ id) } :=
    ⟨h.matched.narrow (List.filter_sublist.map _), h.known⟩
  -- no other task has the name, so its sender goes with the task
  have hgone : t.name ∉ (s.set.filter fun t => decide (t.id ≠ id)).map Task.name := by
    intro hmem
    obtain ⟨u, hu, hname⟩ := List.mem_map.mp hmem
    obtain ⟨hu, hne⟩ := List.mem_filter.mp hu
    have heq : u = t := List.inj_on_of_nodup_map h.matched.unique hu ht hname
    exact absurd (heq ▸ hid) (by simpa using hne)
  rcases hcases with ⟨-, rfl⟩ | ⟨-, rfl⟩ | ⟨-, rfl⟩
  · exact hleft.remove hgone
  · exact (hleft.remove hgone).signalAll
  · exact hleft.signalAll

/-- The condition on a step: what a reload starts has no task left. -/
def Clean (s : State) : Event → Prop
  | .reload (some configured) => configured.Nodup → Collected s configured
  | _ => True

instance : DecidableRel Clean := fun s e => by
  cases e with
  | reload configured =>
    cases configured with
    | none => exact inferInstanceAs (Decidable True)
    | some configured =>
      exact inferInstanceAs (Decidable (configured.Nodup → Collected s configured))
  | stop => exact inferInstanceAs (Decidable True)
  | finish => exact inferInstanceAs (Decidable True)
  | join => exact inferInstanceAs (Decidable True)
  | leave => exact inferInstanceAs (Decidable True)

theorem Inv.step {s s' : State} {e : Event} (h : Inv s) (hclean : Clean s e)
    (hs : step s e = some s') : Inv s' := by
  unfold Coordinator.step at hs
  split at hs
  · cases hs
  · cases e with
    | stop =>
      simp only at hs
      split at hs
      · cases hs
      · exact Option.some.inj hs ▸ h.signalAll
    | reload configured =>
      simp only at hs
      split at hs
      · cases hs
      · obtain rfl := Option.some.inj hs
        cases configured with
        | none => exact h
        | some configured =>
          by_cases hnodup : configured.Nodup
          · exact h.reload hnodup (hclean hnodup)
          · have hrefused : reloadSourceSet s configured = s := if_neg hnodup
            simp only [hrefused]
            exact h
    | finish id r => exact h.finish hs
    | join id => exact h.join hs
    | leave =>
      simp only at hs
      split at hs
      · obtain rfl := Option.some.inj hs
        exact ⟨h.matched.narrow (List.Sublist.refl _), h.known⟩
      · cases hs

theorem start_inv {configured : List Text} (h : configured.Nodup) : Inv (start configured) := by
  let empty : State :=
    { running := [], set := [], told := [], signalled := false, nextId := 0, configured
      ended := false }
  have hempty : Matched [] empty := by
    refine ⟨List.nodup_nil, ?_, ?_, ?_, ?_, ?_, ?_⟩ <;> simp [empty]
  have hnew : ∀ n ∈ configured, n ∉ empty.set.map Task.name := by simp [empty]
  have hspawned := hempty.spawns hnew h
  have hsame : (start configured).configured = configured := spawns_configured configured empty
  refine ⟨?_, ?_⟩
  · rw [hsame]
    exact hspawned
  · intro n hn
    rw [hsame]
    simpa [empty] using spawns_running.mp hn

/-- **One task for each source.** In a run whose reloads start no name that still
has a task, every state reached has at most one live task of a name, and each
live task of a configured source has its sender held and has not been told to stop. -/
theorem reload_keeps_one_task {configured : List Text} (hc : configured.Nodup)
    {es : List Event} {s : State} (hclean : Meets step Clean (start configured) es)
    (hr : run step (start configured) es = some s) : OneTask s :=
  (run_invariant (fun _ _ _ h hok hs => h.step hok hs) (start_inv hc) hclean hr).oneTask

/-- A source is removed, collected and added again. -/
theorem reload_keeps_one_task_readded :
    ∃ s, run step (start ["a".toList, "b".toList])
        [.reload (some ["b".toList]), .finish 0 .ok, .join 0,
          .reload (some ["a".toList, "b".toList])] = some s ∧ OneTask s := by
  have hr : run step (start ["a".toList, "b".toList])
      [.reload (some ["b".toList]), .finish 0 .ok, .join 0,
        .reload (some ["a".toList, "b".toList])] = some _ := rfl
  exact ⟨_, hr, reload_keeps_one_task (by decide +kernel) (by decide +kernel) hr⟩

/-- Added again while its first task drains, a source has two live tasks; when the
first is collected, the second loses its sender and stops. -/
theorem readded_while_draining :
    ∃ s t, run step (start ["a".toList, "b".toList])
        [.reload (some ["b".toList]), .reload (some ["a".toList, "b".toList])] = some s ∧
      ¬ OneTask s ∧ run step s [.finish 0 .ok, .join 0] = some t ∧ ¬ OneTask t := by
  refine ⟨_, _, rfl, fun h => absurd h.unique (by decide +kernel), rfl, fun h => ?_⟩
  have hheld := h.held ⟨2, "a".toList, none⟩ (by decide +kernel) rfl (by decide +kernel)
  exact absurd hheld (by decide +kernel)

end Tributary.Coordinator
