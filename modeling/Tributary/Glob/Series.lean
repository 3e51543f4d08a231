import Tributary.FileSource.Ledger
import Tributary.Glob.Children
import Tributary.Stamp.Collision
import Tributary.Stamp.Places

/-!
# Rows of one series

The server keeps one row for a table, a tag set and a timestamp. Each child of a
glob source stamps on its own, and the children of two instances of one container
have one tag set: their lines meet where they have the same place in a tick.
-/

namespace Tributary.Glob

open FileSource Lib Lp Map Stamp Stamper Transform

/-! ## What becomes of a line -/

variable (libs : Libs) (rules : Rules)

/-- The record a line is stamped for, with its source timestamp. -/
def admitted (source : Source) (line : Text) (now : Int) : Option (Record × Int) :=
  match mapLine libs source line now with
  | .error _ => none
  | .ok (record, sourceTs) =>
      if keeps libs record rules.filters && sampleKeeps libs record sourceTs rules.samples then
        some (applyRedacts libs record rules.redacts, sourceTs)
      else none

variable {libs rules}

/-- A line that is not admitted makes no record and leaves the stamper alone. -/
theorem refused {c : Child} {e : Read} (h : admitted libs rules c.source e.line e.now = none) :
    (c.after libs rules e).stamper = c.stamper ∧ c.record libs rules e = none := by
  unfold admitted at h
  unfold Child.after Child.record build
  cases hmap : mapLine libs c.source e.line e.now with
  | error err => cases err <;> exact ⟨rfl, rfl⟩
  | ok p =>
      obtain ⟨record, ts⟩ := p
      rw [hmap] at h
      by_cases hk : keeps libs record rules.filters
      · have hs : sampleKeeps libs record ts rules.samples = false := by simpa [hk] using h
        simp [hk, hs]
      · simp [hk]

/-- An admitted line is stamped, and becomes a record when the stamper answers. -/
theorem stamped {c : Child} {e : Read} {record : Record} {ts : Int}
    (h : admitted libs rules c.source e.line e.now = some (record, ts)) :
    (c.after libs rules e).stamper = (c.stamper.stamp ts).2 ∧
      c.record libs rules e =
        match (c.stamper.stamp ts).1 with
        | .ok tsNs => some (record.withTs tsNs)
        | .error _ => none := by
  unfold admitted at h
  unfold Child.after Child.record build
  cases hmap : mapLine libs c.source e.line e.now with
  | error err => simp [hmap] at h
  | ok p =>
      obtain ⟨mapped, sourceTs⟩ := p
      simp only [hmap, Option.ite_none_right_eq_some, Bool.and_eq_true, Option.some.injEq,
        Prod.mk.injEq] at h
      obtain ⟨⟨hk, hs⟩, rfl, rfl⟩ := h
      simp only [hk, hs, Bool.not_true, Bool.false_eq_true, if_false]
      rcases c.stamper.stamp sourceTs with ⟨_ | _, _⟩ <;> exact ⟨rfl, rfl⟩

/-! ## Where the lines of a run come to stand -/

/-- A matched file as its child takes it up; the stamper is the one its checkpoint
gives. -/
structure Found (res : Resolution) where
  path : Path
  labels : List (Text × Text)
  stamper : Stamper
  watermark : Watermark
  wf : stamper.Wf
  ticks : stamper.tickNs = res.tickNs

def Found.child (template : Source) (f : Found template.resolution) : Child :=
  { source := syntheticSource template f.labels f.path, stamper := f.stamper
    watermark := f.watermark }

/-- A record before it is stamped: the child, the tick of its line, and the line's
place among the child's lines of that tick. -/
structure Placed where
  child : Nat
  record : Record
  tick : Int
  place : Int

def Placed.stamped (p : Placed) : Nat × Record := (p.child, p.record.withTs (wrap64 (p.tick + p.place)))

variable (libs rules)

/-- The records of a run with their places; `earlier` are the ticks each child has
had lines of, the newest first. A line past the end of its tick makes no record. -/
def placed (children : List Child) (earlier : Nat → List Int) : List Read → List Placed
  | [] => []
  | e :: es =>
      match children[e.child]? with
      | none => placed children earlier es
      | some c =>
          match admitted libs rules c.source e.line e.now with
          | none => placed children earlier es
          | some (record, ts) =>
              let tick := tickOf c.stamper.tickNs ts
              let place := c.stamper.place tick (earlier e.child)
              let rest := placed children
                (Function.update earlier e.child (tick :: earlier e.child)) es
              if place < c.stamper.tickNs then { child := e.child, record, tick, place } :: rest
              else rest

variable {libs rules}

/-- The children `cs` are those of the start after lines of the ticks `earlier`. -/
def Since (start : List Child) (earlier : Nat → List Int) (cs : List Child) : Prop :=
  cs.length = start.length ∧ ∀ i c₀ c, start[i]? = some c₀ → cs[i]? = some c →
    c.source = c₀.source ∧ After c₀.stamper (earlier i) c.stamper

theorem Since.set {start cs : List Child} {earlier : Nat → List Int} (h : Since start earlier cs)
    {i : Nat} {c₀ : Child} (hc₀ : start[i]? = some c₀) (c' : Child) {ticks : List Int}
    (hc' : c'.source = c₀.source ∧ After c₀.stamper ticks c'.stamper) :
    Since start (Function.update earlier i ticks) (cs.set i c') := by
  refine ⟨by rw [List.length_set, h.1], fun j d₀ d hd₀ hd => ?_⟩
  by_cases hj : i = j
  · subst hj
    obtain rfl := Option.some.inj (hc₀.symm.trans hd₀)
    rw [List.getElem?_set_self'] at hd
    obtain ⟨c, -, rfl⟩ := Option.map_eq_some_iff.mp hd
    rw [Function.update_self]
    exact hc'
  · rw [List.getElem?_set_ne hj] at hd
    rw [Function.update_of_ne (Ne.symm hj)]
    exact h.2 j d₀ d hd₀ hd

/-- **The records of a run, from its lines alone.** -/
theorem produced_eq {start cs : List Child} {earlier : Nat → List Int}
    (hwf : ∀ c ∈ start, c.stamper.Wf ∧ c.stamper.tickNs ≠ 1 ∧ 0 < c.stamper.tickNs)
    (h : Since start earlier cs) (es : List Read) :
    produced libs rules cs es = (placed libs rules start earlier es).map Placed.stamped := by
  induction es generalizing cs earlier with
  | nil => rfl
  | cons e es ih =>
      rw [produced, placed]
      cases hc₀ : start[e.child]? with
      | none =>
          have hnone : cs[e.child]? = none := by
            rw [List.getElem?_eq_none_iff] at hc₀ ⊢
            exact h.1 ▸ hc₀
          simp only [hnone]
          exact ih h
      | some c₀ =>
          obtain ⟨hwf₀, hns, hpos⟩ := hwf c₀ (List.mem_of_getElem? hc₀)
          obtain ⟨c, hc⟩ : ∃ c, cs[e.child]? = some c := by
            have hlt := (List.getElem?_eq_some_iff.mp hc₀).1
            exact ⟨_, List.getElem?_eq_getElem (h.1 ▸ hlt)⟩
          obtain ⟨hsource, hafter⟩ := h.2 _ _ _ hc₀ hc
          simp only [hc, ← hsource]
          cases had : admitted libs rules c.source e.line e.now with
          | none =>
              obtain ⟨hstamper, hrecord⟩ := refused had
              have hkept := h.set hc₀ (c.after libs rules e) ⟨hsource, hstamper ▸ hafter⟩
              rw [Function.update_eq_self] at hkept
              rw [ih hkept, hrecord]
              rfl
          | some p =>
              obtain ⟨record, ts⟩ := p
              obtain ⟨hstamper, hrecord⟩ := stamped had
              have hnext := h.set hc₀ (c.after libs rules e)
                ⟨hsource, hstamper ▸ hafter.step hwf₀ hns ts⟩
              rw [ih hnext, hrecord, hafter.stamp_eq hwf₀ hns hpos]
              by_cases hplace : c₀.stamper.place (tickOf c₀.stamper.tickNs ts) (earlier e.child)
                  < c₀.stamper.tickNs
              · simp [hplace, Placed.stamped]
              · simp [hplace]

/-! ## What tells series apart -/

/-- Neither name says that the file is of another container. -/
def Confusable {res : Resolution} (f g : Found res) : Prop :=
  ∀ m n, K8s.parseCriPath f.path.text = some m → K8s.parseCriPath g.path.text = some n → m = n

theorem admitted_tags {source : Source} {line : Text} {now ts : Int} {record : Record}
    (h : admitted libs rules source line now = some (record, ts)) :
    record.table = source.table
      ∧ ∃ parsed, record.tags = BTree.collect (seedTags libs source parsed) := by
  unfold admitted at h
  cases hmap : mapLine libs source line now with
  | error e => simp [hmap] at h
  | ok p =>
      obtain ⟨mapped, sourceTs⟩ := p
      simp only [hmap, Option.ite_none_right_eq_some, Option.some.injEq, Prod.mk.injEq] at h
      obtain ⟨-, rfl, -⟩ := h
      obtain ⟨-, parsed, fields, -, -, -, rfl⟩ := mapLine_eq_ok_iff.mp hmap
      rw [applyRedacts_eq]
      exact ⟨rfl, parsed, rfl⟩

/-- **The identity of the path is in the tags**, whatever the line says. -/
theorem tags_identity {source : Source} (hk : source.kubernetes) {m : K8s.CriMeta}
    (hm : K8s.parseCriPath source.path = some m) (parsed : List (Text × Json)) :
    let tags := BTree.collect (seedTags libs source parsed)
    BTree.get tags "namespace".toList = some m.namespace_
      ∧ BTree.get tags "pod".toList = some m.pod
      ∧ BTree.get tags "container".toList = some m.container := by
  have hsplit : ∀ pre : List (Text × Text), pre ++ [("namespace".toList, m.namespace_),
      ("pod".toList, m.pod), ("container".toList, m.container)]
      = pre ++ [("namespace".toList, m.namespace_)] ++ [("pod".toList, m.pod)]
        ++ [("container".toList, m.container)] := by simp
  simp only [seedTags, if_pos hk, hm]
  rw [hsplit]
  simp only [BTree.collect_concat, BTree.get_insert]
  refine ⟨?_, ?_, ?_⟩
  · rw [if_neg (by decide), if_neg (by decide), if_pos trivial]
  · rw [if_neg (by decide), if_pos trivial]
  · rw [if_pos trivial]

/-- Where a placed record comes from. -/
theorem mem_placed {start : List Child} {earlier : Nat → List Int} {es : List Read} {p : Placed}
    (h : p ∈ placed libs rules start earlier es) :
    ∃ c line now ts, start[p.child]? = some c
      ∧ admitted libs rules c.source line now = some (p.record, ts) := by
  induction es generalizing earlier with
  | nil => cases h
  | cons e es ih =>
      rw [placed] at h
      split at h
      · exact ih h
      · rename_i c hc
        split at h
        · exact ih h
        · rename_i record ts had
          dsimp only at h
          split at h
          · rcases List.mem_cons.mp h with rfl | h
            · exact ⟨c, e.line, e.now, ts, hc, had⟩
            · exact ih h
          · exact ih h

/-- The same place of the same tick, in `i64` arithmetic. -/
def SameSlot (a b : Placed) : Prop :=
  (a.tick + a.place - (b.tick + b.place)) % 18446744073709551616 = 0

instance (a b : Placed) : Decidable (SameSlot a b) :=
  inferInstanceAs (Decidable (_ = _))

/-- Away from the ends of `i64`, a slot is a tick and a place in it. -/
theorem sameSlot_iff {n : Int} {a b : Placed} (ha : a.tick % n = 0) (hb : b.tick % n = 0)
    (hpa : 0 ≤ a.place ∧ a.place < n) (hpb : 0 ≤ b.place ∧ b.place < n)
    (hfa : FitsI64 (a.tick + a.place)) (hfb : FitsI64 (b.tick + b.place)) :
    SameSlot a b ↔ a.tick = b.tick ∧ a.place = b.place := by
  rw [SameSlot, ← wrap64_eq_iff, wrap64_of_fits hfa, wrap64_of_fits hfb]
  constructor
  · exact slot_inj ha hb hpa hpb
  · rintro ⟨htick, hplace⟩
    rw [htick, hplace]

variable (libs rules)

/-- The records of all children of a glob source have rows of their own. -/
def RowsDistinct (template : Source) (files : List (Found template.resolution))
    (reads : List Read) : Prop :=
  (produced libs rules (files.map (Found.child template)) reads).Pairwise fun a b =>
    a.1 ≠ b.1 → a.2.table = b.2.table → a.2.tags = b.2.tags → a.2.tsNs ≠ b.2.tsNs

/-- **What keeps the rows apart**: files that may be of one container have no lines of
one tag set at the same place of a tick. -/
def SlotsDistinct (template : Source) (files : List (Found template.resolution))
    (reads : List Read) : Prop :=
  (placed libs rules (files.map (Found.child template)) (fun _ => []) reads).Pairwise fun a b =>
    a.child ≠ b.child → a.record.tags = b.record.tags →
      (∀ f ∈ files[a.child]?, ∀ g ∈ files[b.child]?, Confusable f g) → ¬ SameSlot a b

/-- **Rows are distinct exactly when slots are**, for any matched files of a
kubernetes source and any interleaving of their lines. -/
theorem rows_distinct_iff (template : Source) (hk : template.kubernetes)
    (hcoarse : template.resolution ≠ .nanos) (files : List (Found template.resolution))
    (reads : List Read) :
    RowsDistinct libs rules template files reads ↔ SlotsDistinct libs rules template files reads := by
  let start := files.map (Found.child template)
  have hwf : ∀ c ∈ start, c.stamper.Wf ∧ c.stamper.tickNs ≠ 1 ∧ 0 < c.stamper.tickNs := by
    intro c hc
    obtain ⟨f, -, rfl⟩ := List.mem_map.mp hc
    refine ⟨f.wf, ?_, ?_⟩
    · exact f.ticks.trans_ne (by cases h : template.resolution <;> simp_all [Resolution.tickNs])
    · exact f.ticks.symm ▸ tickNs_pos _
  have hfresh : Since start (fun _ => []) start := by
    refine ⟨rfl, fun i c₀ c hc₀ hc => ?_⟩
    obtain rfl := Option.some.inj (hc₀.symm.trans hc)
    exact ⟨rfl, .refl (hwf c₀ (List.mem_of_getElem? hc₀)).1⟩
  rw [RowsDistinct, SlotsDistinct, produced_eq hwf hfresh, List.pairwise_map]
  refine List.Pairwise.iff_of_mem fun {a b} ha hb => ?_
  obtain ⟨c, line, now, ts, hc, hadmitted⟩ := mem_placed ha
  obtain ⟨d, line', now', ts', hd, hadmitted'⟩ := mem_placed hb
  obtain ⟨htable, parsed, htags⟩ := admitted_tags hadmitted
  obtain ⟨htable', parsed', htags'⟩ := admitted_tags hadmitted'
  rw [List.getElem?_map] at hc hd
  obtain ⟨f, hf, rfl⟩ := Option.map_eq_some_iff.mp hc
  obtain ⟨g, hg, rfl⟩ := Option.map_eq_some_iff.mp hd
  have hts : a.stamped.2.tsNs ≠ b.stamped.2.tsNs ↔ ¬ SameSlot a b :=
    not_congr (wrap64_eq_iff _ _)
  rw [hts]
  constructor
  · intro h hne heq _
    exact h hne (htable.trans htable'.symm) heq
  · intro h hne _ heq
    refine h hne heq fun f' hf' g' hg' => ?_
    obtain rfl := Option.some.inj (hf.symm.trans hf')
    obtain rfl := Option.some.inj (hg.symm.trans hg')
    intro m n hm hn
    have hkf : (f.child template).source.kubernetes := hk
    have hkg : (g.child template).source.kubernetes := hk
    have hsame : BTree.collect (seedTags libs (f.child template).source parsed)
        = BTree.collect (seedTags libs (g.child template).source parsed') :=
      htags.symm.trans (heq.trans htags')
    obtain ⟨hns, hpod, hcontainer⟩ := tags_identity hkf hm parsed
    obtain ⟨hns', hpod', hcontainer'⟩ := tags_identity hkg hn parsed'
    rw [hsame] at hns hpod hcontainer
    obtain ⟨pod, ns, container⟩ := m
    obtain ⟨pod', ns', container'⟩ := n
    rw [K8s.CriMeta.mk.injEq]
    exact ⟨Option.some.inj (hpod.symm.trans hpod'), Option.some.inj (hns.symm.trans hns'),
      Option.some.inj (hcontainer.symm.trans hcontainer')⟩

/-! ## Two instances of one container -/

/-- The children of two files that differ in the container id alone. -/
def twoInstances : List (Found .millis) :=
  ["a", "b"].map fun id =>
    { path :=
        { dir := "/logs".toList
          file := asBytes ("web_default_app-".toList ++ (List.replicate 64 id.toList).flatten
            ++ ".log".toList) }
      labels := [], stamper := .new .millis, watermark := .new 0 0, wf := .new .millis, ticks := rfl }

/-- A plain-text kubernetes source that stamps on read, in milliseconds. -/
def podTemplate : Source :=
  { name := "pods".toList, path := "/logs/*.log".toList, table := "logs".toList, parser := .plain
    timestamp := { field := none, format := [], resolution := .millis }
    tags := [], tagsStatic := [], fields := [("message".toList, .string)]
    visibility := none, kubernetes := true }

def noRules : Rules := { filters := [], samples := [], redacts := [] }

/-- Two lines of one millisecond, the first of each instance. -/
def sameMilli : List Read :=
  [{ child := 0, line := "stopping".toList, now := 5000000 },
    { child := 1, line := "starting".toList, now := 5000001 }]

theorem rows_distinct_iff_two_instances :
    RowsDistinct asciiLibs noRules podTemplate twoInstances sameMilli
      ↔ SlotsDistinct asciiLibs noRules podTemplate twoInstances sameMilli :=
  rows_distinct_iff asciiLibs noRules podTemplate rfl (by decide) twoInstances sameMilli

/-- The line of the old instance is overwritten by the line of the new one. -/
theorem two_instances_one_row :
    (produced asciiLibs noRules (twoInstances.map (Found.child podTemplate)) sameMilli).length = 2
      ∧ ¬ RowsDistinct asciiLibs noRules podTemplate twoInstances sameMilli := by
  unfold RowsDistinct
  decide +kernel

end Tributary.Glob
