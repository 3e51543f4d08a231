import Mathlib.Algebra.Order.BigOperators.Group.List
import Tributary.LogFile.Sink

/-!
# The space the rotating log takes

As long as rotations go through, a size limit and a number of files to keep bound what the log
and its rotated files take of the disk, and the files that are left are those that the rotations
on their own would leave.
-/

namespace Tributary.LogFile

open Lib

namespace Sink

variable {p : Policy} {s t : Sink} {n k i : Nat} {now : Int} {c : Clock} {io : RotateIo}
  {live : Option (List Nat)} {inner : Inner} {buf : List Nat} {out : Option Nat}

/-! ## The space it takes -/

/-- The live file or a rotated one. -/
def Own (p : Policy) (x : Name) : Prop := x = p.path ∨ (p.path ++ [46]).isPrefixOf x = true

instance (p : Policy) : DecidablePred (Own p) := fun x =>
  inferInstanceAs (Decidable (x = p.path ∨ (p.path ++ [46]).isPrefixOf x = true))

/-- The bytes of the live file and the rotated ones. -/
def usage (p : Policy) (s : Sink) : Nat :=
  ((s.names.filter fun f => Own p f.1).map fun f => size (s.files.getD f.2 [])).sum

/-- Lengths can be read, rotations go through, and no write is longer than `b`. -/
def Completes (p : Policy) (b : Nat) (s : Sink) : Event → Prop
  | .open measured _ => measured = true
  | .write buf c io _ => buf.length ≤ b ∧ ∀ inner, s.inner = some inner →
      shouldRotate p inner buf.length c.checked = true →
      s.target p c.stamped ≠ none ∧ io = .ok true []
  | .kill => True

instance (p : Policy) (b : Nat) : DecidableRel (Completes p b) := fun s e =>
  match e with
  | .open measured _ => inferInstanceAs (Decidable (measured = true))
  | .write buf c io _ => inferInstanceAs (Decidable (buf.length ≤ b ∧ ∀ inner ∈ s.inner,
      shouldRotate p inner buf.length c.checked = true →
      s.target p c.stamped ≠ none ∧ io = .ok true []))
  | .kill => isTrue trivial

/-- No file is longer than `b`, `k` rotated ones are there, and the count of what was written is
that of the live file. -/
structure Bounded (p : Policy) (b k : Nat) (s : Sink) : Prop where
  small : ∀ f ∈ s.names, Own p f.1 → size (s.files.getD f.2 []) ≤ b
  few : (s.rotatedFiles p).length ≤ k
  handle : ∀ inner, s.inner = some inner →
    (p.path, inner.file) ∈ s.names ∧ inner.written = size (s.files.getD inner.file [])

variable {b : Nat}

theorem size_getD_create {i : Nat} (h : i < s.files.length) :
    size ((s.create p now).files.getD i []) = size (s.files.getD i []) := by
  rw [create]
  simp only
  rw [List.getD_append _ _ _ _ h]

theorem size_getD_append {i : Nat} (hi : i < s.files.length) :
    size ((s.append inner buf).files.getD i [])
      = size (s.files.getD i []) + if inner.file = i then buf.length else 0 := by
  have hlt : i < (s.append inner buf).files.length := by
    rw [append, List.length_modify]
    exact hi
  rw [List.getD_eq_getElem _ _ hlt, List.getD_eq_getElem _ _ hi]
  simp only [append, List.getElem_modify]
  split <;> simp [size]

theorem Bounded.create (hb : Bounded p b k s) (h : Inv p n live s) :
    Bounded p b k (s.create p now) where
  small := by
    intro f hf hown
    rcases List.mem_append.mp hf with hf | hf
    · rw [size_getD_create (h.known f hf)]
      exact hb.small f hf hown
    · rw [List.mem_singleton.mp hf]
      simp [Sink.create, size]
  few := by
    rw [rotatedFiles_create]
    exact hb.few
  handle := by
    rintro inner ⟨⟩
    exact ⟨List.mem_append_right _ (by simp), by simp [Sink.create, size]⟩

/-- A rotation that goes through leaves an empty live file. -/
theorem Bounded.rotate (hb : Bounded p b k s) (h : Inv p n live s) (hkeep : p.keep = some k)
    (hinner : s.inner = some inner) (htarget : s.target p c.stamped ≠ none) :
    Bounded p b k (s.rotate p c (.ok true []))
      ∧ ∀ inner, (s.rotate p c (.ok true [])).inner = some inner → inner.written = 0 := by
  obtain ⟨x, hx⟩ := Option.ne_none_iff_exists'.mp htarget
  have hmem := (hb.handle inner hinner).1
  have hi := (lookup_eq_some_iff h.names).mpr hmem
  obtain ⟨hfree, hprefix⟩ := target_spec hx
  have hpath : p.path ∉ (s.rename p x inner.file).names.map Prod.fst := path_not_mem_rename hprefix
  have hrenamed := h.rename hfree hprefix hmem
  have hcreated : Inv p n live ((s.rename p x inner.file).create p c.opened) :=
    hrenamed.create hpath
  have hsmall : ∀ f ∈ ((s.rename p x inner.file).create p c.opened).names, Own p f.1 →
      size (((s.rename p x inner.file).create p c.opened).files.getD f.2 []) ≤ b := by
    intro f hf hown
    rcases List.mem_append.mp hf with hf | hf
    · rw [size_getD_create (hrenamed.known f hf)]
      rcases List.mem_append.mp hf with hf | hf
      · exact hb.small f (List.mem_of_mem_filter hf) hown
      · rw [List.mem_singleton.mp hf]
        exact hb.small (p.path, inner.file) hmem (.inl rfl)
    · rw [List.mem_singleton.mp hf]
      simp [Sink.create, size]
  have hok : s.rotate p c (.ok true [])
      = ((s.rename p x inner.file).create p c.opened).prune p true [] := by
    simp only [Sink.rotate, hx, hi]
  have hfew := length_prune_le (p := p) hcreated.names hkeep
  rw [hok]
  refine ⟨?_, fun inner' hinner' => ?_⟩
  · rcases prune_cases (p := p) true [] hcreated.names with hsame | ⟨k', stays, -, heq, hstays, -⟩
    · rw [hsame] at hfew ⊢
      refine ⟨hsmall, hfew, ?_⟩
      rintro inner' ⟨⟩
      exact ⟨List.mem_append_right _ (by simp), by simp [Sink.create, size]⟩
    · rw [heq] at hfew ⊢
      refine ⟨fun f hf hown => hsmall f (List.mem_of_mem_filter hf) hown, hfew, ?_⟩
      rintro inner' ⟨⟩
      have hstay := hstays _ (path_not_rotated (p := p))
      refine ⟨List.mem_filter.mpr ⟨List.mem_append_right _ (by simp), hstay⟩, ?_⟩
      simp [Sink.create, size]
  · rw [inner_prune] at hinner'
    cases hinner'
    rfl

/-- A write that fits behind what is there. -/
theorem Bounded.append (hb : Bounded p b k s) (h : Inv p n live s)
    (hinner : s.inner = some inner) (hfits : inner.written + buf.length ≤ b) :
    Bounded p b k (s.append inner buf) := by
  obtain ⟨hmem, hwritten⟩ := hb.handle inner hinner
  refine ⟨fun f hf hown => ?_, hb.few, ?_⟩
  · rw [size_getD_append (h.known f hf)]
    split
    · rename_i heq
      rw [← heq, ← hwritten]
      exact hfits
    · exact hb.small f hf hown
  · rintro inner' ⟨⟩
    refine ⟨hmem, ?_⟩
    rw [size_getD_append (h.known _ hmem), if_pos rfl, ← hwritten]

/-- Where no rotation is due, the write fits. -/
theorem fits_of_not_due {limit : Nat} (hlimit : p.sizeLimit = some limit) (hle : limit ≤ b)
    (hbuf : buf.length ≤ b) (hdue : shouldRotate p inner buf.length now = false) :
    inner.written + buf.length ≤ b := by
  rw [shouldRotate, Bool.or_eq_false_iff, hlimit] at hdue
  have hsize := hdue.1
  simp only [Bool.and_eq_false_iff, decide_eq_false_iff_not] at hsize
  omega

theorem Bounded.step (hb : Bounded p b k s) (h : Inv p n live s) {limit : Nat}
    (hlimit : p.sizeLimit = some limit) (hle : limit ≤ b) (hkeep : p.keep = some k) {e : Event}
    (hok : Completes p b s e) (ht : Sink.step p s e = some t) : Bounded p b k t := by
  cases e with
  | «open» measured now =>
      rw [Sink.step] at ht
      split at ht
      · cases ht
        rw [Sink.open]
        cases hi : s.names.lookup p.path with
        | none => exact hb.create h
        | some i =>
            refine ⟨hb.small, hb.few, ?_⟩
            rintro inner ⟨⟩
            exact ⟨(lookup_eq_some_iff h.names).mp hi, if_pos hok⟩
      · cases ht
  | write buf c io out =>
      obtain ⟨inner, hinner, rfl⟩ := Option.map_eq_some_iff.mp ht
      obtain ⟨hbuf, hrotates⟩ := hok
      -- the write fits behind what is there, or the file is fresh
      obtain ⟨u, hu, hbounded, hinv, hfits⟩ : ∃ u,
          (if shouldRotate p inner buf.length c.checked then s.rotate p c io else s) = u
          ∧ Bounded p b k u ∧ Inv p n live u
          ∧ ∀ inner, u.inner = some inner → inner.written + buf.length ≤ b := by
        cases hdue : shouldRotate p inner buf.length c.checked with
        | false =>
            refine ⟨s, if_neg Bool.false_ne_true, hb, h, fun inner' hinner' => ?_⟩
            obtain rfl := Option.some.inj (hinner.symm.trans hinner')
            exact fits_of_not_due hlimit hle hbuf hdue
        | true =>
            obtain ⟨htarget, rfl⟩ := hrotates inner hinner hdue
            obtain ⟨hrotated, hempty⟩ := hb.rotate h hkeep hinner htarget
            refine ⟨_, if_pos rfl, hrotated, h.rotate c _, fun inner' hinner' => ?_⟩
            rw [hempty inner' hinner', Nat.zero_add]
            exact hbuf
      unfold writeLine
      rw [hu]
      cases out with
      | none => exact hbounded
      | some m =>
          cases hinner' : u.inner with
          | none => simpa only [hinner'] using hbounded
          | some inner' =>
              have hlength : (buf.take m).length ≤ buf.length := by
                rw [List.length_take]
                exact Nat.min_le_right _ _
              have hfit := hfits inner' hinner'
              simpa only [hinner'] using hbounded.append hinv hinner' (by omega)
  | kill =>
      obtain ⟨inner, -, rfl⟩ := Option.map_eq_some_iff.mp ht
      exact ⟨hb.small, hb.few, fun _ hnone => by cases hnone⟩

/-- A live file and `k` others. -/
theorem Bounded.usage_le (hb : Bounded p b k s) (h : Inv p n live s) :
    usage p s ≤ (k + 1) * b := by
  have hcount : (s.names.filter fun f => Own p f.1).length ≤ k + 1 := by
    have hsplit : ((s.names.map Prod.fst).filter fun x => Own p x).length
        ≤ (p.path :: s.rotatedFiles p).length := by
      refine List.Subperm.length_le (List.subperm_of_subset (h.names.filter _) fun x hx => ?_)
      obtain ⟨hmem, hown⟩ := List.mem_filter.mp hx
      rcases of_decide_eq_true hown with rfl | hprefix
      · exact List.mem_cons_self ..
      · exact List.mem_cons_of_mem _ (List.mem_filter.mpr ⟨hmem, hprefix⟩)
    rw [List.filter_map, List.length_map, List.length_cons] at hsplit
    exact hsplit.trans (Nat.succ_le_succ hb.few)
  have hsum : usage p s ≤ (s.names.filter fun f => Own p f.1).length * b := by
    have hle := List.sum_le_card_nsmul
      ((s.names.filter fun f => Own p f.1).map fun f => size (s.files.getD f.2 [])) b (by
        intro m hm
        obtain ⟨f, hf, rfl⟩ := List.mem_map.mp hm
        obtain ⟨hmem, hown⟩ := List.mem_filter.mp hf
        exact hb.small f hmem (of_decide_eq_true hown))
    rwa [List.length_map, Nat.nsmul_eq_mul] at hle
  exact hsum.trans (Nat.mul_le_mul_right b hcount)

/-- **The log does not fill the disk**: with a limit and a number of files to keep, and as long as
rotations go through, the log and its rotated files together never exceed one file more than are
kept, each as long as the limit or the longest thing written. -/
theorem usage_bounded (p : Policy) {siblings : List (Name × List Nat)} (live : Option (List Nat))
    (hapart : Apart p siblings) {limit b k : Nat} (hlimit : p.sizeLimit = some limit)
    (hle : limit ≤ b) (hkeep : p.keep = some k) (hfound : Bounded p b k (found p siblings live))
    {es : List Event} {s : Sink}
    (hok : Meets (Sink.step p) (Completes p b) (found p siblings live) es)
    (hr : Lib.run (Sink.step p) (found p siblings live) es = some s) :
    usage p s ≤ (k + 1) * b := by
  have hboth : Inv p siblings.length live s ∧ Bounded p b k s :=
    run_invariant (I := fun s => Inv p siblings.length live s ∧ Bounded p b k s)
      (fun _ _ _ ⟨h, hb⟩ hok ht => ⟨h.step ht, hb.step h hlimit hle hkeep hok ht⟩)
      ⟨inv_found hapart live, hfound⟩ hok hr
  exact hboth.2.usage_le hboth.1

/-- Two rotations that go through. -/
def through : List Event :=
  [.write [1, 2, 3] stopped (.ok true []) (some 3), .write [4, 5] stopped (.ok true []) (some 1),
    .kill, .open true 0, .write [6, 7, 8, 9] stopped (.ok true []) (some 4)]

theorem usage_bounded_through :
    ∃ s, Lib.run (Sink.step shortLog) (found shortLog foreign (some [0])) (.open true 0 :: through)
        = some s
      ∧ usage shortLog s = 8 ∧ usage shortLog s ≤ (1 + 1) * 4 := by
  have hrun : (Lib.run (Sink.step shortLog) (found shortLog foreign (some [0]))
      (.open true 0 :: through)).map (usage shortLog) = some 8 := by decide +kernel
  obtain ⟨s, hs, husage⟩ := Option.map_eq_some_iff.mp hrun
  have hfound : Bounded shortLog 4 1 (found shortLog foreign (some [0])) :=
    ⟨by decide +kernel, by decide +kernel, fun _ h => by cases h⟩
  exact ⟨s, hs, husage, usage_bounded shortLog (some [0]) (by decide +kernel) rfl (Nat.le_refl 4)
    rfl hfound (by decide +kernel) hs⟩

/-! ## What retention sees of it -/

/-- The rotated files, numbered as the files are. -/
def log (p : Policy) (s : Sink) : RotatingLog :=
  { name := p.path
    keep := p.keep
    dir := s.names.filter fun f => f.1 ≠ p.path
    rotated := s.files.length - 1 }

theorem mem_log_names {x : Name} (hx : x ≠ p.path) :
    x ∈ (log p s).names ↔ x ∈ s.names.map Prod.fst := by
  simp only [RotatingLog.names, log, List.mem_map, List.mem_filter, decide_eq_true_eq]
  constructor
  · rintro ⟨f, ⟨hf, -⟩, rfl⟩
    exact ⟨f, hf, rfl⟩
  · rintro ⟨f, hf, rfl⟩
    exact ⟨f, ⟨hf, hx⟩, rfl⟩

theorem target_log : (log p s).target now = s.target p now := by
  rw [target, RotatingLog.target, ← List.head?_filter, ← List.head?_filter]
  refine congrArg _ (List.filter_congr fun x hx => ?_)
  obtain ⟨m, -, rfl⟩ := List.mem_map.mp hx
  have hne : candidate p.path (stampUtc now) m ≠ p.path := by
    intro heq
    have := candidate_rotated (p := p) (stampUtc now) m
    rw [heq, path_not_rotated] at this
    cases this
  simp only [List.contains_eq_mem, ← decide_not]
  exact decide_eq_decide.mpr (not_congr (mem_log_names hne))

theorem rotatedFiles_log : (log p s).rotatedFiles true = s.rotatedFiles p := by
  simp only [RotatingLog.rotatedFiles, if_true, RotatingLog.names, log, rotatedFiles,
    List.filter_map, List.filter_filter]
  refine congrArg _ (List.filter_congr fun f _ => ?_)
  by_cases hpath : f.1 = p.path
  · simp [hpath, path_not_rotated]
  · simp [hpath]

theorem prune_log : (log p s).prune true = log p (s.prune p true []) := by
  rw [RotatingLog.prune, prune]
  cases hkeep : p.keep with
  | none => simp only [log, hkeep]
  | some k =>
      have hkeep' : (log p s).keep = some k := hkeep
      simp only [hkeep', rotatedFiles_log, if_true, stays_eq, List.not_mem_nil, or_false]
      split
      · rfl
      · simp only [log, List.filter_filter, hkeep]
        congr 1
        exact List.filter_congr fun f _ => Bool.and_comm _ _

/-- A rotation that goes through is a rotation as retention knows it. -/
theorem rotate_log (h : Inv p n live s) (ha : Attached p s)
    (htarget : s.target p c.stamped ≠ none) :
    (log p s).rotate { now := c.stamped, listed := true }
      = some (log p (s.rotate p c (.ok true []))) := by
  obtain ⟨x, hx⟩ := Option.ne_none_iff_exists'.mp htarget
  obtain ⟨i, hi⟩ : ∃ i, s.names.lookup p.path = some i :=
    Option.ne_none_iff_exists'.mp fun hnone => lookup_eq_none_iff.mp hnone ha
  obtain ⟨-, hprefix⟩ := target_spec hx
  have hnewest := (h.newest i ((lookup_eq_some_iff h.names).mp hi)).2
  have hne : x ≠ p.path := by
    rintro rfl
    rw [path_not_rotated] at hprefix
    cases hprefix
  have hok : s.rotate p c (.ok true [])
      = ((s.rename p x i).create p c.opened).prune p true [] := by
    simp only [rotate, hx, hi]
  rw [RotatingLog.rotate, target_log, hx, Option.map_some, hok, ← prune_log]
  congr 2
  simp only [RotatingLog.rename, log, create, rename, List.filter_append, List.filter_filter]
  congr 1
  · have hlast : s.files.length - 1 = i := by omega
    simp only [List.filter_cons, hne, hlast, List.filter_nil, ne_eq, not_false_eq_true,
      decide_true, if_true, not_true_eq_false, decide_false, Bool.false_eq_true, if_false,
      List.append_nil]
    congr 1
    exact List.filter_congr fun f _ => by simp
  · simp
    omega

/-- What a write appends is not seen. -/
theorem log_writeLine : log p (s.writeLine p inner buf c io out)
    = log p (if shouldRotate p inner buf.length c.checked then s.rotate p c io else s) := by
  unfold writeLine
  generalize (if shouldRotate p inner buf.length c.checked then s.rotate p c io else s) = u
  cases out with
  | none => rfl
  | some m =>
      cases hinner : u.inner with
      | none => simp only [hinner]
      | some inner => simp only [hinner, log, append, List.length_modify]

/-- The time a rotation would be stamped with. -/
def Event.stamped : Event → Option Int
  | .write _ c _ _ => some c.stamped
  | _ => none

/-- **The sink refines its retention**: along writes, kills and restarts, and as long as rotations
go through, the rotated files are those that bare rotations would leave, at some of the times at
which lines were written, in their order. -/
theorem rotations_refine (p : Policy) {siblings : List (Name × List Nat)}
    (live : Option (List Nat)) (hapart : Apart p siblings) {es fs : List Event} {b : Nat}
    {s t : Sink} (hs : Lib.run (Sink.step p) (found p siblings live) es = some s)
    (ha : Attached p s) (hok : Meets (Sink.step p) (Completes p b) s fs)
    (ht : Lib.run (Sink.step p) s fs = some t) :
    ∃ ts : List Int, ts.Sublist (fs.filterMap Event.stamped)
      ∧ Lib.run RotatingLog.rotate (log p s) (ts.map fun now => { now, listed := true })
        = some (log p t) := by
  have h : Inv p siblings.length live s := Inv.run hapart hs
  clear hs
  -- on the events: only a write that is due moves the rotated files
  induction fs generalizing s with
  | nil =>
      cases ht
      exact ⟨[], List.nil_sublist _, rfl⟩
  | cons e fs ih =>
      obtain ⟨u, hu, hrest⟩ := run_cons.mp ht
      have hnext := hok.2 u hu
      have hinv := h.step hu
      cases e with
      | «open» measured now =>
          have hattached := (attached_open hu).1
          rw [Sink.step] at hu
          split at hu
          · cases hu
            obtain ⟨i, hi⟩ : ∃ i, s.names.lookup p.path = some i :=
              Option.ne_none_iff_exists'.mp fun hnone => lookup_eq_none_iff.mp hnone ha
            have hsame : log p (s.open p measured now) = log p s := by
              simp only [Sink.open, hi, log]
            obtain ⟨ts, hts, hrun⟩ := ih hattached hnext hrest hinv
            exact ⟨ts, hts, hsame ▸ hrun⟩
          · cases hu
      | kill =>
          obtain ⟨inner, -, rfl⟩ := Option.map_eq_some_iff.mp hu
          exact ih (s := { s with inner := none }) ha hnext hrest hinv
      | write buf c io out =>
          have hattached : Attached p u := by
            refine (attached_step_iff h (e := .write buf c io out) True.intro hu).mpr
              ⟨ha, fun inner hinner hdue _ => ?_⟩
            rw [(hok.1.2 inner hinner hdue).2]
            exact fun h => by cases h
          obtain ⟨inner, hinner, rfl⟩ := Option.map_eq_some_iff.mp hu
          obtain ⟨ts, hts, hrun⟩ := ih hattached hnext hrest hinv
          rw [log_writeLine] at hrun
          cases hdue : shouldRotate p inner buf.length c.checked with
          | false =>
              rw [hdue, if_neg Bool.false_ne_true] at hrun
              exact ⟨ts, hts.trans (List.sublist_cons_self _ _), hrun⟩
          | true =>
              obtain ⟨htarget, rfl⟩ := hok.1.2 inner hinner hdue
              rw [hdue, if_pos rfl] at hrun
              refine ⟨c.stamped :: ts, hts.cons_cons _, ?_⟩
              exact run_cons.mpr ⟨_, rotate_log h ha htarget, hrun⟩

theorem rotations_refine_through :
    ∃ (s t : Sink) (ts : List Int),
      Lib.run (Sink.step shortLog) (found shortLog foreign (some [0])) [.open true 0] = some s
      ∧ Lib.run (Sink.step shortLog) s through = some t
      ∧ ts.Sublist (through.filterMap Event.stamped)
      ∧ Lib.run RotatingLog.rotate (log shortLog s) (ts.map fun now => { now, listed := true })
        = some (log shortLog t) := by
  have hopen : (Lib.run (Sink.step shortLog) (found shortLog foreign (some [0]))
      [.open true 0]).isSome = true := by decide +kernel
  obtain ⟨s, hs⟩ := Option.isSome_iff_exists.mp hopen
  have hall : Option.all (fun s => decide (shortLog.path ∈ s.names.map Prod.fst)
      && decide (Meets (Sink.step shortLog) (Completes shortLog 4) s through)
      && (Lib.run (Sink.step shortLog) s through).isSome)
      (Lib.run (Sink.step shortLog) (found shortLog foreign (some [0])) [.open true 0]) = true := by
    decide +kernel
  rw [hs, Option.all_some, Bool.and_eq_true, Bool.and_eq_true] at hall
  obtain ⟨⟨hattached, hok⟩, hrun⟩ := hall
  obtain ⟨t, ht⟩ := Option.isSome_iff_exists.mp hrun
  obtain ⟨ts, hts, hrotations⟩ := rotations_refine shortLog (some [0]) (b := 4)
    (by decide +kernel) hs (of_decide_eq_true hattached) (of_decide_eq_true hok) ht
  exact ⟨s, t, ts, hs, ht, hts, hrotations⟩

end Sink

end Tributary.LogFile
