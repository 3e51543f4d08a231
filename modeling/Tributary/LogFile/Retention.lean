import Mathlib.Data.List.GetD
import Mathlib.Data.List.Sort
import Tributary.Lib.Run
import Tributary.LogFile.Stamp

/-!
# Retention of rotated logs

A rotation renames the live log to a name made of the time and, where that name is taken, of
the first counter that is free. Which files are the oldest is read off the names alone.
-/

namespace Tributary.LogFile

open Lib

/-! ## The log -/

/-- A file name, as its bytes. -/
abbrev Name := List Nat

structure RotatingLog where
  /-- the name of the live log -/
  name : Name
  keep : Option Nat
  /-- the files beside it, each with the number of the log that it was -/
  dir : List (Name × Nat)
  /-- the rotations so far, and so the number of the live log -/
  rotated : Nat
deriving DecidableEq, Repr

/-- What a rotation meets. -/
structure Rotation where
  now : Int
  /-- whether the directory can be listed; that of a bare file name, the empty path, never can -/
  listed : Bool
deriving DecidableEq, Repr

/-- `{name}.{stamp}`, or `{name}.{stamp}.{n}`. -/
def candidate (name stamp : Name) (n : Nat) : Name :=
  if n = 0 then name ++ 46 :: stamp else name ++ 46 :: stamp ++ 46 :: Decimal.zeroPad 1 n

namespace RotatingLog

def opened (name : Name) (keep : Option Nat) : RotatingLog :=
  { name, keep, dir := [], rotated := 0 }

def names (l : RotatingLog) : List Name := l.dir.map Prod.fst

/-- The first name that is free, or `none` when all up to the thousandth counter are taken. -/
def target (l : RotatingLog) (now : Int) : Option Name :=
  ((List.range 1001).map (candidate l.name (stampUtc now))).find? (· ∉ l.names)

/-- Every rotated sibling of the live file, by name, or none where they cannot be listed. -/
def rotatedFiles (l : RotatingLog) (listed : Bool) : List Name :=
  if listed then l.names.filter fun n => (l.name ++ [46]).isPrefixOf n else []

/-- Delete the first files by name beyond `keep`. -/
def prune (l : RotatingLog) (listed : Bool) : RotatingLog :=
  match l.keep with
  | none => l
  | some keep =>
      let rotated := l.rotatedFiles listed
      if rotated.length ≤ keep then l
      else
        let excess := rotated.length - keep
        let gone := (rotated.insertionSort (· ≤ ·)).take excess
        { l with dir := l.dir.filter fun f => f.1 ∉ gone }

/-- The live log renamed to `target`; a file of that name is overwritten. -/
def rename (l : RotatingLog) (target : Name) : RotatingLog :=
  { l with
    dir := (l.dir.filter fun f => f.1 ≠ target) ++ [(target, l.rotated)]
    rotated := l.rotated + 1 }

/-- A rotation, or `none` where no name is free and the log goes on in its file. -/
def rotate (l : RotatingLog) (r : Rotation) : Option RotatingLog :=
  (l.target r.now).map fun target => (l.rename target).prune r.listed

end RotatingLog

open RotatingLog

/-! ## What is to be kept -/

/-- The files are the logs of the last `k` rotations. -/
def Newest (k : Nat) (l : RotatingLog) : Prop :=
  ∀ i, i ∈ l.dir.map Prod.snd ↔ l.rotated - k ≤ i ∧ i < l.rotated

/-- Along these rotations no file is overwritten, and after each of them the newest files are
there. -/
structure KeepsNewest (k : Nat) (log : RotatingLog) (rs : List Rotation) : Prop where
  fresh : ∀ pre r post l t, rs = pre ++ r :: post → run rotate log pre = some l →
    l.target r.now = some t → t ∉ l.names
  newest : ∀ pre post l, rs = pre ++ post → run rotate log pre = some l → Newest k l

/-- The names that rotations under these stamps would get if no name were ever free again. -/
def labels (name : Name) (ss : List Name) : List Name :=
  (List.range ss.length).map fun n =>
    candidate name (ss.getD n []) ((ss.take n).count (ss.getD n []))

/-- A rotation under the stamp `s` fits behind those under `ss`: it is not more than the `k`-th
to share its stamp with another before it, and if a file has to go, the oldest of the last
`k + 1` has the first name among them. -/
structure FitsBehind (k : Nat) (name : Name) (ss : List Name) (s : Name) : Prop where
  burst : ss.count s ≤ k
  oldest : k ≤ ss.length → ∀ o rest,
    (labels name (ss ++ [s])).drop (ss.length - k) = o :: rest → ∀ x ∈ rest, o < x

/-- Every rotation fits behind those before it. -/
def Orderly (k : Nat) (name : Name) (ss : List Name) : Prop :=
  ∀ pre s post, ss = pre ++ s :: post → FitsBehind k name pre s

/-- From the first on that has a file too many, the rotations can list the directory. -/
def Lists (k : Nat) (rs : List Rotation) : Prop := ∀ r ∈ rs.drop k, r.listed = true

instance (k : Nat) (rs : List Rotation) : Decidable (Lists k rs) :=
  inferInstanceAs (Decidable (∀ r ∈ rs.drop k, r.listed = true))

/-- The stamps of rotations. -/
def stamps (rs : List Rotation) : List Name := rs.map fun r => stampUtc r.now

/-! ## Names -/

variable {name s : Name} {ss pre : List Name} {k n m j : Nat} {l l' : RotatingLog} {now : Int}
  {r : Rotation} {rs : List Rotation} {listed : Bool}

theorem candidate_zero_lt (hn : n ≠ 0) : candidate name s 0 < candidate name s n := by
  rw [candidate, candidate, if_pos rfl, if_neg hn]
  conv_lhs => rw [← List.append_nil (name ++ 46 :: s)]
  exact List.append_left_lt (List.nil_lt_cons _ _)

theorem dot_notMem_zeroPad {w n : Nat} : 46 ∉ Decimal.zeroPad w n := by
  intro h
  obtain ⟨d, -, hd⟩ := List.mem_map.mp h
  simp only [Decimal.code] at hd
  omega

theorem dot_notMem_stampUtc (t : Int) : 46 ∉ stampUtc t := by
  simp [stampUtc, stampOf, dot_notMem_zeroPad]

/-- What stands before the first dot is told from what stands behind it. -/
theorem append_dot_inj {s t a b : Name} (hs : 46 ∉ s) (ht : 46 ∉ t)
    (h : s ++ a = t ++ b) (ha : a = [] ∨ a.head? = some 46) (hb : b = [] ∨ b.head? = some 46) :
    s = t ∧ a = b := by
  rcases List.append_eq_append_iff.mp h with ⟨c, rfl, rfl⟩ | ⟨c, rfl, rfl⟩
  · cases c with
    | nil => simp
    | cons x c =>
        rcases ha with ha | ha
        · cases ha
        · obtain rfl : x = 46 := by simpa using ha
          simp at ht
  · cases c with
    | nil => simp
    | cons x c =>
        rcases hb with hb | hb
        · cases hb
        · obtain rfl : x = 46 := by simpa using hb
          simp at hs

theorem candidate_inj {s t : Name} (hs : 46 ∉ s) (ht : 46 ∉ t)
    (h : candidate name s n = candidate name t m) : s = t ∧ n = m := by
  have hform : ∀ (u : Name) (i : Nat), candidate name u i
      = name ++ 46 :: (u ++ if i = 0 then [] else 46 :: Decimal.zeroPad 1 i) := by
    intro u i
    unfold candidate
    split <;> simp
  rw [hform, hform] at h
  have htail := (List.cons.inj (List.append_cancel_left h)).2
  obtain ⟨hst, hnm⟩ := append_dot_inj hs ht htail (by split <;> simp) (by split <;> simp)
  refine ⟨hst, ?_⟩
  by_cases hn : n = 0 <;> by_cases hm : m = 0 <;> simp only [hn, hm, if_true, if_false] at hnm ⊢
  · cases hnm
  · cases hnm
  · exact Decimal.zeroPad_inj (List.cons.inj hnm).2

theorem labels_concat (name : Name) (ss : List Name) (s : Name) :
    labels name (ss ++ [s]) = labels name ss ++ [candidate name s (ss.count s)] := by
  unfold labels
  rw [List.length_append, List.length_singleton, List.range_succ, List.map_append]
  congr 1
  · refine List.map_congr_left fun n hn => ?_
    have hlt := List.mem_range.mp hn
    rw [List.getD_append _ _ _ _ hlt, List.take_append_of_le_length hlt.le]
  · simp

@[simp] theorem length_labels (name : Name) (ss : List Name) :
    (labels name ss).length = ss.length := by
  simp [labels]

/-- A burst of rotations counts up. -/
theorem labels_burst (hs : s ∉ pre) (j : Nat) :
    labels name (pre ++ List.replicate j s)
      = labels name pre ++ (List.range j).map (candidate name s) := by
  induction j with
  | zero => simp
  | succ j ih =>
      rw [List.replicate_succ', ← List.append_assoc, labels_concat, ih, List.range_succ,
        List.map_append, List.append_assoc]
      simp [List.count_append, List.count_eq_zero_of_not_mem hs]

/-- A label is a candidate under a stamp of the list. -/
theorem exists_of_mem_labels {x : Name} (h : x ∈ labels name ss) :
    ∃ s ∈ ss, ∃ n, x = candidate name s n := by
  obtain ⟨n, hn, rfl⟩ := List.mem_map.mp h
  have hlt := List.mem_range.mp hn
  rw [List.getD_eq_getElem _ _ hlt]
  exact ⟨_, List.getElem_mem hlt, _, rfl⟩

/-! ## The clock -/

/-- On a clock that does not go back the rotations under a stamp come last. -/
theorem exists_burst {ts : List Int} {now : Int} (hclock : (ts ++ [now]).Pairwise (· ≤ ·)) :
    ∃ pre j, ts.map stampUtc = pre ++ List.replicate j (stampUtc now) ∧ stampUtc now ∉ pre := by
  induction ts using List.reverseRecOn with
  | nil => exact ⟨[], 0, rfl, List.not_mem_nil⟩
  | append_singleton ts u ih =>
      by_cases hu : stampUtc u = stampUtc now
      · have hsub : (ts ++ [now]).Sublist (ts ++ [u] ++ [now]) :=
          (List.sublist_append_left ts [u]).append_right [now]
        obtain ⟨pre, j, hts, hpre⟩ := ih (hclock.sublist hsub)
        refine ⟨pre, j + 1, ?_, hpre⟩
        rw [List.map_append, hts, List.replicate_succ', List.map_singleton, hu, List.append_assoc]
      · refine ⟨(ts ++ [u]).map stampUtc, 0, by simp, fun hmem => ?_⟩
        obtain ⟨v, hv, hsame⟩ := List.mem_map.mp hmem
        obtain ⟨hbefore, -, hnow⟩ := List.pairwise_append.mp hclock
        have hun : u ≤ now := hnow u (by simp) now (by simp)
        have hvu : v ≤ u := by
          rcases List.mem_append.mp hv with hv | hv
          · exact (List.pairwise_append.mp hbefore).2.2 v hv u (by simp)
          · exact (List.mem_singleton.mp hv).le
        -- a rotation between two of one second is in that second
        have hfirst := asSecs_mono hvu
        have hlast := asSecs_mono hun
        rw [asSecs_eq_of_stampUtc hsame] at hfirst
        exact hu (stampUtc_eq_iff.mpr (Int.le_antisymm hlast hfirst))

/-! ## One rotation -/

theorem target_eq_some_iff {t : Name} : l.target now = some t ↔
    ∃ i < 1001, t = candidate l.name (stampUtc now) i ∧ t ∉ l.names ∧
      ∀ m < i, candidate l.name (stampUtc now) m ∈ l.names := by
  rw [target, List.find?_map, Option.map_eq_some_iff]
  constructor
  · rintro ⟨i, hi, rfl⟩
    obtain ⟨hfree, hlt, htaken⟩ := List.find?_range_eq_some.mp hi
    exact ⟨i, List.mem_range.mp hlt, rfl, by simpa using hfree, by simpa using htaken⟩
  · rintro ⟨i, hlt, rfl, hfree, htaken⟩
    exact ⟨i, List.find?_range_eq_some.mpr
      ⟨by simpa using hfree, List.mem_range.mpr hlt, by simpa using htaken⟩, rfl⟩

/-- No foreign file stands beside the log. -/
def Own (l : RotatingLog) : Prop := ∀ x ∈ l.names, ∃ s i, x = candidate l.name s i

theorem Own.rotatedFiles (h : Own l) : l.rotatedFiles true = l.names := by
  refine (if_pos rfl).trans (List.filter_eq_self.mpr fun x hx => ?_)
  obtain ⟨s, i, rfl⟩ := h x hx
  rw [List.isPrefixOf_iff_prefix]
  unfold candidate
  split
  · exact ⟨s, by simp⟩
  · exact ⟨s ++ 46 :: Decimal.zeroPad 1 i, by simp⟩

theorem prune_of_le (hkeep : l.keep = some k) (h : l.names.length ≤ k) :
    l.prune listed = l := by
  have hle : (l.rotatedFiles listed).length ≤ k := by
    rw [RotatingLog.rotatedFiles]
    split
    · exact (List.length_filter_le ..).trans h
    · exact Nat.zero_le k
  rw [prune, hkeep]
  exact if_pos hle

/-- What cannot be listed is not pruned. -/
theorem prune_unlisted (l : RotatingLog) : l.prune false = l := by
  rw [prune]
  cases l.keep with
  | none => rfl
  | some k => exact if_pos (Nat.zero_le k)

/-- One file too many: the first by name goes. -/
theorem prune_of_succ (hown : Own l) (hkeep : l.keep = some k) (h : l.names.length = k + 1) :
    ∃ m ∈ l.names, (∀ x ∈ l.names, m ≤ x) ∧
      l.prune true = { l with dir := l.dir.filter fun f => f.1 ≠ m } := by
  have hsorted := List.pairwise_insertionSort (· ≤ ·) l.names
  have hperm := List.perm_insertionSort (· ≤ ·) l.names
  obtain ⟨m, rest, hm⟩ : ∃ m rest, l.names.insertionSort (· ≤ ·) = m :: rest := by
    refine List.exists_cons_of_length_pos ?_
    rw [hperm.length_eq, h]
    exact Nat.succ_pos k
  rw [hm] at hsorted hperm
  refine ⟨m, hperm.mem_iff.mp (List.mem_cons_self ..), fun x hx => ?_, ?_⟩
  · rcases List.mem_cons.mp (hperm.mem_iff.mpr hx) with rfl | hx
    · exact le_refl _
    · exact (List.pairwise_cons.mp hsorted).1 x hx
  · rw [prune, hkeep]
    simp only [hown.rotatedFiles]
    rw [if_neg (by omega), h, Nat.add_sub_cancel_left, hm]
    simp

theorem rename_dir {t : Name} (h : t ∉ l.names) :
    (l.rename t).dir = l.dir ++ [(t, l.rotated)] := by
  rw [rename]
  simp only
  congr 1
  refine List.filter_eq_self.mpr fun f hf => decide_eq_true fun heq => h ?_
  exact heq ▸ List.mem_map_of_mem hf

/-! ## While names and ages agree -/

/-- The files are those of the last `k` labels. -/
structure Labelled (k : Nat) (name : Name) (ss : List Name) (l : RotatingLog) : Prop where
  base : l.name = name
  keep : l.keep = some k
  rotated : l.rotated = ss.length
  nodup : l.names.Nodup
  dir : l.dir = (labels name ss).zipIdx.drop (ss.length - k)

theorem Labelled.names (h : Labelled k name ss l) :
    l.names = (labels name ss).drop (ss.length - k) := by
  rw [RotatingLog.names, h.dir, List.map_drop, List.zipIdx_map_fst]

theorem Labelled.newest (h : Labelled k name ss l) : Newest k l := by
  intro i
  rw [h.dir, h.rotated, List.map_drop, List.zipIdx_map_snd, length_labels, List.drop_range',
    List.mem_range'_1]
  omega

theorem Labelled.own (h : Labelled k name ss l) : Own l := by
  intro x hx
  rw [h.names] at hx
  obtain ⟨s, -, i, rfl⟩ := exists_of_mem_labels (List.mem_of_mem_drop hx)
  exact ⟨s, i, by rw [h.base]⟩

/-- No stamp holds a dot. -/
def Dotless (ss : List Name) : Prop := ∀ s ∈ ss, 46 ∉ s

/-- A burst that is left whole. -/
theorem Labelled.names_short (h : Labelled k name (pre ++ List.replicate j s) l) (hpre : s ∉ pre)
    (hle : j ≤ k) : l.names
      = (labels name pre).drop (pre.length + j - k) ++ (List.range j).map (candidate name s) := by
  rw [h.names, labels_burst hpre, List.length_append, List.length_replicate,
    List.drop_append_of_le_length (by rw [length_labels]; omega)]

/-- A burst longer than what is kept leaves nothing but its own end. -/
theorem Labelled.names_long (h : Labelled k name (pre ++ List.replicate j s) l) (hpre : s ∉ pre)
    (hlt : k < j) : l.names = (List.range' (j - k) k).map (candidate name s) := by
  have hdrop : pre.length + j - k = (labels name pre).length + (j - k) := by
    rw [length_labels]
    omega
  rw [h.names, labels_burst hpre, List.length_append, List.length_replicate, hdrop,
    List.drop_length_add_append, ← List.map_drop, List.range_eq_range', List.drop_range']
  congr 2 <;> omega

theorem candidate_mem_map {s : Name} (hs : 46 ∉ s) {is : List Nat} {i : Nat} :
    candidate name s i ∈ is.map (candidate name s) ↔ i ∈ is := by
  refine ⟨fun h => ?_, List.mem_map_of_mem⟩
  obtain ⟨m, hm, heq⟩ := List.mem_map.mp h
  rwa [← (candidate_inj hs hs heq).2]

/-- The counters of a burst, as the names that are left tell them. -/
theorem Labelled.mem_names (h : Labelled k name (pre ++ List.replicate j s) l) (hpre : s ∉ pre)
    (hdot : Dotless pre) (hs : 46 ∉ s) {i : Nat} :
    candidate name s i ∈ l.names ↔ j - k ≤ i ∧ i < j := by
  rcases Nat.lt_or_ge k j with hlt | hle
  · rw [h.names_long hpre hlt, candidate_mem_map hs, List.mem_range'_1]
    omega
  · rw [h.names_short hpre hle, List.mem_append, candidate_mem_map hs, List.mem_range]
    constructor
    · rintro (hold | hnew)
      · obtain ⟨t, ht, m, heq⟩ := exists_of_mem_labels (List.mem_of_mem_drop hold)
        rw [(candidate_inj hs (hdot t ht) heq).1] at hpre
        exact absurd ht hpre
      · omega
    · exact fun hi => .inr hi.2

/-- **The name of a rotation**: the next of its burst, or the first again where the burst has lost
its first file. -/
theorem Labelled.target_eq {t : Name}
    (h : Labelled k name (pre ++ List.replicate j (stampUtc now)) l) (hpre : stampUtc now ∉ pre)
    (hdot : Dotless pre) (ht : l.target now = some t) :
    t ∉ l.names ∧ t = candidate name (stampUtc now) (if j ≤ k then j else 0) := by
  obtain ⟨i, -, rfl, hfree, htaken⟩ := target_eq_some_iff.mp ht
  refine ⟨hfree, ?_⟩
  have hmem := fun m => h.mem_names (i := m) hpre hdot (dot_notMem_stampUtc now)
  rw [h.base] at hfree htaken ⊢
  rw [hmem] at hfree
  refine congrArg (candidate name (stampUtc now)) ?_
  split
  · rename_i hle
    by_contra hne
    have := (hmem j).mp (htaken j (by omega))
    omega
  · rename_i hlt
    by_contra hne
    have := (hmem 0).mp (htaken 0 (by omega))
    omega

theorem names_rename {t : Name} (h : t ∉ l.names) : (l.rename t).names = l.names ++ [t] := by
  rw [RotatingLog.names, rename_dir h, List.map_append]
  rfl

theorem nodup_rename {t : Name} (h : t ∉ l.names) (hnodup : l.names.Nodup) :
    (l.rename t).names.Nodup := by
  rw [names_rename h]
  exact List.nodup_append.mpr ⟨hnodup, List.nodup_singleton t, by
    rintro x hx y hy rfl
    exact h (List.mem_singleton.mp hy ▸ hx)⟩

theorem Labelled.own_rename {t : Name} (h : Labelled k name ss l) (hfree : t ∉ l.names) {i : Nat}
    (ht : t = candidate name s i) : Own (l.rename t) := by
  intro x hx
  rw [names_rename hfree] at hx
  rcases List.mem_append.mp hx with hx | hx
  · exact h.own x hx
  · exact ⟨s, i, by rw [List.mem_singleton.mp hx, ht, ← h.base]; rfl⟩

/-- Of one file too many the oldest goes exactly when it has the first name. -/
theorem prune_oldest {o : Name} {id : Nat} {files : List (Name × Nat)} (hown : Own l)
    (hkeep : l.keep = some k) (hdir : l.dir = (o, id) :: files) (hlength : files.length = k)
    (hnodup : l.names.Nodup) :
    ((o, id) ∉ (l.prune true).dir → ∀ x ∈ files.map Prod.fst, o < x) ∧
      ((∀ x ∈ files.map Prod.fst, o < x) → l.prune true = { l with dir := files }) := by
  have hnames : l.names = o :: files.map Prod.fst := by
    rw [RotatingLog.names, hdir]
    rfl
  obtain ⟨m, hm, hmin, hprune⟩ := prune_of_succ (k := k) hown hkeep (by
    rw [hnames, List.length_cons, List.length_map, hlength])
  rw [hnames] at hm hmin hnodup
  obtain ⟨hnot, -⟩ := List.nodup_cons.mp hnodup
  constructor
  · intro hgone x hx
    have hmo : o = m := by
      by_contra hne
      refine hgone ?_
      rw [hprune]
      simp only [hdir]
      exact List.mem_filter.mpr ⟨List.mem_cons_self .., by simpa using hne⟩
    refine lt_of_le_of_ne (hmo ▸ hmin x (List.mem_cons_of_mem _ hx)) fun heq => hnot ?_
    exact heq ▸ hx
  · intro hfirst
    have hmo : m = o := by
      rcases List.mem_cons.mp hm with hmo | hm
      · exact hmo
      · exact absurd (hfirst m hm) (not_lt.mpr (hmin o (List.mem_cons_self ..)))
    rw [hprune, hdir, hmo, List.filter_cons_of_neg (by simp), List.filter_eq_self.mpr]
    exact fun f hf => decide_eq_true fun heq => hnot (heq ▸ List.mem_map_of_mem hf)

/-- The directory after a rename into the next label. -/
theorem Labelled.dir_rename {t : Name} (h : Labelled k name ss l) (hfree : t ∉ l.names)
    (hlabel : labels name (ss ++ [s]) = labels name ss ++ [t]) :
    (l.rename t).dir = (labels name (ss ++ [s])).zipIdx.drop (ss.length - k) := by
  rw [rename_dir hfree, h.dir, hlabel, List.zipIdx_append,
    List.drop_append_of_le_length (by simp), h.rotated]
  simp

/-- A rotation into the next name of its burst goes on with the labels, and the newest files are
kept exactly when the oldest name is the first. -/
theorem Labelled.rotate_short {t : Name} (h : Labelled k name ss l) (hfree : t ∉ l.names)
    (hlabel : labels name (ss ++ [s]) = labels name ss ++ [t]) {i : Nat}
    (ht : t = candidate name s i) :
    (Newest k ((l.rename t).prune true) ↔ (k ≤ ss.length → ∀ o rest,
        (labels name (ss ++ [s])).drop (ss.length - k) = o :: rest → ∀ x ∈ rest, o < x)) ∧
      (Newest k ((l.rename t).prune true) →
        Labelled k name (ss ++ [s]) ((l.rename t).prune true)) := by
  have hdir := h.dir_rename hfree hlabel
  have hnames : (l.rename t).names = (labels name (ss ++ [s])).drop (ss.length - k) := by
    rw [RotatingLog.names, hdir, List.map_drop, List.zipIdx_map_fst]
  have hown := h.own_rename hfree ht
  have hnodup := nodup_rename hfree h.nodup
  have hrotated : (l.rename t).rotated = ss.length + 1 := congrArg (· + 1) h.rotated
  have hlabelled : (l.rename t).prune true = { l.rename t with
        dir := (labels name (ss ++ [s])).zipIdx.drop (ss.length + 1 - k) } →
      Labelled k name (ss ++ [s]) ((l.rename t).prune true) := by
    intro hprune
    rw [hprune]
    refine ⟨h.base, h.keep, ?_, ?_, ?_⟩
    · rw [List.length_append]
      exact hrotated
    · rw [RotatingLog.names, List.map_drop, List.zipIdx_map_fst]
      rw [hnames] at hnodup
      exact hnodup.sublist (List.drop_sublist_drop_left _ (by omega))
    · rw [List.length_append]
      rfl
  by_cases hfull : k ≤ ss.length
  · have hlt : ss.length - k < (labels name (ss ++ [s])).length := by simp
    have hcons : (labels name (ss ++ [s])).zipIdx.drop (ss.length - k)
        = ((labels name (ss ++ [s]))[ss.length - k], ss.length - k)
          :: (labels name (ss ++ [s])).zipIdx.drop (ss.length + 1 - k) := by
      rw [List.drop_eq_getElem_cons (by simp), List.getElem_zipIdx, Nat.zero_add]
      congr 2
      omega
    rw [hcons] at hdir
    obtain ⟨hgone, hkept⟩ := prune_oldest (k := k) hown h.keep hdir (by simp; omega) hnodup
    have hfirst : Newest k ((l.rename t).prune true) → _ := fun hnewest => hgone fun hmem => by
      have hid := (hnewest (ss.length - k)).mp (List.mem_map_of_mem hmem)
      have hrotated' : ((l.rename t).prune true).rotated = (l.rename t).rotated := by
        unfold prune
        split <;> [rfl; (simp only; split <;> rfl)]
      omega
    have hrest : ∀ o rest, (labels name (ss ++ [s])).drop (ss.length - k) = o :: rest →
        o = (labels name (ss ++ [s]))[ss.length - k] ∧
          rest = ((labels name (ss ++ [s])).zipIdx.drop (ss.length + 1 - k)).map Prod.fst := by
      intro o rest hdrop
      rw [← hnames, RotatingLog.names, hdir] at hdrop
      exact ⟨(List.cons.inj hdrop).1.symm, (List.cons.inj hdrop).2.symm⟩
    refine ⟨⟨fun hnewest _ o rest hdrop => ?_, fun hfits => ?_⟩, fun hnewest =>
      hlabelled (hkept (hfirst hnewest))⟩
    · obtain ⟨rfl, rfl⟩ := hrest o rest hdrop
      exact hfirst hnewest
    · refine (hlabelled (hkept (hfits hfull _ _ ?_))).newest
      rw [← hnames, RotatingLog.names, hdir]
      rfl
  · -- there is room
    have hroom : Labelled k name (ss ++ [s]) ((l.rename t).prune true) := by
      refine hlabelled ?_
      rw [prune_of_le (l := l.rename t) (k := k) h.keep (by rw [hnames]; simp; omega)]
      have hdrop : ss.length + 1 - k = ss.length - k := by omega
      rw [hdrop, ← hdir]
    exact ⟨⟨fun _ h => absurd h hfull, fun _ => hroom.newest⟩, fun _ => hroom⟩

/-- A burst that has lost its first file loses the next one it rotates. -/
theorem Labelled.rotate_long (h : Labelled k name (pre ++ List.replicate j s) l) (hk : 0 < k)
    (hpre : s ∉ pre) (hlt : k < j) (hfree : candidate name s 0 ∉ l.names) :
    ¬ Newest k ((l.rename (candidate name s 0)).prune true) := by
  have hlong := h.names_long hpre hlt
  have hown := h.own_rename hfree rfl
  have hlength : (l.rename (candidate name s 0)).names.length = k + 1 := by
    rw [names_rename hfree, hlong]
    simp
  obtain ⟨m, hm, hmin, hprune⟩ := prune_of_succ hown h.keep hlength
  rw [names_rename hfree] at hm hmin
  -- the bare name is the first of all
  have hfirst : m = candidate name s 0 := by
    rcases List.mem_append.mp hm with hm | hm
    · rw [hlong] at hm
      obtain ⟨i, hi, rfl⟩ := List.mem_map.mp hm
      rw [List.mem_range'_1] at hi
      have hle := hmin (candidate name s 0) (by simp)
      exact absurd (candidate_zero_lt (by omega)) (not_lt.mpr hle)
    · exact List.mem_singleton.mp hm
  intro hnewest
  have hnew := (hnewest l.rotated).mpr (by
    rw [hprune]
    simp only [rename]
    omega)
  rw [hprune, rename_dir hfree, hfirst] at hnew
  obtain ⟨f, hf, hid⟩ := List.mem_map.mp hnew
  simp only [List.filter_append, List.mem_append, List.mem_filter, decide_eq_true_eq] at hf
  rcases hf with ⟨hf, -⟩ | ⟨hf, hne⟩
  · have hold := (h.newest f.2).mp (List.mem_map_of_mem hf)
    omega
  · rw [List.mem_singleton.mp hf] at hne
    exact hne rfl

/-! ## Runs -/

/-- A rotation that cannot list the directory leaves a file too many. -/
theorem Labelled.not_newest_rename {t : Name} (h : Labelled k name ss l) (hfree : t ∉ l.names)
    (hfull : k ≤ ss.length) : ¬ Newest k (l.rename t) := by
  intro hnewest
  have hids : (l.rename t).dir.map Prod.snd = l.dir.map Prod.snd ++ [l.rotated] := by
    rw [rename_dir hfree, List.map_append]
    rfl
  have hold := hnewest (ss.length - k)
  have hrotated : (l.rename t).rotated = ss.length + 1 := congrArg (· + 1) h.rotated
  rw [hids, List.mem_append, h.newest, List.mem_singleton, h.rotated, hrotated] at hold
  omega

/-- A rotation that can list the directory keeps the newest files exactly when it fits. -/
theorem Labelled.prune_rename {t : Name} (h : Labelled k name (pre ++ List.replicate j s) l)
    (hk : 0 < k) (hpre : s ∉ pre) (hfree : t ∉ l.names)
    (hname : t = candidate name s (if j ≤ k then j else 0)) :
    (Newest k ((l.rename t).prune true) ↔ FitsBehind k name (pre ++ List.replicate j s) s) ∧
      (Newest k ((l.rename t).prune true) →
        Labelled k name (pre ++ List.replicate j s ++ [s]) ((l.rename t).prune true)) := by
  have hcount : (pre ++ List.replicate j s).count s = j := by
    rw [List.count_append, List.count_eq_zero_of_not_mem hpre, List.count_replicate_self,
      Nat.zero_add]
  by_cases hle : j ≤ k
  · rw [if_pos hle] at hname
    have hlabel := labels_concat name (pre ++ List.replicate j s) s
    rw [hcount, ← hname] at hlabel
    obtain ⟨hiff, hnext⟩ := h.rotate_short hfree hlabel hname
    exact ⟨hiff.trans ⟨fun hold => ⟨hcount.le.trans hle, hold⟩, fun hfits => hfits.oldest⟩,
      hnext⟩
  · rw [if_neg hle] at hname
    rw [hname] at hfree ⊢
    have hlost := h.rotate_long hk hpre (Nat.lt_of_not_le hle) hfree
    refine ⟨⟨fun hnewest => absurd hnewest hlost, fun hfits => ?_⟩, fun hnewest =>
      absurd hnewest hlost⟩
    rw [← hcount] at hle
    exact absurd hfits.burst hle

/-- As long as no file is too many there is nothing to prune. -/
theorem Labelled.prune_room {t : Name} (h : Labelled k name ss l) (hfree : t ∉ l.names)
    (hroom : ss.length < k) : (l.rename t).prune listed = l.rename t := by
  refine prune_of_le h.keep ?_
  rw [names_rename hfree, h.names, List.length_append, List.length_drop, length_labels,
    List.length_singleton]
  omega

/-- What a rotation in a well-ordered log does: it keeps the newest files exactly when it fits, and
can list what it has to prune. -/
theorem Labelled.rotate (h : Labelled k name ss l) (hk : 0 < k) (hdot : Dotless ss)
    (hburst : ∃ pre j, ss = pre ++ List.replicate j (stampUtc r.now) ∧ stampUtc r.now ∉ pre)
    (hl' : l.rotate r = some l') :
    (Newest k l' ↔ (k ≤ ss.length → r.listed = true) ∧ FitsBehind k name ss (stampUtc r.now)) ∧
      (Newest k l' → Labelled k name (ss ++ [stampUtc r.now]) l') := by
  obtain ⟨pre, j, rfl, hpre⟩ := hburst
  obtain ⟨t, ht, rfl⟩ := Option.map_eq_some_iff.mp hl'
  have hdot' : Dotless pre := fun s hs => hdot s (List.mem_append_left _ hs)
  obtain ⟨hfree, hname⟩ := h.target_eq hpre hdot' ht
  obtain ⟨hiff, hnext⟩ := h.prune_rename hk hpre hfree hname
  cases hread : r.listed with
  | true => exact ⟨hiff.trans (and_iff_right fun _ => rfl).symm, hnext⟩
  | false =>
      by_cases hfull : k ≤ (pre ++ List.replicate j (stampUtc r.now)).length
      · have hlost := h.not_newest_rename hfree hfull
        rw [prune_unlisted]
        refine ⟨iff_of_false hlost fun hboth => ?_, fun hnewest => absurd hnewest hlost⟩
        exact Bool.false_ne_true (hboth.1 hfull)
      · have hroom := Nat.lt_of_not_le hfull
        rw [h.prune_room hfree hroom] at hiff hnext ⊢
        exact ⟨hiff.trans (and_iff_right fun hle => absurd hle hfull).symm, hnext⟩

theorem keepsNewest_concat {log : RotatingLog}
    (h : run RotatingLog.rotate log (rs ++ [r]) = some l') :
    KeepsNewest k log (rs ++ [r]) ↔ KeepsNewest k log rs ∧ Newest k l' := by
  constructor
  · intro hall
    refine ⟨⟨?_, ?_⟩, hall.newest _ [] _ (List.append_nil _).symm h⟩
    · rintro pre u post l t rfl hl ht
      exact hall.fresh pre u (post ++ [r]) l t (by simp) hl ht
    · rintro pre post l rfl hl
      exact hall.newest pre (post ++ [r]) l (by simp) hl
  · rintro ⟨hall, hlast⟩
    refine ⟨?_, ?_⟩
    · intro pre u post l t hrs hl ht
      exact (target_eq_some_iff.mp ht).choose_spec.2.2.1
    · intro pre post l hrs hl
      rcases List.eq_nil_or_concat post with rfl | ⟨post, u, rfl⟩
      · rw [List.append_nil] at hrs
        rw [← hrs, h] at hl
        exact Option.some.inj hl ▸ hlast
      · rw [List.concat_eq_append, ← List.append_assoc] at hrs
        exact hall.newest pre post l (List.append_inj' hrs rfl).1 hl

theorem lists_concat : Lists k (rs ++ [r]) ↔ Lists k rs ∧ (k ≤ rs.length → r.listed = true) := by
  rw [Lists, Lists]
  rcases Nat.lt_or_ge rs.length k with hlt | hle
  · rw [List.drop_of_length_le (by simpa using hlt), List.drop_of_length_le hlt.le]
    simp [Nat.not_le.mpr hlt]
  · rw [List.drop_append_of_le_length hle, List.forall_mem_append, List.forall_mem_singleton]
    simp [hle]

theorem orderly_concat :
    Orderly k name (ss ++ [s]) ↔ Orderly k name ss ∧ FitsBehind k name ss s := by
  constructor
  · intro h
    refine ⟨?_, h ss s [] rfl⟩
    rintro pre u post rfl
    exact h pre u (post ++ [s]) (by simp)
  · rintro ⟨h, hlast⟩ pre u post hss
    rcases List.eq_nil_or_concat post with rfl | ⟨post, v, rfl⟩
    · obtain ⟨rfl, hsu⟩ := List.append_inj' hss rfl
      rwa [← (List.cons.inj hsu).1]
    · rw [List.concat_eq_append, ← List.cons_append, ← List.append_assoc] at hss
      exact h pre u post (List.append_inj' hss rfl).1

theorem dotless_stamps (rs : List Rotation) : Dotless (stamps rs) := by
  intro s hs
  obtain ⟨r, -, rfl⟩ := List.mem_map.mp hs
  exact dot_notMem_stampUtc r.now

theorem stamps_concat : stamps (rs ++ [r]) = stamps rs ++ [stampUtc r.now] := List.map_append

theorem keepsNewest_nil : KeepsNewest k (opened name (some k)) [] := by
  constructor
  · intro pre r post l t hrs
    simp at hrs
  · intro pre post l hrs hl
    obtain ⟨rfl, -⟩ := List.append_eq_nil_iff.mp hrs.symm
    obtain rfl := Option.some.inj hl
    intro i
    simp [opened]

theorem labelled_opened : Labelled k name [] (opened name (some k)) :=
  ⟨rfl, rfl, rfl, List.nodup_nil, by simp [opened, labels]⟩

/-- With nothing kept, the one file that was rotated goes at once. -/
theorem prune_only {t : Name} {i : Nat} (hkeep : l.keep = some 0)
    (hone : (l.rename t).dir = [(t, i)]) (ht : ∃ stamp n, t = candidate l.name stamp n) :
    (l.rename t).prune true = { l.rename t with dir := [] } := by
  obtain ⟨stamp, n, ht⟩ := ht
  have hown : Own (l.rename t) := by
    intro x hx
    rw [RotatingLog.names, hone] at hx
    exact ⟨stamp, n, by rw [List.mem_singleton.mp hx, ht]; rfl⟩
  refine (prune_oldest (k := 0) hown hkeep hone rfl ?_).2 fun x hx =>
    absurd hx List.not_mem_nil
  rw [RotatingLog.names, hone]
  exact List.nodup_singleton t

/-- With nothing kept, nothing is left as long as each rotation can list the directory. -/
theorem keepsNewest_empty (h : run RotatingLog.rotate (opened name (some 0)) rs = some l) :
    (KeepsNewest 0 (opened name (some 0)) rs ↔ Lists 0 rs) ∧
      (KeepsNewest 0 (opened name (some 0)) rs →
        l.dir = [] ∧ l.name = name ∧ l.keep = some 0) := by
  induction rs using List.reverseRecOn generalizing l with
  | nil =>
      obtain rfl := Option.some.inj h
      exact ⟨⟨fun _ _ hr => absurd hr List.not_mem_nil, fun _ => keepsNewest_nil⟩,
        fun _ => ⟨rfl, rfl, rfl⟩⟩
  | append_singleton rs r ih =>
      obtain ⟨l₀, hrun, hrotate⟩ := run_concat.mp h
      obtain ⟨hiff, hempty⟩ := ih hrun
      obtain ⟨t, ht, rfl⟩ := Option.map_eq_some_iff.mp hrotate
      obtain ⟨i, -, heq, hfree, -⟩ := target_eq_some_iff.mp ht
      have hone : l₀.dir = [] → (l₀.rename t).dir = [(t, l₀.rotated)] := by
        intro hdir
        rw [rename_dir hfree, hdir]
        rfl
      rw [keepsNewest_concat h, lists_concat, ← hiff]
      cases hread : r.listed with
      | true =>
          refine ⟨and_congr_right fun hkept => ?_, fun hboth => ?_⟩
          · obtain ⟨hdir, -, hkeep⟩ := hempty hkept
            rw [prune_only hkeep (hone hdir) ⟨_, i, heq⟩]
            exact iff_of_true (fun i => by simp) fun _ => rfl
          · obtain ⟨hdir, hname, hkeep⟩ := hempty hboth.1
            rw [prune_only hkeep (hone hdir) ⟨_, i, heq⟩]
            exact ⟨rfl, hname, hkeep⟩
      | false =>
          rw [prune_unlisted]
          have hlost : KeepsNewest 0 (opened name (some 0)) rs → ¬ Newest 0 (l₀.rename t) := by
            intro hkept hnewest
            have hnew := (hnewest l₀.rotated).mp (by simp [hone (hempty hkept).1])
            simp only [RotatingLog.rename] at hnew
            omega
          refine ⟨and_congr_right fun hkept => ?_, fun hboth => absurd hboth.2 (hlost hboth.1)⟩
          exact iff_of_false (hlost hkept) fun hlists =>
            Bool.false_ne_true (hlists (Nat.zero_le _))

/-- As long as every rotation fits, names and ages agree. -/
theorem keepsNewest_labelled (hk : 0 < k) (hclock : (rs.map Rotation.now).Pairwise (· ≤ ·))
    (h : run RotatingLog.rotate (opened name (some k)) rs = some l) :
    (KeepsNewest k (opened name (some k)) rs ↔ Lists k rs ∧ Orderly k name (stamps rs)) ∧
      (KeepsNewest k (opened name (some k)) rs → Labelled k name (stamps rs) l) := by
  induction rs using List.reverseRecOn generalizing l with
  | nil =>
      obtain rfl := Option.some.inj h
      refine ⟨iff_of_true keepsNewest_nil ⟨fun r hr => ?_, fun pre s post hss => ?_⟩,
        fun _ => labelled_opened⟩
      · simp at hr
      · simp [stamps] at hss
  | append_singleton rs r ih =>
      obtain ⟨l₀, hrun, hrotate⟩ := run_concat.mp h
      rw [List.map_append, List.map_singleton] at hclock
      obtain ⟨hiff, hlabelled⟩ := ih (hclock.sublist (List.sublist_append_left ..)) hrun
      have hburst : ∃ pre j, stamps rs = pre ++ List.replicate j (stampUtc r.now)
          ∧ stampUtc r.now ∉ pre := by
        obtain ⟨pre, j, hrs, hpre⟩ := exists_burst hclock
        exact ⟨pre, j, by rw [← hrs, List.map_map]; rfl, hpre⟩
      have hstep := fun hkept : KeepsNewest k (opened name (some k)) rs =>
        (hlabelled hkept).rotate hk (dotless_stamps rs) hburst hrotate
      have hlength : (stamps rs).length = rs.length := List.length_map _
      rw [keepsNewest_concat h, stamps_concat, orderly_concat, lists_concat, and_and_and_comm,
        ← hiff, ← hlength]
      constructor
      · exact and_congr_right fun hkept => (hstep hkept).1
      · exact fun hboth => (hstep hboth.1).2 hboth.2

/-- **The newest files are kept exactly when** each rotation that has a file too many can list the
directory, and every rotation fits, or none is to be kept. -/
theorem newest_kept_iff (name : Name) (k : Nat) {rs : List Rotation} {l : RotatingLog}
    (hclock : (rs.map Rotation.now).Pairwise (· ≤ ·))
    (h : run RotatingLog.rotate (opened name (some k)) rs = some l) :
    KeepsNewest k (opened name (some k)) rs ↔
      Lists k rs ∧ (k = 0 ∨ Orderly k name (stamps rs)) := by
  rcases Nat.eq_zero_or_pos k with rfl | hk
  · rw [(keepsNewest_empty h).1]
    exact (and_iff_left (.inl rfl)).symm
  · rw [(keepsNewest_labelled hk hclock h).1]
    exact and_congr_right fun _ => ⟨.inr, fun hor => hor.resolve_left hk.ne'⟩

def agentLog : Name := "agent.log".toList.map Char.toNat

/-- A log that keeps one file, after rotations at the epoch. -/
def burstLog (rotated : Nat) : RotatingLog :=
  { name := agentLog
    keep := some 1
    dir := [("agent.log.19700101-000000.1".toList.map Char.toNat, 1)]
    rotated }

/-- At the epoch, with a directory that can be listed. -/
def atEpoch : Rotation := { now := 0, listed := true }

/-- A burst of two: the first file is the one without a number, and goes first. -/
theorem orderly_two (name s : Name) : Orderly 1 name [s, s] := by
  have hfirst : Orderly 1 name ([] ++ [s]) := by
    refine orderly_concat.mpr ⟨fun pre u post hss => ?_, by simp, fun hle => ?_⟩
    · simp at hss
    · simp at hle
  have hsecond : Orderly 1 name ([s] ++ [s]) := by
    refine orderly_concat.mpr ⟨hfirst, by simp, fun _ o rest heq x hx => ?_⟩
    have hlabels : labels name [s, s] = [candidate name s 0, candidate name s 1] := by
      simp [labels, List.range_succ]
    have hall : labels name [s, s] = o :: rest := heq
    rw [hlabels] at hall
    obtain ⟨rfl, rfl⟩ := List.cons.inj hall
    rw [List.mem_singleton.mp hx]
    exact candidate_zero_lt Nat.one_ne_zero
  exact hsecond

/-- The second rotation prunes the first file if the directory can be listed, and leaves both if
not. -/
theorem newest_kept_of_two :
    KeepsNewest 1 (opened agentLog (some 1)) [atEpoch, atEpoch]
      ∧ ¬ KeepsNewest 1 (opened agentLog (some 1)) [atEpoch, { atEpoch with listed := false }] := by
  have hburst : run RotatingLog.rotate (opened agentLog (some 1)) [atEpoch, atEpoch]
      = some (burstLog 2) := by decide +kernel
  have hlisted := newest_kept_iff agentLog 1 (by decide) hburst
  have hsome : (run RotatingLog.rotate (opened agentLog (some 1))
      [atEpoch, { atEpoch with listed := false }]).isSome = true := by decide +kernel
  obtain ⟨l, hl⟩ := Option.isSome_iff_exists.mp hsome
  have hunlisted := newest_kept_iff agentLog 1 (by decide) hl
  exact ⟨hlisted.mpr ⟨by decide, .inr (orderly_two agentLog _)⟩,
    fun hkept => absurd (hunlisted.mp hkept).1 (by decide)⟩

/-- The third file goes by the bare name again, and goes before the second. -/
theorem newest_pruned :
    run RotatingLog.rotate (opened agentLog (some 1)) [atEpoch, atEpoch, atEpoch]
        = some (burstLog 3) ∧
      ¬ KeepsNewest 1 (opened agentLog (some 1)) [atEpoch, atEpoch, atEpoch] := by
  have hrun : run RotatingLog.rotate (opened agentLog (some 1)) [atEpoch, atEpoch, atEpoch]
      = some (burstLog 3) := by
    decide +kernel
  refine ⟨hrun, fun h => ?_⟩
  have hlast := (h.newest [atEpoch, atEpoch, atEpoch] [] _ rfl hrun 2).mpr (by decide)
  exact absurd hlast (by decide)

end Tributary.LogFile
