import Tributary.LogFile.Retention

/-!
# The rotating log on its disk

The agent's own log: a handle, the names of the directory and the files behind them. A rotation
renames the live file aside, opens a fresh one and prunes, and each of the three may fail; the
line that set it off is written all the same. A handle keeps its file whatever becomes of the
name.
-/

namespace Tributary.LogFile

open Lib

/-! ## The sink -/

/-- What `open` is given: lengths in bytes and times in nanoseconds. -/
structure Policy where
  path : Name
  sizeLimit : Option Nat
  interval : Option Nat
  keep : Option Nat
deriving DecidableEq, Repr

structure Inner where
  /-- the file behind the handle -/
  file : Nat
  written : Nat
  opened : Int
deriving DecidableEq, Repr

/-- The directory by the numbers of its files, the files in the order in which they were created,
each as the writes that went into it, and the process, if it runs. The names are those that are
UTF-8; no others are looked at. -/
structure Sink where
  names : List (Name × Nat)
  files : List (List (List Nat))
  inner : Option Inner
  /-- all that has been written to the log -/
  writes : List (List Nat)
deriving DecidableEq, Repr

/-- The times that a write reads: to see whether the file is old, for the stamp, and for the
fresh file. -/
structure Clock where
  checked : Int
  stamped : Int
  opened : Int
deriving DecidableEq, Repr

/-- What the file system does to a rotation. -/
inductive RotateIo where
  | renameFails
  | reopenFails
  /-- pruned, if the directory could be `listed`; the `stubborn` files could not be removed -/
  | ok (listed : Bool) (stubborn : List Name)
deriving DecidableEq, Repr

def size (file : List (List Nat)) : Nat := (file.map List.length).sum

namespace Sink

variable (p : Policy)

/-- Would either trigger fire for a write of `next` more bytes? -/
def shouldRotate (inner : Inner) (next : Nat) (now : Int) : Bool :=
  (match p.sizeLimit with
    | some limit => decide (limit < inner.written + next) && decide (0 < inner.written)
    | none => false)
  || (match p.interval with
    -- a clock that has gone back counts as no time
    | some every => decide (every ≤ (now - inner.opened).toNat) && decide (0 < inner.written)
    | none => false)

/-- The first name that is free, or `none` when all up to the thousandth counter are taken. -/
def target (s : Sink) (now : Int) : Option Name :=
  ((List.range 1001).map (candidate p.path (stampUtc now))).find?
    fun x => !(s.names.map Prod.fst).contains x

attribute [irreducible] target

/-- Every rotated sibling of the live file, by name. -/
def rotatedFiles (s : Sink) : List Name :=
  (s.names.map Prod.fst).filter fun n => (p.path ++ [46]).isPrefixOf n

/-- The live file, which is number `i`, renamed to `target`. -/
def rename (s : Sink) (target : Name) (i : Nat) : Sink :=
  { s with names := (s.names.filter fun f => f.1 ≠ target ∧ f.1 ≠ p.path) ++ [(target, i)] }

/-- A fresh live file. -/
def create (s : Sink) (now : Int) : Sink :=
  { s with
    names := s.names ++ [(p.path, s.files.length)]
    files := s.files ++ [[]]
    inner := some { file := s.files.length, written := 0, opened := now } }

/-- `RotatingLog::open`; `measured` says whether the length of the file could be read. -/
def «open» (s : Sink) (measured : Bool) (now : Int) : Sink :=
  match s.names.lookup p.path with
  | some i =>
      let written := if measured then size (s.files.getD i []) else 0
      { s with inner := some { file := i, written, opened := now } }
  | none => s.create p now

/-- Delete the first files by name beyond `keep`. -/
def prune (s : Sink) (listed : Bool) (stubborn : List Name) : Sink :=
  match p.keep with
  | none => s
  | some keep =>
      let rotated := if listed then s.rotatedFiles p else []
      if rotated.length ≤ keep then s
      else
        let excess := rotated.length - keep
        let gone := (rotated.insertionSort (· ≤ ·)).take excess
        { s with names := s.names.filter fun f => !gone.contains f.1 || stubborn.contains f.1 }

def rotate (s : Sink) (c : Clock) (io : RotateIo) : Sink :=
  match s.target p c.stamped, s.names.lookup p.path with
  | some target, some i =>
      match io with
      | .renameFails => s
      | .reopenFails => s.rename p target i
      | .ok listed stubborn => ((s.rename p target i).create p c.opened).prune p listed stubborn
  -- no name is free, or there is nothing to rename
  | _, _ => s

/-- Bytes go to the file behind the handle. -/
def append (s : Sink) (inner : Inner) (bytes : List Nat) : Sink :=
  { s with
    files := s.files.modify inner.file (· ++ [bytes])
    inner := some { inner with written := inner.written + bytes.length }
    writes := s.writes ++ [bytes] }

/-- `write_line`; `out` is how many bytes the write took, or `none` if it failed. -/
def writeLine (s : Sink) (inner : Inner) (buf : List Nat) (c : Clock) (io : RotateIo)
    (out : Option Nat) : Sink :=
  let s := if shouldRotate p inner buf.length c.checked then s.rotate p c io else s
  match out, s.inner with
  | some n, some inner => s.append inner (buf.take n)
  | _, _ => s

/-- A kill inside a write is the write, as far as it came, and then the kill. -/
inductive Event where
  | «open» (measured : Bool) (now : Int)
  | write (buf : List Nat) (c : Clock) (io : RotateIo) (out : Option Nat)
  | kill
deriving DecidableEq, Repr

def step (s : Sink) : Event → Option Sink
  | .open measured now => if s.inner = none then some (s.open p measured now) else none
  | .write buf c io out => s.inner.map fun inner => s.writeLine p inner buf c io out
  | .kill => s.inner.map fun _ => { s with inner := none }

/-- The directory as it was found: other files, and the live file, if there is one, last. -/
def found (siblings : List (Name × List Nat)) (live : Option (List Nat)) : Sink :=
  { names := (siblings.map Prod.fst).zipIdx ++ live.toList.map fun _ => (p.path, siblings.length)
    files := siblings.map (fun f => [f.2]) ++ live.toList.map fun bytes => [bytes]
    inner := none
    writes := [] }

/-! ## Names -/

variable {p} {s t : Sink} {n k i : Nat} {now : Int} {c : Clock} {io : RotateIo}
  {live : Option (List Nat)} {inner : Inner} {buf : List Nat} {out : Option Nat} {measured : Bool}

theorem lookup_eq_none_iff {names : List (Name × Nat)} {x : Name} :
    names.lookup x = none ↔ x ∉ names.map Prod.fst := by
  rw [List.lookup_eq_none_iff]
  constructor
  · intro h hx
    obtain ⟨f, hf, rfl⟩ := List.mem_map.mp hx
    simpa using h f hf
  · intro h f hf
    rw [bne_iff_ne]
    rintro rfl
    exact h (List.mem_map_of_mem hf)

theorem lookup_eq_some_iff {names : List (Name × Nat)} {x : Name}
    (h : (names.map Prod.fst).Nodup) : names.lookup x = some i ↔ (x, i) ∈ names := by
  rw [List.lookup_eq_some_iff]
  constructor
  · rintro ⟨pre, post, rfl, -⟩
    simp
  · intro hmem
    obtain ⟨pre, post, rfl⟩ := List.append_of_mem hmem
    refine ⟨pre, post, rfl, fun f hf => ?_⟩
    rw [bne_iff_ne]
    rintro rfl
    rw [List.map_append, List.nodup_append] at h
    exact h.2.2 _ (List.mem_map_of_mem hf) _ (by simp) rfl

/-- The live file is none of the rotated ones. -/
theorem path_not_rotated : (p.path ++ [46]).isPrefixOf p.path = false := by
  rw [Bool.eq_false_iff]
  intro h
  have hlength := (List.isPrefixOf_iff_prefix.mp h).length_le
  simp at hlength

theorem candidate_rotated (stamp : Name) (n : Nat) :
    (p.path ++ [46]).isPrefixOf (candidate p.path stamp n) = true := by
  rw [List.isPrefixOf_iff_prefix, candidate]
  split
  · exact ⟨stamp, by simp⟩
  · exact ⟨stamp ++ 46 :: Decimal.zeroPad 1 n, by simp⟩

theorem target_spec {x : Name} (h : s.target p now = some x) :
    x ∉ s.names.map Prod.fst ∧ (p.path ++ [46]).isPrefixOf x = true := by
  rw [target] at h
  obtain ⟨m, -, rfl⟩ := List.mem_map.mp (List.mem_of_find?_eq_some h)
  exact ⟨by simpa using List.find?_some h, candidate_rotated _ m⟩

/-! ## What stays -/

/-- Over a directory with `n` other files. The process writes to the newest file, which has a
name; the files hold what was there and what was written, in order; and a file is without a name
only when as many as are to be kept have one. -/
structure Inv (p : Policy) (n : Nat) (live : Option (List Nat)) (s : Sink) : Prop where
  names : (s.names.map Prod.fst).Nodup
  known : ∀ f ∈ s.names, f.2 < s.files.length
  base : n ≤ s.files.length
  newest : ∀ i, (p.path, i) ∈ s.names → n ≤ i ∧ i + 1 = s.files.length
  handle : ∀ inner, s.inner = some inner →
    n ≤ inner.file ∧ inner.file + 1 = s.files.length ∧ ∃ x, (x, inner.file) ∈ s.names
  history : (s.files.drop n).flatten = live.toList ++ s.writes
  named : ∀ i, n ≤ i → i < s.files.length → (∃ x, (x, i) ∈ s.names)
    ∨ ∃ k, p.keep = some k ∧ k ≤ (s.rotatedFiles p).length

theorem rotatedFiles_rename {x : Name} (hx : x ∉ s.names.map Prod.fst)
    (hdotted : (p.path ++ [46]).isPrefixOf x = true) :
    (s.rename p x i).rotatedFiles p = s.rotatedFiles p ++ [x] := by
  rw [rotatedFiles, rotatedFiles, rename, List.map_append, List.filter_append]
  congr 1
  · rw [List.filter_map, List.filter_map, List.filter_filter]
    refine congrArg _ (List.filter_congr fun f hf => ?_)
    have hne : f.1 ≠ x := fun h => hx (h ▸ List.mem_map_of_mem hf)
    have hpath : (p.path ++ [46]).isPrefixOf f.1 = true → f.1 ≠ p.path := by
      intro h heq
      rw [heq, path_not_rotated] at h
      cases h
    cases hpre : (p.path ++ [46]).isPrefixOf f.1 with
    | false => simp [hpre]
    | true => simp [hpre, hne, hpath hpre]
  · simp [hdotted]

@[simp] theorem rotatedFiles_create : (s.create p now).rotatedFiles p = s.rotatedFiles p := by
  simp [rotatedFiles, create, path_not_rotated]

theorem Inv.rename (h : Inv p n live s) {x : Name} (hx : x ∉ s.names.map Prod.fst)
    (hdotted : (p.path ++ [46]).isPrefixOf x = true) (hi : (p.path, i) ∈ s.names) :
    Inv p n live (s.rename p x i) where
  names := by
    rw [Sink.rename, List.map_append]
    refine List.nodup_append.mpr
      ⟨h.names.sublist (List.filter_sublist.map _), List.nodup_singleton _, ?_⟩
    rintro y hy z hz rfl
    obtain rfl := List.mem_singleton.mp hz
    obtain ⟨f, hf, rfl⟩ := List.mem_map.mp hy
    exact hx (List.mem_map_of_mem (List.mem_of_mem_filter hf))
  known := by
    intro f hf
    rcases List.mem_append.mp hf with hf | hf
    · exact h.known f (List.mem_of_mem_filter hf)
    · rw [List.mem_singleton.mp hf]
      exact h.known (p.path, i) hi
  base := h.base
  newest := by
    intro j hj
    rcases List.mem_append.mp hj with hj | hj
    · simpa using (List.mem_filter.mp hj).2
    · obtain ⟨hpath, -⟩ := Prod.mk.inj (List.mem_singleton.mp hj)
      rw [← hpath, path_not_rotated] at hdotted
      cases hdotted
  handle := by
    intro inner hinner
    obtain ⟨hle, hlast, -⟩ := h.handle inner hinner
    have hsame : inner.file = i := by
      have := (h.newest i hi).2
      omega
    exact ⟨hle, hlast, x, List.mem_append_right _ (by simp [hsame])⟩
  history := h.history
  named := by
    intro j hle hlt
    refine (h.named j hle hlt).imp ?_ ?_
    · rintro ⟨y, hy⟩
      by_cases hpath : y = p.path
      · subst hpath
        have hsame : j = i := by
          have := (h.newest i hi).2
          have := (h.newest j hy).2
          omega
        exact ⟨x, List.mem_append_right _ (by simp [hsame])⟩
      · refine ⟨y, List.mem_append_left _ (List.mem_filter.mpr ⟨hy, ?_⟩)⟩
        have hne : y ≠ x := fun heq => hx (heq ▸ List.mem_map_of_mem hy)
        simp [hpath, hne]
    · rintro ⟨k, hk, hle⟩
      rw [rotatedFiles_rename hx hdotted, List.length_append]
      exact ⟨k, hk, by omega⟩

theorem path_not_mem_rename {x : Name} (hdotted : (p.path ++ [46]).isPrefixOf x = true) :
    p.path ∉ (s.rename p x i).names.map Prod.fst := by
  intro h
  rw [Sink.rename, List.map_append, List.mem_append] at h
  rcases h with h | h
  · obtain ⟨f, hf, hpath⟩ := List.mem_map.mp h
    have := (List.mem_filter.mp hf).2
    simp [hpath] at this
  · obtain rfl : p.path = x := by simpa using h
    rw [path_not_rotated] at hdotted
    cases hdotted

theorem Inv.create (h : Inv p n live s) (hpath : p.path ∉ s.names.map Prod.fst) :
    Inv p n live (s.create p now) where
  names := by
    rw [Sink.create, List.map_append]
    refine List.nodup_append.mpr ⟨h.names, List.nodup_singleton _, ?_⟩
    rintro y hy z hz rfl
    rw [List.mem_singleton.mp hz] at hy
    exact hpath hy
  known := by
    intro f hf
    rw [Sink.create, List.length_append]
    rcases List.mem_append.mp hf with hf | hf
    · exact Nat.lt_add_right _ (h.known f hf)
    · rw [List.mem_singleton.mp hf]
      exact Nat.lt_add_one _
  base := by
    rw [Sink.create, List.length_append]
    exact Nat.le_add_right_of_le h.base
  newest := by
    intro i hi
    rcases List.mem_append.mp hi with hi | hi
    · exact absurd (List.mem_map_of_mem hi) hpath
    · obtain ⟨-, rfl⟩ := Prod.mk.inj (List.mem_singleton.mp hi)
      exact ⟨h.base, by simp [Sink.create]⟩
  handle := by
    rintro inner ⟨⟩
    exact ⟨h.base, by simp [Sink.create], p.path, List.mem_append_right _ (by simp)⟩
  history := by
    rw [Sink.create, List.drop_append_of_le_length h.base, List.flatten_append, h.history]
    simp
  named := by
    intro i hle hlt
    rw [rotatedFiles_create]
    rw [Sink.create, List.length_append, List.length_singleton] at hlt
    rcases Nat.lt_succ_iff_lt_or_eq.mp hlt with hlt | rfl
    · refine (h.named i hle hlt).imp_left ?_
      rintro ⟨x, hx⟩
      exact ⟨x, List.mem_append_left _ hx⟩
    · exact .inl ⟨p.path, List.mem_append_right _ (by simp)⟩

/-- Removing a few of the members of a list without duplicates leaves the others. -/
theorem length_filter_ge {xs gone : List Name} {stays : Name → Bool} (h : xs.Nodup)
    (hstays : ∀ x ∈ xs, x ∉ gone → stays x = true) :
    xs.length - gone.length ≤ (xs.filter stays).length := by
  have hsplit := List.length_eq_length_filter_add (l := xs) stays
  have hgone : (xs.filter fun x => !stays x).length ≤ gone.length := by
    refine List.Subperm.length_le (List.subperm_of_subset (h.filter _) fun x hx => ?_)
    obtain ⟨hmem, hnot⟩ := List.mem_filter.mp hx
    by_contra hout
    simp [hstays x hmem hout] at hnot
  omega

theorem rotatedFiles_filter (stays : Name → Bool) :
    rotatedFiles p { s with names := s.names.filter fun f => stays f.1 }
      = (s.rotatedFiles p).filter stays := by
  simp only [rotatedFiles, List.filter_map, List.filter_filter]
  exact congrArg _ (List.filter_congr fun f _ => Bool.and_comm _ _)

/-- What goes of too many. -/
theorem excess_spec {xs gone : List Name} (h : xs.Nodup)
    (hgone : (xs.insertionSort (· ≤ ·)).take (xs.length - k) = gone) :
    gone.length = xs.length - k ∧ gone.Nodup ∧ gone ⊆ xs := by
  subst hgone
  have hperm := List.perm_insertionSort (· ≤ ·) xs
  refine ⟨?_, ?_, fun x hx => hperm.subset (List.mem_of_mem_take hx)⟩
  · rw [List.length_take, hperm.length_eq]
    omega
  · exact (hperm.nodup_iff.mpr h).sublist (List.take_sublist _ _)

/-- Without the excess exactly the number to be kept is left. -/
theorem length_filter_notMem {xs gone : List Name} (h : xs.Nodup) (hg : gone.Nodup)
    (hsub : gone ⊆ xs) :
    (xs.filter fun x => decide (x ∉ gone)).length = xs.length - gone.length := by
  have hsplit := List.length_eq_length_filter_add (l := xs) fun x => decide (x ∉ gone)
  have hout : (xs.filter fun x => !decide (x ∉ gone)).length = gone.length := by
    refine List.Perm.length_eq ((List.perm_ext_iff_of_nodup (h.filter _) hg).mpr fun x => ?_)
    rw [List.mem_filter]
    exact ⟨fun hx => by simpa using hx.2, fun hx => ⟨hsub hx, by simpa using hx⟩⟩
  omega

theorem stays_eq (gone stubborn : List Name) (x : Name) :
    (!gone.contains x || stubborn.contains x) = decide (x ∉ gone ∨ x ∈ stubborn) := by
  simp

/-- Pruning does nothing, or leaves at least what is to be kept. -/
theorem prune_cases (listed : Bool) (stubborn : List Name)
    (hnames : (s.names.map Prod.fst).Nodup) :
    s.prune p listed stubborn = s ∨ ∃ (k : Nat) (stays : Name → Bool), p.keep = some k
      ∧ s.prune p listed stubborn = { s with names := s.names.filter fun f => stays f.1 }
      ∧ (∀ x, (p.path ++ [46]).isPrefixOf x = false → stays x = true)
      ∧ k ≤ ((s.prune p listed stubborn).rotatedFiles p).length := by
  rw [prune]
  cases hkeep : p.keep with
  | none => exact .inl rfl
  | some k =>
      simp only [stays_eq]
      generalize hrotated : (if listed = true then s.rotatedFiles p else []) = rotated
      by_cases hle : rotated.length ≤ k
      · exact .inl (if_pos hle)
      · right
        rw [if_neg hle]
        obtain rfl : s.rotatedFiles p = rotated := by
          cases listed with
          | true => exact hrotated
          | false =>
              -- nothing was listed, and so nothing is too many
              rw [← hrotated] at hle
              exact absurd (Nat.zero_le k) hle
        have hnodup : (s.rotatedFiles p).Nodup := hnames.filter _
        generalize hgone : ((s.rotatedFiles p).insertionSort (· ≤ ·)).take
          ((s.rotatedFiles p).length - k) = gone
        obtain ⟨hlength, -, hsub⟩ := excess_spec hnodup hgone
        refine ⟨k, fun x => decide (x ∉ gone ∨ x ∈ stubborn), rfl, rfl, ?_, ?_⟩
        · intro x hx
          refine decide_eq_true (.inl fun hmem => ?_)
          have := (List.mem_filter.mp (hsub hmem)).2
          rw [hx] at this
          cases this
        · rw [rotatedFiles_filter fun x => decide (x ∉ gone ∨ x ∈ stubborn)]
          have hge : (s.rotatedFiles p).length - gone.length
              ≤ ((s.rotatedFiles p).filter fun x => decide (x ∉ gone ∨ x ∈ stubborn)).length :=
            length_filter_ge hnodup fun x _ hx => decide_eq_true (.inl hx)
          omega

/-- Pruning that sees and removes all it should leaves no more than is to be kept. -/
theorem length_prune_le (hnames : (s.names.map Prod.fst).Nodup) (hkeep : p.keep = some k) :
    ((s.prune p true []).rotatedFiles p).length ≤ k := by
  rw [prune, hkeep]
  simp only [if_true, stays_eq]
  by_cases hle : (s.rotatedFiles p).length ≤ k
  · rwa [if_pos hle]
  · rw [if_neg hle]
    have hnodup : (s.rotatedFiles p).Nodup := hnames.filter _
    generalize hgone : ((s.rotatedFiles p).insertionSort (· ≤ ·)).take
      ((s.rotatedFiles p).length - k) = gone
    obtain ⟨hlength, hg, hsub⟩ := excess_spec hnodup hgone
    simp only [List.not_mem_nil, or_false]
    rw [rotatedFiles_filter fun x => decide (x ∉ gone), length_filter_notMem hnodup hg hsub]
    omega

theorem Inv.prune (h : Inv p n live s)
    (hpath : ∀ inner, s.inner = some inner → (p.path, inner.file) ∈ s.names) (listed : Bool)
    (stubborn : List Name) : Inv p n live (s.prune p listed stubborn) := by
  rcases prune_cases (p := p) listed stubborn h.names with hsame | ⟨k, stays, hk, heq, hstays, hle⟩
  · rw [hsame]
    exact h
  · rw [heq] at hle ⊢
    have hkeep : stays p.path = true := hstays _ path_not_rotated
    exact {
      names := h.names.sublist (List.filter_sublist.map _)
      known := fun f hf => h.known f (List.mem_of_mem_filter hf)
      base := h.base
      newest := fun i hi => h.newest i (List.mem_of_mem_filter hi)
      handle := fun inner hinner => by
        obtain ⟨hfile, hlast, -⟩ := h.handle inner hinner
        exact ⟨hfile, hlast, p.path, List.mem_filter.mpr ⟨hpath inner hinner, hkeep⟩⟩
      history := h.history
      named := fun _ _ _ => .inr ⟨k, hk, hle⟩ }

theorem newest_file {m : Nat} (h : m + 1 = s.files.length) :
    s.files = s.files.dropLast ++ [s.files.getLastD []] := by
  rcases List.eq_nil_or_concat s.files with hnil | ⟨files, file, heq⟩
  · simp [hnil] at h
  · simp [heq]

/-- A write goes to the end of the newest file. -/
theorem files_append (hlast : inner.file + 1 = s.files.length) :
    (s.append inner buf).files
      = s.files.dropLast ++ [s.files.getLastD [] ++ [buf]] := by
  have hfile : inner.file = s.files.dropLast.length := by
    rw [List.length_dropLast]
    omega
  rw [Sink.append, hfile]
  conv_lhs => rw [newest_file hlast]
  simp [List.modify_eq_take_drop]

theorem Inv.append (h : Inv p n live s) (hinner : s.inner = some inner) :
    Inv p n live (s.append inner buf) := by
  obtain ⟨hle, hlast, x, hx⟩ := h.handle inner hinner
  have hlength : (s.append inner buf).files.length = s.files.length := by
    rw [Sink.append, List.length_modify]
  refine ⟨h.names, hlength ▸ h.known, hlength ▸ h.base, hlength ▸ h.newest, ?_, ?_,
    hlength ▸ h.named⟩
  · rintro inner' ⟨⟩
    exact ⟨hle, hlength ▸ hlast, x, hx⟩
  · have hhistory := h.history
    have hdrop : n ≤ s.files.dropLast.length := by
      rw [List.length_dropLast]
      omega
    rw [newest_file hlast, List.drop_append_of_le_length hdrop, List.flatten_append] at hhistory
    rw [files_append hlast, List.drop_append_of_le_length hdrop]
    simp only [List.flatten_append, Sink.append, List.flatten_singleton] at hhistory ⊢
    rw [← List.append_assoc, hhistory, List.append_assoc]

/-- A rotation leaves everything alone, only takes the name away, or goes through. -/
theorem rotate_cases (s : Sink) (c : Clock) (io : RotateIo) :
    s.rotate p c io = s ∨ ∃ x i, s.target p c.stamped = some x ∧ s.names.lookup p.path = some i
      ∧ (io = .reopenFails ∧ s.rotate p c io = s.rename p x i
        ∨ ∃ listed stubborn, io = .ok listed stubborn
          ∧ s.rotate p c io = ((s.rename p x i).create p c.opened).prune p listed stubborn) := by
  cases hx : s.target p c.stamped with
  | none => exact .inl (by simp only [rotate, hx])
  | some x =>
      cases hi : s.names.lookup p.path with
      | none => exact .inl (by simp only [rotate, hx, hi])
      | some i =>
          cases io with
          | renameFails => exact .inl (by simp only [rotate, hx, hi])
          | reopenFails => exact .inr ⟨x, i, rfl, rfl, .inl ⟨rfl, by simp only [rotate, hx, hi]⟩⟩
          | ok listed stubborn =>
              refine .inr ⟨x, i, rfl, rfl, .inr ⟨listed, stubborn, rfl, ?_⟩⟩
              simp only [rotate, hx, hi]

/-- A prune touches nothing but the names. -/
theorem prune_eq (listed : Bool) (stubborn : List Name) :
    s.prune p listed stubborn = { s with names := (s.prune p listed stubborn).names } := by
  rw [prune]
  cases p.keep with
  | none => rfl
  | some k =>
      simp only
      generalize (if listed = true then s.rotatedFiles p else []) = rotated
      split <;> rfl

theorem inner_prune (listed : Bool) (stubborn : List Name) :
    (s.prune p listed stubborn).inner = s.inner := by
  rw [prune_eq]

theorem inner_rotate_ne_none (h : s.inner ≠ none) : (s.rotate p c io).inner ≠ none := by
  rcases rotate_cases (p := p) s c io with
    hsame | ⟨x, i, -, -, ⟨-, heq⟩ | ⟨listed, stubborn, -, heq⟩⟩
  · rwa [hsame]
  · rwa [heq]
  · rw [heq, inner_prune]
    simp [Sink.create]

theorem Inv.rotate (h : Inv p n live s) (c : Clock) (io : RotateIo) :
    Inv p n live (s.rotate p c io) := by
  rcases rotate_cases (p := p) s c io with hsame | ⟨x, i, hx, hi, hcase⟩
  · rw [hsame]
    exact h
  · obtain ⟨hfree, hdotted⟩ := target_spec hx
    have hrenamed := h.rename hfree hdotted ((lookup_eq_some_iff h.names).mp hi)
    rcases hcase with ⟨-, heq⟩ | ⟨listed, stubborn, -, heq⟩
    · rw [heq]
      exact hrenamed
    · rw [heq]
      refine (hrenamed.create (path_not_mem_rename hdotted)).prune ?_ listed stubborn
      rintro inner ⟨⟩
      exact List.mem_append_right _ (by simp [Sink.rename])

theorem Inv.writeLine (h : Inv p n live s) (buf : List Nat) (c : Clock) (io : RotateIo)
    (out : Option Nat) : Inv p n live (s.writeLine p inner buf c io out) := by
  have hrotated : Inv p n live
      (if shouldRotate p inner buf.length c.checked then s.rotate p c io else s) := by
    split
    · exact h.rotate c io
    · exact h
  unfold Sink.writeLine
  generalize (if shouldRotate p inner buf.length c.checked then s.rotate p c io else s) = u
    at hrotated ⊢
  cases out with
  | none => exact hrotated
  | some n =>
      cases hinner : u.inner with
      | none => simpa only [hinner] using hrotated
      | some inner => simpa only [hinner] using hrotated.append hinner

/-- **One step keeps the invariant.** -/
theorem Inv.step (h : Inv p n live s) {e : Event} (ht : Sink.step p s e = some t) :
    Inv p n live t := by
  cases e with
  | «open» measured now =>
      rw [Sink.step] at ht
      split at ht
      · cases ht
        rw [Sink.open]
        cases hi : s.names.lookup p.path with
        | none => exact h.create (lookup_eq_none_iff.mp hi)
        | some i =>
            have hmem := (lookup_eq_some_iff h.names).mp hi
            obtain ⟨hle, hlast⟩ := h.newest i hmem
            refine { h with handle := ?_ }
            rintro inner ⟨⟩
            exact ⟨hle, hlast, p.path, hmem⟩
      · cases ht
  | write buf c io out =>
      obtain ⟨inner, hinner, rfl⟩ := Option.map_eq_some_iff.mp ht
      exact h.writeLine buf c io out
  | kill =>
      obtain ⟨inner, hinner, rfl⟩ := Option.map_eq_some_iff.mp ht
      exact { h with handle := fun _ hnone => by cases hnone }

/-- The other files have different names, and none has the name of the log. -/
def Apart (p : Policy) (siblings : List (Name × List Nat)) : Prop :=
  (p.path :: siblings.map Prod.fst).Nodup

instance (p : Policy) (siblings : List (Name × List Nat)) : Decidable (Apart p siblings) :=
  inferInstanceAs (Decidable (List.Nodup _))

theorem inv_found {siblings : List (Name × List Nat)} (hapart : Apart p siblings)
    (live : Option (List Nat)) : Inv p siblings.length live (found p siblings live) := by
  obtain ⟨hpath, hnodup⟩ := List.nodup_cons.mp hapart
  have hlast : ∀ i, (p.path, i) ∈ (found p siblings live).names →
      i = siblings.length ∧ ∃ bytes, live = some bytes := by
    intro i hi
    rcases List.mem_append.mp hi with hi | hi
    · exact absurd (List.fst_mem_of_mem_zipIdx hi) hpath
    · obtain ⟨bytes, hlive, heq⟩ := List.mem_map.mp hi
      exact ⟨(Prod.mk.inj heq).2.symm, bytes, Option.mem_toList.mp hlive⟩
  refine ⟨?_, ?_, ?_, ?_, (fun _ h => by cases h), ?_, ?_⟩
  · rw [found, List.map_append, List.zipIdx_map_fst, List.nodup_append]
    refine ⟨hnodup, ?_, ?_⟩
    · cases live <;> simp
    · rintro x hx y hy rfl
      obtain ⟨f, hf, rfl⟩ := List.mem_map.mp hy
      obtain ⟨bytes, -, rfl⟩ := List.mem_map.mp hf
      exact hpath hx
  · intro f hf
    rw [found, List.length_append, List.length_map]
    rcases List.mem_append.mp hf with hf | hf
    · have := List.snd_lt_of_mem_zipIdx hf
      simp only [List.length_map] at this
      omega
    · obtain ⟨bytes, hlive, rfl⟩ := List.mem_map.mp hf
      rw [Option.mem_toList.mp hlive]
      simp
  · simp [found]
  · intro i hi
    obtain ⟨rfl, bytes, rfl⟩ := hlast i hi
    exact ⟨Nat.le_refl _, by simp [found]⟩
  · rw [found, List.drop_left' (List.length_map _)]
    cases live <;> rfl
  · intro i hle hlt
    cases live with
    | none => simp [found] at hlt; omega
    | some bytes =>
        have hi : i = siblings.length := by
          simp [found] at hlt
          omega
        exact .inl ⟨p.path, List.mem_append_right _ (by simp [hi])⟩

theorem Inv.run {siblings : List (Name × List Nat)} (hapart : Apart p siblings)
    {es : List Event} (hr : Lib.run (Sink.step p) (found p siblings live) es = some s) :
    Inv p siblings.length live s :=
  run_preserves (fun _ _ _ h ht => h.step ht) (inv_found hapart live) hr

/-! ## What is written -/

/-- What the write of an event took of its line. -/
def Event.taken : Event → Option (List Nat)
  | .write buf _ _ (some m) => some (buf.take m)
  | _ => none

theorem writes_prune (listed : Bool) (stubborn : List Name) :
    (s.prune p listed stubborn).writes = s.writes := by
  rw [prune_eq]

theorem writes_rotate : (s.rotate p c io).writes = s.writes := by
  rcases rotate_cases (p := p) s c io with
    hsame | ⟨x, i, -, -, ⟨-, heq⟩ | ⟨listed, stubborn, -, heq⟩⟩
  · rw [hsame]
  · rw [heq]
    rfl
  · rw [heq, writes_prune]
    rfl

/-- Whatever becomes of the rotation, the line is written. -/
theorem writes_step {e : Event} (ht : Sink.step p s e = some t) :
    t.writes = s.writes ++ e.taken.toList := by
  cases e with
  | «open» measured now =>
      rw [Sink.step] at ht
      split at ht
      · cases ht
        rw [Sink.open]
        cases s.names.lookup p.path <;> exact (List.append_nil _).symm
      · cases ht
  | write buf c io out =>
      obtain ⟨inner, hinner, rfl⟩ := Option.map_eq_some_iff.mp ht
      have hrunning : (if shouldRotate p inner buf.length c.checked then s.rotate p c io
          else s).inner ≠ none := by
        split
        · exact inner_rotate_ne_none (by simp [hinner])
        · simp [hinner]
      have hwrites : (if shouldRotate p inner buf.length c.checked then s.rotate p c io
          else s).writes = s.writes := by
        split
        · exact writes_rotate
        · rfl
      unfold Sink.writeLine
      generalize (if shouldRotate p inner buf.length c.checked then s.rotate p c io else s) = u
        at hrunning hwrites ⊢
      cases out with
      | none => exact hwrites.trans (List.append_nil _).symm
      | some m =>
          obtain ⟨inner', hinner'⟩ := Option.ne_none_iff_exists'.mp hrunning
          simp only [hinner', Sink.append, hwrites, Event.taken, Option.toList_some]
  | kill =>
      obtain ⟨inner, -, rfl⟩ := Option.map_eq_some_iff.mp ht
      exact (List.append_nil _).symm

theorem writes_run {es : List Event} (hr : Lib.run (Sink.step p) s es = some t) :
    t.writes = s.writes ++ es.filterMap Event.taken := by
  induction es generalizing s with
  | nil =>
      cases hr
      exact (List.append_nil _).symm
  | cons e es ih =>
      obtain ⟨u, hu, hrest⟩ := run_cons.mp hr
      rw [ih hrest, writes_step hu, List.append_assoc]
      cases htaken : e.taken with
      | none => rw [List.filterMap_cons_none htaken, Option.toList_none, List.nil_append]
      | some bytes =>
          rw [List.filterMap_cons_some htaken, Option.toList_some, List.singleton_append]

/-- **Nothing that was written is lost.** Through every history of writes, rotations that fail
where they may, kills and restarts, the files in the order of their creation hold what the live
file held at first and then all that the writes took of their lines, none cut in two; the process
writes to the newest of them, which has a name; and one is without a name only when retention is
on and leaves as many rotated files as it is to keep. -/
theorem nothing_lost (p : Policy) {siblings : List (Name × List Nat)} (live : Option (List Nat))
    (hapart : Apart p siblings) {es : List Event} {s : Sink}
    (hr : Lib.run (Sink.step p) (found p siblings live) es = some s) :
    (s.files.drop siblings.length).flatten = live.toList ++ es.filterMap Event.taken
      ∧ (∀ inner, s.inner = some inner →
          inner.file + 1 = s.files.length ∧ ∃ x, (x, inner.file) ∈ s.names)
      ∧ ∀ i, siblings.length ≤ i → i < s.files.length → (∃ x, (x, i) ∈ s.names)
          ∨ ∃ k, p.keep = some k ∧ k ≤ (s.rotatedFiles p).length := by
  have h := Inv.run hapart hr
  have hwrites : s.writes = [] ++ es.filterMap Event.taken := writes_run hr
  have hhistory := h.history
  rw [hwrites, List.nil_append] at hhistory
  exact ⟨hhistory, fun inner hinner => (h.handle inner hinner).2, h.named⟩

/-- Four bytes to a file, one rotated file kept. -/
def shortLog : Policy := { path := agentLog, sizeLimit := some 4, interval := none, keep := some 1 }

/-- All times are the epoch. -/
def stopped : Clock := { checked := 0, stamped := 0, opened := 0 }

/-- Beside a foreign file of the name of a rotated one, a write, a failed rotation, one that goes
through, a kill and a restart. -/
def restarted : List Event :=
  [.open true 0, .write [1, 2, 3] stopped .renameFails (some 3),
    .write [4, 5] stopped .renameFails (some 2), .write [6] stopped (.ok true []) (some 1), .kill,
    .open true 0, .write [7, 8] stopped .reopenFails none]

def foreign : List (Name × List Nat) := [(candidate agentLog (stampUtc 0) 0, [9])]

theorem nothing_lost_restarted :
    ∃ s, Lib.run (Sink.step shortLog) (found shortLog foreign (some [0])) restarted = some s
      ∧ restarted.filterMap Event.taken = [[1, 2, 3], [4, 5], [6]]
      ∧ (s.files.drop foreign.length).flatten
        = (some [0]).toList ++ restarted.filterMap Event.taken
      ∧ (∀ inner, s.inner = some inner →
          inner.file + 1 = s.files.length ∧ ∃ x, (x, inner.file) ∈ s.names)
      ∧ ∀ i, foreign.length ≤ i → i < s.files.length → (∃ x, (x, i) ∈ s.names)
          ∨ ∃ k, shortLog.keep = some k ∧ k ≤ (s.rotatedFiles shortLog).length := by
  have hrun : (Lib.run (Sink.step shortLog) (found shortLog foreign (some [0])) restarted).isSome
      = true := by decide +kernel
  obtain ⟨s, hs⟩ := Option.isSome_iff_exists.mp hrun
  exact ⟨s, hs, rfl, nothing_lost shortLog (some [0]) (by decide +kernel) hs⟩

/-! ## A reopen that failed -/

/-- Where a rotation goes through as far as the rename, it opens the fresh file too. -/
def Reopens (p : Policy) (s : Sink) : Event → Prop
  | .write buf c io _ => ∀ inner, s.inner = some inner →
      shouldRotate p inner buf.length c.checked = true → s.target p c.stamped ≠ none →
      io ≠ .reopenFails
  | _ => True

/-- The live file has its name. -/
def Attached (p : Policy) (s : Sink) : Prop := p.path ∈ s.names.map Prod.fst

instance (p : Policy) (s : Sink) : Decidable (Attached p s) :=
  inferInstanceAs (Decidable (_ ∈ _))

theorem rotate_detached (h : ¬ Attached p s) : s.rotate p c io = s := by
  rcases rotate_cases (p := p) s c io with hsame | ⟨x, i, -, hi, -⟩
  · exact hsame
  · rw [lookup_eq_none_iff.mpr h] at hi
    cases hi

theorem attached_prune (listed : Bool) (stubborn : List Name)
    (hnames : (s.names.map Prod.fst).Nodup) (h : Attached p s) :
    Attached p (s.prune p listed stubborn) := by
  rcases prune_cases (p := p) listed stubborn hnames with hsame | ⟨k, stays, -, heq, hstays, -⟩
  · rwa [hsame]
  · rw [heq]
    obtain ⟨f, hf, hpath⟩ := List.mem_map.mp h
    have hkeep : stays f.1 = true := hstays _ (hpath ▸ path_not_rotated (p := p))
    exact List.mem_map.mpr ⟨f, List.mem_filter.mpr ⟨hf, hkeep⟩, hpath⟩

/-- A rotation takes the name away exactly if it comes as far as the rename and no further. -/
theorem attached_rotate_iff (h : Inv p n live s) (ha : Attached p s) :
    Attached p (s.rotate p c io) ↔ (s.target p c.stamped ≠ none → io ≠ .reopenFails) := by
  obtain ⟨i, hi⟩ : ∃ i, s.names.lookup p.path = some i := by
    refine Option.ne_none_iff_exists'.mp fun hnone => ?_
    exact lookup_eq_none_iff.mp hnone ha
  cases hx : s.target p c.stamped with
  | none =>
      have hsame : s.rotate p c io = s := by simp only [rotate, hx]
      rw [hsame]
      exact iff_of_true ha fun hne => absurd rfl hne
  | some x =>
      obtain ⟨hfree, hdotted⟩ := target_spec hx
      have hnames : (((s.rename p x i).create p c.opened).names.map Prod.fst).Nodup :=
        ((h.rename hfree hdotted ((lookup_eq_some_iff h.names).mp hi)).create
          (path_not_mem_rename hdotted)).names
      cases io with
      | renameFails =>
          have hsame : s.rotate p c .renameFails = s := by simp only [rotate, hx, hi]
          rw [hsame]
          exact iff_of_true ha fun _ h => by cases h
      | reopenFails =>
          have hrenamed : s.rotate p c .reopenFails = s.rename p x i := by
            simp only [rotate, hx, hi]
          rw [hrenamed]
          exact iff_of_false (path_not_mem_rename hdotted) fun h => h (by simp) rfl
      | ok listed stubborn =>
          have hok : s.rotate p c (.ok listed stubborn)
              = ((s.rename p x i).create p c.opened).prune p listed stubborn := by
            simp only [rotate, hx, hi]
          rw [hok]
          refine iff_of_true (attached_prune listed stubborn hnames ?_) fun _ h => by cases h
          simp [Attached, Sink.create]

theorem names_writeLine : (s.writeLine p inner buf c io out).names
    = (if shouldRotate p inner buf.length c.checked then s.rotate p c io else s).names := by
  unfold writeLine
  generalize (if shouldRotate p inner buf.length c.checked then s.rotate p c io else s) = u
  cases out with
  | none => rfl
  | some n =>
      cases hinner : u.inner with
      | none => simp only [hinner]
      | some inner => simp only [hinner, Sink.append]

/-- A write, as an event. -/
def Event.IsWrite : Event → Prop
  | .write _ _ _ _ => True
  | _ => False

theorem attached_step_iff (h : Inv p n live s) {e : Event} (hw : e.IsWrite)
    (ht : Sink.step p s e = some t) : Attached p t ↔ Attached p s ∧ Reopens p s e := by
  cases e with
  | write buf c io out =>
      obtain ⟨inner, hinner, rfl⟩ := Option.map_eq_some_iff.mp ht
      rw [Attached, names_writeLine]
      by_cases ha : Attached p s
      · rw [and_iff_right ha]
        cases hdue : shouldRotate p inner buf.length c.checked with
        | false =>
            refine iff_of_true ha fun inner' hinner' hdue' => ?_
            rw [hinner, Option.some.injEq] at hinner'
            rw [← hinner', hdue] at hdue'
            cases hdue'
        | true =>
            refine (attached_rotate_iff h ha).trans ⟨fun hok inner' _ _ => hok, fun hok => ?_⟩
            exact hok inner hinner hdue
      · refine iff_of_false ?_ fun hboth => ha hboth.1
        split
        · rw [rotate_detached ha]
          exact ha
        · exact ha
  | «open» measured now => exact hw.elim
  | kill => exact hw.elim

/-- What a write does while the live file has no name: it goes to the newest file, and to nothing
else. -/
theorem writeLine_detached (h : Inv p n live s) (ha : ¬ Attached p s)
    (hinner : s.inner = some inner) :
    (s.writeLine p inner buf c io out).names = s.names
      ∧ (s.writeLine p inner buf c io out).inner ≠ none
      ∧ ∃ ws, (s.writeLine p inner buf c io out).writes = s.writes ++ ws
        ∧ (s.writeLine p inner buf c io out).files
          = s.files.dropLast ++ [s.files.getLastD [] ++ ws] := by
  have hsame : (if shouldRotate p inner buf.length c.checked then s.rotate p c io else s) = s := by
    rw [rotate_detached ha, ite_self]
  unfold writeLine
  rw [hsame]
  cases out with
  | none =>
      refine ⟨rfl, by simp [hinner], [], (List.append_nil _).symm, ?_⟩
      rw [List.append_nil]
      exact newest_file (h.handle inner hinner).2.1
  | some m =>
      simp only [hinner]
      exact ⟨rfl, by simp [Sink.append], [buf.take m], rfl,
        files_append (h.handle inner hinner).2.1⟩

theorem Event.IsWrite.running {e : Event} (hw : e.IsWrite) (ht : Sink.step p s e = some t) :
    ∃ inner buf c io out, s.inner = some inner ∧ t = s.writeLine p inner buf c io out := by
  cases e with
  | write buf c io out =>
      obtain ⟨inner, hinner, rfl⟩ := Option.map_eq_some_iff.mp ht
      exact ⟨inner, buf, c, io, out, hinner, rfl⟩
  | «open» measured now => exact hw.elim
  | kill => exact hw.elim

theorem attached_run_iff {ws : List Event} (h : Inv p n live s) (hw : ∀ e ∈ ws, e.IsWrite)
    (ht : Lib.run (Sink.step p) s ws = some t) :
    Attached p t ↔ Attached p s ∧ Meets (Sink.step p) (Reopens p) s ws := by
  induction ws generalizing s with
  | nil =>
      cases ht
      exact (and_iff_left True.intro).symm
  | cons e ws ih =>
      obtain ⟨u, hu, hrest⟩ := run_cons.mp ht
      have hstep := attached_step_iff h (hw e (List.mem_cons_self ..)) hu
      rw [ih (h.step hu) (fun e he => hw e (List.mem_cons_of_mem _ he)) hrest, hstep, and_assoc]
      refine and_congr_right fun _ => and_congr_right fun _ => ?_
      exact ⟨fun hm v hv => Option.some.inj (hu.symm.trans hv) ▸ hm, fun hm => hm u hu⟩

theorem detached_run {ws : List Event} (h : Inv p n live s) (ha : ¬ Attached p s)
    (hrunning : s.inner ≠ none) (hw : ∀ e ∈ ws, e.IsWrite)
    (ht : Lib.run (Sink.step p) s ws = some t) :
    t.names = s.names ∧ ∃ added, t.writes = s.writes ++ added
      ∧ t.files = s.files.dropLast ++ [s.files.getLastD [] ++ added] := by
  induction ws generalizing s with
  | nil =>
      cases ht
      obtain ⟨inner, hinner⟩ := Option.ne_none_iff_exists'.mp hrunning
      refine ⟨rfl, [], (List.append_nil _).symm, ?_⟩
      rw [List.append_nil]
      exact newest_file (h.handle inner hinner).2.1
  | cons e ws ih =>
      obtain ⟨u, hu, hrest⟩ := run_cons.mp ht
      obtain ⟨inner, buf, c, io, out, hinner, rfl⟩ := (hw e (List.mem_cons_self ..)).running hu
      have hdetached : (s.writeLine p inner buf c io out).names = s.names ∧ _ :=
        writeLine_detached h ha hinner
      obtain ⟨hnames, hinner', added, hwrites, hfiles⟩ := hdetached
      obtain ⟨hnames', more, hwrites', hfiles'⟩ := ih (h.step hu) (by rwa [Attached, hnames])
        hinner' (fun e he => hw e (List.mem_cons_of_mem _ he)) hrest
      refine ⟨hnames'.trans hnames, added ++ more, ?_, ?_⟩
      · rw [hwrites', hwrites, List.append_assoc]
      · rw [hfiles', hfiles, List.dropLast_concat, List.getLastD_concat, List.append_assoc]

theorem attached_open (h : Sink.step p s (.open measured now) = some t) :
    Attached p t ∧ t.inner ≠ none := by
  rw [Sink.step] at h
  split at h
  · cases h
    rw [Sink.open]
    cases hi : s.names.lookup p.path with
    | none => exact ⟨by simp [Attached, Sink.create], by simp [Sink.create]⟩
    | some i =>
        refine ⟨Classical.not_not.mp fun hno => ?_, by simp⟩
        rw [lookup_eq_none_iff.mpr hno] at hi
        cases hi
  · cases h

/-- The process goes on. -/
theorem running_run {ws : List Event} (h : s.inner ≠ none) (hw : ∀ e ∈ ws, e.IsWrite)
    (ht : Lib.run (Sink.step p) s ws = some t) : t.inner ≠ none := by
  induction ws generalizing s with
  | nil =>
      cases ht
      exact h
  | cons e ws ih =>
      obtain ⟨u, hu, hrest⟩ := run_cons.mp ht
      refine ih ?_ (fun e he => hw e (List.mem_cons_of_mem _ he)) hrest
      obtain ⟨inner, buf, c, io, out, -, rfl⟩ := (hw e (List.mem_cons_self ..)).running hu
      have hrotated : (if shouldRotate p inner buf.length c.checked then s.rotate p c io
          else s).inner ≠ none := by
        split
        · exact inner_rotate_ne_none h
        · exact h
      unfold writeLine
      generalize (if shouldRotate p inner buf.length c.checked then s.rotate p c io else s) = v
        at hrotated ⊢
      cases out with
      | none => exact hrotated
      | some m =>
          cases hinner : v.inner with
          | none => simpa only [hinner] using hrotated
          | some inner => simp [hinner, Sink.append]

/-- **A failed reopen ends rotation** until the process is started anew. After the log was opened
and along any writes, the live file has its name exactly as long as every rotation that renamed
it opened a fresh one. Once it has none, no write renames, creates or removes a file, whatever
the limits and the clock say: what the writes take goes to the file that was renamed. -/
theorem reopen_failed (p : Policy) {siblings : List (Name × List Nat)} (live : Option (List Nat))
    (hapart : Apart p siblings) {es ws : List Event} {measured : Bool} {now : Int} {s t : Sink}
    (hs : Lib.run (Sink.step p) (found p siblings live) (es ++ [.open measured now]) = some s)
    (hw : ∀ e ∈ ws, e.IsWrite) (ht : Lib.run (Sink.step p) s ws = some t) :
    (Attached p t ↔ Meets (Sink.step p) (Reopens p) s ws)
      ∧ ∀ more u, ¬ Attached p t → (∀ e ∈ more, e.IsWrite) →
          Lib.run (Sink.step p) t more = some u →
          u.names = t.names ∧ u.files
            = t.files.dropLast ++ [t.files.getLastD [] ++ more.filterMap Event.taken] := by
  have hinv : Inv p siblings.length live s := Inv.run hapart hs
  have hinv' : Inv p siblings.length live t := run_preserves (fun _ _ _ h ht => h.step ht) hinv ht
  obtain ⟨r, -, hopen⟩ := run_concat.mp hs
  obtain ⟨hopened, hrunning⟩ := attached_open hopen
  refine ⟨(attached_run_iff hinv hw ht).trans (and_iff_right hopened), fun more u ha hmore hu => ?_⟩
  obtain ⟨hnames, added, hwrites, hfiles⟩ :=
    detached_run hinv' ha (running_run hrunning hw ht) hmore hu
  rw [writes_run hu] at hwrites
  exact ⟨hnames, List.append_cancel_left hwrites ▸ hfiles⟩

/-- The third write sets off a rotation whose reopen fails. -/
def cutOff : List Event :=
  [.write [1, 2, 3] stopped .renameFails (some 3), .write [4, 5] stopped .reopenFails (some 2)]

theorem reopen_failed_cutOff :
    ∃ s t, Lib.run (Sink.step shortLog) (found shortLog [] none) ([] ++ [.open true 0]) = some s
      ∧ Lib.run (Sink.step shortLog) s cutOff = some t ∧ ¬ Attached shortLog t
      ∧ (Attached shortLog t ↔ Meets (Sink.step shortLog) (Reopens shortLog) s cutOff)
      ∧ ∀ more u, ¬ Attached shortLog t → (∀ e ∈ more, e.IsWrite) →
          Lib.run (Sink.step shortLog) t more = some u →
          u.names = t.names ∧ u.files
            = t.files.dropLast ++ [t.files.getLastD [] ++ more.filterMap Event.taken] := by
  have hopen : (Lib.run (Sink.step shortLog) (found shortLog [] none)
      ([] ++ [.open true 0])).isSome = true := by decide +kernel
  obtain ⟨s, hs⟩ := Option.isSome_iff_exists.mp hopen
  have hrun : ((Lib.run (Sink.step shortLog) (found shortLog [] none)
      ([] ++ [.open true 0])).bind fun s => (Lib.run (Sink.step shortLog) s cutOff).map
        fun t => decide (shortLog.path ∈ t.names.map Prod.fst)) = some false := by decide +kernel
  rw [hs, Option.bind_some] at hrun
  obtain ⟨t, ht, hdetached⟩ := Option.map_eq_some_iff.mp hrun
  have hwrites : ∀ e ∈ cutOff, e.IsWrite := by
    intro e he
    rcases List.mem_pair.mp he with rfl | rfl <;> exact True.intro
  exact ⟨s, t, hs, ht, of_decide_eq_false hdetached,
    reopen_failed shortLog none (by decide +kernel) hs hwrites ht⟩

end Sink

end Tributary.LogFile
