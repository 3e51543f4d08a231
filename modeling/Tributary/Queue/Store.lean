import Tributary.Queue

/-!
# What a queue directory holds

A directory represents a list of numbered bodies, oldest first: `OnDisk` says
so of the files, `Stored` of the files together with the memory of the queue
that is running over them. Every operation is described once by what it does to
that list, and the rest of the development goes through these lemmas.
-/

namespace Tributary.Queue

open Lib

variable {β : Type} {size : β → Nat}

/-! ## Names -/

@[simp] theorem segmentName_ext (n : Nat) : (segmentName n).ext = lp := rfl

@[simp] theorem withExtension_ext (p : FileName) (x : List Nat) :
    (p.withExtension x).ext = x := rfl

theorem segmentName_inj {n m : Nat} (h : segmentName n = segmentName m) : n = m :=
  Decimal.zeroPad_inj (FileName.mk.inj h).1

theorem lp_ne_tmp : lp ≠ tmp := by decide

theorem tmp_ne_lp : tmp ≠ lp := by decide

/-- A shared tail does not change the order of two stems of one length. -/
theorem append_lt_append {as bs cs : List Nat} (hlen : as.length = bs.length)
    (h : as < bs) : as ++ cs < bs ++ cs := by
  induction as generalizing bs with
  | nil =>
      cases bs with
      | nil => exact absurd h (lt_irrefl _)
      | cons b bs => simp at hlen
  | cons a as ih =>
      cases bs with
      | nil => exact absurd h (List.not_lt_nil _)
      | cons b bs =>
          have hl : as.length = bs.length := by simpa using hlen
          rw [List.cons_append, List.cons_append, List.cons_lt_cons_iff]
          rcases List.cons_lt_cons_iff.mp h with hab | ⟨hab, hrest⟩
          · exact .inl hab
          · exact .inr ⟨hab, ih hl hrest⟩

/-- Twelve digits sort as the sequence numbers do. -/
theorem segmentName_lt {n m : Nat} (hm : m < 10 ^ 12) (h : n < m) :
    (segmentName n).codes < (segmentName m).codes := by
  refine append_lt_append ?_ (Decimal.zeroPad_lt hm h)
  simp only [segmentName, Decimal.zeroPad, List.length_map]
  rw [Decimal.length_digits (Nat.lt_trans h hm), Decimal.length_digits hm]

/-! ## Directory operations -/

namespace Dir

variable {dir : Dir β} {p : FileName} {c : Content β}

theorem remove_of_absent (h : ∀ e ∈ dir, e.1 ≠ p) : dir.remove p = dir :=
  List.filter_eq_self.mpr fun e he => decide_eq_true (h e he)

theorem write_of_absent (h : ∀ e ∈ dir, e.1 ≠ p) : dir.write p c = dir ++ [(p, c)] := by
  rw [write, remove_of_absent h]

theorem remove_write : (dir.write p c).remove p = dir.remove p := by
  simp only [write, remove, List.filter_append, List.filter_filter]
  simp

theorem get_write : (dir.write p c).get p = some c := by
  have hnone : (dir.remove p).find? (fun e => decide (e.1 = p)) = none := by
    rw [List.find?_eq_none]
    intro e he
    simpa [remove] using (List.mem_filter.mp he).2
  simp [get, write, List.find?_append, hnone]

/-- Renaming a file just written is writing it under the other name. -/
theorem rename_write {dst : FileName} :
    (dir.write p c).rename p dst = (dir.remove p).write dst c := by
  simp only [rename, get_write, remove_write]

/-- A name that occurs once finds its own content. -/
theorem get_of_mem (hnd : (dir.map (·.1)).Nodup) (h : (p, c) ∈ dir) :
    dir.get p = some c := by
  induction dir with
  | nil => simp at h
  | cons e dir ih =>
      obtain ⟨hfresh, hrest⟩ := List.nodup_cons.mp hnd
      rcases List.mem_cons.mp h with rfl | hm
      · simp [get]
      · have hne : e.1 ≠ p := by
          rintro rfl
          exact hfresh (List.mem_map.mpr ⟨_, hm, rfl⟩)
        have := ih hrest hm
        simpa [get, List.find?_cons, hne] using this

/-- Looking a name up needs the files with its extension only. -/
theorem get_withExt : (dir.withExt p.ext).get p = dir.get p := by
  rw [get, get, withExt, List.find?_filter]
  congr 2
  funext e
  by_cases h : e.1 = p
  · simp [h]
  · simp [h]

end Dir

/-! ## The represented list -/

/-- The file of a numbered body. -/
def entry (x : Nat × β) : FileName × Content β := (segmentName x.1, .whole x.2)

/-- The name of a numbered body's file. -/
def name (x : Nat × β) : FileName := segmentName x.1

@[simp] theorem map_fst_entry (live : List (Nat × β)) :
    (live.map entry).map (·.1) = live.map name := by
  simp [entry, name, Function.comp_def]

/-- The `.lp` files of the directory are the numbered bodies, whatever order
`read_dir` lists them in. -/
structure OnDisk (dir : Dir β) (live : List (Nat × β)) : Prop where
  files : (dir.withExt lp).Perm (live.map entry)
  increasing : live.Pairwise fun x y => x.1 < y.1

/-- A running queue: its memory and its directory tell the same list, and its
counter is past every number in use. -/
structure Stored (size : β → Nat) (dir : Dir β) (q : Queue) (live : List (Nat × β)) : Prop
    extends OnDisk dir live where
  clean : ∀ e ∈ dir, e.1.ext = lp
  below : ∀ x ∈ live, x.1 < q.nextSeq
  segments : q.segments = live.map name
  bytes : q.bytes = (live.map fun x => size x.2).sum

/-- Numbers that the twelve-digit names can order. -/
def Narrow (live : List (Nat × β)) : Prop := ∀ x ∈ live, x.1 < 10 ^ 12

theorem Narrow.snoc {live : List (Nat × β)} (hn : Narrow live) {n : Nat} (h : n < 10 ^ 12)
    (body : β) :
    Narrow (live ++ [(n, body)]) := by
  intro x hx
  rcases List.mem_append.mp hx with hx | hx
  · exact hn x hx
  · rwa [List.mem_singleton.mp hx]

section

variable {dir : Dir β} {q : Queue} {live : List (Nat × β)} {body : β}

theorem OnDisk.names_nodup (h : OnDisk dir live) : (live.map name).Nodup := by
  rw [List.Nodup, List.pairwise_map]
  exact h.increasing.imp fun hlt heq => absurd (segmentName_inj heq) (Nat.ne_of_lt hlt)

theorem Stored.perm (h : Stored size dir q live) : dir.Perm (live.map entry) := by
  have hf := h.files
  rwa [Dir.withExt, List.filter_eq_self.mpr fun e he => decide_eq_true (h.clean e he)] at hf

/-- The file of a live number holds its body. -/
theorem OnDisk.get (h : OnDisk dir live) {x : Nat × β} (hx : x ∈ live) :
    dir.get (name x) = some (.whole x.2) := by
  have hnd : ((dir.withExt lp).map (·.1)).Nodup := by
    have hp := h.files.map (·.1)
    rw [map_fst_entry] at hp
    exact hp.nodup_iff.mpr h.names_nodup
  have hmem : entry x ∈ dir.withExt lp := h.files.mem_iff.mpr (List.mem_map.mpr ⟨x, hx, rfl⟩)
  rw [← Dir.get_withExt]
  exact Dir.get_of_mem hnd hmem

theorem Stored.mem_iff (h : Stored size dir q live) (e : FileName × Content β) :
    e ∈ dir ↔ ∃ x ∈ live, entry x = e := by
  rw [h.perm.mem_iff, List.mem_map]

/-- Reading a live segment gives its body. -/
theorem OnDisk.read (h : OnDisk dir live) {x : Nat × β} (hx : x ∈ live) :
    Queue.read dir (name x) = some x.2 := by
  rw [Queue.read, h.get hx]

/-- The segments read in order are the represented bodies. -/
theorem Stored.contents (h : Stored size dir q live) :
    q.segments.map (Queue.read dir) = (live.map (·.2)).map some := by
  rw [h.segments, List.map_map, List.map_map]
  exact List.map_congr_left fun x hx => h.read hx

theorem Stored.isEmpty_iff (h : Stored size dir q live) : q.isEmpty = true ↔ live = [] := by
  rw [isEmpty, h.segments, List.isEmpty_iff, List.map_eq_nil_iff]

/-- The next name is not taken. -/
theorem Stored.fresh (h : Stored size dir q live) :
    ∀ e ∈ dir, e.1 ≠ segmentName q.nextSeq := by
  intro e he heq
  obtain ⟨x, hx, rfl⟩ := (h.mem_iff e).mp he
  have := h.below x hx
  have := segmentName_inj heq
  omega

theorem Stored.no_tmp (h : Stored size dir q live) (n : Nat) :
    ∀ e ∈ dir, e.1 ≠ (segmentName n).withExtension tmp := by
  intro e he heq
  have hc := h.clean e he
  rw [heq] at hc
  exact tmp_ne_lp hc

/-- What the segments of a directory hold does not depend on their numbers. -/
def InSegment {α : Type} (dir : Dir (List α)) (a : α) : Prop :=
  ∃ p body, (p, .whole body) ∈ dir ∧ p.ext = lp ∧ a ∈ body

theorem OnDisk.inSegment_iff {α : Type} {dir : Dir (List α)} {live : List (Nat × List α)}
    (h : OnDisk dir live) {a : α} : InSegment dir a ↔ ∃ x ∈ live, a ∈ x.2 := by
  constructor
  · rintro ⟨path, body, hm, hext, ha⟩
    have hfile : (path, Content.whole body) ∈ dir.withExt lp :=
      List.mem_filter.mpr ⟨hm, decide_eq_true hext⟩
    obtain ⟨x, hx, he⟩ := List.mem_map.mp (h.files.mem_iff.mp hfile)
    cases he
    exact ⟨x, hx, ha⟩
  · rintro ⟨x, hx, ha⟩
    have hfile := h.files.mem_iff.mpr (List.mem_map.mpr ⟨x, hx, rfl⟩)
    exact ⟨name x, x.2, (List.mem_filter.mp hfile).1, rfl, ha⟩

/-! ## Spooling -/

/-- The memory after a spool that went through. -/
def spooled (size : β → Nat) (q : Queue) (body : β) : Queue :=
  { q with
    nextSeq := q.nextSeq + 1
    bytes := q.bytes + size body
    segments := q.segments ++ [segmentName q.nextSeq]
    spilledTotal := q.spilledTotal + 1 }

/-- A spool that meets no error adds one file under the next number. -/
theorem Stored.spool_ok (h : Stored size dir q live) (body : β) :
    spool size q dir body .ok
      = (.ok true, spooled size q body,
          dir ++ [(segmentName q.nextSeq, .whole body)]) := by
  simp only [spool, writeSegment, renameError, Dir.rename_write,
    Dir.remove_of_absent (h.no_tmp q.nextSeq), Dir.write_of_absent h.fresh, spooled]

/-- A spool that fails leaves memory and directory as they were: its own
temporary file is removed. -/
theorem Stored.spool_fail (h : Stored size dir q live) (body : β) (at_ : SpoolStep)
    (e : IoError) :
    spool size q dir body (.fail at_ e)
      = (if outOfSpace e then .ok false else .error e, q, dir) := by
  have hrm := Dir.remove_of_absent (h.no_tmp q.nextSeq)
  cases at_ <;>
    simp only [spool, writeSegment, renameError, Dir.remove_write, hrm] <;>
    split <;> rfl

/-- The list gains the body at the back. -/
theorem Stored.spooled (h : Stored size dir q live) (body : β) :
    Stored size (dir ++ [(segmentName q.nextSeq, .whole body)]) (spooled size q body)
      (live ++ [(q.nextSeq, body)]) where
  files := by
    rw [Dir.withExt, List.filter_append, List.map_append]
    refine List.Perm.append h.files ?_
    simp [entry]
  increasing := by
    refine List.pairwise_append.mpr ⟨h.increasing, List.pairwise_singleton _ _, ?_⟩
    intro x hx y hy
    rw [List.mem_singleton.mp hy]
    exact h.below x hx
  clean := by
    intro e he
    rcases List.mem_append.mp he with he | he
    · exact h.clean e he
    · rw [List.mem_singleton.mp he, segmentName_ext]
  below := by
    intro x hx
    rcases List.mem_append.mp hx with hx | hx
    · exact Nat.lt_succ_of_lt (h.below x hx)
    · rw [List.mem_singleton.mp hx]
      exact Nat.lt_succ_self _
  segments := by simp [Queue.spooled, h.segments, name]
  bytes := by simp [Queue.spooled, h.bytes]

/-- The pause flag is no part of the represented list. -/
theorem Stored.setFull (h : Stored size dir q live) (b : Bool) :
    Stored size dir { q with full := b } live :=
  { h with }

/-- What `push` can do: refuse at the cap, append, or fail at the file
system. -/
theorem Stored.push_cases (h : Stored size dir q live) (body : β) (io : Io) :
    (q.maxBytes < q.bytes + size body
        ∧ push size q dir body io = (.ok false, { q with full := true }, dir))
      ∨ (q.bytes + size body ≤ q.maxBytes ∧ io = .ok
        ∧ push size q dir body io = (.ok true, Queue.spooled size q body,
            dir ++ [(segmentName q.nextSeq, .whole body)]))
      ∨ (∃ at_ e, io = .fail at_ e ∧ outOfSpace e = true
        ∧ push size q dir body io = (.ok false, { q with full := true }, dir))
      ∨ (∃ at_ e, io = .fail at_ e ∧ outOfSpace e = false
        ∧ push size q dir body io = (.error e, q, dir)) := by
  by_cases hcap : q.maxBytes < q.bytes + size body
  · exact .inl ⟨hcap, if_pos hcap⟩
  · cases io with
    | ok =>
        refine .inr (.inl ⟨Nat.not_lt.mp hcap, rfl, ?_⟩)
        rw [push, if_neg hcap, h.spool_ok]
    | fail at_ e =>
        refine .inr (.inr ?_)
        cases he : outOfSpace e with
        | true =>
            refine .inl ⟨at_, e, rfl, he, ?_⟩
            rw [push, if_neg hcap, h.spool_fail, he]
            rfl
        | false =>
            refine .inr ⟨at_, e, rfl, he, ?_⟩
            rw [push, if_neg hcap, h.spool_fail, he]
            rfl

/-- What `push_forced` can do: append, or fail at the file system; a full disk
sets the pause flag too. -/
theorem Stored.pushForced_cases (h : Stored size dir q live) (body : β) (io : Io) :
    (io = .ok
        ∧ pushForced size q dir body io
          = (.ok true, { Queue.spooled size q body with full := true },
              dir ++ [(segmentName q.nextSeq, .whole body)]))
      ∨ (∃ at_ e, io = .fail at_ e ∧ outOfSpace e = true
        ∧ pushForced size q dir body io = (.ok false, { q with full := true }, dir))
      ∨ (∃ at_ e, io = .fail at_ e ∧ outOfSpace e = false
        ∧ pushForced size q dir body io = (.error e, q, dir)) := by
  cases io with
  | ok =>
      refine .inl ⟨rfl, ?_⟩
      rw [pushForced, h.spool_ok]
  | fail at_ e =>
      refine .inr ?_
      cases he : outOfSpace e with
      | true =>
          refine .inl ⟨at_, e, rfl, he, ?_⟩
          rw [pushForced, h.spool_fail, he]
          rfl
      | false =>
          refine .inr ⟨at_, e, rfl, he, ?_⟩
          rw [pushForced, h.spool_fail, he]
          rfl

/-! ## Draining -/

section retire

variable (q : Queue) (len : Nat)

@[simp] theorem retire_segments : (q.retire len).segments = q.segments.tail := by
  simp only [retire]
  split <;> rfl

@[simp] theorem retire_bytes : (q.retire len).bytes = q.bytes - len := by
  simp only [retire]
  split <;> rfl

@[simp] theorem retire_nextSeq : (q.retire len).nextSeq = q.nextSeq := by
  simp only [retire]
  split <;> rfl

@[simp] theorem retire_maxBytes : (q.retire len).maxBytes = q.maxBytes := by
  simp only [retire]
  split <;> rfl

/-- The pause flag is lifted at half full, and only there. -/
theorem retire_full :
    (q.retire len).full = true ↔ q.full = true ∧ q.maxBytes < (q.bytes - len) * 2 := by
  simp only [retire]
  split
  · rename_i hlow
    simp only [Bool.false_eq_true, false_iff, not_and, not_lt]
    exact fun _ => hlow.2
  · rename_i hhigh
    constructor
    · exact fun hf => ⟨hf, Nat.not_le.mp fun hle => hhigh ⟨hf, hle⟩⟩
    · exact fun hf => hf.1

end retire

theorem Stored.front (h : Stored size dir q live) :
    Queue.front q = live.head?.map name := by
  rw [Queue.front, h.segments, List.head?_map]

/-- The front segment leaves the list. -/
theorem Stored.pop_front {x : Nat × β} {live : List (Nat × β)}
    (h : Stored size dir q (x :: live)) :
    Queue.pop size q dir (name x) = some (q.retire (size x.2), dir.remove (name x))
      ∧ Stored size (dir.remove (name x)) (q.retire (size x.2)) live := by
  refine ⟨?_, ?_⟩
  · rw [Queue.pop, h.get (List.mem_cons_self ..), Option.map_some, Content.len]
  · obtain ⟨hfirst, hrest⟩ := List.pairwise_cons.mp h.increasing
    have hnd := h.names_nodup
    rw [List.map_cons, List.nodup_cons] at hnd
    refine ⟨⟨?_, hrest⟩, ?_, ?_, ?_, ?_⟩
    · have hclean : ∀ e ∈ dir.remove (name x), e.1.ext = lp := fun e he =>
        h.clean e (List.mem_filter.mp he).1
      rw [Dir.withExt, List.filter_eq_self.mpr fun e he => decide_eq_true (hclean e he)]
      have hp := h.perm.filter fun e => decide (e.1 ≠ name x)
      rw [List.map_cons, List.filter_cons_of_neg (by simp [entry, name])] at hp
      refine hp.trans (List.Perm.of_eq (List.filter_eq_self.mpr ?_))
      intro e he
      obtain ⟨y, hy, rfl⟩ := List.mem_map.mp he
      refine decide_eq_true fun heq => hnd.1 ?_
      exact List.mem_map.mpr ⟨y, hy, heq⟩
    · exact fun e he => h.clean e (List.mem_filter.mp he).1
    · intro y hy
      rw [retire_nextSeq]
      exact h.below y (List.mem_cons_of_mem _ hy)
    · rw [retire_segments, h.segments, List.map_cons, List.tail_cons]
    · rw [retire_bytes, h.bytes, List.map_cons, List.sum_cons, Nat.add_sub_cancel_left]

/-! ## Opening -/

theorem sweep_withExt (dir : Dir β) : (sweep dir).withExt lp = dir.withExt lp := by
  rw [sweep, Dir.withExt, Dir.withExt, List.filter_filter]
  refine List.filter_congr fun e _ => ?_
  by_cases h : e.1.ext = lp
  · simp [h, lp_ne_tmp]
  · simp [h]

/-- Names with one extension are told apart by their codes. -/
theorem codes_inj {p q : FileName} (hext : p.ext = q.ext) (h : p.codes = q.codes) : p = q := by
  obtain ⟨stem, ext⟩ := p
  cases hext
  rw [FileName.codes, FileName.codes] at h
  cases List.append_cancel_right h
  rfl

/-- The sorted listing is the represented list. -/
theorem OnDisk.scan (h : OnDisk dir live) (hn : Narrow live) :
    Queue.scan dir = live.map name := by
  have hlt : (live.map name).Pairwise fun p q => p.codes < q.codes := by
    rw [List.pairwise_map]
    exact h.increasing.imp_of_mem fun _ hy hxy => segmentName_lt (hn _ hy) hxy
  have hperm : (Queue.scan dir).Perm (live.map name) := by
    have hp := h.files.map (·.1)
    rw [map_fst_entry] at hp
    exact (List.perm_insertionSort _ _).trans hp
  have hext : ∀ p ∈ live.map name, p.ext = lp := by
    intro p hp
    obtain ⟨x, -, rfl⟩ := List.mem_map.mp hp
    rfl
  have hsorted := hlt.imp (le_of_lt (α := List Nat))
  refine List.Perm.eq_of_pairwise ?_ (List.pairwise_insertionSort _ _) hsorted hperm
  intro p q hp hq hpq hqp
  exact codes_inj ((hext p (hperm.mem_iff.mp hp)).trans (hext q hq).symm)
    (le_antisymm hpq hqp)

theorem OnDisk.sweep (h : OnDisk dir live) : OnDisk (Queue.sweep dir) live :=
  ⟨by rw [sweep_withExt]; exact h.files, h.increasing⟩

theorem mem_sweep {e : FileName × Content β} : e ∈ Queue.sweep dir ↔ e ∈ dir ∧ e.1.ext ≠ tmp := by
  simp [Queue.sweep]

/-- The number the last name parses to is past every number in use. -/
theorem OnDisk.nextSeq (h : OnDisk dir live) (hn : Narrow live) (maxBytes : Nat) :
    ∀ x ∈ live, x.1 < («open» size dir maxBytes).2.nextSeq := by
  intro x hx
  have hne : live ≠ [] := List.ne_nil_of_mem hx
  have hlast : (live.map name).getLast? = some (name (live.getLast hne)) := by
    rw [List.getLast?_map, List.getLast?_eq_getLast_of_ne_nil hne, Option.map_some]
  have hwide : (live.getLast hne).1 < 10 ^ 12 := hn _ (List.getLast_mem hne)
  have hparse : Decimal.parse (name (live.getLast hne)).stem = some (live.getLast hne).1 :=
    Decimal.parse_zeroPad (by decide) hwide (Nat.lt_trans hwide (by decide))
  simp only [«open», h.scan hn, hlast, Option.bind_some, hparse]
  have hinc := h.increasing
  rw [← List.dropLast_concat_getLast hne] at hx hinc
  rcases List.mem_append.mp hx with hm | hm
  · exact Nat.lt_succ_of_lt
      ((List.pairwise_append.mp hinc).2.2 x hm _ (List.mem_singleton_self _))
  · rw [List.mem_singleton.mp hm]
    exact Nat.lt_succ_self _

/-- **Opening adopts the represented list**: a directory with only the queue's
own files comes up as a running queue over the same bodies. -/
theorem OnDisk.opened (h : OnDisk dir live) (hn : Narrow live)
    (hown : ∀ e ∈ dir, e.1.ext = lp ∨ e.1.ext = tmp) (maxBytes : Nat) :
    Stored size («open» size dir maxBytes).1 («open» size dir maxBytes).2 live := by
  have hdir : («open» size dir maxBytes).1 = Queue.sweep dir := rfl
  rw [hdir]
  refine ⟨h.sweep, ?_, h.nextSeq hn maxBytes, h.scan hn, ?_⟩
  · intro e he
    obtain ⟨hm, hne⟩ := mem_sweep.mp he
    exact (hown e hm).resolve_right hne
  · simp only [«open», h.scan hn, List.map_map]
    refine congrArg List.sum (List.map_congr_left fun x hx => ?_)
    simp [h.get hx, Content.len]

/-! ## Across kills -/

/-- The numbered bodies of a directory, with or without a queue running over
it. -/
structure Backs (size : β → Nat) (dir : Dir β) (queue : Option Queue)
    (live : List (Nat × β)) : Prop where
  narrow : Narrow live
  disk : OnDisk dir live
  own : ∀ e ∈ dir, e.1.ext = lp ∨ e.1.ext = tmp
  running : ∀ q, queue = some q → Stored size dir q live

theorem Backs.of_stored (h : Stored size dir q live) (hn : Narrow live) :
    Backs size dir (some q) live where
  narrow := hn
  disk := h.toOnDisk
  own := fun e he => .inl (h.clean e he)
  running := fun q' hq => by
    cases hq
    exact h

theorem Backs.killed {queue : Option Queue} (h : Backs size dir queue live) :
    Backs size dir none live :=
  { h with running := by simp }

theorem Backs.opened {queue : Option Queue} (h : Backs size dir queue live) (maxBytes : Nat) :
    Backs size («open» size dir maxBytes).1 (some («open» size dir maxBytes).2) live :=
  .of_stored (h.disk.opened h.narrow h.own maxBytes) h.narrow

/-- A directory some of whose temporary files are gone. -/
def partlySwept (dir : Dir β) (swept : List FileName) : Dir β :=
  dir.filter fun e => !(decide (e.1.ext = tmp) && swept.contains e.1)

theorem Backs.partlySwept {queue : Option Queue} (h : Backs size dir queue live)
    (swept : List FileName) : Backs size (Queue.partlySwept dir swept) none live where
  narrow := h.narrow
  disk := by
    refine ⟨?_, h.disk.increasing⟩
    have hsame : (Queue.partlySwept dir swept).withExt lp = dir.withExt lp := by
      rw [Queue.partlySwept, Dir.withExt, Dir.withExt, List.filter_filter]
      refine List.filter_congr fun e _ => ?_
      by_cases he : e.1.ext = lp
      · simp [he, lp_ne_tmp]
      · simp [he]
    rw [hsame]
    exact h.disk.files
  own := fun e he => h.own e (List.mem_filter.mp he).1
  running := by simp

/-- How far a killed spool came. -/
inductive KillPoint where
  | part
  | written
  | renamed
deriving DecidableEq, Repr

/-- The directory a killed spool leaves behind. -/
def tornDir (q : Queue) (dir : Dir β) (body : β) : KillPoint → Dir β
  | .part => dir.write ((segmentName q.nextSeq).withExtension tmp) .part
  | .written => dir.write ((segmentName q.nextSeq).withExtension tmp) (.whole body)
  | .renamed =>
      (dir.write ((segmentName q.nextSeq).withExtension tmp) (.whole body)).rename
        ((segmentName q.nextSeq).withExtension tmp) (segmentName q.nextSeq)

/-- A killed spool leaves a temporary file, or the finished segment. -/
theorem Stored.torn (h : Stored size dir q live) (hn : Narrow live) (hseq : q.nextSeq < 10 ^ 12)
    (body : β) (at_ : KillPoint) :
    Backs size (tornDir q dir body at_) none
      (if at_ = .renamed then live ++ [(q.nextSeq, body)] else live) := by
  -- a file that is not a segment leaves the list as it is
  have hlitter : ∀ c, Backs size
      (dir.write ((segmentName q.nextSeq).withExtension tmp) c) none live := by
    intro c
    rw [Dir.write_of_absent (h.no_tmp q.nextSeq)]
    refine ⟨hn, ⟨?_, h.increasing⟩, ?_, by simp⟩
    · simpa [Dir.withExt, List.filter_append, tmp_ne_lp] using h.files
    · intro e he
      rcases List.mem_append.mp he with he | he
      · exact .inl (h.clean e he)
      · rw [List.mem_singleton.mp he]
        exact .inr rfl
  cases at_ with
  | part => exact hlitter .part
  | written => exact hlitter (.whole body)
  | renamed =>
      rw [if_pos rfl, tornDir, Dir.rename_write, Dir.remove_of_absent (h.no_tmp q.nextSeq),
        Dir.write_of_absent h.fresh]
      exact (Backs.of_stored (h.spooled body) (hn.snoc hseq body)).killed

end

end Tributary.Queue
