import Tributary.Cursor.Transforms
import Tributary.Drain.Framing

/-!
# An entry that cannot be shipped

`map_entry` answers an entry that does not map, coerce, stamp or encode with an error,
and the loop propagates it: the agent ends. The cursor was not moved past the entry, so
an agent that is started again reads it again, and what comes behind it is never read.
-/

namespace Tributary

open Lib Lp Queue Ship Stamp Map

/-! ## Files of a directory -/

namespace Queue.Dir

variable {β : Type} {P : β → Prop} {dir dir' : Dir β} {p : FileName}

/-- The content of every file that is written in full. -/
def Every (P : β → Prop) (dir : Dir β) : Prop := ∀ f ∈ dir, ∀ body, f.2 = .whole body → P body

theorem Every.subset (h : dir.Every P) (hsub : ∀ f ∈ dir', f ∈ dir) : dir'.Every P :=
  fun f hf => h f (hsub f hf)

theorem Every.filter (h : dir.Every P) (keep : FileName × Content β → Bool) :
    Every P (dir.filter keep) :=
  h.subset fun _ hf => (List.mem_filter.mp hf).1

theorem Every.write (h : dir.Every P) {c : Content β} (hc : ∀ body, c = .whole body → P body) :
    (dir.write p c).Every P := by
  intro f hf
  rcases List.mem_append.mp hf with hf | hf
  · exact h f (List.mem_filter.mp hf).1
  · rw [List.mem_singleton.mp hf]
    exact hc

theorem Every.of_get (h : dir.Every P) {c : Content β} (hget : dir.get p = some c) :
    ∀ body, c = .whole body → P body := by
  obtain ⟨f, hf, rfl⟩ := Option.map_eq_some_iff.mp hget
  exact h f (List.mem_of_find?_eq_some hf)

theorem Every.rename (h : dir.Every P) (dst : FileName) : (dir.rename p dst).Every P := by
  unfold Dir.rename
  split
  · rename_i c hget
    exact (h.filter _).write (h.of_get hget)
  · exact h

theorem Every.read (h : dir.Every P) {body : β} (hread : Queue.read dir p = some body) :
    P body := by
  unfold Queue.read at hread
  split at hread
  · rename_i whole hget
    cases hread
    exact h.of_get hget _ rfl
  · cases hread

theorem Every.tornDir (h : dir.Every P) {q : Queue} {body : β} (hbody : P body)
    (at_ : KillPoint) : (tornDir q dir body at_).Every P := by
  have hwhole : ∀ b, Content.whole body = .whole b → P b := by
    rintro _ ⟨⟩
    exact hbody
  cases at_ with
  | part => exact h.write nofun
  | written => exact h.write hwhole
  | renamed => exact (h.write hwhole).rename _

theorem Every.spool (h : dir.Every P) {size : β → Nat} {q : Queue} {body : β} (hbody : P body)
    (io : Io) : (Queue.spool size q dir body io).2.2.Every P := by
  have hwhole : ∀ b, Content.whole body = .whole b → P b := by
    rintro _ ⟨⟩
    exact hbody
  cases io with
  | ok => exact (h.write hwhole).rename _
  | fail at_ e =>
      have hrefuse : ∀ dir' : Dir β, dir'.Every P →
          (if outOfSpace e then
              ((.ok false, q, dir'.remove ((segmentName q.nextSeq).withExtension tmp)) :
                Except IoError Bool × Queue × Dir β)
            else (.error e, q, dir'.remove ((segmentName q.nextSeq).withExtension tmp))).2.2.Every
            P := by
        intro dir' h'
        split <;> exact h'.filter _
      cases at_ with
      | create => exact hrefuse _ h
      | write => exact hrefuse _ (h.write nofun)
      | sync => exact hrefuse _ (h.write hwhole)
      | rename => exact hrefuse _ (h.write hwhole)

theorem Every.push (h : dir.Every P) {size : β → Nat} {q : Queue} {body : β} (hbody : P body)
    (io : Io) : (Queue.push size q dir body io).2.2.Every P := by
  have hspool : (Queue.spool size q dir body io).2.2.Every P := h.spool hbody io
  unfold Queue.push
  split
  · exact h
  · split
    · rename_i hout
      rwa [hout] at hspool
    · exact hspool

end Queue.Dir

/-! ## What a turn of a drain touches -/

section turns

variable {β ℓ : Type} {d : Drainer β ℓ} {s : Spool β ℓ}

/-- Only lines of the batch are acknowledged. -/
theorem Ship.mem_of_acked {blank : ℓ → Bool} {sched : List (Answer ℓ)} {stack : List (List ℓ)}
    {l : ℓ} (h : l ∈ (sendLines blank sched stack).acked) : l ∈ stack.flatten := by
  rw [← accepted_requests] at h
  obtain ⟨p, hp, hl⟩ := List.mem_flatMap.mp h
  obtain ⟨c, hc, hpc⟩ := infix_of_requests (List.mem_filter.mp hp).1
  exact List.mem_flatten.mpr ⟨c, hc, hpc.subset hl⟩

theorem Drainer.retire_frame (path : FileName) :
    (∀ f ∈ (d.retire s path).1.dir, f ∈ s.dir) ∧ (d.retire s path).1.acked = s.acked := by
  unfold Drainer.retire
  split
  · rename_i hpop
    obtain ⟨c, -, heq⟩ := Option.map_eq_some_iff.mp hpop
    cases heq
    exact ⟨fun f hf => (List.mem_filter.mp hf).1, rfl⟩
  · exact ⟨fun _ hf => hf, rfl⟩

/-- A turn adds no file, and what it has accepted are lines of one it read. -/
theorem Drainer.attempt_frame (sched : List (Answer ℓ)) :
    (∀ f ∈ (d.attempt s sched).1.dir, f ∈ s.dir)
      ∧ ∀ y ∈ (d.attempt s sched).1.acked,
        y ∈ s.acked ∨ ∃ path body, Queue.read s.dir path = some body ∧ y.2 ∈ d.split body := by
  cases hfront : s.queue.front with
  | none =>
      simp only [attempt, hfront]
      exact ⟨fun _ hf => hf, fun _ hy => .inl hy⟩
  | some path =>
      cases hread : Queue.read s.dir path with
      | none =>
          simp only [attempt, hfront, hread]
          exact ⟨fun _ hf => hf, fun _ hy => .inl hy⟩
      | some body =>
          -- what is accepted of the segment, whatever becomes of it
          have hacked : ∀ y ∈ s.acked ++ (sendLines d.blank sched [d.split body]).acked.map
              (fun l => (path, l)),
              y ∈ s.acked
                ∨ ∃ path body, Queue.read s.dir path = some body ∧ y.2 ∈ d.split body := by
            intro y hy
            rcases List.mem_append.mp hy with hy | hy
            · exact .inl hy
            · obtain ⟨l, hl, rfl⟩ := List.mem_map.mp hy
              exact .inr ⟨path, body, hread, by simpa using Ship.mem_of_acked hl⟩
          have hretire : ∀ t : Spool β ℓ, t.dir = s.dir →
              t.acked = s.acked ++ (sendLines d.blank sched [d.split body]).acked.map
                (fun l => (path, l)) →
              (∀ f ∈ (d.retire t path).1.dir, f ∈ s.dir) ∧ ∀ y ∈ (d.retire t path).1.acked,
                y ∈ s.acked
                  ∨ ∃ path body, Queue.read s.dir path = some body ∧ y.2 ∈ d.split body := by
            intro t hdir hta
            obtain ⟨hfiles, hsame⟩ := retire_frame (d := d) (s := t) path
            rw [hdir] at hfiles
            rw [hsame, hta]
            exact ⟨hfiles, hacked⟩
          simp only [attempt, hfront, hread]
          split
          · split
            · exact hretire _ rfl rfl
            · exact hretire _ rfl rfl
            · split
              · exact hretire _ rfl rfl
              · exact ⟨fun _ hf => hf, hacked⟩
          · exact ⟨fun _ hf => hf, hacked⟩

end turns

namespace Cursor

variable {ε : Type}

/-! ## Entries that fail -/

/-- The line of the entry does not parse, its timestamp does not, a declared field does not
coerce, or its record has no encoding. -/
def Unmappable (a : Agent ε) (entry : ε) : Prop :=
  (∃ now e, e ≠ .empty
      ∧ mapLine a.libs a.source (entryToJson a.libs (a.kind.fields entry)) now = .error e)
    ∨ ∃ record, Maps a entry record ∧ ¬ record.Encodable

/-- The entry maps to a record, and there is no slot left in the tick of its time. -/
def Unstampable (a : Agent ε) (stamper : Stamper) (entry : ε) : Prop :=
  (∃ record, Maps a entry record) ∧ ∃ e, (stamper.stamp (a.kind.sourceTs entry)).1 = .error e

/-- An entry that fails to map, coerce, stamp or encode. -/
def Fails (a : Agent ε) (stamper : Stamper) (entry : ε) : Prop :=
  Unmappable a entry ∨ Unstampable a stamper entry

/-- The entry the inner loop takes in its next turn. -/
def Process.taken (a : Agent ε) (w : World ε) (p : Process) : Option ε :=
  if p.phase = .reading ∧ p.batch.length < a.batchLines then (w.journal[p.pos]?).map (·.2)
  else none

/-- A turn of the inner loop does not end the agent. -/
def Endures (a : Agent ε) (w : World ε) : Event ε → Prop
  | .next now => ∀ w', step a w (.next now) = some w' → w'.process ≠ none
  | _ => True

/-- The entry that is taken does not fail. -/
def Legible (a : Agent ε) (w : World ε) : Event ε → Prop
  | .next _ => ∀ p ∈ w.process, ∀ entry ∈ p.taken a w, ¬ Fails a p.stamper entry
  | _ => True

/-- Nothing gets past the entry: no reader, no saved cursor, and no record of an entry
behind it is accepted or in a segment. -/
structure Stuck (w : World ε) (i : Nat) : Prop where
  reader : ∀ p ∈ w.process, p.pos ≤ i
  saved : ∀ cp ∈ w.saved, ∀ c, cp.cursor = some c → ∃ k e, w.journal[k]? = some (c, e) ∧ k < i
  shipped : ∀ r, Secured w r → r.entry < i

/-- What a run makes of the entries that fail. -/
structure Halts (a : Agent ε) (es : List (Event ε)) (w : World ε) : Prop where
  endures : Meets (step a) (Endures a) .empty es ↔ Meets (step a) (Legible a) .empty es
  stuck : ∀ i x, w.journal[i]? = some x → Unmappable a x.2 → Stuck w i

variable {a : Agent ε} {w w' : World ε} {p : Process} {entry : ε} {i n : Nat} {r : Rec}

/-! ## Which entries fail -/

/-- Whether a line maps does not depend on the wall clock. -/
theorem mapLine_error_now {libs : Libs} {src : Source} {line : Text} {now : Int} {e : MapError}
    (h : mapLine libs src line now = .error e) (now' : Int) :
    mapLine libs src line now' = .error e := by
  unfold mapLine at *
  by_cases htrim : (trimEol line).trim = []
  · simpa only [if_pos htrim] using h
  · simp only [if_neg htrim] at h ⊢
    cases hparse : parseLine libs src.parser (trimEol line) with
    | error e' => simpa [hparse, bind, Except.bind] using h
    | ok parsed =>
        simp only [hparse, bind, Except.bind, lineTimestamp] at h ⊢
        cases hfield : src.timestamp.field with
        | some key => simpa only [hfield] using h
        | none =>
            simp only [hfield, buildRecord] at h ⊢
            cases hfields : buildFields libs parsed src.fields with
            | error e' => simpa [hfields, bind, Except.bind] using h
            | ok fields => simp [hfields, bind, Except.bind] at h

/-- An entry maps to one record. -/
theorem Maps.eq {record record' : Record} {now ts : Int} (h : Maps a entry record)
    (h' : mapLine a.libs a.source (entryToJson a.libs (a.kind.fields entry)) now
      = .ok (record', ts)) : record' = record := by
  obtain ⟨-, now₀, ts₀, hok⟩ := h
  obtain ⟨-, parsed, fields, hparse, -, hfields, hrecord⟩ := mapLine_eq_ok_iff.mp hok
  obtain ⟨-, parsed', fields', hparse', -, hfields', hrecord'⟩ := mapLine_eq_ok_iff.mp h'
  cases hparse.symm.trans hparse'
  cases hfields.symm.trans hfields'
  rw [hrecord, hrecord']

/-- An entry whose line does not map has no record. -/
theorem not_maps_of_error {record : Record} {now : Int} {e : MapError}
    (h : mapLine a.libs a.source (entryToJson a.libs (a.kind.fields entry)) now = .error e) :
    ¬ Maps a entry record := by
  rintro ⟨-, now', ts, hok⟩
  rw [mapLine_error_now h now'] at hok
  cases hok

/-- **`map_entry` fails on the entries that fail**, and only on these. -/
theorem mapEntry_error_iff {now : Int} {stamper : Stamper} :
    (∃ e, (mapEntry a.libs a.source (a.kind.fields entry) (a.kind.sourceTs entry) now
        stamper).1 = .error e) ↔ Fails a stamper entry := by
  cases hmap : mapLine a.libs a.source (entryToJson a.libs (a.kind.fields entry)) now with
  | error e =>
      have hsame : ∀ now' e', mapLine a.libs a.source
          (entryToJson a.libs (a.kind.fields entry)) now' = .error e' → e' = e := by
        intro now' e' h
        rw [mapLine_error_now hmap now'] at h
        cases h
        rfl
      by_cases hempty : e = .empty
      · -- a blank line is skipped
        subst hempty
        apply iff_of_false
        · simp [mapEntry, hmap]
        · rintro ((⟨now', e', hne, h⟩ | ⟨record, hm, -⟩) | ⟨⟨record, hm⟩, -⟩)
          · exact hne (hsame now' e' h)
          · exact not_maps_of_error hmap hm
          · exact not_maps_of_error hmap hm
      · apply iff_of_true
        · refine ⟨.map e, ?_⟩
          unfold mapEntry
          rw [hmap]
          cases e <;> first | rfl | exact absurd rfl hempty
        · exact .inl (.inl ⟨now, e, hempty, hmap⟩)
  | ok out =>
      obtain ⟨record, ts⟩ := out
      have hno : ∀ now' e', mapLine a.libs a.source
          (entryToJson a.libs (a.kind.fields entry)) now' ≠ .error e' := by
        intro now' e' h
        rw [mapLine_error_now h now] at hmap
        cases hmap
      rw [mapEntry_mapped hmap]
      by_cases hnone : record.fields = []
      · -- no declared field is present
        rw [if_pos hnone]
        apply iff_of_false (by simp)
        rintro ((⟨now', e', -, h⟩ | ⟨record', hm, -⟩) | ⟨⟨record', hm⟩, -⟩)
        · exact hno now' e' h
        · exact hm.1 (hm.eq hmap ▸ hnone)
        · exact hm.1 (hm.eq hmap ▸ hnone)
      · rw [if_neg hnone]
        have hmaps : Maps a entry record := ⟨hnone, now, ts, hmap⟩
        cases hstamp : (stamper.stamp (a.kind.sourceTs entry)).1 with
        | error e =>
            exact iff_of_true ⟨_, rfl⟩ (.inr ⟨⟨record, hmaps⟩, e, hstamp⟩)
        | ok tsNs =>
            have henc : (record.withTs tsNs).Encodable ↔ record.Encodable := .rfl
            cases hencode : (record.withTs tsNs).encode a.libs.display with
            | error e =>
                refine iff_of_true ⟨.encode e, by simp only [hencode]⟩
                  (.inl (.inr ⟨record, hmaps, ?_⟩))
                intro h
                rw [(Record.encode_eq_ok_iff _).mpr ⟨henc.mpr h, rfl⟩] at hencode
                cases hencode
            | ok text =>
                apply iff_of_false (by simp [hencode])
                rintro ((⟨now', e', -, h⟩ | ⟨record', hm, hnot⟩) | ⟨-, e, he⟩)
                · exact hno now' e' h
                · rw [← hm.eq hmap] at hnot
                  exact hnot (henc.mp ((Record.encode_eq_ok_iff _).mp hencode).1)
                · rw [hstamp] at he
                  cases he

/-! ## The turn that reads -/

/-- **The agent ends in a turn of the inner loop** exactly if the entry it takes fails. -/
theorem next_ends_iff {now : Int} (hp : w.process = some p) (hn : step a w (.next now) = some w') :
    w'.process = none ↔ ∃ entry ∈ p.taken a w, Fails a p.stamper entry := by
  have hn : next a w p now = some w' := by simpa [step, hp] using hn
  unfold next at hn
  split at hn
  · cases hn
  · rename_i hphase
    have hphase : p.phase = .reading := not_not.mp hphase
    split at hn
    · rename_i hroom
      have htaken : p.taken a w = (w.journal[p.pos]?).map (·.2) := if_pos ⟨hphase, hroom⟩
      rw [htaken]
      split at hn
      · rename_i htail
        cases hn
        simp [htail]
      · rename_i cursor entry hx
        have hiff : (∃ e, (mapEntry a.libs a.source (a.kind.fields entry) (a.kind.sourceTs entry)
            now p.stamper).1 = .error e) ↔ Fails a p.stamper entry := mapEntry_error_iff
        rw [hx]
        split at hn
        · rename_i e _ hm
          cases hn
          exact iff_of_true rfl ⟨entry, rfl, hiff.mp ⟨e, by rw [hm]⟩⟩
        · rename_i out stamper hm
          cases hn
          apply iff_of_false (Option.some_ne_none _)
          rintro ⟨_, ⟨⟩, hf⟩
          obtain ⟨e, he⟩ := hiff.mpr hf
          rw [hm] at he
          cases he
    · rename_i hfull
      have htaken : p.taken a w = none := if_neg fun h => hfull h.2
      cases hn
      simp [htaken]

/-- An agent that reads can take its turn. -/
theorem next_enabled {now : Int} (hp : w.process = some p) (ht : p.taken a w ≠ none) :
    step a w (.next now) ≠ none := by
  have hreads : p.phase = .reading ∧ p.batch.length < a.batchLines := by
    by_contra hnot
    exact ht (if_neg hnot)
  simp only [step, hp, Option.bind_some, next, hreads.1, ne_eq, not_true_eq_false, if_false,
    hreads.2, if_true]
  split
  · simp
  · split <;> simp

theorem endures_iff (e : Event ε) : Endures a w e ↔ Legible a w e := by
  cases e with
  | next now =>
      constructor
      · rintro h p hp entry hentry hfails
        have hen : step a w (.next now) ≠ none :=
          next_enabled hp fun hnone => by simp [hnone] at hentry
        obtain ⟨w', hw'⟩ := Option.ne_none_iff_exists'.mp hen
        exact h w' hw' ((next_ends_iff hp hw').mpr ⟨entry, hentry, hfails⟩)
      · intro h w' hw' hnone
        cases hp : w.process with
        | none => simp [step, hp] at hw'
        | some p =>
            obtain ⟨entry, hentry, hfails⟩ := (next_ends_iff hp hw').mp hnone
            exact h p hp entry hentry hfails
  | _ => exact .rfl

/-! ## What has been passed -/

/-- The first `n` entries are there, and none of them is unmappable. -/
def Clear (a : Agent ε) (w : World ε) (n : Nat) : Prop :=
  n ≤ w.journal.length ∧ ∀ j < n, ∀ x, w.journal[j]? = some x → ¬ Unmappable a x.2

theorem Clear.le (h : Clear a w n) {x : Text × ε} (hx : w.journal[i]? = some x)
    (hu : Unmappable a x.2) : n ≤ i :=
  Nat.le_of_not_lt fun hi => h.2 i hi x hx hu

theorem Clear.mono (h : Clear a w n) {m : Nat} (hm : m ≤ n) : Clear a w m :=
  ⟨Nat.le_trans hm h.1, fun j hj => h.2 j (Nat.lt_of_lt_of_le hj hm)⟩

/-- The journal only grows at its end. -/
theorem get_of_prefix {journal journal' : List (Text × ε)} (hj : journal <+: journal')
    {x : Text × ε} (hx : journal[i]? = some x) : journal'[i]? = some x := by
  obtain ⟨rest, rfl⟩ := hj
  rw [List.getElem?_append_left (List.getElem?_eq_some_iff.mp hx).1]
  exact hx

theorem Clear.grow (h : Clear a w n) (hj : w.journal <+: w'.journal) : Clear a w' n := by
  obtain ⟨rest, hrest⟩ := hj
  refine ⟨Nat.le_trans h.1 (by simp [← hrest]), fun j hlt x hx => ?_⟩
  rw [← hrest, List.getElem?_append_left (Nat.lt_of_lt_of_le hlt h.1)] at hx
  exact h.2 j hlt x hx

/-- An entry that was taken is passed. -/
theorem Clear.succ (h : Clear a w n) {x : Text × ε} (hx : w.journal[n]? = some x)
    (hnot : ¬ Unmappable a x.2) : Clear a w (n + 1) := by
  refine ⟨(List.getElem?_eq_some_iff.mp hx).1, fun j hj y hy => ?_⟩
  rcases Nat.lt_succ_iff_lt_or_eq.mp hj with hj | rfl
  · exact h.2 j hj y hy
  · cases hx.symm.trans hy
    exact hnot

/-- Where the reader of a running agent stands. -/
structure Reader (a : Agent ε) (w : World ε) (p : Process) : Prop where
  clear : Clear a w p.pos
  batch : ∀ r ∈ p.batch, Clear a w (r.entry + 1)
  last : ∀ c, p.lastCursor = some c → ∃ k e, w.journal[k]? = some (c, e) ∧ Clear a w (k + 1)

theorem Reader.grow (h : Reader a w p) (hj : w.journal <+: w'.journal) : Reader a w' p where
  clear := h.clear.grow hj
  batch := fun r hr => (h.batch r hr).grow hj
  last := by
    intro c hc
    obtain ⟨k, e, hk, hclear⟩ := h.last c hc
    exact ⟨k, e, get_of_prefix hj hk, hclear.grow hj⟩

/-- **Only entries that map are passed**, in memory and on disk. -/
structure Passed (a : Agent ε) (w : World ε) : Prop where
  cursors : (w.journal.map (·.1)).Nodup
  saved : ∀ cp ∈ w.saved, ∀ c, cp.cursor = some c →
    ∃ k e, w.journal[k]? = some (c, e) ∧ Clear a w (k + 1)
  acked : ∀ r ∈ w.acked, Clear a w (r.entry + 1)
  stored : w.dir.Every fun batch => ∀ r ∈ batch, Clear a w (r.entry + 1)
  running : ∀ p ∈ w.process, Reader a w p

/-- No agent runs. -/
theorem no_reader : ∀ p ∈ (none : Option Process), Reader a w p :=
  fun p hp => absurd hp (Option.not_mem_none p)

theorem Passed.empty : Passed a (.empty : World ε) where
  cursors := List.nodup_nil
  saved := fun cp hcp => absurd hcp (Option.not_mem_none cp)
  acked := by simp [World.empty]
  stored := by simp [World.empty, Dir.Every]
  running := no_reader

theorem Passed.append (h : Passed a w) {cursor : Text} {entry : ε}
    (hc : cursor ∉ w.journal.map (·.1)) :
    Passed a { w with journal := w.journal ++ [(cursor, entry)] } := by
  have hj : w.journal <+: w.journal ++ [(cursor, entry)] := List.prefix_append _ _
  refine ⟨?_, ?_, fun r hr => (h.acked r hr).grow hj, ?_, fun p hp => (h.running p hp).grow hj⟩
  · rw [List.map_append, List.nodup_append]
    refine ⟨h.cursors, List.nodup_singleton _, ?_⟩
    rintro x hx y hy rfl
    rw [List.map_singleton, List.mem_singleton] at hy
    rw [hy] at hx
    exact hc hx
  · intro cp hcp c hcur
    obtain ⟨k, e, hk, hclear⟩ := h.saved cp hcp c hcur
    exact ⟨k, e, get_of_prefix hj hk, hclear.grow hj⟩
  · exact fun f hf body hbody r hr => (h.stored f hf body hbody r hr).grow hj

theorem Passed.boot (h : Passed a w) :
    Passed a { w with
      dir := (Queue.open drain.size w.dir a.queueMaxBytes).1
      process := some (.start a.source w.saved (seek w.journal (w.saved.bind (·.cursor)))
        (Queue.open drain.size w.dir a.queueMaxBytes).2) } where
  cursors := h.cursors
  saved := h.saved
  acked := h.acked
  stored := h.stored.filter _
  running := by
    rintro _ ⟨⟩
    refine ⟨?_, by simp [Process.start], by simp [Process.start]⟩
    show Clear a w (seek w.journal (w.saved.bind (·.cursor)))
    cases hc : w.saved.bind (·.cursor) with
    | none => exact ⟨Nat.zero_le _, fun j hj => absurd hj (Nat.not_lt_zero j)⟩
    | some c =>
        obtain ⟨cp, hcp, hcur⟩ := Option.bind_eq_some_iff.mp hc
        obtain ⟨k, e, hk, hclear⟩ := h.saved cp hcp c hcur
        rw [seek_saved h.cursors hk]
        exact hclear

theorem Reader.turned (h : Reader a w p) {queue : Queue} {more : Bool} {p' : Process}
    (hp : p.turned queue more = some p') : Reader a w p' := by
  unfold Process.turned Process.drained at hp
  split at hp
  · cases hp
    exact ⟨h.clear, h.batch, h.last⟩
  · split at hp
    · cases hp
      exact ⟨h.clear, by simp [Process.newPass], by simp [Process.newPass]⟩
    · cases hp
      exact ⟨h.clear, h.batch, h.last⟩
    · cases hp

/-- A record in a line of a segment. -/
theorem mem_of_split {batch : List Rec} (h : some r ∈ drain.split batch) : r ∈ batch := by
  rcases mem_or_eq_of_mem_intersperse h with h | h
  · obtain ⟨r', hr', heq⟩ := List.mem_map.mp h
    cases heq
    exact hr'
  · cases h

theorem Passed.turn (h : Passed a w) (hp : w.process = some p) {sched : List (Answer (Option Rec))}
    (ht : Cursor.turn w p sched = some w') : Passed a w' := by
  unfold Cursor.turn at ht
  split at ht
  · cases ht
  · split at ht
    · cases ht
    · cases ht
      obtain ⟨hfiles, hacked⟩ := Drainer.attempt_frame (d := drain) (s := p.spool w.dir) sched
      refine ⟨h.cursors, h.saved, ?_, h.stored.subset hfiles, fun p' hp' =>
        ((h.running p hp).turned hp').grow (List.prefix_refl _)⟩
      intro r hr
      rcases List.mem_append.mp hr with hr | hr
      · exact h.acked r hr
      · obtain ⟨y, hy, hyr⟩ := List.mem_filterMap.mp hr
        rcases hacked y hy with hy | ⟨path, batch, hread, hl⟩
        · cases hy
        · rw [hyr] at hl
          exact h.stored.read hread r (mem_of_split hl)

theorem Passed.turnKilled (h : Passed a w) {sched : List (Answer (Option Rec))} {removed : Bool}
    (ht : Cursor.turnKilled w p sched removed = some w') : Passed a w' := by
  unfold Cursor.turnKilled at ht
  split at ht
  · cases ht
  · split at ht
    · rename_i sent path hcall hfront
      split at ht
      · cases ht
      · cases ht
        refine ⟨h.cursors, h.saved, ?_, ?_, no_reader⟩
        · intro r hr
          rcases List.mem_append.mp hr with hr | hr
          · exact h.acked r hr
          · obtain ⟨l, hl, rfl⟩ := List.mem_filterMap.mp hr
            obtain ⟨batch, hread, rfl⟩ := Option.map_eq_some_iff.mp hcall
            obtain ⟨path', -, hread⟩ := Option.bind_eq_some_iff.mp hread
            have hm : some r ∈ drain.split batch := by simpa using Ship.mem_of_acked hl
            exact h.stored.read hread r (mem_of_split hm)
        · cases removed with
          | false => exact h.stored
          | true => exact h.stored.filter _
    · cases ht

theorem Passed.next (h : Passed a w) (hp : w.process = some p) {now : Int}
    (hn : Cursor.next a w p now = some w') : Passed a w' := by
  have hrun := h.running p hp
  unfold Cursor.next at hn
  split at hn
  · cases hn
  · split at hn
    · split at hn
      · cases hn
        exact { h with running := by rintro _ ⟨⟩; exact ⟨hrun.clear, hrun.batch, hrun.last⟩ }
      · rename_i cursor entry hx
        split at hn
        · cases hn
          exact { h with running := no_reader }
        · rename_i out stamper hm
          cases hn
          -- an entry that was taken is no unmappable one
          have hnot : ¬ Unmappable a entry := by
            intro hu
            obtain ⟨e, he⟩ := mapEntry_error_iff.mpr (.inl hu)
            rw [hm] at he
            cases he
          have hclear := hrun.clear.succ hx hnot
          refine { h with running := ?_ }
          rintro _ ⟨⟩
          refine ⟨hclear, ?_, ?_⟩
          · intro r hr
            rcases List.mem_append.mp hr with hr | hr
            · exact hrun.batch r hr
            · obtain ⟨text, -, rfl⟩ := by simpa using hr
              exact hclear
          · rintro c ⟨⟩
            exact ⟨p.pos, entry, hx, hclear⟩
    · cases hn
      exact { h with running := by rintro _ ⟨⟩; exact ⟨hrun.clear, hrun.batch, hrun.last⟩ }

theorem Passed.push (h : Passed a w) (hp : w.process = some p) {io : Io}
    (hpush : Cursor.push w p io = some w') : Passed a w' := by
  have hrun := h.running p hp
  have hdir : (Queue.push drain.size p.queue w.dir p.batch io).2.2.Every fun batch =>
      ∀ r ∈ batch, Clear a w (r.entry + 1) := h.stored.push hrun.batch io
  unfold Cursor.push at hpush
  split at hpush
  · cases hpush
  · split at hpush
    · rename_i hout
      cases hpush
      rw [hout] at hdir
      exact { h with stored := hdir, running := no_reader }
    · rename_i hout
      cases hpush
      rw [hout] at hdir
      refine { h with stored := hdir, running := ?_ }
      rintro _ ⟨⟩
      exact ⟨hrun.clear, hrun.batch, hrun.last⟩

/-- The agent goes on in another phase. -/
theorem Passed.goOn (h : Passed a w) (hp : w.process = some p) (phase : Phase) :
    Passed a { w with process := some { p with phase } } where
  cursors := h.cursors
  saved := h.saved
  acked := h.acked
  stored := h.stored
  running := by
    rintro _ ⟨⟩
    have hrun := h.running p hp
    exact ⟨hrun.clear, hrun.batch, hrun.last⟩

theorem Passed.step {e : Event ε} (h : Passed a w) (hs : Cursor.step a w e = some w') :
    Passed a w' := by
  cases e with
  | append cursor entry =>
      simp only [Cursor.step] at hs
      split at hs
      · cases hs
      · rename_i hc
        cases hs
        exact h.append hc
  | boot =>
      simp only [Cursor.step] at hs
      split at hs
      · cases hs
      · cases hs
        exact h.boot
  | bootKilled swept =>
      simp only [Cursor.step] at hs
      split at hs
      · cases hs
      · cases hs
        exact { h with
          stored := h.stored.filter _
          running := fun p hp => (h.running p hp).grow (List.prefix_refl _) }
  | turn sched =>
      obtain ⟨p, hp, ht⟩ := Option.bind_eq_some_iff.mp hs
      exact h.turn hp ht
  | turnKilled sched removed =>
      obtain ⟨p, hp, ht⟩ := Option.bind_eq_some_iff.mp hs
      exact h.turnKilled ht
  | next now =>
      obtain ⟨p, hp, ht⟩ := Option.bind_eq_some_iff.mp hs
      exact h.next hp ht
  | push io =>
      obtain ⟨p, hp, ht⟩ := Option.bind_eq_some_iff.mp hs
      exact h.push hp ht
  | pushKilled at_ =>
      obtain ⟨p, hp, ht⟩ := Option.bind_eq_some_iff.mp hs
      unfold Cursor.pushKilled at ht
      split at ht
      · cases ht
      · cases ht
        exact { h with
          stored := h.stored.tornDir (h.running p hp).batch at_
          running := no_reader }
  | skip =>
      obtain ⟨p, hp, ht⟩ := Option.bind_eq_some_iff.mp hs
      unfold Cursor.skip at ht
      split at ht
      · cases ht
      · split at ht
        · cases ht
          exact h.goOn hp _
        · cases ht
          exact h.goOn hp _
  | save =>
      obtain ⟨p, hp, ht⟩ := Option.bind_eq_some_iff.mp hs
      unfold Cursor.save at ht
      split at ht
      · cases ht
      · cases ht
        have hrun := h.running p hp
        refine { h with saved := ?_, running := ?_ }
        · rintro _ ⟨⟩ c hc
          exact hrun.last c hc
        · rintro _ ⟨⟩
          exact ⟨hrun.clear, hrun.batch, hrun.last⟩
  | again =>
      obtain ⟨p, hp, ht⟩ := Option.bind_eq_some_iff.mp hs
      unfold Cursor.again at ht
      split at ht
      · cases ht
      · split at ht
        · cases ht
          exact h.goOn hp _
        · cases ht
          refine { h with running := ?_ }
          rintro _ ⟨⟩
          exact ⟨(h.running p hp).clear, by simp [Process.newPass], by simp [Process.newPass]⟩
  | kill =>
      obtain ⟨p, hp, rfl⟩ := Option.map_eq_some_iff.mp hs
      exact { h with running := no_reader }

/-! ## Runs -/

/-- Behind an entry that cannot be mapped there is nothing that was passed. -/
theorem Passed.stuck (h : Passed a w) {x : Text × ε} (hx : w.journal[i]? = some x)
    (hu : Unmappable a x.2) : Stuck w i where
  reader := fun p hp => (h.running p hp).clear.le hx hu
  saved := by
    intro cp hcp c hc
    obtain ⟨k, e, hk, hclear⟩ := h.saved cp hcp c hc
    exact ⟨k, e, hk, hclear.le hx hu⟩
  shipped := by
    rintro r (hr | ⟨path, batch, hm, -, hr⟩)
    · exact (h.acked r hr).le hx hu
    · exact (h.stored _ hm batch rfl r hr).le hx hu

theorem halts (a : Agent ε) (es : List (Event ε)) (hr : run (step a) .empty es = some w) :
    Halts a es w where
  endures := by
    have hsame : Endures a = Legible a := by
      funext w e
      exact propext (endures_iff e)
    rw [hsame]
  stuck := fun i x hx hu =>
    (run_preserves (fun _ _ _ h hs => h.step hs) .empty hr : Passed a w).stuck hx hu

/-- **No run goes on behind an entry that fails**: a run reads through exactly if no entry
fails where it is read; and an entry that cannot be mapped is never passed, by a reader, a
saved cursor or a record of an entry behind it, over any number of restarts. -/
theorem failing_entry_stops (libs : Libs) (source : Source) (queueMaxBytes batchLines : Nat)
    (once : Bool) :
    (∀ es w,
        run (step (runJournald libs source queueMaxBytes batchLines once)) .empty es = some w →
        Halts (runJournald libs source queueMaxBytes batchLines once) es w)
      ∧ ∀ es w,
        run (step (runWinlog libs source queueMaxBytes batchLines once)) .empty es = some w →
        Halts (runWinlog libs source queueMaxBytes batchLines once) es w :=
  ⟨fun es _ hr => halts _ es hr, fun es _ hr => halts _ es hr⟩

/-- The JSON library on an entry whose priority is a word. -/
def wordLibs : Libs :=
  { demoLibs with
    parseJson := fun _ => .ok [("PRIORITY".toList, .string "notice".toList)]
    render := fun _ => "\x7b\"PRIORITY\":\"notice\"\x7d".toList }

/-- A source that declares the priority as a number. -/
def prioritySource : Source := { demoSource with fields := [("PRIORITY".toList, .integer)] }

def notice : Journald.Entry := ⟨[("PRIORITY".toList, "notice".toList)], 5⟩

/-- The entry is read, and read again by the agent that is started after. -/
def restarted : List (Event Journald.Entry) :=
  [.append ['a'] notice, .append ['b'] notice, .boot, .turn [], .next 0, .boot, .turn [], .next 0]

/-- A word is no integer. -/
theorem unmappable_notice :
    Unmappable (runJournald wordLibs prioritySource 60 1 true) notice := by
  refine .inl ⟨0, _, ?_, rfl⟩
  intro h
  cases h

/-- Neither agent gets past the first entry. -/
theorem failing_entry_stops_restarted :
    ∃ w, run (step (runJournald wordLibs prioritySource 60 1 true)) .empty restarted = some w
      ∧ w.process = none ∧ Stuck w 0 :=
  ⟨_, rfl, rfl, ((failing_entry_stops wordLibs prioritySource 60 1 true).1 restarted _ rfl).stuck 0
    (['a'], notice) rfl unmappable_notice⟩

/-- A word in a field that is declared as a number ends the agent. -/
theorem word_for_number_ends :
    ¬ ∀ (libs : Libs) (source : Source) (queueMaxBytes batchLines : Nat) (once : Bool)
      (es : List (Event Journald.Entry)),
      Meets (step (runJournald libs source queueMaxBytes batchLines once))
        (Endures (runJournald libs source queueMaxBytes batchLines once)) .empty es := by
  intro h
  have hmeets := h wordLibs prioritySource 60 1 true
    [.append ['a'] notice, .boot, .turn [], .next 0]
  have hread := (((hmeets.2 _ rfl).2 _ rfl).2 _ rfl).1
  exact hread _ rfl rfl

end Cursor

end Tributary
