import Tributary.Cursor
import Tributary.Lp.Encode
import Tributary.Otlp
import Tributary.Ship.Requests

/-!
# Framing

A batch of encoded records becomes the text of one segment, the segment becomes a
list of lines again, and the lines are posted in chunks that put no separator
between them. Whether a posted body is still a sequence of whole records depends
on where the newlines went on the way.
-/

namespace Tributary

open Lp Ship

/-! ## Segments -/

/-- The loops that spool encoded records and drain them again. -/
inductive Pipeline where
  | fileTail
  | otlp
  | metrics
  | journald
  | winlog
deriving DecidableEq, Repr

namespace Pipeline

/-- The text of the segment a batch of encoded records is spooled as. -/
def spool (p : Pipeline) (batch : List Text) : Text :=
  match p with
  -- `lines.concat()`
  | .fileTail => batch.flatten
  -- each record encoded into the one buffer
  | .otlp | .metrics => batch.foldl (· ++ ·) []
  -- `batch.join("\n")`
  | .journald | .winlog => ['\n'].intercalate batch

/-- The loop that drains it. -/
def drainer : Pipeline → Drainer Text Text
  | .fileTail => drainQueue
  | .otlp => Otlp.drain
  | .metrics => Metrics.drain
  | .journald => Journald.drain
  | .winlog => Winlog.drain

/-- A body holds whole records of the batch, in order and next to each other, with
a newline between them. -/
def WholeRecords (batch : List Text) (body : Text) : Prop :=
  ∃ run, run <:+: batch ∧ (body = run.flatten ∨ body ++ ['\n'] = run.flatten)

/-- Whatever the server answers, every body posted from the segment holds whole
records. -/
def Framed (p : Pipeline) (batch : List Text) : Prop :=
  ∀ sched, ∀ post ∈ requests p.drainer.blank sched [p.drainer.split (p.spool batch)],
    WholeRecords batch post.1.flatten

/-- The segments of the journal loop are those of the cursor agent. -/
theorem spool_journald (batch : List Cursor.Rec) :
    Pipeline.journald.spool (batch.map Cursor.Rec.text) = Cursor.body batch := rfl

/-- The batches of a pipeline that ends every record with its newline, and of one that
has the newline only between records. -/
def Concatenates (p : Pipeline) : Prop := p ≠ .journald ∧ p ≠ .winlog

instance : DecidablePred Concatenates := fun _ => inferInstanceAs (Decidable (_ ∧ _))

theorem foldl_append_eq (batch : List Text) (out : Text) :
    batch.foldl (· ++ ·) out = out ++ batch.flatten := by
  induction batch generalizing out with
  | nil => simp
  | cons t batch ih => simp [ih]

/-- Where records are put one behind the other, the drain finds them again. -/
theorem split_spool_of_concatenates {p : Pipeline} (hp : p.Concatenates) {batch : List Text}
    (hlines : ∀ t ∈ batch, Record.OneLine t) : p.drainer.split (p.spool batch) = batch := by
  have hsplit := Record.splitInclusive_flatten hlines
  cases p with
  | fileTail => exact hsplit
  | otlp =>
      rw [spool, foldl_append_eq]
      exact hsplit
  | metrics =>
      rw [spool, foldl_append_eq]
      exact hsplit
  | journald => exact absurd rfl hp.1
  | winlog => exact absurd rfl hp.2

theorem framed_of_concatenates {p : Pipeline} (hp : p.Concatenates) {batch : List Text}
    (hlines : ∀ t ∈ batch, Record.OneLine t) : p.Framed batch := by
  intro sched post hpost
  rw [split_spool_of_concatenates hp hlines] at hpost
  obtain ⟨c, hc, hinfix⟩ := infix_of_requests hpost
  rw [List.mem_singleton.mp hc] at hinfix
  exact ⟨post.1, hinfix, .inl rfl⟩

/-! ## Joined batches -/

/-- The records of a batch without their newlines. -/
def contents (batch : List Text) : List Text := batch.map List.dropLast

theorem contents_cons {u : Text} (batch : List Text) :
    contents ((u ++ ['\n']) :: batch) = u :: contents batch := by
  simp [contents]

/-- Newlines between lines that have their own leave blank lines between. -/
theorem lines_join {batch : List Text} (hlines : ∀ t ∈ batch, Record.OneLine t) :
    Text.lines (['\n'].intercalate batch) = (contents batch).intersperse [] := by
  induction batch with
  | nil => rfl
  | cons t batch ih =>
      obtain ⟨⟨u, rfl, hu⟩, hrest⟩ := List.forall_mem_cons.mp hlines
      have ih := ih hrest
      rw [contents_cons]
      cases batch with
      | nil =>
          have hone := hu.lines []
          simpa [List.intercalate, contents] using hone
      | cons t' batch =>
          have hblank : Text.Printable [] := fun c hc => absurd hc List.not_mem_nil
          have hjoin : ['\n'].intercalate ((u ++ ['\n']) :: t' :: batch)
              = u ++ '\n' :: ([] ++ '\n' :: ['\n'].intercalate (t' :: batch)) := by
            simp [List.intercalate]
          rw [hjoin, hu.lines, hblank.lines, ih, contents, List.map_cons]
          rfl

theorem flatten_intersperse_nil (ts : List Text) : (ts.intersperse []).flatten = ts.flatten := by
  induction ts with
  | nil => rfl
  | cons t ts ih =>
      cases ts with
      | nil => rfl
      | cons t' ts =>
          rw [List.intersperse_cons_cons, List.flatten_cons, List.flatten_cons, ih]
          rfl

/-- A text that is the content of a record of the batch, and of all of them one after
the other, is the only one. -/
theorem length_le_one_of_flatten_mem {us : List Text} (hne : ∀ u ∈ us, u ≠ [])
    (h : us.flatten ∈ us) : us.length ≤ 1 := by
  obtain ⟨a, b, hab⟩ := List.append_of_mem h
  have hlen := congrArg (fun us => (List.flatten us).length) hab
  simp only [List.flatten_append, List.flatten_cons, List.length_append] at hlen
  have hnil : ∀ l : List Text, (∀ u ∈ l, u ∈ us) → l.flatten.length = 0 → l = [] := by
    intro l hl hzero
    cases l with
    | nil => rfl
    | cons u l =>
        have hu := List.length_pos_iff.mpr (hne u (hl u (List.mem_cons_self ..)))
        simp only [List.flatten_cons, List.length_append] at hzero
        omega
  have ha := hnil a (fun u hu => by rw [hab]; simp [hu]) (by omega)
  have hb := hnil b (fun u hu => by rw [hab]; simp [hu]) (by omega)
  rw [hab, ha, hb]
  simp

/-- Run together, the records of a joined batch are no records of it. -/
theorem not_wholeRecords {batch : List Text} (hlines : ∀ t ∈ batch, Record.OneLine t)
    (hne : ∀ u ∈ contents batch, u ≠ []) (htwo : 1 < batch.length) :
    ¬ WholeRecords batch (contents batch).flatten := by
  have hprint : Text.Printable (contents batch).flatten := by
    intro c hc
    obtain ⟨u, hu, hcu⟩ := List.mem_flatten.mp hc
    obtain ⟨t, ht, rfl⟩ := List.mem_map.mp hu
    obtain ⟨v, rfl, hv⟩ := hlines t ht
    exact hv c (by simpa using hcu)
  have hbody : (contents batch).flatten ≠ [] := by
    obtain ⟨t, batch, rfl⟩ := List.exists_cons_of_length_pos (Nat.lt_trans Nat.zero_lt_one htwo)
    have hhead := hne _ (List.mem_cons_self ..)
    rw [contents, List.map_cons, List.flatten_cons]
    exact fun h => hhead (List.append_eq_nil_iff.mp h).1
  rintro ⟨run, hrun, heq | heq⟩
  · cases run with
    | nil => exact hbody heq
    | cons t run =>
        obtain ⟨v, rfl, -⟩ := hlines t (hrun.subset (List.mem_cons_self ..))
        have hnl : '\n' ∈ (contents batch).flatten := by
          rw [heq]
          simp
        exact absurd (hprint _ hnl) (by decide)
  · -- the run is the one line
    have hcut : run = [(contents batch).flatten ++ ['\n']] :=
      calc run = Text.splitInclusive run.flatten :=
            (Record.splitInclusive_flatten fun t ht => hlines t (hrun.subset ht)).symm
        _ = Text.splitInclusive ((contents batch).flatten ++ ['\n']) := by rw [heq]
        _ = [(contents batch).flatten ++ ['\n']] := hprint.splitInclusive []
    have hmem : (contents batch).flatten ++ ['\n'] ∈ batch :=
      hrun.subset (hcut ▸ List.mem_cons_self ..)
    have hcontent : (contents batch).flatten ∈ contents batch :=
      List.mem_map.mpr ⟨_, hmem, List.dropLast_concat⟩
    have hone := length_le_one_of_flatten_mem hne hcontent
    rw [contents, List.length_map] at hone
    omega

theorem content_ne_nil_of_encoding {t : Text} {r : Record} (h : Record.encoding r = some t) :
    t.dropLast ≠ [] := by
  rw [Record.encoding_eq] at h
  cases hr : r.encode F64.display with
  | error e =>
      rw [hr] at h
      cases h
  | ok u =>
      rw [hr] at h
      cases h
      rw [((Record.encode_eq_ok_iff _).mp hr).2, Record.line_eq, List.dropLast_concat]
      exact Record.content_ne_nil r

theorem oneLine_of_mem {rs : List Record} {t : Text}
    (h : t ∈ rs.filterMap Record.encoding) : Record.OneLine t := by
  obtain ⟨r, -, hr⟩ := List.mem_filterMap.mp h
  exact Record.oneLine_of_encoding hr

theorem content_ne_nil_of_mem {rs : List Record} {u : Text}
    (h : u ∈ contents (rs.filterMap Record.encoding)) : u ≠ [] := by
  obtain ⟨t, ht, rfl⟩ := List.mem_map.mp h
  obtain ⟨r, -, hr⟩ := List.mem_filterMap.mp ht
  exact content_ne_nil_of_encoding hr

/-- What the other drains make of a batch. -/
theorem split_spool_of_joins {p : Pipeline} (hp : ¬ p.Concatenates) {batch : List Text}
    (hlines : ∀ t ∈ batch, Record.OneLine t) :
    p.drainer.split (p.spool batch) = (contents batch).intersperse [] ∧
      p.drainer.blank = List.isEmpty := by
  cases p with
  | journald => exact ⟨lines_join hlines, rfl⟩
  | winlog => exact ⟨lines_join hlines, rfl⟩
  | fileTail => exact absurd (by decide) hp
  | otlp => exact absurd (by decide) hp
  | metrics => exact absurd (by decide) hp

/-- The first request carries the whole batch, and no newline. -/
theorem not_framed_of_joins {p : Pipeline} (hp : ¬ p.Concatenates) {batch : List Text}
    (hlines : ∀ t ∈ batch, Record.OneLine t) (hne : ∀ u ∈ contents batch, u ≠ [])
    (htwo : 1 < batch.length) : ¬ p.Framed batch := by
  intro h
  obtain ⟨hsplit, hblank⟩ := split_spool_of_joins hp hlines
  rw [Framed, hsplit, hblank] at h
  have hbody : ((contents batch).intersperse []).flatten ≠ [] := by
    rw [flatten_intersperse_nil]
    obtain ⟨t, batch, rfl⟩ :=
      List.exists_cons_of_length_pos (Nat.lt_trans Nat.zero_lt_one htwo)
    have hhead := hne _ (List.mem_cons_self ..)
    rw [contents, List.map_cons, List.flatten_cons]
    exact fun h => hhead (List.append_eq_nil_iff.mp h).1
  have hpost : toPost List.isEmpty [(contents batch).intersperse []]
      = [(contents batch).intersperse []] := by
    have hall : ((contents batch).intersperse []).all List.isEmpty = false := by
      rw [Bool.eq_false_iff]
      intro hall
      refine hbody (List.flatten_eq_nil_iff.mpr fun l hl => ?_)
      exact List.isEmpty_iff.mp (List.all_eq_true.mp hall l hl)
    rw [toPost, List.dropWhile_cons_of_neg (by simp [hall])]
  obtain ⟨more, hrequests, -⟩ := requests_cases hpost (fun _ => .status 204 none "") []
  have hwhole := h [fun _ => .status 204 none ""] _ (hrequests ▸ List.mem_cons_self ..)
  rw [flatten_intersperse_nil] at hwhole
  exact not_wholeRecords hlines hne htwo hwhole

/-- A batch of one record is its own line, without the newline. -/
theorem framed_of_short {p : Pipeline} (hp : ¬ p.Concatenates) {batch : List Text}
    (hlines : ∀ t ∈ batch, Record.OneLine t) (hshort : batch.length ≤ 1) : p.Framed batch := by
  intro sched post hpost
  rw [(split_spool_of_joins hp hlines).1] at hpost
  obtain ⟨c, hc, hinfix⟩ := infix_of_requests hpost
  rw [List.mem_singleton.mp hc] at hinfix
  match batch, hshort, hlines with
  | [], _, _ =>
      rw [List.infix_nil.mp hinfix]
      exact ⟨[], List.infix_rfl, .inl rfl⟩
  | [t], _, hlines =>
      obtain ⟨u, rfl, -⟩ := hlines t (List.mem_cons_self ..)
      have hsub : post.1.Sublist [u] := by simpa [contents] using hinfix.sublist
      rcases List.sublist_singleton.mp hsub with hnil | hone
      · exact ⟨[], List.nil_infix, .inl (by rw [hnil])⟩
      · exact ⟨[u ++ ['\n']], List.infix_rfl, .inr (by rw [hone]; simp)⟩

/-- **Framing survives exactly where records keep their own newline**: in the pipelines
that concatenate, and in the others for at most one record. -/
theorem framed_iff (p : Pipeline) (rs : List Record) :
    p.Framed (rs.filterMap Record.encoding)
      ↔ p.Concatenates ∨ (rs.filterMap Record.encoding).length ≤ 1 := by
  have hlines : ∀ t ∈ rs.filterMap Record.encoding, Record.OneLine t := fun t => oneLine_of_mem
  by_cases hp : p.Concatenates
  · exact iff_of_true (framed_of_concatenates hp hlines) (.inl hp)
  by_cases hshort : (rs.filterMap Record.encoding).length ≤ 1
  · exact iff_of_true (framed_of_short hp hlines hshort) (.inr hshort)
  · have hnot := not_framed_of_joins hp hlines (fun u => content_ne_nil_of_mem)
      (Nat.not_le.mp hshort)
    exact iff_of_false hnot fun h => h.elim hp hshort

/-! ## Two journal entries -/

/-- A record of the journal with one message. -/
def messageRecord (message : String) : Record :=
  { table := "logs".toList, tags := [("stream".toList, "j".toList)]
    fields := [("MESSAGE".toList, .str message.toList)], tsNs := 0 }

/-- Two entries in one batch are posted as one line. -/
theorem two_entries_run_together :
    (requests Journald.drain.blank [fun _ => .status 204 none ""] [Journald.drain.split
        (Pipeline.journald.spool ([messageRecord "a", messageRecord "b"].filterMap
          Record.encoding))]).map (fun post => post.1.flatten)
      = ["logs,stream=j MESSAGE=\"a\" 0logs,stream=j MESSAGE=\"b\" 0".toList] ∧
    ¬ Pipeline.journald.Framed
      ([messageRecord "a", messageRecord "b"].filterMap Record.encoding) :=
  ⟨by decide +kernel, not_framed_of_joins (by decide) (fun _ => oneLine_of_mem)
    (fun _ => content_ne_nil_of_mem) (by decide +kernel)⟩

end Pipeline

end Tributary
