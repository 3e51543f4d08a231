import Tributary.Config
import Tributary.Cursor.Coverage
import Tributary.FileSource

/-!
# The transform rules of a cursor source

A configuration is accepted with filter, sample and redact rules on any source, and
the file tail applies them between mapping and stamping. `map_entry` and `map_event`
map and stamp the same way and have no transform stage between.
-/

namespace Tributary

open Lp Map Stamp Transform

/-- The rules a source is configured with. -/
def Config.Entry.rules (e : Config.Entry) : FileSource.Rules :=
  { filters := e.filter, samples := e.sample, redacts := e.redact }

namespace Cursor

open FileSource (Built Rules build)

/-! ## Two ways of one line -/

/-- What is shipped of an entry. -/
def shipped : Except EntryError (Option Text) → Option Text
  | .ok out => out
  | .error _ => none

/-- An entry fares as `build` has its line fare: dropped with it, or shipped as the
record `build` makes of it is written. A record that has no encoding, or no slot in
its tick, is not shipped. -/
def Alike (libs : Libs) (out : Except EntryError (Option Text)) : Except String Built → Prop
  | .ok (.ready record _) => shipped out = (record.encode libs.display).toOption
  | .ok _ => out = .ok none
  | .error _ => shipped out = none

/-- The rules have no effect on a record that can be shipped: it is kept, and each
of its fields is written as it was. -/
structure Untouched (libs : Libs) (rules : Rules) (stamper : Stamper) (record : Record)
    (ts : Int) : Prop where
  kept : keeps libs record rules.filters = true
  sampled : sampleKeeps libs record ts rules.samples = true
  written : (∃ tsNs, (stamper.stamp ts).1 = .ok tsNs) → record.Encodable →
    ∀ kv ∈ record.fields,
      (redactValue libs rules.redacts kv).2.encode libs.display = kv.2.encode libs.display

/-- An entry maps to nothing, or to a record its source's rules have no effect on. -/
def Unruled (libs : Libs) (src : Source) (rules : Rules) (fields : List (Text × Text)) (now : Int)
    (stamper : Stamper) : Prop :=
  ∀ record ts, mapLine libs src (entryToJson libs fields) now = .ok (record, ts) →
    record.fields = [] ∨ Untouched libs rules stamper record ts

/-- The source timestamp of the entry's line is the time the store stamped on it. -/
def SameTime (libs : Libs) (src : Source) (fields : List (Text × Text)) (now sourceTs : Int) :
    Prop :=
  ∀ record ts, mapLine libs src (entryToJson libs fields) now = .ok (record, ts) → ts = sourceTs

variable {libs : Libs} {src : Source} {rules : Rules} {fields : List (Text × Text)}
  {sourceTs now : Int} {stamper : Stamper}

/-! ## What redaction shows -/

theorem encode_toOption {display : F64 → Text} {r : Record} :
    (r.encode display).toOption = if r.Encodable then some (r.line display) else none := by
  split
  · rename_i henc
    rw [(Record.encode_eq_ok_iff display).mpr ⟨henc, rfl⟩]
    rfl
  · rename_i hnot
    cases h : r.encode display with
    | error e => rfl
    | ok t => exact absurd ((Record.encode_eq_ok_iff display).mp h).1 hnot

/-- Redaction shows in the line of a record only through a value that is written
otherwise. -/
theorem line_applyRedacts_iff (record : Record) (tsNs : Int) (redacts : List Redact) :
    (record.withTs tsNs).line libs.display
        = ((applyRedacts libs record redacts).withTs tsNs).line libs.display
      ↔ ∀ kv ∈ record.fields,
        (redactValue libs redacts kv).2.encode libs.display = kv.2.encode libs.display := by
  rw [← intercalate_fields_map_eq_iff (restrings_redactValue libs redacts) record.fields,
    applyRedacts_eq]
  simp only [Record.line, Record.withTs, Record.encodeTags, Record.encodeFields,
    List.append_assoc, List.append_cancel_left_eq, List.cons_append, List.cons.injEq, true_and]
  exact ⟨fun h => (List.append_cancel_right h).symm, fun h => by rw [h]⟩

/-- Of a record that is kept, the same is shipped unless redaction shows. -/
theorem encode_applyRedacts_iff (record : Record) (tsNs : Int) (redacts : List Redact) :
    ((record.withTs tsNs).encode libs.display).toOption
        = (((applyRedacts libs record redacts).withTs tsNs).encode libs.display).toOption
      ↔ (record.Encodable → ∀ kv ∈ record.fields,
        (redactValue libs redacts kv).2.encode libs.display = kv.2.encode libs.display) := by
  have hplain : (record.withTs tsNs).Encodable ↔ record.Encodable := .rfl
  have hredacted : ((applyRedacts libs record redacts).withTs tsNs).Encodable
      ↔ record.Encodable := encodable_applyRedacts libs record redacts
  rw [encode_toOption, encode_toOption]
  by_cases henc : record.Encodable
  · rw [if_pos (hplain.mpr henc), if_pos (hredacted.mpr henc), Option.some.injEq,
      line_applyRedacts_iff]
    exact ⟨fun h _ => h, fun h => h henc⟩
  · rw [if_neg (mt hplain.mp henc), if_neg (mt hredacted.mp henc)]
    exact iff_of_true rfl fun h => absurd h henc

/-! ## Where the two agree -/

section mapped

variable {record : Record} {ts : Int}

/-- What becomes of an entry that maps to a record. -/
theorem mapEntry_mapped
    (hmap : mapLine libs src (entryToJson libs fields) now = .ok (record, ts)) :
    (mapEntry libs src fields sourceTs now stamper).1 =
      if record.fields = [] then .ok none
      else
        match (stamper.stamp sourceTs).1 with
        | .error e => .error (.stamp e)
        | .ok tsNs =>
            match (record.withTs tsNs).encode libs.display with
            | .error e => .error (.encode e)
            | .ok out => .ok (some out) := by
  unfold mapEntry
  simp only [hmap]
  split
  · rfl
  · rcases stamper.stamp sourceTs with ⟨_ | tsNs, _⟩
    · rfl
    · dsimp only
      cases (record.withTs tsNs).encode libs.display <;> rfl

/-- What `build` makes of a record that the rules keep. -/
theorem build_kept {line : Text} (wm : Watermark)
    (hmap : mapLine libs src line now = .ok (record, ts))
    (hkeeps : keeps libs record rules.filters = true)
    (hsample : sampleKeeps libs record ts rules.samples = true) :
    (build libs src rules line now stamper wm).1 =
      match (stamper.stamp ts).1 with
      | .error e => .error e.message
      | .ok tsNs => .ok (.ready ((applyRedacts libs record rules.redacts).withTs tsNs) ts) := by
  unfold build
  simp only [hmap, hkeeps, hsample, Bool.not_true, Bool.false_eq_true, if_false]
  rcases stamper.stamp ts with ⟨_ | _, _⟩ <;> rfl

/-- A record that a filter or a sample rule takes out. -/
theorem build_dropped {line : Text} (wm : Watermark)
    (hmap : mapLine libs src line now = .ok (record, ts))
    (hnot : ¬ (keeps libs record rules.filters = true
      ∧ sampleKeeps libs record ts rules.samples = true)) :
    ∃ stage, (build libs src rules line now stamper wm).1 = .ok (.dropped stage) := by
  unfold build
  simp only [hmap, Bool.not_eq_true']
  by_cases hkeeps : keeps libs record rules.filters = false
  · exact ⟨.filter, by rw [if_pos hkeeps]⟩
  · have hsample : sampleKeeps libs record ts rules.samples = false :=
      Bool.eq_false_iff.mpr fun h => hnot ⟨Bool.eq_true_of_not_eq_false hkeeps, h⟩
    exact ⟨.sample, by rw [if_neg hkeeps, if_pos hsample]⟩

end mapped

/-- An entry that maps to a record is dropped only if it has no field. -/
theorem mapEntry_ne_none {record : Record} {ts : Int}
    (hmap : mapLine libs src (entryToJson libs fields) now = .ok (record, ts))
    (hfields : record.fields ≠ []) :
    (mapEntry libs src fields sourceTs now stamper).1 ≠ .ok none := by
  rw [mapEntry_mapped hmap, if_neg hfields]
  cases (stamper.stamp sourceTs).1 with
  | error e => simp
  | ok tsNs =>
      dsimp only
      cases (record.withTs tsNs).encode libs.display <;> simp

/-- **An entry fares as its line exactly if the rules have no effect on it.** -/
theorem alike_iff (wm : Watermark) (htime : SameTime libs src fields now sourceTs) :
    Alike libs (mapEntry libs src fields sourceTs now stamper).1
        (build libs src rules (entryToJson libs fields) now stamper wm).1
      ↔ Unruled libs src rules fields now stamper := by
  cases hmap : mapLine libs src (entryToJson libs fields) now with
  | error e =>
      refine iff_of_true ?_ fun record ts h => nomatch hmap.symm.trans h
      unfold mapEntry build
      cases e <;> simp [hmap, Alike, shipped]
  | ok mapped =>
      obtain ⟨record, ts⟩ := mapped
      obtain rfl := htime record ts hmap
      have hone : Unruled libs src rules fields now stamper
          ↔ record.fields = [] ∨ Untouched libs rules stamper record ts := by
        refine ⟨fun h => h record ts hmap, fun h record' ts' hmap' => ?_⟩
        obtain ⟨rfl, rfl⟩ := Prod.mk.inj (Except.ok.inj (hmap.symm.trans hmap'))
        exact h
      rw [hone]
      by_cases hkept : keeps libs record rules.filters = true
        ∧ sampleKeeps libs record ts rules.samples = true
      · obtain ⟨hkeeps, hsample⟩ := hkept
        rw [build_kept wm hmap hkeeps hsample, mapEntry_mapped hmap]
        cases hstamp : (stamper.stamp ts).1 with
        | error e =>
            -- the tick has no slot left: nothing is shipped
            refine iff_of_true ?_ ?_
            · split <;> rfl
            · exact .inr ⟨hkeeps, hsample, fun ⟨tsNs, h⟩ => nomatch hstamp.symm.trans h⟩
        | ok tsNs =>
            have hplain : shipped (if record.fields = [] then .ok none
                else match (record.withTs tsNs).encode libs.display with
                  | .error e => .error (.encode e)
                  | .ok out => .ok (some out))
                = ((record.withTs tsNs).encode libs.display).toOption := by
              split
              · rename_i hfields
                rw [encode_toOption, if_neg fun henc => henc.2.1 hfields]
                rfl
              · cases (record.withTs tsNs).encode libs.display <;> rfl
            change shipped _ = _ ↔ _
            rw [hplain, encode_applyRedacts_iff]
            constructor
            · intro h
              exact .inr ⟨hkeeps, hsample, fun _ => h⟩
            · rintro (hfields | h) henc
              · exact absurd hfields henc.2.1
              · exact h.written ⟨tsNs, hstamp⟩ henc
      · -- the file tail drops the line
        have hnone : ¬ Untouched libs rules stamper record ts := fun h => hkept ⟨h.kept, h.sampled⟩
        obtain ⟨stage, hstage⟩ := @build_dropped libs src rules now stamper _ _ _ wm hmap hkept
        rw [or_iff_left hnone, hstage]
        constructor
        · intro h
          exact not_not.mp fun hfields => mapEntry_ne_none hmap hfields h
        · intro hfields
          change _ = _
          rw [mapEntry_mapped hmap, if_pos hfields]

/-- **Where the rules of a source mean what they mean on a file**: on the entries that
its rules have no effect on, and on no other, be the source journald or the Windows
event log. -/
theorem transforms_alike_iff (libs : Libs) (e : Config.Entry) (now : Int) (stamper : Stamper)
    (wm : Watermark) :
    (∀ x : Journald.Entry, SameTime libs e.source x.fields now (Journald.kind.sourceTs x) →
      (Alike libs
          (mapEntry libs e.source x.fields (Journald.kind.sourceTs x) now stamper).1
          (build libs e.source e.rules (entryToJson libs x.fields) now stamper wm).1
        ↔ Unruled libs e.source e.rules x.fields now stamper))
    ∧ ∀ x : Winlog.Event, SameTime libs e.source x.fields now (Winlog.kind.sourceTs x) →
      (Alike libs
          (mapEntry libs e.source x.fields (Winlog.kind.sourceTs x) now stamper).1
          (build libs e.source e.rules (entryToJson libs x.fields) now stamper wm).1
        ↔ Unruled libs e.source e.rules x.fields now stamper) :=
  ⟨fun _ htime => alike_iff wm htime, fun _ htime => alike_iff wm htime⟩

/-! ## A rule that denies a message -/

/-- A journald source with a filter rule that drops what has this message. -/
def denying (message : Text) : Config.Entry :=
  { source := demoSource, multiline := false
    filter := [{ field := "MESSAGE".toList, equals := message, drop := true }]
    sample := [], redact := [] }

/-- A binary with the `journald` feature. -/
def withJournald : Config.Build :=
  { journald := true, winlog := false, others := false, compiles := fun _ => true }

def hiRecord : Record :=
  { table := "logs".toList, tags := [("stream".toList, "j".toList)]
    fields := [("MESSAGE".toList, .str "hi".toList)], tsNs := 0 }

theorem mapLine_hi (message : Text) :
    mapLine demoLibs (denying message).source (entryToJson demoLibs hi.fields) 5000
      = .ok (hiRecord, 5000) := rfl

theorem sameTime_hi (message : Text) :
    SameTime demoLibs (denying message).source hi.fields 5000 (Journald.kind.sourceTs hi) := by
  intro record ts h
  obtain ⟨-, rfl⟩ := Prod.mk.inj (Except.ok.inj ((mapLine_hi message).symm.trans h))
  decide

/-- Another message is shipped as a file's line is. -/
theorem transforms_alike_hi :
    Config.read withJournald [denying "no".toList] = .ok ()
      ∧ Alike demoLibs
        (mapEntry demoLibs demoSource hi.fields (Journald.kind.sourceTs hi) 5000
          (Stamper.new .millis)).1
        (build demoLibs demoSource (denying "no".toList).rules (entryToJson demoLibs hi.fields) 5000
          (Stamper.new .millis) (Watermark.new 0 0)).1 := by
  refine ⟨rfl, ?_⟩
  refine ((transforms_alike_iff demoLibs (denying "no".toList) 5000 (Stamper.new .millis)
    (Watermark.new 0 0)).1 hi (sameTime_hi _)).mpr fun record ts h => .inr ?_
  obtain ⟨rfl, rfl⟩ := Prod.mk.inj (Except.ok.inj ((mapLine_hi _).symm.trans h))
  exact ⟨by decide +kernel, rfl, fun _ _ _ _ => rfl⟩

/-- The file tail drops the message, and the journald source ships it. -/
theorem denied_message_ships :
    Config.read withJournald [denying "hi".toList] = .ok ()
      ∧ SameTime demoLibs demoSource hi.fields 5000 (Journald.kind.sourceTs hi)
      ∧ (build demoLibs demoSource (denying "hi".toList).rules (entryToJson demoLibs hi.fields) 5000
          (Stamper.new .millis) (Watermark.new 0 0)).1 = .ok (.dropped .filter)
      ∧ (mapEntry demoLibs demoSource hi.fields (Journald.kind.sourceTs hi) 5000
          (Stamper.new .millis)).1 = .ok (some "logs,stream=j MESSAGE=\"hi\" 0\n".toList)
      ∧ ¬ Alike demoLibs
        (mapEntry demoLibs demoSource hi.fields (Journald.kind.sourceTs hi) 5000
          (Stamper.new .millis)).1
        (build demoLibs demoSource (denying "hi".toList).rules (entryToJson demoLibs hi.fields) 5000
          (Stamper.new .millis) (Watermark.new 0 0)).1 := by
  have hbuild : (build demoLibs demoSource (denying "hi".toList).rules
      (entryToJson demoLibs hi.fields) 5000 (Stamper.new .millis) (Watermark.new 0 0)).1
      = .ok (.dropped .filter) := rfl
  have hmap : (mapEntry demoLibs demoSource hi.fields (Journald.kind.sourceTs hi) 5000
      (Stamper.new .millis)).1 = .ok (some "logs,stream=j MESSAGE=\"hi\" 0\n".toList) := by
    decide +kernel
  refine ⟨rfl, sameTime_hi "hi".toList, hbuild, hmap, ?_⟩
  rw [hbuild, hmap]
  exact fun h : Except.ok (some _) = Except.ok none => nomatch h

end Cursor

end Tributary
