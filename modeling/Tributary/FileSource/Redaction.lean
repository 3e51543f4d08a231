import Tributary.FileSource.Ledger

/-!
# What redaction covers

Two lines that differ only in text the redact rules replace should leave the same
traces wherever the agent writes or sends. They do when the record comes through;
a line that does not map, has no slot in its tick or no encoding is filed as it
was read, and a key that is also a tag is sent with its tag.
-/

namespace Tributary.FileSource

open Lib Lp Map Stamp Transform Queue

/-! ## Lines that differ in redacted text -/

section

variable (libs : Libs) (src : Source) (rules : Rules)

/-- Two entries of parsed lines: the same, or two values of a declared string field
that a redact rule names, with the same redacted form. -/
def SameRedacted (e₁ e₂ : Text × Json) : Prop :=
  e₁ = e₂ ∨ ∃ k v₁ v₂, e₁ = (k, v₁) ∧ e₂ = (k, v₂) ∧
    (k, FieldType.string) ∈ src.fields ∧ (∀ want, (k, want) ∈ src.fields → want = .string) ∧
    (∃ rd ∈ rules.redacts, rd.field = k) ∧
    redactValue libs rules.redacts (k, .str (v₁.text libs))
      = redactValue libs rules.redacts (k, .str (v₂.text libs))

/-- Two lines that parse, and differ only in text the redact rules replace. -/
structure Alike (line₁ line₂ : Text) (parsed₁ parsed₂ : List (Text × Json)) : Prop where
  nonblank₁ : (trimEol line₁).trim ≠ []
  nonblank₂ : (trimEol line₂).trim ≠ []
  parses₁ : parseLine libs src.parser (trimEol line₁) = .ok parsed₁
  parses₂ : parseLine libs src.parser (trimEol line₂) = .ok parsed₂
  entries : List.Forall₂ (SameRedacted libs src rules) parsed₁ parsed₂

/-- The filter and the sample rules keep the record. -/
def Kept (record : Record) (ts : Int) : Prop :=
  keeps libs record rules.filters = true ∧ sampleKeeps libs record ts rules.samples = true

/-- Filters and sampling decide alike on the records of the two lines. -/
def DecidedAlike (now : Int) (line₁ line₂ : Text) : Prop :=
  ∀ r₁ ts₁ r₂ ts₂, mapLine libs src line₁ now = .ok (r₁, ts₁) →
    mapLine libs src line₂ now = .ok (r₂, ts₂) →
      keeps libs r₁ rules.filters = keeps libs r₂ rules.filters ∧
        sampleKeeps libs r₁ ts₁ rules.samples = sampleKeeps libs r₂ ts₂ rules.samples

variable {libs src rules} {now : Int} {line₁ line₂ : Text} {parsed₁ parsed₂ : List (Text × Json)}

theorem SameRedacted.key {e₁ e₂ : Text × Json} (h : SameRedacted libs src rules e₁ e₂) :
    e₁.1 = e₂.1 := by
  rcases h with rfl | ⟨k, v₁, v₂, rfl, rfl, -⟩ <;> rfl

/-- A key is in both lines or in neither. -/
theorem get_alike (h : List.Forall₂ (SameRedacted libs src rules) parsed₁ parsed₂) (key : Text) :
    (BTree.get parsed₁ key = none ∧ BTree.get parsed₂ key = none) ∨
      ∃ v₁ v₂, BTree.get parsed₁ key = some v₁ ∧ BTree.get parsed₂ key = some v₂ ∧
        SameRedacted libs src rules (key, v₁) (key, v₂) := by
  induction h with
  | nil => exact .inl ⟨rfl, rfl⟩
  | @cons e₁ e₂ l₁ l₂ he _ ih =>
      by_cases hk : e₁.1 = key
      · have hk₂ : e₂.1 = key := he.key ▸ hk
        refine .inr ⟨e₁.2, e₂.2, by simp [BTree.get, hk], by simp [BTree.get, hk₂], ?_⟩
        have h₁ : (key, e₁.2) = e₁ := by rw [← hk]
        have h₂ : (key, e₂.2) = e₂ := by rw [← hk₂]
        rw [h₁, h₂]
        exact he
      · have hk₂ : e₂.1 ≠ key := he.key ▸ hk
        have hget : ∀ (e : Text × Json) l, e.1 ≠ key → BTree.get (e :: l) key = BTree.get l key :=
          fun e l hne => by simp [BTree.get, hne]
        rw [hget e₁ l₁ hk, hget e₂ l₂ hk₂]
        exact ih

variable (libs rules) in
/-- One error, or fields with one redacted form. -/
def BuiltAlike (b₁ b₂ : Except MapError (List (Text × Value))) : Prop :=
  (∃ e, b₁ = .error e ∧ b₂ = .error e) ∨
    ∃ f₁ f₂, b₁ = .ok f₁ ∧ b₂ = .ok f₂ ∧
      f₁.map (redactValue libs rules.redacts) = f₂.map (redactValue libs rules.redacts)

theorem coerce_string (key : Text) (v : Json) :
    coerce libs key .string v = .ok (.str (v.text libs)) := by
  cases v <;> rfl

/-- Both lines fail on the same field, or both give fields with one redacted form. -/
theorem buildFields_alike (h : List.Forall₂ (SameRedacted libs src rules) parsed₁ parsed₂)
    (fields : List (Text × FieldType)) (hsub : fields ⊆ src.fields) :
    BuiltAlike libs rules (buildFields libs parsed₁ fields) (buildFields libs parsed₂ fields) := by
  induction fields with
  | nil => exact .inr ⟨[], [], rfl, rfl, rfl⟩
  | cons f fields ih =>
      obtain ⟨key, want⟩ := f
      have ih := ih fun x hx => hsub (List.mem_cons_of_mem _ hx)
      have hmem : (key, want) ∈ src.fields := hsub (List.mem_cons_self ..)
      -- two values of this field with one redacted form, in front of the rest
      have hcons : ∀ raw₁ raw₂ v₁ v₂, BTree.get parsed₁ key = some raw₁ →
          BTree.get parsed₂ key = some raw₂ → coerce libs key want raw₁ = .ok v₁ →
          coerce libs key want raw₂ = .ok v₂ → redactValue libs rules.redacts (key, v₁)
            = redactValue libs rules.redacts (key, v₂) → BuiltAlike libs rules
              (buildFields libs parsed₁ ((key, want) :: fields))
              (buildFields libs parsed₂ ((key, want) :: fields)) := by
        intro raw₁ raw₂ v₁ v₂ h₁ h₂ hc₁ hc₂ hv
        rw [buildFields, buildFields, h₁, h₂]
        simp only [bind, Except.bind, hc₁, hc₂]
        rcases ih with ⟨e, he₁, he₂⟩ | ⟨f₁, f₂, hf₁, hf₂, hf⟩
        · exact .inl ⟨e, by rw [he₁], by rw [he₂]⟩
        · exact .inr ⟨(key, v₁) :: f₁, (key, v₂) :: f₂, by rw [hf₁], by rw [hf₂], by simp [hv, hf]⟩
      rcases get_alike h key with ⟨h₁, h₂⟩ | ⟨raw₁, raw₂, h₁, h₂, hsame⟩
      · rw [buildFields, buildFields, h₁, h₂]
        exact ih
      · rcases hsame with heq | ⟨k, w₁, w₂, hw₁, hw₂, -, honly, -, hred⟩
        · obtain rfl := (Prod.mk.inj heq).2
          cases hc : coerce libs key want raw₁ with
          | error e =>
              refine .inl ⟨e, ?_, ?_⟩
              · simp [buildFields, h₁, bind, Except.bind, hc]
              · simp [buildFields, h₂, bind, Except.bind, hc]
          | ok v => exact hcons raw₁ raw₁ v v h₁ h₂ hc hc rfl
        · obtain ⟨rfl, rfl⟩ := Prod.mk.inj hw₁
          obtain ⟨-, rfl⟩ := Prod.mk.inj hw₂
          obtain rfl := honly want hmem
          exact hcons raw₁ raw₂ _ _ h₁ h₂ (coerce_string key raw₁) (coerce_string key raw₂) hred

theorem redactValue_key (redacts : List Redact) (kv : Text × Value) :
    (redactValue libs redacts kv).1 = kv.1 := by
  rcases restrings_redactValue libs redacts kv with h | ⟨s, s', -, h⟩ <;> rw [h]

/-- Redacting goes past the order of the fields. -/
theorem redacted_recordOf (parsed : List (Text × Json)) (fields : List (Text × Value))
    (redacts : List Redact) :
    (applyRedacts libs (recordOf libs src parsed fields) redacts).fields
      = (fields.map (redactValue libs redacts)).insertionSort fun a b => a.1 ≤ b.1 := by
  rw [applyRedacts_eq]
  exact List.map_insertionSort _ _ _ _ fun a _ b _ => by simp [redactValue_key]

/-- The records of two such lines are the same but for their tags, or neither line
maps and for one reason, if the lines give one source timestamp. -/
theorem mapLine_alike (h : Alike libs src rules line₁ line₂ parsed₁ parsed₂)
    (htime : lineTimestamp libs src.timestamp parsed₁ now
      = lineTimestamp libs src.timestamp parsed₂ now) :
    (∃ e, e ≠ .empty ∧ mapLine libs src line₁ now = .error e
        ∧ mapLine libs src line₂ now = .error e) ∨
      ∃ r₁ r₂ ts, mapLine libs src line₁ now = .ok (r₁, ts)
        ∧ mapLine libs src line₂ now = .ok (r₂, ts) ∧ r₁.table = r₂.table
        ∧ (applyRedacts libs r₁ rules.redacts).fields
          = (applyRedacts libs r₂ rules.redacts).fields := by
  have hmap₁ : mapLine libs src line₁ now = (do
      let sourceTsNs ← lineTimestamp libs src.timestamp parsed₁ now
      buildRecord libs src parsed₁ sourceTsNs) := by
    rw [mapLine]
    simp only [if_neg h.nonblank₁, h.parses₁, bind, Except.bind]
  have hmap₂ : mapLine libs src line₂ now = (do
      let sourceTsNs ← lineTimestamp libs src.timestamp parsed₂ now
      buildRecord libs src parsed₂ sourceTsNs) := by
    rw [mapLine]
    simp only [if_neg h.nonblank₂, h.parses₂, bind, Except.bind]
  rw [hmap₁, hmap₂, htime]
  cases ht : lineTimestamp libs src.timestamp parsed₂ now with
  | error e =>
      exact .inl ⟨e, fun he => lineTimestamp_ne_empty libs _ _ _ (he ▸ ht), rfl, rfl⟩
  | ok ts =>
      rcases buildFields_alike h.entries src.fields (List.Subset.refl _) with
        ⟨e, he₁, he₂⟩ | ⟨f₁, f₂, hf₁, hf₂, hf⟩
      · refine .inl ⟨e, fun he => buildFields_ne_empty libs _ _ (he ▸ he₁), ?_, ?_⟩
        · simp [bind, Except.bind, buildRecord, he₁]
        · simp [bind, Except.bind, buildRecord, he₂]
      · refine .inr ⟨recordOf libs src parsed₁ f₁, recordOf libs src parsed₂ f₂, ts, ?_, ?_, rfl, ?_⟩
        · simp [bind, Except.bind, buildRecord, hf₁]
        · simp [bind, Except.bind, buildRecord, hf₂]
        · rw [redacted_recordOf, redacted_recordOf, hf]

/-- Redacted to one form, two records have an encoding both or neither. -/
theorem encodable_alike {r₁ r₂ : Record} {redacts : List Redact} (htable : r₁.table = r₂.table)
    (hfields : (applyRedacts libs r₁ redacts).fields = (applyRedacts libs r₂ redacts).fields) :
    r₁.Encodable ↔ r₂.Encodable := by
  rw [← encodable_applyRedacts libs r₁ redacts, ← encodable_applyRedacts libs r₂ redacts]
  have ht : (applyRedacts libs r₁ redacts).table = (applyRedacts libs r₂ redacts).table := by
    rw [applyRedacts_eq, applyRedacts_eq]
    exact htable
  rw [Record.Encodable, Record.Encodable, Record.firstNonFinite, Record.firstNonFinite, ht, hfields]

/-- Redacted to one form, two records are written alike exactly if their tags are. -/
theorem line_alike_iff {r₁ r₂ : Record} {redacts : List Redact} (htable : r₁.table = r₂.table)
    (hfields : (applyRedacts libs r₁ redacts).fields = (applyRedacts libs r₂ redacts).fields)
    (tsNs : Int) :
    ((applyRedacts libs r₁ redacts).withTs tsNs).line libs.display
        = ((applyRedacts libs r₂ redacts).withTs tsNs).line libs.display
      ↔ r₁.encodeTags = r₂.encodeTags := by
  rw [applyRedacts_eq, applyRedacts_eq] at *
  simp only [Record.line, Record.withTs, Record.encodeTags, Record.encodeFields] at *
  rw [hfields, htable]
  simp only [List.append_assoc, List.append_cancel_left_eq]
  exact ⟨fun h => List.append_cancel_right h, fun h => by rw [h]⟩

end

/-! ## What a line leaves behind -/

section

variable (c : Config) (s : State) (ids : List Nat) (line : Text) (now : Int)

/-- What is on disk, what was filed, what is to be sent and what the server took. -/
structure Leaves where
  deadLetter : List Dead
  saved : Option Saved
  dir : Dir (List Line)
  rows : List Row
  batch : List Line
  inflight : List Task
  held : List (List Line)
  acked : List Line

def State.leaves (s : State) : Leaves :=
  { deadLetter := s.deadLetter, saved := s.saved, dir := s.dir, rows := s.rows, batch := s.batch
    inflight := s.inflight, held := s.held, acked := s.acked }

/-- The two states leave the same behind, now and on any way the source goes on. -/
def SameTraces (s₁ s₂ : State) : Prop :=
  ∀ es, (run (step c) s₁ es).map State.leaves = (run (step c) s₂ es).map State.leaves

/-- The tick of the timestamp has a slot left. -/
def HasSlot (ts : Int) : Prop := ∃ tsNs, (s.stamper.stamp ts).1 = .ok tsNs

/-- The state behind the stamper and the watermark. -/
def State.stamped (ts : Int) : State :=
  { s with stamper := (s.stamper.stamp ts).2, watermark := s.watermark.observe ts }

def State.counted : State := { s with readTotal := s.readTotal + 1 }

/-- The batch line of a record under its stamp. -/
def State.written (record : Record) (ts tsNs : Int) : Line :=
  { ids, ts, late := s.watermark.violates ts
    text := ((applyRedacts c.libs record s.rules.redacts).withTs tsNs).line c.libs.display }

variable {c s ids line now}

theorem build_unmapped {e : MapError} (hne : e ≠ .empty)
    (hmap : mapLine c.libs c.source line now = .error e) :
    build c.libs c.source s.rules line now s.stamper s.watermark
      = (.error e.message, s.stamper, s.watermark) := by
  unfold build
  rw [hmap]
  cases e <;> first | rfl | exact absurd rfl hne

theorem build_out {record : Record} {ts : Int}
    (hmap : mapLine c.libs c.source line now = .ok (record, ts))
    (hout : ¬ Kept c.libs s.rules record ts) :
    build c.libs c.source s.rules line now s.stamper s.watermark
      = (.ok (.dropped (if keeps c.libs record s.rules.filters then .sample else .filter)),
        s.stamper, s.watermark) := by
  unfold build
  simp only [hmap]
  by_cases hkeeps : keeps c.libs record s.rules.filters = true
  · have hsample : sampleKeeps c.libs record ts s.rules.samples = false :=
      Bool.eq_false_iff.mpr fun h => hout ⟨hkeeps, h⟩
    simp [hkeeps, hsample]
  · simp [hkeeps]

theorem build_in {record : Record} {ts tsNs : Int}
    (hmap : mapLine c.libs c.source line now = .ok (record, ts))
    (hin : Kept c.libs s.rules record ts) (hstamp : (s.stamper.stamp ts).1 = .ok tsNs) :
    build c.libs c.source s.rules line now s.stamper s.watermark
      = (.ok (.ready ((applyRedacts c.libs record s.rules.redacts).withTs tsNs) ts),
        (s.stamper.stamp ts).2, s.watermark.observe ts) := by
  unfold build
  simp only [hmap, hin.1, hin.2]
  generalize s.stamper.stamp ts = stamped at hstamp
  obtain ⟨out, stamper⟩ := stamped
  cases hstamp
  rfl

theorem build_unslotted {record : Record} {ts : Int} {e : StampError}
    (hmap : mapLine c.libs c.source line now = .ok (record, ts))
    (hin : Kept c.libs s.rules record ts) (hstamp : (s.stamper.stamp ts).1 = .error e) :
    build c.libs c.source s.rules line now s.stamper s.watermark
      = (.error e.message, (s.stamper.stamp ts).2, s.watermark.observe ts) := by
  unfold build
  simp only [hmap, hin.1, hin.2]
  generalize s.stamper.stamp ts = stamped at hstamp
  obtain ⟨out, stamper⟩ := stamped
  cases hstamp
  rfl

theorem encode_in {record : Record} (henc : record.Encodable) (tsNs : Int) :
    ((applyRedacts c.libs record s.rules.redacts).withTs tsNs).encode c.libs.display
      = .ok (((applyRedacts c.libs record s.rules.redacts).withTs tsNs).line c.libs.display) :=
  (Record.encode_eq_ok_iff _).mpr
    ⟨(encodable_applyRedacts c.libs record s.rules.redacts).mpr henc, rfl⟩

theorem encode_not {record : Record} (hnot : ¬ record.Encodable) (tsNs : Int) :
    ∃ e, ((applyRedacts c.libs record s.rules.redacts).withTs tsNs).encode c.libs.display
      = .error e := by
  cases h : ((applyRedacts c.libs record s.rules.redacts).withTs tsNs).encode c.libs.display with
  | error e => exact ⟨e, rfl⟩
  | ok text =>
      have henc := ((Record.encode_eq_ok_iff _).mp h).1
      exact absurd ((encodable_applyRedacts c.libs record s.rules.redacts).mp henc) hnot

/-! ### In the loop -/

theorem take_out {record : Record} {ts : Int}
    (hmap : mapLine c.libs c.source line now = .ok (record, ts))
    (hout : ¬ Kept c.libs s.rules record ts) :
    s.take c ⟨ids, line⟩ now = s.counted.countDrop ids
      (if keeps c.libs record s.rules.filters then .sample else .filter) := by
  unfold State.take
  simp only [build_out hmap hout]
  rfl

theorem take_in {record : Record} {ts tsNs : Int}
    (hmap : mapLine c.libs c.source line now = .ok (record, ts))
    (hin : Kept c.libs s.rules record ts) (hstamp : (s.stamper.stamp ts).1 = .ok tsNs)
    (henc : record.Encodable) :
    s.take c ⟨ids, line⟩ now
      = (s.stamped ts).counted.enlist (s.written c ids record ts tsNs) := by
  unfold State.take
  simp only [build_in hmap hin hstamp, encode_in henc]
  rfl

variable (ids) in
/-- Whatever stands in the way of a record, its line is filed as it was read. -/
theorem take_refused (hblank : mapLine c.libs c.source line now ≠ .error .empty)
    (hnot : ¬ ∃ record ts, mapLine c.libs c.source line now = .ok (record, ts)
      ∧ (Kept c.libs s.rules record ts → HasSlot s ts ∧ record.Encodable)) :
    ∃ reason, (s.take c ⟨ids, line⟩ now).deadLetter
      = s.deadLetter ++ [.refused ⟨ids, line⟩ reason] := by
  unfold State.take
  cases hmap : mapLine c.libs c.source line now with
  | error e =>
      have hne : e ≠ .empty := fun he => hblank (he ▸ hmap)
      simp only [build_unmapped hne hmap]
      exact ⟨_, rfl⟩
  | ok mapped =>
      obtain ⟨record, ts⟩ := mapped
      obtain ⟨hin, hlost⟩ := Classical.not_imp.mp fun h => hnot ⟨record, ts, hmap, h⟩
      cases hstamp : (s.stamper.stamp ts).1 with
      | error e =>
          simp only [build_unslotted hmap hin hstamp]
          exact ⟨_, rfl⟩
      | ok tsNs =>
          obtain ⟨e, he⟩ := encode_not (c := c) (s := s)
            (fun henc => hlost ⟨⟨tsNs, hstamp⟩, henc⟩) tsNs
          simp only [build_in hmap hin hstamp, he]
          exact ⟨_, rfl⟩

/-! ### At shutdown -/

theorem takeLast_unmapped {e : MapError} (hne : e ≠ .empty)
    (hmap : mapLine c.libs c.source line now = .error e) :
    s.takeLast c ⟨ids, line⟩ now = s := by
  unfold State.takeLast
  simp only [build_unmapped hne hmap]

theorem takeLast_out {record : Record} {ts : Int}
    (hmap : mapLine c.libs c.source line now = .ok (record, ts))
    (hout : ¬ Kept c.libs s.rules record ts) :
    s.takeLast c ⟨ids, line⟩ now = s.counted.countDrop ids
      (if keeps c.libs record s.rules.filters then .sample else .filter) := by
  unfold State.takeLast
  simp only [build_out hmap hout]
  rfl

theorem takeLast_in {record : Record} {ts tsNs : Int}
    (hmap : mapLine c.libs c.source line now = .ok (record, ts))
    (hin : Kept c.libs s.rules record ts) (hstamp : (s.stamper.stamp ts).1 = .ok tsNs)
    (henc : record.Encodable) :
    s.takeLast c ⟨ids, line⟩ now
      = (s.stamped ts).counted.enlist (s.written c ids record ts tsNs) := by
  unfold State.takeLast
  simp only [build_in hmap hin hstamp, encode_in henc]
  rfl

variable (ids) in
/-- What has no slot or no encoding is passed over, whatever it says. -/
theorem takeLast_lost {record : Record} {ts : Int}
    (hmap : mapLine c.libs c.source line now = .ok (record, ts))
    (hin : Kept c.libs s.rules record ts) (hnot : ¬ (HasSlot s ts ∧ record.Encodable)) :
    (s.takeLast c ⟨ids, line⟩ now = s.stamped ts ∧ ¬ HasSlot s ts) ∨
      (s.takeLast c ⟨ids, line⟩ now
        = (s.stamped ts).unencoded ⟨ids, ts, s.watermark.violates ts, []⟩ ∧ HasSlot s ts) := by
  unfold State.takeLast
  cases hstamp : (s.stamper.stamp ts).1 with
  | error e =>
      refine .inl ⟨?_, fun ⟨_, h⟩ => nomatch hstamp.symm.trans h⟩
      simp only [build_unslotted hmap hin hstamp]
      rfl
  | ok tsNs =>
      have hslot : HasSlot s ts := ⟨tsNs, hstamp⟩
      obtain ⟨e, he⟩ := encode_not (c := c) (s := s) (fun henc => hnot ⟨hslot, henc⟩) tsNs
      refine .inr ⟨?_, hslot⟩
      simp only [build_in hmap hin hstamp, he]
      rfl

end

/-! ## Two lines that differ in redacted text -/

section

variable {c : Config} {s : State} {ids : List Nat} {now : Int} {line₁ line₂ : Text}
  {parsed₁ parsed₂ : List (Text × Json)} {r₁ r₂ : Record} {ts ts₁ ts₂ : Int}

/-- In the loop: both lines map, and a record that is kept has its source timestamp
in common with the other, a slot in its tick, an encoding and the other's tags. -/
def Covered (c : Config) (s : State) (now : Int) (line₁ line₂ : Text) : Prop :=
  ∃ r₁ ts₁ r₂ ts₂, mapLine c.libs c.source line₁ now = .ok (r₁, ts₁) ∧
    mapLine c.libs c.source line₂ now = .ok (r₂, ts₂) ∧ (Kept c.libs s.rules r₁ ts₁ →
      ts₁ = ts₂ ∧ HasSlot s ts₁ ∧ r₁.Encodable ∧ r₁.encodeTags = r₂.encodeTags)

/-- At shutdown, where nothing is filed: records that are sent have their tags in
common. -/
def CoveredLast (c : Config) (s : State) (now : Int) (line₁ line₂ : Text) : Prop :=
  ∀ r₁ ts₁ r₂ ts₂, mapLine c.libs c.source line₁ now = .ok (r₁, ts₁) →
    mapLine c.libs c.source line₂ now = .ok (r₂, ts₂) → Kept c.libs s.rules r₁ ts₁ →
      HasSlot s ts₁ → r₁.Encodable → r₁.encodeTags = r₂.encodeTags

theorem SameTraces.of_eq {s₁ s₂ : State} (h : s₁ = s₂) : SameTraces c s₁ s₂ := by
  subst h
  exact fun _ => rfl

theorem SameTraces.leaves {s₁ s₂ : State} (h : SameTraces c s₁ s₂) : s₁.leaves = s₂.leaves :=
  Option.some.inj (h [])

theorem DecidedAlike.kept_iff (hd : DecidedAlike c.libs c.source s.rules now line₁ line₂)
    (hmap₁ : mapLine c.libs c.source line₁ now = .ok (r₁, ts₁))
    (hmap₂ : mapLine c.libs c.source line₂ now = .ok (r₂, ts₂)) :
    Kept c.libs s.rules r₁ ts₁ ↔ Kept c.libs s.rules r₂ ts₂ := by
  obtain ⟨hkeeps, hsample⟩ := hd r₁ ts₁ r₂ ts₂ hmap₁ hmap₂
  rw [Kept, Kept, hkeeps, hsample]

/-- Of lines with one source timestamp, the records are one but for their tags. -/
theorem records_alike (h : Alike c.libs c.source s.rules line₁ line₂ parsed₁ parsed₂)
    (hmap₁ : mapLine c.libs c.source line₁ now = .ok (r₁, ts))
    (hmap₂ : mapLine c.libs c.source line₂ now = .ok (r₂, ts)) :
    r₁.table = r₂.table ∧ (applyRedacts c.libs r₁ s.rules.redacts).fields
      = (applyRedacts c.libs r₂ s.rules.redacts).fields := by
  obtain ⟨-, p₁, -, hp₁, ht₁, -, -⟩ := mapLine_eq_ok_iff.mp hmap₁
  obtain ⟨-, p₂, -, hp₂, ht₂, -, -⟩ := mapLine_eq_ok_iff.mp hmap₂
  obtain rfl := Except.ok.inj (h.parses₁.symm.trans hp₁)
  obtain rfl := Except.ok.inj (h.parses₂.symm.trans hp₂)
  rcases mapLine_alike h (ht₁.trans ht₂.symm) with ⟨e, -, he, -⟩ | ⟨q₁, q₂, t, hq₁, hq₂, hsame⟩
  · exact nomatch hmap₁.symm.trans he
  · obtain ⟨rfl, -⟩ := Prod.mk.inj (Except.ok.inj (hmap₁.symm.trans hq₁))
    obtain ⟨rfl, -⟩ := Prod.mk.inj (Except.ok.inj (hmap₂.symm.trans hq₂))
    exact hsame

theorem written_iff (h : Alike c.libs c.source s.rules line₁ line₂ parsed₁ parsed₂)
    (hmap₁ : mapLine c.libs c.source line₁ now = .ok (r₁, ts))
    (hmap₂ : mapLine c.libs c.source line₂ now = .ok (r₂, ts)) (tsNs : Int) :
    s.written c ids r₁ ts tsNs = s.written c ids r₂ ts tsNs ↔ r₁.encodeTags = r₂.encodeTags := by
  obtain ⟨htable, hfields⟩ := records_alike h hmap₁ hmap₂
  rw [← line_alike_iff htable hfields tsNs, State.written, State.written]
  exact ⟨fun hw => congrArg Line.text hw, fun hw => by rw [hw]⟩

/-- A line that comes through is not filed. -/
theorem take_unfiled (hmap : mapLine c.libs c.source line₁ now = .ok (r₁, ts))
    (hsome : Kept c.libs s.rules r₁ ts → HasSlot s ts ∧ r₁.Encodable) :
    (s.take c ⟨ids, line₁⟩ now).deadLetter = s.deadLetter := by
  by_cases hin : Kept c.libs s.rules r₁ ts
  · obtain ⟨⟨tsNs, hstamp⟩, henc⟩ := hsome hin
    rw [take_in hmap hin hstamp henc]
    rfl
  · rw [take_out hmap hin]
    split <;> rfl

/-- A batch line shows which record it was made of. -/
theorem tags_of_written (h : Alike c.libs c.source s.rules line₁ line₂ parsed₁ parsed₂)
    (hmap₁ : mapLine c.libs c.source line₁ now = .ok (r₁, ts₁))
    (hmap₂ : mapLine c.libs c.source line₂ now = .ok (r₂, ts₂)) {tsNs₁ tsNs₂ : Int}
    (hstamp₁ : (s.stamper.stamp ts₁).1 = .ok tsNs₁) (hstamp₂ : (s.stamper.stamp ts₂).1 = .ok tsNs₂)
    (hbatch : s.batch ++ [s.written c ids r₁ ts₁ tsNs₁] = s.batch ++ [s.written c ids r₂ ts₂ tsNs₂]) :
    ts₁ = ts₂ ∧ r₁.encodeTags = r₂.encodeTags := by
  have hwritten := List.singleton_inj.mp (List.append_cancel_left hbatch)
  obtain rfl : ts₁ = ts₂ := congrArg Line.ts hwritten
  obtain rfl := Except.ok.inj (hstamp₁.symm.trans hstamp₂)
  exact ⟨rfl, (written_iff h hmap₁ hmap₂ _).mp hwritten⟩

theorem take_same_iff (h : Alike c.libs c.source s.rules line₁ line₂ parsed₁ parsed₂)
    (hd : DecidedAlike c.libs c.source s.rules now line₁ line₂) :
    SameTraces c (s.take c ⟨ids, line₁⟩ now) (s.take c ⟨ids, line₂⟩ now)
      ↔ line₁ = line₂ ∨ Covered c s now line₁ line₂ := by
  have hblank₁ : mapLine c.libs c.source line₁ now ≠ .error .empty :=
    fun he => h.nonblank₁ (mapLine_eq_empty_iff.mp he)
  have hblank₂ : mapLine c.libs c.source line₂ now ≠ .error .empty :=
    fun he => h.nonblank₂ (mapLine_eq_empty_iff.mp he)
  constructor
  · intro hsame
    have hdead : (s.take c ⟨ids, line₁⟩ now).deadLetter = (s.take c ⟨ids, line₂⟩ now).deadLetter :=
      congrArg Leaves.deadLetter hsame.leaves
    have hbatch : (s.take c ⟨ids, line₁⟩ now).batch = (s.take c ⟨ids, line₂⟩ now).batch :=
      congrArg Leaves.batch hsame.leaves
    by_cases h₁ : ∃ record ts, mapLine c.libs c.source line₁ now = .ok (record, ts)
      ∧ (Kept c.libs s.rules record ts → HasSlot s ts ∧ record.Encodable)
    · obtain ⟨r₁, ts₁, hmap₁, hsome₁⟩ := h₁
      rw [take_unfiled hmap₁ hsome₁] at hdead
      by_cases h₂ : ∃ record ts, mapLine c.libs c.source line₂ now = .ok (record, ts)
        ∧ (Kept c.libs s.rules record ts → HasSlot s ts ∧ record.Encodable)
      · obtain ⟨r₂, ts₂, hmap₂, hsome₂⟩ := h₂
        refine .inr ⟨r₁, ts₁, r₂, ts₂, hmap₁, hmap₂, fun hin₁ => ?_⟩
        have hin₂ := (hd.kept_iff hmap₁ hmap₂).mp hin₁
        obtain ⟨⟨tsNs₁, hstamp₁⟩, henc₁⟩ := hsome₁ hin₁
        obtain ⟨⟨tsNs₂, hstamp₂⟩, henc₂⟩ := hsome₂ hin₂
        rw [take_in hmap₁ hin₁ hstamp₁ henc₁, take_in hmap₂ hin₂ hstamp₂ henc₂] at hbatch
        obtain ⟨hts, htags⟩ := tags_of_written h hmap₁ hmap₂ hstamp₁ hstamp₂ hbatch
        exact ⟨hts, ⟨tsNs₁, hstamp₁⟩, henc₁, htags⟩
      · obtain ⟨reason, hfiled⟩ := take_refused ids hblank₂ h₂
        simp [hfiled] at hdead
    · obtain ⟨reason₁, hfiled₁⟩ := take_refused ids hblank₁ h₁
      rw [hfiled₁] at hdead
      by_cases h₂ : ∃ record ts, mapLine c.libs c.source line₂ now = .ok (record, ts)
        ∧ (Kept c.libs s.rules record ts → HasSlot s ts ∧ record.Encodable)
      · obtain ⟨r₂, ts₂, hmap₂, hsome₂⟩ := h₂
        simp [take_unfiled hmap₂ hsome₂] at hdead
      · obtain ⟨reason₂, hfiled₂⟩ := take_refused ids hblank₂ h₂
        rw [hfiled₂] at hdead
        have hentry := List.singleton_inj.mp (List.append_cancel_left hdead)
        exact .inl (congrArg Chunk.text (Dead.refused.inj hentry).1)
  · rintro (rfl | ⟨r₁, ts₁, r₂, ts₂, hmap₁, hmap₂, hcovered⟩)
    · exact .of_eq rfl
    · by_cases hin₁ : Kept c.libs s.rules r₁ ts₁
      · obtain ⟨rfl, ⟨tsNs, hstamp⟩, henc₁, htags⟩ := hcovered hin₁
        obtain ⟨htable, hfields⟩ := records_alike h hmap₁ hmap₂
        refine .of_eq ?_
        rw [take_in hmap₁ hin₁ hstamp henc₁, take_in hmap₂ ((hd.kept_iff hmap₁ hmap₂).mp hin₁) hstamp
          ((encodable_alike htable hfields).mp henc₁), (written_iff h hmap₁ hmap₂ tsNs).mpr htags]
      · refine .of_eq ?_
        rw [take_out hmap₁ hin₁, take_out hmap₂ (mt (hd.kept_iff hmap₁ hmap₂).mpr hin₁),
          (hd r₁ ts₁ r₂ ts₂ hmap₁ hmap₂).1]

theorem takeLast_same_iff (h : Alike c.libs c.source s.rules line₁ line₂ parsed₁ parsed₂)
    (hd : DecidedAlike c.libs c.source s.rules now line₁ line₂)
    (htime : lineTimestamp c.libs c.source.timestamp parsed₁ now
      = lineTimestamp c.libs c.source.timestamp parsed₂ now) :
    SameTraces c (s.takeLast c ⟨ids, line₁⟩ now) (s.takeLast c ⟨ids, line₂⟩ now)
      ↔ CoveredLast c s now line₁ line₂ := by
  rcases mapLine_alike h htime with ⟨e, hne, he₁, he₂⟩ | ⟨r₁, r₂, ts, hmap₁, hmap₂, htable, hfields⟩
  · refine iff_of_true (.of_eq ?_) fun r₁ ts₁ _ _ hmap₁ => nomatch he₁.symm.trans hmap₁
    rw [takeLast_unmapped hne he₁, takeLast_unmapped hne he₂]
  · have hkept := hd.kept_iff hmap₁ hmap₂
    have hencodable := encodable_alike htable hfields
    constructor
    · intro hsame q₁ ts₁ q₂ ts₂ hq₁ hq₂ hin₁ ⟨tsNs, hstamp⟩ henc₁
      obtain ⟨rfl, rfl⟩ := Prod.mk.inj (Except.ok.inj (hmap₁.symm.trans hq₁))
      obtain ⟨rfl, rfl⟩ := Prod.mk.inj (Except.ok.inj (hmap₂.symm.trans hq₂))
      have hbatch : (s.takeLast c ⟨ids, line₁⟩ now).batch
          = (s.takeLast c ⟨ids, line₂⟩ now).batch := congrArg Leaves.batch hsame.leaves
      rw [takeLast_in hmap₁ hin₁ hstamp henc₁,
        takeLast_in hmap₂ (hkept.mp hin₁) hstamp (hencodable.mp henc₁)] at hbatch
      exact (tags_of_written h hmap₁ hmap₂ hstamp hstamp hbatch).2
    · intro hcovered
      refine .of_eq ?_
      by_cases hin₁ : Kept c.libs s.rules r₁ ts
      · have hin₂ := hkept.mp hin₁
        by_cases hsome : HasSlot s ts ∧ r₁.Encodable
        · obtain ⟨⟨tsNs, hstamp⟩, henc₁⟩ := hsome
          have htags := hcovered r₁ ts r₂ ts hmap₁ hmap₂ hin₁ ⟨tsNs, hstamp⟩ henc₁
          rw [takeLast_in hmap₁ hin₁ hstamp henc₁, takeLast_in hmap₂ hin₂ hstamp
            (hencodable.mp henc₁), (written_iff h hmap₁ hmap₂ tsNs).mpr htags]
        · have hnone : ¬ (HasSlot s ts ∧ r₂.Encodable) := by rwa [← hencodable]
          rcases takeLast_lost ids hmap₁ hin₁ hsome with ⟨h₁, hslot₁⟩ | ⟨h₁, hslot₁⟩
          · rcases takeLast_lost ids hmap₂ hin₂ hnone with ⟨h₂, -⟩ | ⟨-, hslot₂⟩
            · rw [h₁, h₂]
            · exact absurd hslot₂ hslot₁
          · rcases takeLast_lost ids hmap₂ hin₂ hnone with ⟨-, hslot₂⟩ | ⟨h₂, -⟩
            · exact absurd hslot₁ hslot₂
            · rw [h₁, h₂]
      · rw [takeLast_out hmap₁ hin₁, takeLast_out hmap₂ (mt hkept.mpr hin₁),
          (hd r₁ ts r₂ ts hmap₁ hmap₂).1]

/-- **Redaction covers exactly the records that come through.** In the loop two such
lines leave the same behind if and only if they are one line or both map and are
dropped, or both are stamped alike and encoded under the same tags. At shutdown a
line that does not come through leaves nothing. -/
theorem redaction_covers_iff (h : Alike c.libs c.source s.rules line₁ line₂ parsed₁ parsed₂)
    (hd : DecidedAlike c.libs c.source s.rules now line₁ line₂) :
    (SameTraces c (s.take c ⟨ids, line₁⟩ now) (s.take c ⟨ids, line₂⟩ now)
        ↔ line₁ = line₂ ∨ Covered c s now line₁ line₂) ∧
      (lineTimestamp c.libs c.source.timestamp parsed₁ now
          = lineTimestamp c.libs c.source.timestamp parsed₂ now →
        (SameTraces c (s.takeLast c ⟨ids, line₁⟩ now) (s.takeLast c ⟨ids, line₂⟩ now)
          ↔ CoveredLast c s now line₁ line₂)) :=
  ⟨take_same_iff h hd, takeLast_same_iff h hd⟩

end

/-- The digits of `message` are struck out. -/
def digitRules : Rules :=
  { filters := [], samples := []
    redacts := [{ field := "message".toList, pattern := "[0-9]".toList, replacement := ['#'] }] }

def digitConfig : Config :=
  { plainConfig 10 100 with
    libs := { asciiLibs with
      replaceAll := fun _ replacement t =>
        t.flatMap fun ch => if ch.isDigit then replacement else [ch] }
    rules := digitRules }

/-- The record of a plain line. -/
def pinRecord (message : String) : Record :=
  { table := "logs".toList, tags := [("stream".toList, "app".toList)]
    fields := [("message".toList, .str message.toList)], tsNs := 0 }

theorem mapLine_pin₁ : mapLine digitConfig.libs digitConfig.source "pin 1234".toList 5
    = .ok (pinRecord "pin 1234", 5) := rfl

theorem mapLine_pin₂ : mapLine digitConfig.libs digitConfig.source "pin 9876".toList 5
    = .ok (pinRecord "pin 9876", 5) := rfl

theorem alike_pins : Alike digitConfig.libs digitConfig.source digitRules "pin 1234".toList
    "pin 9876".toList [("message".toList, .string "pin 1234".toList)]
    [("message".toList, .string "pin 9876".toList)] where
  nonblank₁ := by decide
  nonblank₂ := by decide
  parses₁ := rfl
  parses₂ := rfl
  entries := by
    refine .cons (.inr ⟨_, _, _, rfl, rfl, List.mem_singleton_self _, ?_, ?_, ?_⟩) .nil
    · rintro want hwant
      exact (Prod.mk.inj (List.mem_singleton.mp hwant)).2
    · exact ⟨_, List.mem_singleton_self _, rfl⟩
    · decide +kernel

theorem decidedAlike_pins : DecidedAlike digitConfig.libs digitConfig.source digitRules 5
    "pin 1234".toList "pin 9876".toList := by
  intro r₁ ts₁ r₂ ts₂ _ _
  simp [digitRules, keeps, sampleKeeps]

theorem redaction_covers_plain :
    ∃ s, start digitConfig (oneFile []) none nothingQueued = some s
      ∧ SameTraces digitConfig (s.take digitConfig ⟨[0], "pin 1234".toList⟩ 5)
        (s.take digitConfig ⟨[0], "pin 9876".toList⟩ 5) := by
  obtain ⟨s, hstart, hrules, hstamper⟩ : ∃ s, start digitConfig (oneFile []) none nothingQueued
      = some s ∧ s.rules = digitRules ∧ s.stamper = Stamper.new .millis := ⟨_, rfl, rfl, rfl⟩
  have hslot : HasSlot s 5 := ⟨0, by rw [hstamper]; rfl⟩
  have htags : (pinRecord "pin 1234").encodeTags = (pinRecord "pin 9876").encodeTags := by
    simp only [Record.encodeTags, pinRecord]
  exact ⟨s, hstart, (redaction_covers_iff (hrules ▸ alike_pins) (hrules ▸ decidedAlike_pins)).1.mpr
    (.inr ⟨_, _, _, _, mapLine_pin₁, mapLine_pin₂, fun _ => ⟨rfl, hslot, by decide, htags⟩⟩)⟩

/-- The line `{"message":"pin ..","n":"x"}`. -/
def pinLine (pin : String) : Text :=
  "\x7b\"message\":\"pin ".toList ++ pin.toList ++ "\",\"n\":\"x\"\x7d".toList

def pinEntries (pin : String) : List (Text × Json) :=
  [("message".toList, .string ("pin ".toList ++ pin.toList)), ("n".toList, .string ['x'])]

/-- A JSON log with a number beside the text. -/
def pinConfig : Config :=
  { digitConfig with
    libs := { digitConfig.libs with
      parseJson := fun t =>
        if t = pinLine "1234" then .ok (pinEntries "1234")
        else if t = pinLine "9876" then .ok (pinEntries "9876")
        else .error "expected value" }
    source := { plainSource with
      parser := .json
      fields := [("message".toList, .string), ("n".toList, .integer)] } }

/-- A number that is none. -/
theorem mapLine_pinLine : mapLine pinConfig.libs pinConfig.source (pinLine "1234") 5
    = .error (.uncoercibleField "n".toList .integer []) := by
  decide +kernel

theorem alike_pinLines : Alike pinConfig.libs pinConfig.source digitRules (pinLine "1234")
    (pinLine "9876") (pinEntries "1234") (pinEntries "9876") where
  nonblank₁ := by decide +kernel
  nonblank₂ := by decide +kernel
  parses₁ := rfl
  parses₂ := rfl
  entries := by
    refine .cons (.inr ⟨_, _, _, rfl, rfl, List.mem_cons_self .., ?_, ?_, ?_⟩)
      (.cons (.inl rfl) .nil)
    · intro want hwant
      rcases List.mem_cons.mp hwant with h | h
      · exact (Prod.mk.inj h).2
      · exact absurd (Prod.mk.inj (List.mem_singleton.mp h)).1 (by decide)
    · exact ⟨_, List.mem_singleton_self _, rfl⟩
    · decide +kernel

/-- The line is filed with the digits that were to be struck out. -/
theorem uncoercible_line_unredacted :
    ∃ s, start pinConfig (oneFile []) none nothingQueued = some s
      ∧ Alike pinConfig.libs pinConfig.source s.rules (pinLine "1234") (pinLine "9876")
        (pinEntries "1234") (pinEntries "9876")
      ∧ DecidedAlike pinConfig.libs pinConfig.source s.rules 5 (pinLine "1234") (pinLine "9876")
      ∧ ¬ SameTraces pinConfig (s.take pinConfig ⟨[0], pinLine "1234"⟩ 5)
        (s.take pinConfig ⟨[0], pinLine "9876"⟩ 5) := by
  obtain ⟨s, hstart, hrules⟩ : ∃ s, start pinConfig (oneFile []) none nothingQueued = some s
      ∧ s.rules = digitRules := ⟨_, rfl, rfl⟩
  have halike : Alike pinConfig.libs pinConfig.source s.rules (pinLine "1234") (pinLine "9876")
      (pinEntries "1234") (pinEntries "9876") := hrules ▸ alike_pinLines
  have hdecided : DecidedAlike pinConfig.libs pinConfig.source s.rules 5 (pinLine "1234")
      (pinLine "9876") := fun _ _ _ _ h => nomatch mapLine_pinLine.symm.trans h
  refine ⟨s, hstart, halike, hdecided, fun hsame => ?_⟩
  rcases (take_same_iff halike hdecided).mp hsame with heq | ⟨_, _, _, _, h, -⟩
  · exact absurd heq (by decide)
  · exact nomatch mapLine_pinLine.symm.trans h

end Tributary.FileSource
