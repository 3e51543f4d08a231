import Tributary.Lib.Binary64
import Tributary.Lib.Buffer
import Tributary.Lp

/-!
# Encoding into a buffer

`Record::encode` as the source runs it: pushes onto a buffer that a caller shares
between records, with a refusal wherever the source has one. The refusals all come
before the first push, so a record leaves one whole line or nothing.
-/

namespace Tributary

open Lib

namespace F64

/-- Sign bit, then the pattern of the magnitude. -/
def ofPattern (negative : Bool) (u : Nat) : F64 :=
  ⟨UInt64.ofNat (if negative then 2 ^ 63 + u else u)⟩

/-- The sign bit. -/
def negative (f : F64) : Bool := decide (2 ^ 63 ≤ f.bits.toNat)

/-- The bits without the sign. -/
def pattern (f : F64) : Nat := f.bits.toNat % 2 ^ 63

/-- `Display` of an `f64`: the shortest decimal that reads back, never an exponent. -/
def display (f : F64) : Text :=
  if f.isFinite then
    (if f.negative then ['-'] else []) ++ Binary64.render (Binary64.shortest f.pattern)
  else if f.pattern = Binary64.infinity then
    if f.negative then ['-', 'i', 'n', 'f'] else ['i', 'n', 'f']
  else ['N', 'a', 'N']

end F64

/-- A printed float has digits, a point, a sign, or is one of three words. -/
theorem F64.printable_display (f : F64) : f.display.Printable := by
  rw [F64.display]
  split
  · refine .append (by split <;> simp [Text.Printable]) fun c hc => ?_
    rcases Binary64.mem_render hc with hd | rfl
    · simp only [Char.isDigit, Bool.and_eq_true, decide_eq_true_eq, ge_iff_le,
        UInt32.le_iff_toNat_le] at hd
      have hzero : '0'.val.toNat = 48 := rfl
      simp only [Char.toNat]
      omega
    · decide
  · split
    · split <;> simp [Text.Printable]
    · simp [Text.Printable]

namespace Lp

open BufferM

/-- What a push onto the batch buffer can end in. -/
abbrev EncodeM := BufferM EncodeError Char

/-- `esc_key`. -/
def escKeyInto (s : Text) : EncodeM Unit :=
  s.forM fun c =>
    if c = ',' ∨ c = '=' ∨ c = ' ' then do
      push '\\'
      push c
    else if c = '\n' ∨ c = '\r' then push ' '
    else if c.toNat < 0x20 then push ' '
    else push c

/-- `esc_str`. -/
def escStrInto (s : Text) : EncodeM Unit := do
  push '"'
  s.forM fun c =>
    if c = '"' ∨ c = '\\' then do
      push '\\'
      push c
    else if c = '\n' then pushAll ['\\', 'n']
    else if c = '\r' then pure ()
    else if c.toNat < 0x20 then push ' '
    else push c
  push '"'

namespace Record

/-- A float that is not finite is refused under its key. -/
def refuseNonFinite (kv : Text × Value) : EncodeM Unit :=
  match kv.2 with
  | .float f => if !f.isFinite then throw (.nonFinite kv.1) else pure ()
  | _ => pure ()

/-- One field, after a comma unless it is the first. -/
def encodeFieldInto (kv : Text × Value) (i : Nat) : EncodeM Unit := do
  (if 0 < i then push ',' else pure ())
  escKeyInto kv.1
  push '='
  match kv.2 with
    | .str s => escStrInto s
    | .int n => pushAll (Text.ofInt n ++ ['i'])
    | .float f => pushAll f.display
    | .bool b => pushAll (if b then ['t', 'r', 'u', 'e'] else ['f', 'a', 'l', 's', 'e'])

/-- `Record::encode`, on the buffer the caller passes. -/
def encodeInto (r : Record) : EncodeM Unit := do
  (if r.table = [] then throw .emptyTable else pure ())
  (if r.fields = [] then throw .noFields else pure ())
  -- refuse before emitting: half a line would corrupt what follows it
  r.fields.forM refuseNonFinite
  escKeyInto r.table
  r.tags.forM fun kv => do
    push ','
    escKeyInto kv.1
    push '='
    escKeyInto kv.2
  push ' '
  r.fields.zipIdx.forM fun kvi => encodeFieldInto kvi.1 kvi.2
  pushAll (' ' :: Text.ofInt r.tsNs)
  push '\n'

end Record

/-! ## What each part appends -/

theorem appends_escKeyInto (s : Text) : (escKeyInto s).Appends (escKey s) := by
  refine appends_forM fun c _ => ?_
  rw [escKeyChar]
  refine Appends.ite (fun _ => (appends_push _).bind (appends_push _)) fun _ => ?_
  by_cases hnl : c = '\n' ∨ c = '\r'
  · have hlow : c.toNat < 0x20 := by
      rcases hnl with rfl | rfl <;> decide
    rw [if_pos hnl, if_pos hlow]
    exact appends_push _
  · rw [if_neg hnl]
    exact Appends.ite (fun _ => appends_push _) fun _ => appends_push _

theorem appends_escStrInto (s : Text) : (escStrInto s).Appends (escStr s) := by
  have hbody : Appends (s.forM fun c =>
      if c = '"' ∨ c = '\\' then do
        push '\\'
        push c
      else if c = '\n' then pushAll ['\\', 'n']
      else if c = '\r' then pure ()
      else if c.toNat < 0x20 then push ' '
      else push c : EncodeM Unit) (s.flatMap escStrChar) := by
    refine appends_forM fun c _ => ?_
    refine Appends.ite (fun _ => (appends_push _).bind (appends_push _)) fun _ => ?_
    refine Appends.ite (fun _ => appends_pushAll _) fun _ => ?_
    refine Appends.ite (fun _ => appends_pure) fun _ => ?_
    exact Appends.ite (fun _ => appends_push _) fun _ => appends_push _
  exact (appends_push _).bind (hbody.bind (appends_push _))

namespace Record

theorem refuseNonFinite_cases (table : Text) (tags : List (Text × Text)) (tsNs : Int)
    (kv : Text × Value) (fields : List (Text × Value)) :
    ((refuseNonFinite kv).Appends [] ∧
      (⟨table, tags, kv :: fields, tsNs⟩ : Record).firstNonFinite
        = (⟨table, tags, fields, tsNs⟩ : Record).firstNonFinite) ∨
    ((refuseNonFinite kv).Refuses (.nonFinite kv.1) ∧
      (⟨table, tags, kv :: fields, tsNs⟩ : Record).firstNonFinite = some kv.1) := by
  obtain ⟨key, v⟩ := kv
  cases v with
  | float f =>
      by_cases hf : f.isFinite = true
      · refine .inl ⟨?_, ?_⟩
        · simp only [refuseNonFinite, hf]
          exact appends_pure
        · rw [firstNonFinite, List.find?_cons_of_neg (by simp [hf])]
          rfl
      · refine .inr ⟨?_, ?_⟩
        · simp only [refuseNonFinite, hf]
          exact refuses_throw _
        · rw [firstNonFinite, List.find?_cons_of_pos (by simpa using hf)]
          rfl
  | str s => exact .inl ⟨appends_pure, rfl⟩
  | int n => exact .inl ⟨appends_pure, rfl⟩
  | bool b => exact .inl ⟨appends_pure, rfl⟩

/-- The loop refuses under the key of the first float that is not finite. -/
theorem forM_refuseNonFinite (r : Record) :
    (r.firstNonFinite = none → (r.fields.forM refuseNonFinite).Appends []) ∧
    ∀ k, r.firstNonFinite = some k → (r.fields.forM refuseNonFinite).Refuses (.nonFinite k) := by
  obtain ⟨table, tags, fields, tsNs⟩ := r
  induction fields with
  | nil => exact ⟨fun _ => appends_pure, fun _ h => nomatch h⟩
  | cons kv fields ih =>
      rcases refuseNonFinite_cases table tags tsNs kv fields with ⟨happ, heq⟩ | ⟨href, heq⟩
      · rw [heq]
        exact ⟨fun h => happ.bind (ih.1 h), fun k h => happ.bind_refuses (ih.2 k h)⟩
      · rw [heq]
        refine ⟨fun h => (nomatch h), fun k h => ?_⟩
        cases h
        exact href.bind _

/-- Commas before every field but the first are commas between the fields. -/
theorem flatMap_zipIdx_comma {α : Type} (g : α → Text) (xs : List α) :
    (xs.zipIdx.flatMap fun xi => (if 0 < xi.2 then [','] else []) ++ g xi.1)
      = [','].intercalate (xs.map g) := by
  have hlater : ∀ (xs : List α) (n : Nat), 0 < n →
      ((xs.zipIdx n).flatMap fun xi => (if 0 < xi.2 then [','] else []) ++ g xi.1)
        = xs.flatMap fun x => ',' :: g x := by
    intro xs
    induction xs with
    | nil => exact fun _ _ => rfl
    | cons x xs ih =>
        intro n hn
        simp [List.zipIdx_cons, hn, ih (n + 1) (Nat.succ_pos n)]
  cases xs with
  | nil => rfl
  | cons x xs =>
      rw [List.zipIdx_cons, List.flatMap_cons, hlater xs (0 + 1) (Nat.succ_pos 0)]
      induction xs generalizing x with
      | nil => simp [List.intercalate]
      | cons y ys ih =>
          have hy := ih y
          simp [List.intercalate] at hy ⊢
          exact hy

theorem appends_encodeFieldInto (kv : Text × Value) (i : Nat) :
    (encodeFieldInto kv i).Appends ((if 0 < i then [','] else [])
      ++ (escKey kv.1 ++ '=' :: kv.2.encode F64.display)) := by
  refine (Appends.ite (fun _ => appends_push _) fun _ => appends_pure).bind ?_
  refine (appends_escKeyInto kv.1).bind ((appends_push '=').bind ?_)
  split
  · rename_i s hs
    rw [hs]
    exact appends_escStrInto s
  · rename_i n hn
    rw [hn]
    exact appends_pushAll _
  · rename_i f hf
    rw [hf]
    exact appends_pushAll _
  · rename_i b hb
    rw [hb]
    cases b <;> exact appends_pushAll _

theorem appends_line {r : Record} (h : r.Encodable) :
    r.encodeInto.Appends (r.line F64.display) := by
  obtain ⟨htable, hfields, hfinite⟩ := h
  have htags : Appends (r.tags.forM fun kv => do
      push ','
      escKeyInto kv.1
      push '='
      escKeyInto kv.2 : EncodeM Unit) r.encodeTags := by
    refine appends_forM fun kv _ => ?_
    exact (appends_push ',').bind ((appends_escKeyInto kv.1).bind
      ((appends_push '=').bind (appends_escKeyInto kv.2)))
  have hvalues : Appends (r.fields.zipIdx.forM fun kvi => encodeFieldInto kvi.1 kvi.2)
      (r.encodeFields F64.display) := by
    rw [encodeFields, ← flatMap_zipIdx_comma]
    exact appends_forM fun kvi _ => appends_encodeFieldInto kvi.1 kvi.2
  have hparts := ((forM_refuseNonFinite r).1 hfinite).bind ((appends_escKeyInto r.table).bind
    (htags.bind ((appends_push ' ').bind (hvalues.bind
      ((appends_pushAll (' ' :: Text.ofInt r.tsNs)).bind (appends_push '\n'))))))
  have hall := (appends_pure (ε := EncodeError) (α := Char)).bind
    ((appends_pure (ε := EncodeError) (α := Char)).bind hparts)
  rw [encodeInto, if_neg htable, if_neg hfields]
  simpa [line] using hall

/-- **The buffer sees what `encode` says**: the line, or nothing. -/
theorem exec_encodeInto (r : Record) (out : Text) :
    r.encodeInto.exec out = match r.encode F64.display with
      | .ok t => (.ok (), out ++ t)
      | .error e => (.error e, out) := by
  by_cases htable : r.table = []
  · rw [encodeInto, if_pos htable, encode, if_pos htable]
    exact (refuses_throw _).bind _ out
  by_cases hfields : r.fields = []
  · rw [encodeInto, if_neg htable, if_pos hfields, encode, if_neg htable, if_pos hfields]
    exact appends_pure.bind_refuses ((refuses_throw _).bind _) out
  cases hfinite : r.firstNonFinite with
  | some k =>
      rw [encodeInto, if_neg htable, if_neg hfields, encode, if_neg htable, if_neg hfields,
        hfinite]
      exact appends_pure.bind_refuses
        (appends_pure.bind_refuses (((forM_refuseNonFinite r).2 k hfinite).bind _)) out
  | none =>
      rw [(encode_eq_ok_iff _).mpr ⟨⟨htable, hfields, hfinite⟩, rfl⟩]
      exact appends_line ⟨htable, hfields, hfinite⟩ out

/-! ## One record, one line -/

/-- Exactly one newline, at the end, and nothing else below the space. -/
def OneLine (t : Text) : Prop := ∃ u, t = u ++ ['\n'] ∧ u.Printable

/-- What a successful `encode` appends to an empty buffer. -/
def encoding (r : Record) : Option Text :=
  match r.encodeInto.exec [] with
  | (.ok _, out) => some out
  | (.error _, _) => none

/-- The buffer after records were encoded into it in turn; a refused one is
skipped. -/
def encodeShared (rs : List Record) (out : Text) : Text :=
  rs.foldl (fun out r => (r.encodeInto.exec out).2) out

theorem oneLine_line (r : Record) : OneLine (r.line F64.display) :=
  ⟨r.content F64.display, line_eq r, printable_content F64.printable_display r⟩

theorem encoding_eq (r : Record) : encoding r = (r.encode F64.display).toOption := by
  rw [encoding, exec_encodeInto]
  cases r.encode F64.display <;> rfl

theorem oneLine_of_encoding {r : Record} {t : Text} (h : encoding r = some t) : OneLine t := by
  rw [encoding_eq] at h
  cases hr : r.encode F64.display with
  | error e =>
      rw [hr] at h
      cases h
  | ok u =>
      rw [hr] at h
      cases h
      rw [((encode_eq_ok_iff _).mp hr).2]
      exact oneLine_line r

/-- Lines put together are cut apart again. -/
theorem splitInclusive_flatten {ts : List Text} (h : ∀ t ∈ ts, OneLine t) :
    Text.splitInclusive ts.flatten = ts := by
  induction ts with
  | nil => rfl
  | cons t ts ih =>
      obtain ⟨u, rfl, hu⟩ := h t (List.mem_cons_self ..)
      rw [List.flatten_cons, List.append_assoc, List.singleton_append, hu.splitInclusive,
        ih fun t ht => h t (List.mem_cons_of_mem _ ht)]

theorem encodeShared_eq (rs : List Record) (out : Text) :
    encodeShared rs out = out ++ (rs.filterMap encoding).flatten := by
  induction rs generalizing out with
  | nil => simp [encodeShared]
  | cons r rs ih =>
      have hstep : encodeShared (r :: rs) out = encodeShared rs (r.encodeInto.exec out).2 := rfl
      rw [hstep, ih, exec_encodeInto, List.filterMap_cons, encoding_eq]
      cases r.encode F64.display with
      | error e => rfl
      | ok t => simp [Except.toOption]

/-- **One record is one line, or nothing.** A record that is refused leaves the buffer
as it was, any other appends one line; and a buffer of encodings, cut after each
newline, is the list of the encodings again. -/
theorem encode_one_line_or_nothing :
    (∀ (r : Record) (out : Text),
      (∃ e, r.encodeInto.exec out = (.error e, out)) ∨
        ∃ t, r.encodeInto.exec out = (.ok (), out ++ t) ∧ OneLine t) ∧
    (∀ (rs : List Record) (out : Text),
      encodeShared rs out = out ++ (rs.filterMap encoding).flatten) ∧
    ∀ rs : List Record,
      Text.splitInclusive (rs.filterMap encoding).flatten = rs.filterMap encoding := by
  refine ⟨fun r out => ?_, encodeShared_eq, fun rs => splitInclusive_flatten fun t ht => ?_⟩
  · rw [exec_encodeInto]
    cases hr : r.encode F64.display with
    | error e => exact .inl ⟨e, rfl⟩
    | ok t =>
        refine .inr ⟨t, rfl, ?_⟩
        rw [((encode_eq_ok_iff _).mp hr).2]
        exact oneLine_line r
  · obtain ⟨r, -, hr⟩ := List.mem_filterMap.mp ht
    exact oneLine_of_encoding hr

end Record

end Lp

end Tributary
