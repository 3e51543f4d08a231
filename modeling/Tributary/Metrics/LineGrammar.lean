import Tributary.Lp.Parse
import Tributary.Metrics.Exec

/-!
# Lines of a command as they are read

The grammar of measurement and tags, as a reader of it runs and as what a text spells. Readers
differ in whether a backslash escapes a backslash.
-/

namespace Tributary.Exec

open Lp (isSpecial endsTable)

/-! ## The grammar -/

/-- What a backslash escapes. -/
def escapes (doubled : Bool) (c : Char) : Bool := isSpecial c || (doubled && c = '\\')

/-- A name, unescaped, up to the first delimiter that is not escaped, and what follows. -/
def scan (doubled : Bool) (stop : Char → Bool) : Text → Text × Text
  | '\\' :: c :: t =>
      if escapes doubled c then (c :: (scan doubled stop t).1, (scan doubled stop t).2)
      else ('\\' :: (scan doubled stop (c :: t)).1, (scan doubled stop (c :: t)).2)
  | c :: t =>
      if stop c then ([], c :: t) else (c :: (scan doubled stop t).1, (scan doubled stop t).2)
  | [] => ([], [])

/-- `,key=value` as often as it comes. -/
def readTags (doubled : Bool) : Nat → Text → Option (Tags × Text)
  | n + 1, ',' :: t =>
      let key := scan doubled isSpecial t
      match key.2 with
      | '=' :: t =>
          let value := scan doubled isSpecial t
          if key.1 ≠ [] ∧ value.1 ≠ [] then
            (readTags doubled n value.2).map fun r => ((key.1, value.1) :: r.1, r.2)
          else none
      | _ => none
  | _ + 1, t => some ([], t)
  | 0, _ => none

/-- What a line says: the fields and the timestamp as they stand. -/
structure Point where
  table : Text
  tags : Tags
  fields : Text
deriving DecidableEq, Repr

def readLine (doubled : Bool) (line : Text) : Option Point :=
  if '\n' ∈ line then none
  else
    let table := scan doubled endsTable line
    if table.1 = [] then none
    else
      match readTags doubled line.length table.2 with
      | some (tags, ' ' :: fields) => some { table := table.1, tags, fields }
      | _ => none

/-- Where backslashes escape no backslash, names are what the encoder writes them for. -/
theorem scan_false (stop : Char → Bool) (t : Text) : scan false stop t = Lp.scanName stop t := by
  fun_induction Lp.scanName stop t with
  | case1 c t h ih => rw [scan, if_pos (by simpa [escapes] using h), ih]
  | case2 c t h ih => rw [scan, if_neg (by simpa [escapes] using h), ih]
  | case3 c t hne h => rw [scan, if_pos h]; exact hne
  | case4 c t hne h ih => rw [scan, if_neg h, ih]; exact hne
  | case5 => rfl

/-! ## Names as they are written -/

/-- The text is a way to write the name. -/
inductive Spells (doubled : Bool) (stop : Char → Bool) : Text → Text → Prop
  | nil : Spells doubled stop [] []
  | escaped {c raw name} (hc : escapes doubled c = true) (h : Spells doubled stop raw name) :
      Spells doubled stop ('\\' :: c :: raw) (c :: name)
  | backslash {c raw name} (hc : escapes doubled c = false)
      (h : Spells doubled stop (c :: raw) name) :
      Spells doubled stop ('\\' :: c :: raw) ('\\' :: name)
  | plain {c raw name} (hc : c ≠ '\\') (hstop : stop c = false)
      (h : Spells doubled stop raw name) : Spells doubled stop (c :: raw) (c :: name)

variable {d : Bool} {stop : Char → Bool} {raw name t r : Text} {c : Char}

theorem escapes_special (hc : isSpecial c = true) : escapes d c = true := by
  rw [escapes, hc, Bool.true_or]

theorem special_of_escapes (h : escapes d c = true) : isSpecial c = true ∨ d = true ∧ c = '\\' := by
  simpa [escapes] using h

theorem ne_of_escapes_eq_false {b : Char} (h : escapes d c = false) (hb : escapes d b = true) :
    c ≠ b := by
  rintro rfl
  rw [h] at hb
  cases hb

/-- **A name as written is read** up to the delimiter behind it. -/
theorem Spells.scan (h : Spells d stop raw name) (hstop : Lp.Stops stop) (hc : stop c = true)
    (r : Text) : Exec.scan d stop (raw ++ c :: r) = (name, c :: r) := by
  induction h with
  | nil =>
      rw [List.nil_append, Exec.scan, if_pos hc]
      exact fun _ _ hb => absurd hb (Lp.special_ne_backslash (hstop.special c hc))
  | escaped he h ih => rw [List.cons_append, List.cons_append, Exec.scan, if_pos he, ih]
  | backslash he h ih =>
      rw [List.cons_append, List.cons_append, Exec.scan, if_neg (by simp [he])]
      rw [← List.cons_append, ih]
  | plain hne hgo h ih =>
      rw [List.cons_append, Exec.scan, if_neg (by simp [hgo]), ih]
      exact fun _ _ hb => absurd hb hne

/-- What is read was written so. -/
theorem spells_of_scan (hstop : Lp.Stops stop) (h : scan d stop t = (name, c :: r)) :
    ∃ raw, t = raw ++ c :: r ∧ Spells d stop raw name ∧ stop c = true := by
  fun_induction scan d stop t generalizing name with
  | case1 a t he ih =>
      obtain ⟨rfl, hrest⟩ := Prod.mk.inj h
      obtain ⟨raw, hsplit, hraw, hc⟩ := ih (Prod.ext rfl hrest)
      exact ⟨'\\' :: a :: raw, by rw [hsplit]; rfl, .escaped he hraw, hc⟩
  | case2 a t he ih =>
      obtain ⟨rfl, hrest⟩ := Prod.mk.inj h
      obtain ⟨raw, hsplit, hraw, hc⟩ := ih (Prod.ext rfl hrest)
      cases raw with
      | nil =>
          -- the next character would be a delimiter, and escaped
          obtain ⟨rfl, -⟩ := List.cons.inj hsplit
          exact absurd (escapes_special (hstop.special _ hc)) he
      | cons b raw =>
          obtain ⟨rfl, ht⟩ := List.cons.inj hsplit
          exact ⟨'\\' :: a :: raw, by rw [ht]; rfl, .backslash (Bool.eq_false_iff.mpr he) hraw, hc⟩
  | case3 a t hne ha =>
      obtain ⟨rfl, hrest⟩ := Prod.mk.inj h
      obtain ⟨rfl, rfl⟩ := List.cons.inj hrest
      exact ⟨[], rfl, .nil, ha⟩
  | case4 a t hne ha ih =>
      obtain ⟨rfl, hrest⟩ := Prod.mk.inj h
      obtain ⟨raw, hsplit, hraw, hc⟩ := ih (Prod.ext rfl hrest)
      have hback : a ≠ '\\' := by
        rintro rfl
        obtain ⟨b, u, hbu⟩ := List.exists_cons_of_ne_nil (l := t) (by rw [hsplit]; simp)
        exact hne b u rfl hbu
      exact ⟨a :: raw, by rw [hsplit]; rfl, .plain hback (Bool.eq_false_iff.mpr ha) hraw, hc⟩
  | case5 => cases (Prod.mk.inj h).2

/-! ## Tags as they are written -/

/-- The text is a way to write the tags. -/
inductive SpellsTags (doubled : Bool) : Text → Tags → Prop
  | nil : SpellsTags doubled [] []
  | cons {rawKey key rawValue value raw tags} (hkey : Spells doubled isSpecial rawKey key)
      (hvalue : Spells doubled isSpecial rawValue value) (hne : key ≠ [] ∧ value ≠ [])
      (h : SpellsTags doubled raw tags) :
      SpellsTags doubled (',' :: rawKey ++ '=' :: rawValue ++ raw) ((key, value) :: tags)

variable {raw' : Text} {tags tags' out : Tags} {n : Nat}

theorem SpellsTags.append (h : SpellsTags d raw tags) (h' : SpellsTags d raw' tags') :
    SpellsTags d (raw ++ raw') (tags ++ tags') := by
  induction h with
  | nil => exact h'
  | cons hkey hvalue hne h ih =>
      rw [List.append_assoc, List.cons_append]
      exact .cons hkey hvalue hne ih

/-- What stands behind tags, and is no part of a name. -/
def Ends (t : Text) : Prop := ∃ c r, t = c :: r ∧ (c = ',' ∨ c = ' ')

theorem SpellsTags.ends (h : SpellsTags d raw tags) (hr : Ends r) : Ends (raw ++ r) := by
  cases h with
  | nil => exact hr
  | cons => exact ⟨',', _, rfl, .inl rfl⟩

theorem isSpecial_of_ends (h : c = ',' ∨ c = ' ') : isSpecial c = true := by
  rcases h with rfl | rfl <;> decide

/-- **Tags as written are read**, and then what follows. -/
theorem SpellsTags.readTags (h : SpellsTags d raw tags) (hr : Ends r) (n : Nat) :
    Exec.readTags d (tags.length + n) (raw ++ r)
      = (Exec.readTags d n r).map fun x => (tags ++ x.1, x.2) := by
  induction h with
  | nil =>
      rw [List.length_nil, Nat.zero_add, List.nil_append]
      cases Exec.readTags d n r <;> rfl
  | @cons rawKey key rawValue value raw tags hkey hvalue hne h ih =>
      obtain ⟨c, u, hu, hc⟩ := h.ends hr
      have hkeyRead := hkey.scan Lp.stops_isSpecial (c := '=') (by decide)
        (rawValue ++ (raw ++ r))
      have hvalueRead := hvalue.scan Lp.stops_isSpecial (isSpecial_of_ends hc) u
      rw [← hu] at hvalueRead
      have hfuel : ((key, value) :: tags).length + n = (tags.length + n) + 1 := by
        rw [List.length_cons]
        omega
      have hsplit : ',' :: rawKey ++ '=' :: rawValue ++ raw ++ r
          = ',' :: (rawKey ++ '=' :: (rawValue ++ (raw ++ r))) := by simp
      rw [hfuel, hsplit, Exec.readTags]
      simp only [hkeyRead, hvalueRead, if_pos hne, ih, Option.map_map]
      rfl

/-- What is read as tags was written so. -/
theorem spellsTags_of_readTags (h : readTags d n t = some (out, c :: r)) :
    ∃ raw, t = raw ++ c :: r ∧ SpellsTags d raw out := by
  fun_induction readTags d n t generalizing out with
  | case1 =>
      rename_i t key u hkey value hne ih
      obtain ⟨⟨tags, rest⟩, hrest, heq⟩ := Option.map_eq_some_iff.mp h
      obtain ⟨rfl, rfl⟩ := Prod.mk.inj heq
      obtain ⟨raw, hraw, htags⟩ := ih hrest
      obtain ⟨a, v, hv⟩ := List.exists_cons_of_ne_nil (l := value.2) (by rw [hraw]; simp)
      have hkeyScan : scan d Lp.isSpecial t = (key.1, '=' :: u) := Prod.ext rfl hkey
      have hvalueScan : scan d Lp.isSpecial u = (value.1, a :: v) := Prod.ext rfl hv
      obtain ⟨rawKey, ht, hspellsKey, -⟩ := spells_of_scan Lp.stops_isSpecial hkeyScan
      obtain ⟨rawValue, hu, hspellsValue, -⟩ := spells_of_scan Lp.stops_isSpecial hvalueScan
      refine ⟨',' :: rawKey ++ '=' :: rawValue ++ raw, ?_, .cons hspellsKey hspellsValue hne htags⟩
      rw [ht, hu, ← hv, hraw]
      simp
  | case2 => cases h
  | case3 => cases h
  | case4 n t hne =>
      obtain ⟨rfl, rfl⟩ := Prod.mk.inj (Option.some.inj h)
      exact ⟨[], rfl, .nil⟩
  | case5 => cases h

/-! ## Lines as they are written -/

theorem SpellsTags.length_le (h : SpellsTags d raw tags) : tags.length ≤ raw.length := by
  induction h with
  | nil => exact Nat.le_refl _
  | cons hkey hvalue hne h ih =>
      simp only [List.length_cons, List.length_append]
      omega

/-- **A line is read as what it is a way to write.** -/
theorem readLine_eq_some_iff {line : Text} {p : Point} : readLine d line = some p ↔
    '\n' ∉ line ∧ p.table ≠ [] ∧ ∃ rawTable rawTags, Spells d endsTable rawTable p.table ∧
      SpellsTags d rawTags p.tags ∧ line = rawTable ++ (rawTags ++ ' ' :: p.fields) := by
  constructor
  · intro h
    rw [readLine] at h
    split at h
    · cases h
    rename_i hline
    simp only at h
    split at h
    · cases h
    rename_i htable
    split at h
    · rename_i tags fields htags
      cases Option.some.inj h
      obtain ⟨rawTags, hrest, hspellsTags⟩ := spellsTags_of_readTags htags
      obtain ⟨c, u, hu⟩ := List.exists_cons_of_ne_nil
        (l := (scan d endsTable line).2) (by rw [hrest]; simp)
      have hscan : scan d endsTable line = ((scan d endsTable line).1, c :: u) := Prod.ext rfl hu
      obtain ⟨rawTable, hsplit, hspells, -⟩ := spells_of_scan Lp.stops_endsTable hscan
      refine ⟨hline, htable, rawTable, rawTags, hspells, hspellsTags, ?_⟩
      rw [← hrest, hu]
      exact hsplit
    · cases h
  · rintro ⟨hline, htable, rawTable, rawTags, hspells, htags, hsplit⟩
    have hends : Ends (' ' :: p.fields) := ⟨' ', p.fields, rfl, .inr rfl⟩
    obtain ⟨c, u, hu, hc⟩ := htags.ends hends
    have hstop : endsTable c = true := by
      rcases hc with rfl | rfl <;> decide
    have hread := hspells.scan Lp.stops_endsTable hstop u
    rw [← hu, ← hsplit] at hread
    obtain ⟨n, hn⟩ : ∃ n, line.length = p.tags.length + (n + 1) := by
      have hlength := htags.length_le
      refine ⟨line.length - p.tags.length - 1, ?_⟩
      rw [hsplit, List.length_append, List.length_append, List.length_cons]
      omega
    have htagsRead : readTags d line.length (rawTags ++ ' ' :: p.fields)
        = some (p.tags, ' ' :: p.fields) := by
      rw [hn, htags.readTags hends, readTags]
      · simp
      · simp
    rw [readLine, if_neg hline]
    simp only [hread, if_neg htable, htagsRead]

end Tributary.Exec
