import Tributary.Lp.Encode
import Tributary.Map

/-!
# Reading a line back

The grammar the encoder writes for, read the other way: in names and tag values a
backslash escapes a comma, an equals sign or a space and is literal otherwise, in
quoted strings it escapes a quote or a backslash.

A line reads back as its record exactly when no name in it ends in a backslash,
which then escapes the delimiter behind it, or holds a control character, which
is written as a delimiter.
-/

namespace Tributary.Lp

open Lib

/-! ## The grammar -/

/-- Where readers of the grammar differ. -/
structure Dialect where
  /-- a line that starts with `#` is a comment -/
  comments : Bool
  /-- a key or tag value may be empty -/
  emptyNames : Bool
deriving DecidableEq, Repr

/-- What a backslash escapes in a name. -/
def isSpecial (c : Char) : Bool := c = ',' || c = '=' || c = ' '

/-- A measurement name ends at a comma or a space. -/
def endsTable (c : Char) : Bool := c = ',' || c = ' '

/-- A name, unescaped, up to the first delimiter that is not escaped, and what
follows. -/
def scanName (stop : Char → Bool) : Text → Text × Text
  | '\\' :: c :: t =>
      if isSpecial c then (c :: (scanName stop t).1, (scanName stop t).2)
      else ('\\' :: (scanName stop (c :: t)).1, (scanName stop (c :: t)).2)
  | c :: t => if stop c then ([], c :: t) else (c :: (scanName stop t).1, (scanName stop t).2)
  | [] => ([], [])

/-- A string, unescaped, up to its closing quote, and what follows. -/
def scanString : Text → Option (Text × Text)
  | '\\' :: c :: t =>
      if c = '"' ∨ c = '\\' then (scanString t).map fun r => (c :: r.1, r.2)
      else (scanString (c :: t)).map fun r => ('\\' :: r.1, r.2)
  | c :: t =>
      if c = '"' then some ([], t)
      else (scanString t).map fun r => (c :: r.1, r.2)
  | [] => none

attribute [grind =] scanName scanString

/-- An optional minus sign, then digits. -/
def readInt (t : Text) : Option Int :=
  match t with
  | '-' :: ds =>
      if !ds.isEmpty && ds.all Char.isDigit then some (-(Nat.ofDigitChars 10 ds 0 : Nat)) else none
  | ds => if !ds.isEmpty && ds.all Char.isDigit then some (Nat.ofDigitChars 10 ds 0 : Nat) else none

/-- A finite decimal, rounded to a double. -/
def readMagnitude (negative : Bool) (t : Text) : Option F64 :=
  (Binary64.read t).bind fun d =>
    let u := Binary64.nearest (d.1 * 2 ^ Binary64.places) (10 ^ d.2)
    if u < Binary64.infinity then some (F64.ofPattern negative u) else none

/-- An optional minus sign, then a decimal. -/
def readFloat (t : Text) : Option F64 :=
  match t with
  | '-' :: t => readMagnitude true t
  | t => readMagnitude false t

def trueWords : List Text := ["t", "T", "true", "True", "TRUE"].map String.toList

def falseWords : List Text := ["f", "F", "false", "False", "FALSE"].map String.toList

/-- A value without quotes. -/
def readScalar (t : Text) : Option Value :=
  if t ∈ trueWords then some (.bool true)
  else if t ∈ falseWords then some (.bool false)
  else if t.getLast? = some 'i' then (readInt t.dropLast).map .int
  else (readFloat t).map .float

/-- A field value, and what follows. -/
def readValue (t : Text) : Option (Value × Text) :=
  match t with
  | '"' :: rest => (scanString rest).map fun r => (.str r.1, r.2)
  | t =>
      (readScalar (t.takeWhile fun c => !endsTable c)).map
        fun v => (v, t.dropWhile fun c => !endsTable c)

namespace Dialect

variable (d : Dialect)

/-- The reader takes the name. -/
def Accepts (s : Text) : Prop := d.emptyNames = true ∨ s ≠ []

instance (s : Text) : Decidable (d.Accepts s) := inferInstanceAs (Decidable (_ ∨ _))

/-- `,key=value` as often as it comes. -/
def readTags : Nat → Text → Option (List (Text × Text) × Text)
  | n + 1, ',' :: t =>
      let key := scanName isSpecial t
      match key.2 with
      | '=' :: t =>
          let value := scanName isSpecial t
          if d.Accepts key.1 ∧ d.Accepts value.1 then
            (readTags n value.2).map fun r => ((key.1, value.1) :: r.1, r.2)
          else none
      | _ => none
  | _ + 1, t => some ([], t)
  | 0, _ => none

/-- `key=value`, and more behind commas. -/
def readFields : Nat → Text → Option (List (Text × Value) × Text)
  | n + 1, t =>
      let key := scanName isSpecial t
      match key.2 with
      | '=' :: t =>
          if d.Accepts key.1 then
            match readValue t with
            | some (v, ',' :: t) => (readFields n t).map fun r => ((key.1, v) :: r.1, r.2)
            | some (v, t) => some ([(key.1, v)], t)
            | none => none
          else none
      | _ => none
  | 0, _ => none

/-- The timestamp, to the end of the line. -/
def readTime (t : Text) : Option Int :=
  match t with
  | ' ' :: t =>
      if t.dropWhile (· ≠ '\n') = ['\n'] then readInt (t.takeWhile (· ≠ '\n')) else none
  | _ => none

/-- One line as a record. -/
def parse (line : Text) : Option Record :=
  if d.comments = true ∧ line.head? = some '#' then none
  else
    let table := scanName endsTable line
    if table.1 = [] then none
    else
      match d.readTags line.length table.2 with
      | some (tags, ' ' :: t) =>
          (d.readFields line.length t).bind fun fields =>
            (readTime fields.2).map fun ts =>
              { table := table.1, tags := tags, fields := fields.1, tsNs := ts }
      | _ => none

end Dialect

/-! ## What the encoder substitutes -/

/-- The documented substitution inside string values: a newline is spelled out, a
carriage return dropped, any other control character a space. -/
def substituteChar (c : Char) : Text :=
  if c = '\n' then ['\\', 'n']
  else if c = '\r' then []
  else if c.toNat < 0x20 then [' ']
  else [c]

def Value.substituted : Value → Value
  | .str s => .str (s.flatMap substituteChar)
  | v => v

/-- The substitution in names: any control character a space. -/
def substituteName (s : Text) : Text := s.map fun c => if c.toNat < 0x20 then ' ' else c

/-- The record up to those substitutions. -/
def Record.substituted (r : Record) : Record :=
  { table := substituteName r.table
    tags := r.tags.map fun kv => (substituteName kv.1, substituteName kv.2)
    fields := r.fields.map fun kv => (substituteName kv.1, kv.2.substituted)
    tsNs := r.tsNs }

/-- A name that is told from what follows it: no control character, no backslash at
its end. -/
def Clean (s : Text) : Prop := s.Printable ∧ s.getLast? ≠ some '\\'

instance : DecidablePred Text.Printable := fun s =>
  List.decidableBAll (fun c : Char => 0x20 ≤ c.toNat) s

instance : DecidablePred Clean := fun _ => inferInstanceAs (Decidable (_ ∧ _))

/-- Every name of a tag or field can be told from what follows it, and the reader
takes it. -/
structure Dialect.Legible (d : Dialect) (r : Record) : Prop where
  table : Clean r.table ∧ ¬ (d.comments = true ∧ r.table.head? = some '#')
  tags : ∀ kv ∈ r.tags, (Clean kv.1 ∧ d.Accepts kv.1) ∧ Clean kv.2 ∧ d.Accepts kv.2
  fields : ∀ kv ∈ r.fields, Clean kv.1 ∧ d.Accepts kv.1

/-! ## Names -/

theorem Clean.substituteName {s : Text} (h : Clean s) : substituteName s = s := by
  rw [Lp.substituteName]
  conv_rhs => rw [← List.map_id s]
  refine List.map_congr_left fun c hc => if_neg ?_
  exact Nat.not_lt.mpr (h.1 c hc)

theorem clean_nil : Clean [] := ⟨List.forall_mem_nil _, nofun⟩

theorem clean_cons_iff {c : Char} {s : Text} (hs : s ≠ []) :
    Clean (c :: s) ↔ 0x20 ≤ c.toNat ∧ Clean s := by
  obtain ⟨c', s, rfl⟩ := List.exists_cons_of_ne_nil hs
  rw [Clean, Clean, List.getLast?_cons_cons]
  simp [Text.Printable, and_assoc]

theorem escKeyChar_special {c : Char} (h : isSpecial c = true) : escKeyChar c = ['\\', c] := by
  have hc : c = ',' ∨ c = '=' ∨ c = ' ' := by simpa [isSpecial, or_assoc] using h
  rw [escKeyChar, if_pos hc]

theorem escKeyChar_control {c : Char} (h : c.toNat < 0x20) : escKeyChar c = [' '] := by
  have hc : ¬ (c = ',' ∨ c = '=' ∨ c = ' ') := by
    rintro (rfl | rfl | rfl) <;> exact absurd h (by decide)
  rw [escKeyChar, if_neg hc, if_pos h]

theorem escKeyChar_plain {c : Char} (h : isSpecial c = false) (hp : 0x20 ≤ c.toNat) :
    escKeyChar c = [c] := by
  have hc : ¬ (c = ',' ∨ c = '=' ∨ c = ' ') := by simpa [isSpecial, and_assoc] using h
  rw [escKeyChar, if_neg hc, if_neg (Nat.not_lt.mpr hp)]

/-- A reader of names: it stops at a space, and only at what the encoder escapes. -/
structure Stops (stop : Char → Bool) : Prop where
  space : stop ' ' = true
  special : ∀ c, stop c = true → isSpecial c = true

theorem Stops.ne_space {stop : Char → Bool} (h : Stops stop) {c : Char} (hc : stop c = false) :
    c ≠ ' ' := by
  rintro rfl
  rw [h.space] at hc
  cases hc

theorem stops_isSpecial : Stops isSpecial := ⟨by decide, fun _ h => h⟩

theorem stops_endsTable : Stops endsTable := by
  refine ⟨by decide, fun c h => ?_⟩
  have hc : c = ',' ∨ c = ' ' := by simpa [endsTable] using h
  rcases hc with rfl | rfl <;> decide

section

variable {stop : Char → Bool}

theorem scanName_escaped {c : Char} {t : Text} (h : isSpecial c = true) :
    scanName stop ('\\' :: c :: t) = (c :: (scanName stop t).1, (scanName stop t).2) := by
  rw [scanName, if_pos h]

/-- A backslash in front of anything else stands for itself. -/
theorem scanName_backslash {c : Char} {t : Text} (h : isSpecial c = false) :
    scanName stop ('\\' :: c :: t)
      = ('\\' :: (scanName stop (c :: t)).1, (scanName stop (c :: t)).2) := by
  rw [scanName, if_neg (by simp [h])]

theorem scanName_plain {c : Char} {t : Text} (hc : c ≠ '\\') (h : stop c = false) :
    scanName stop (c :: t) = (c :: (scanName stop t).1, (scanName stop t).2) := by
  rw [scanName, if_neg (by simp [h])]
  exact fun _ _ hb => absurd hb hc

theorem scanName_stop {c : Char} {t : Text} (hc : c ≠ '\\') (h : stop c = true) :
    scanName stop (c :: t) = ([], c :: t) := by
  rw [scanName, if_pos h]
  exact fun _ _ hb => absurd hb hc

theorem special_ne_backslash {c : Char} (h : isSpecial c = true) : c ≠ '\\' := by
  rintro rfl
  exact absurd h (by decide)

theorem escKey_cons_append (c : Char) (s t : Text) :
    escKey (c :: s) ++ t = escKeyChar c ++ (escKey s ++ t) := by
  rw [escKey, List.flatMap_cons, List.append_assoc]
  rfl

/-- How an escaped name begins: with a space if its first character is a control
character, else with nothing a backslash would escape. -/
theorem escKey_head (c : Char) (s t : Text) : ∃ x y, escKey (c :: s) ++ t = x :: y ∧
    (c.toNat < 0x20 → x = ' ') ∧ (0x20 ≤ c.toNat → isSpecial x = false) := by
  rw [escKey_cons_append]
  by_cases hspecial : isSpecial c = true
  · rw [escKeyChar_special hspecial]
    refine ⟨_, _, rfl, fun hlow => ?_, fun _ => by decide⟩
    have hc : c = ',' ∨ c = '=' ∨ c = ' ' := by simpa [isSpecial, or_assoc] using hspecial
    rcases hc with rfl | rfl | rfl <;> exact absurd hlow (by decide)
  · have hspecial := Bool.eq_false_iff.mpr hspecial
    by_cases hlow : c.toNat < 0x20
    · rw [escKeyChar_control hlow]
      exact ⟨_, _, rfl, fun _ => rfl, fun hp => absurd hlow (Nat.not_lt.mpr hp)⟩
    · rw [escKeyChar_plain hspecial (Nat.not_lt.mp hlow)]
      exact ⟨_, _, rfl, fun h => absurd h hlow, fun _ => hspecial⟩

/-- **A clean name reads back** up to the delimiter behind it. -/
theorem scanName_escKey (hstop : Stops stop) {s t : Text} {c : Char} (hc : stop c = true)
    (hs : Clean s) : scanName stop (escKey s ++ c :: t) = (s, c :: t) := by
  have hdelim := special_ne_backslash (hstop.special c hc)
  induction s with
  | nil => exact scanName_stop hdelim hc
  | cons a s ih =>
      have hlow : 0x20 ≤ a.toNat := hs.1 a (List.mem_cons_self ..)
      have hrest : Clean s := by
        by_cases hne : s = []
        · exact hne ▸ clean_nil
        · exact ((clean_cons_iff hne).mp hs).2
      have ih := ih hrest
      rw [escKey_cons_append]
      by_cases hspecial : isSpecial a = true
      · rw [escKeyChar_special hspecial]
        simp only [List.cons_append, List.nil_append]
        rw [scanName_escaped hspecial, ih]
      · have hspecial := Bool.eq_false_iff.mpr hspecial
        have hgo : stop a = false := by
          rw [Bool.eq_false_iff]
          exact fun h => by simp [hstop.special a h] at hspecial
        rw [escKeyChar_plain hspecial hlow, List.singleton_append]
        by_cases hback : a = '\\'
        · -- not at the end, so what follows is the rest of the name
          subst hback
          have hne : s ≠ [] := by
            rintro rfl
            exact hs.2 rfl
          obtain ⟨b, s', rfl⟩ := List.exists_cons_of_ne_nil hne
          obtain ⟨x, y, hxy, -, hx⟩ := escKey_head b s' (c :: t)
          have hb : 0x20 ≤ b.toNat := hrest.1 b (List.mem_cons_self ..)
          rw [hxy, scanName_backslash (hx hb), ← hxy, ih]
        · rw [scanName_plain hback hgo, ih]

/-- **A name that is not clean does not read back**, not even up to its control
characters. -/
theorem clean_of_scanName (hstop : Stops stop) {s t : Text} {c : Char} (hc : stop c = true)
    (h : (scanName stop (escKey s ++ c :: t)).1 = substituteName s) : Clean s := by
  have hdelim := hstop.special c hc
  induction s with
  | nil => exact clean_nil
  | cons a s ih =>
      rw [escKey_cons_append, substituteName, List.map_cons] at h
      by_cases hlow : a.toNat < 0x20
      · -- written as a space, where the name ends
        rw [escKeyChar_control hlow, List.singleton_append,
          scanName_stop (by decide) hstop.space] at h
        cases h
      rw [if_neg hlow] at h
      have hprint := Nat.not_lt.mp hlow
      -- past its first character the rest of the name is read
      have hstep : a ≠ '\\' →
          (scanName stop (escKey s ++ c :: t)).1 = substituteName s → Clean (a :: s) := by
        intro hback hrest
        by_cases hne : s = []
        · subst hne
          exact ⟨fun x hx => List.mem_singleton.mp hx ▸ hprint, by simpa using hback⟩
        · exact (clean_cons_iff hne).mpr ⟨hprint, ih hrest⟩
      by_cases hspecial : isSpecial a = true
      · rw [escKeyChar_special hspecial] at h
        simp only [List.cons_append, List.nil_append] at h
        rw [scanName_escaped hspecial] at h
        exact hstep (special_ne_backslash hspecial) (List.cons.inj h).2
      · have hspecial := Bool.eq_false_iff.mpr hspecial
        have hgo : stop a = false := by
          rw [Bool.eq_false_iff]
          exact fun h => by simp [hstop.special a h] at hspecial
        rw [escKeyChar_plain hspecial hprint, List.singleton_append] at h
        by_cases hback : a = '\\'
        · subst hback
          cases s with
          | nil =>
              -- the delimiter is escaped
              rw [escKey, List.flatMap_nil, List.nil_append, scanName_escaped hdelim] at h
              exact absurd (List.cons.inj h).1 (special_ne_backslash hdelim)
          | cons b s =>
              obtain ⟨x, y, hxy, hcontrol, hx⟩ := escKey_head b s (c :: t)
              rw [hxy] at h ih
              by_cases hb : b.toNat < 0x20
              · rw [hcontrol hb, scanName_escaped (by decide)] at h
                exact absurd (List.cons.inj h).1 (by decide)
              · rw [scanName_backslash (hx (Nat.not_lt.mp hb))] at h
                exact (clean_cons_iff (List.cons_ne_nil _ _)).mpr
                  ⟨hprint, ih (List.cons.inj h).2⟩
        · rw [scanName_plain hback hgo] at h
          exact hstep hback (List.cons.inj h).2

end

/-! ## Values -/

theorem scanString_plain {c : Char} {s t r : Text} (hquote : c ≠ '"') (hback : c ≠ '\\')
    (h : scanString t = some (s, r)) : scanString (c :: t) = some (c :: s, r) := by
  rw [scanString, if_neg hquote, h]
  · rfl
  · exact fun _ _ hb => absurd hb hback

theorem scanString_escStrChar (c : Char) {s t r : Text} (h : scanString t = some (s, r)) :
    scanString (escStrChar c ++ t) = some (substituteChar c ++ s, r) := by
  by_cases hescaped : c = '"' ∨ c = '\\'
  · have hsub : substituteChar c = [c] := by
      rcases hescaped with rfl | rfl <;> decide
    rw [escStrChar, if_pos hescaped, hsub, List.cons_append, List.singleton_append, scanString,
      if_pos hescaped, h]
    rfl
  · obtain ⟨hquote, hback⟩ := not_or.mp hescaped
    rw [escStrChar, if_neg hescaped, substituteChar]
    by_cases hnl : c = '\n'
    · -- `\n` is spelled out, and no escape for the reader
      rw [if_pos hnl, List.cons_append, List.singleton_append, scanString,
        if_neg (by decide), scanString_plain (by decide) (by decide) h]
      rfl
    · rw [if_neg hnl]
      by_cases hcr : c = '\r'
      · rw [if_pos hcr]
        exact h
      · rw [if_neg hcr]
        split
        · exact scanString_plain (by decide) (by decide) h
        · exact scanString_plain hquote hback h

theorem scanString_escStr (s t : Text) :
    scanString (s.flatMap escStrChar ++ '"' :: t) = some (s.flatMap substituteChar, t) := by
  induction s with
  | nil => rfl
  | cons c s ih =>
      rw [List.flatMap_cons, List.append_assoc, scanString_escStrChar c ih, List.flatMap_cons]

theorem isDigit_ne {c d : Char} (hc : c.isDigit = true) (hd : d.isDigit = false) : c ≠ d := by
  rintro rfl
  rw [hc] at hd
  cases hd

theorem toDigits_digits (n : Nat) :
    (!(Nat.toDigits 10 n).isEmpty && (Nat.toDigits 10 n).all Char.isDigit) = true := by
  have hne : Nat.toDigits 10 n ≠ [] := List.ne_nil_of_length_pos Nat.length_toDigits_pos
  have hall : (Nat.toDigits 10 n).all Char.isDigit = true :=
    List.all_eq_true.mpr fun c hc => Text.isDigit_of_mem_toDigits hc
  simp [hne, hall]

theorem readInt_ofInt (n : Int) : readInt (Text.ofInt n) = some n := by
  cases n with
  | negSucc k =>
      rw [Text.ofInt, readInt, if_pos (toDigits_digits _), Nat.ofDigitChars_ten_toDigits]
      rfl
  | ofNat k =>
      rw [Text.ofInt, readInt, if_pos (toDigits_digits _), Nat.ofDigitChars_ten_toDigits]
      · rfl
      · rintro ds hds
        have hmem : '-' ∈ Nat.toDigits 10 k := hds ▸ List.mem_cons_self ..
        exact absurd (Text.isDigit_of_mem_toDigits hmem) (by decide)

/-- Every character of a number is a digit, or one of three others. -/
theorem mem_ofInt {n : Int} {c : Char} (h : c ∈ Text.ofInt n) : c.isDigit = true ∨ c = '-' := by
  cases n with
  | ofNat k => exact .inl (Text.isDigit_of_mem_toDigits h)
  | negSucc k =>
      rcases List.mem_cons.mp h with rfl | h
      · exact .inr rfl
      · exact .inl (Text.isDigit_of_mem_toDigits h)

/-! ### Floats -/

theorem ofPattern_pattern (f : F64) : F64.ofPattern f.negative f.pattern = f := by
  have hlt := f.bits.toNat_lt
  have hbits : (if f.negative then 2 ^ 63 + f.pattern else f.pattern) = f.bits.toNat := by
    simp only [F64.negative, F64.pattern, decide_eq_true_eq]
    split <;> omega
  rw [F64.ofPattern, hbits, UInt64.ofNat_toNat]

theorem pattern_lt_infinity {f : F64} (hf : f.isFinite = true) :
    f.pattern < Binary64.infinity := by
  have hexp : f.bits.toNat / 2 ^ 52 % 2 ^ 11 ≠ 2047 := by simpa [F64.isFinite] using hf
  simp only [F64.pattern, Binary64.infinity]
  omega

theorem readMagnitude_render {f : F64} (hf : f.isFinite = true) :
    readMagnitude f.negative (Binary64.render (Binary64.shortest f.pattern)) = some f := by
  have hlt := pattern_lt_infinity hf
  have hround := Binary64.rounds_shortest (Nat.le_of_lt hlt)
  rw [readMagnitude, Binary64.read_render, Option.bind_some, hround, if_pos hlt,
    ofPattern_pattern]

theorem readFloat_display {f : F64} (hf : f.isFinite = true) : readFloat f.display = some f := by
  have hread := readMagnitude_render hf
  rw [F64.display, if_pos hf]
  by_cases hneg : f.negative = true
  · rw [hneg] at hread
    rw [if_pos hneg]
    exact hread
  · rw [Bool.eq_false_iff.mpr hneg] at hread
    rw [if_neg hneg, List.nil_append, readFloat]
    · exact hread
    · rintro t ht
      have hmem : '-' ∈ Binary64.render (Binary64.shortest f.pattern) :=
        ht ▸ List.mem_cons_self ..
      rcases Binary64.mem_render hmem with h | h <;> exact absurd h (by decide)

/-- A finite float prints as digits, a point and a sign, and no sign alone. -/
theorem mem_display {f : F64} (hf : f.isFinite = true) {c : Char} (h : c ∈ f.display) :
    c.isDigit = true ∨ c = '-' ∨ c = '.' := by
  rw [F64.display, if_pos hf] at h
  rcases List.mem_append.mp h with h | h
  · split at h
    · exact .inr (.inl (List.mem_singleton.mp h))
    · cases h
  · rcases Binary64.mem_render h with h | h
    · exact .inl h
    · exact .inr (.inr h)

/-! ### Scalars -/

/-- No word for a truth value holds a digit. -/
theorem words_no_digit : ∀ w ∈ trueWords ++ falseWords, w.any Char.isDigit = false := by
  decide

theorem readScalar_number {t : Text} {c : Char} (hc : c ∈ t) (hd : c.isDigit = true) :
    readScalar t = if t.getLast? = some 'i' then (readInt t.dropLast).map .int
      else (readFloat t).map .float := by
  have hnot : ∀ w ∈ trueWords ++ falseWords, t ≠ w := by
    rintro w hw rfl
    have hany : t.any Char.isDigit = true := List.any_eq_true.mpr ⟨c, hc, hd⟩
    rw [words_no_digit t hw] at hany
    cases hany
  rw [readScalar, if_neg fun h => hnot t (List.mem_append_left _ h) rfl,
    if_neg fun h => hnot t (List.mem_append_right _ h) rfl]

/-- Some digit, and no character that ends a value. -/
theorem exists_digit_ofInt (n : Int) : ∃ c ∈ Text.ofInt n, c.isDigit = true := by
  obtain ⟨c, hc, hd⟩ := Text.exists_getLast_ofInt n
  exact ⟨c, List.mem_of_getLast? hc, hd⟩

theorem exists_digit_display {f : F64} (hf : f.isFinite = true) :
    ∃ c ∈ f.display, c.isDigit = true := by
  obtain ⟨c, hc, hd⟩ := Binary64.exists_digit_render (Binary64.shortest f.pattern)
  refine ⟨c, ?_, hd⟩
  rw [F64.display, if_pos hf]
  exact List.mem_append_right _ hc

/-- A character that neither opens a string nor ends a value. -/
def Inner (c : Char) : Prop := c ≠ '"' ∧ endsTable c = false

instance (c : Char) : Decidable (Inner c) := inferInstanceAs (Decidable (_ ∧ _))

theorem inner_of_digit {c : Char} (h : c.isDigit = true) : Inner c := by
  refine ⟨isDigit_ne h (by decide), ?_⟩
  have hcomma := isDigit_ne h (d := ',') (by decide)
  have hspace := isDigit_ne h (d := ' ') (by decide)
  simp [endsTable, hcomma, hspace]

/-- A value without quotes ends at the first comma or space. -/
theorem readValue_scalar {s t : Text} {c : Char} (hs : ∀ x ∈ s, Inner x)
    (hc : endsTable c = true) :
    readValue (s ++ c :: t) = (readScalar s).map fun v => (v, c :: t) := by
  have hquote : ∀ rest, s ++ c :: t ≠ '"' :: rest := by
    rintro rest h
    cases s with
    | nil =>
        obtain ⟨rfl, -⟩ := List.cons.inj h
        exact absurd hc (by decide)
    | cons x s =>
        obtain ⟨rfl, -⟩ := List.cons.inj h
        exact (hs _ (List.mem_cons_self ..)).1 rfl
  have hpass : ∀ x ∈ s, (!endsTable x) = true := fun x hx => by simp [(hs x hx).2]
  rw [readValue]
  · rw [List.takeWhile_append_of_pos hpass, List.dropWhile_append_of_pos hpass]
    simp [hc]
  · exact hquote

/-- **A value reads back**, with a string as its substitution. -/
theorem readValue_encode {v : Value} {t : Text} {c : Char}
    (hv : ∀ f, v = .float f → f.isFinite = true) (hc : endsTable c = true) :
    readValue (v.encode F64.display ++ c :: t) = some (v.substituted, c :: t) := by
  cases v with
  | str s =>
      have hread := scanString_escStr s (c :: t)
      rw [Value.encode, escStr, List.append_assoc, List.cons_append, readValue]
      rw [List.singleton_append, hread]
      rfl
  | int n =>
      have hinner : ∀ x ∈ Text.ofInt n ++ ['i'], Inner x := by
        intro x hx
        rcases List.mem_append.mp hx with hx | hx
        · rcases mem_ofInt hx with hd | rfl
          · exact inner_of_digit hd
          · decide
        · rw [List.mem_singleton.mp hx]
          decide
      obtain ⟨d, hd, hdigit⟩ := exists_digit_ofInt n
      rw [Value.encode, readValue_scalar hinner hc,
        readScalar_number (List.mem_append_left _ hd) hdigit, if_pos (by simp),
        List.dropLast_concat, readInt_ofInt]
      rfl
  | float f =>
      have hf := hv f rfl
      have hmem := fun x hx => mem_display hf (c := x) hx
      have hinner : ∀ x ∈ f.display, Inner x := by
        intro x hx
        rcases hmem x hx with hd | rfl | rfl
        · exact inner_of_digit hd
        · decide
        · decide
      have hlast : f.display.getLast? ≠ some 'i' := by
        intro h
        rcases hmem _ (List.mem_of_getLast? h) with h | h | h <;> exact absurd h (by decide)
      obtain ⟨d, hd, hdigit⟩ := exists_digit_display hf
      rw [Value.encode, readValue_scalar hinner hc, readScalar_number hd hdigit, if_neg hlast,
        readFloat_display hf]
      rfl
  | bool b =>
      cases b with
      | true =>
          have hinner : ∀ x ∈ "true".toList, Inner x := by
            simpa only [List.all_eq_true, decide_eq_true_eq] using
              (by decide : ("true".toList.all fun x => decide (Inner x)) = true)
          exact readValue_scalar hinner hc
      | false =>
          have hinner : ∀ x ∈ "false".toList, Inner x := by
            simpa only [List.all_eq_true, decide_eq_true_eq] using
              (by decide : ("false".toList.all fun x => decide (Inner x)) = true)
          exact readValue_scalar hinner hc

/-! ## Tags and fields -/

variable {d : Dialect}

/-- What follows the name of a tag or field, or a tag value. -/
theorem encodeTags_head (tags : List (Text × Text)) (t : Text) :
    ∃ c u, (tags.flatMap fun kv => ',' :: escKey kv.1 ++ '=' :: escKey kv.2) ++ ' ' :: t = c :: u ∧
      endsTable c = true := by
  cases tags with
  | nil => exact ⟨' ', t, rfl, rfl⟩
  | cons kv tags => exact ⟨',', _, rfl, rfl⟩

theorem isSpecial_of_endsTable {c : Char} (h : endsTable c = true) : isSpecial c = true :=
  stops_endsTable.special c h

/-- One tag of the reader. -/
theorem readTags_cons_iff {n : Nat} {t u : Text} {p : Text × Text} {ps : List (Text × Text)} :
    d.readTags (n + 1) (',' :: t) = some (p :: ps, u) ↔
      ∃ v, (scanName isSpecial t).2 = '=' :: v ∧ p = ((scanName isSpecial t).1,
        (scanName isSpecial v).1) ∧ d.Accepts p.1 ∧ d.Accepts p.2 ∧
        d.readTags n (scanName isSpecial v).2 = some (ps, u) := by
  rw [Dialect.readTags]
  split
  · rename_i v hv
    by_cases hacc : d.Accepts (scanName isSpecial t).1 ∧ d.Accepts (scanName isSpecial v).1
    · rw [if_pos hacc, Option.map_eq_some_iff]
      constructor
      · rintro ⟨⟨ps', u'⟩, hrest, heq⟩
        cases heq
        exact ⟨v, hv, rfl, hacc.1, hacc.2, hrest⟩
      · rintro ⟨v', hv', rfl, -, -, hrest⟩
        obtain rfl := (List.cons.inj (hv.symm.trans hv')).2
        exact ⟨(ps, u), hrest, rfl⟩
    · rw [if_neg hacc]
      constructor
      · intro h
        cases h
      · rintro ⟨v', hv', rfl, hkey, hvalue, -⟩
        obtain rfl := (List.cons.inj (hv.symm.trans hv')).2
        exact absurd ⟨hkey, hvalue⟩ hacc
  · rename_i hno
    constructor
    · intro h
      cases h
    · rintro ⟨v, hv, -⟩
      exact absurd hv (hno v)

/-- **Tags read back exactly when they are clean** and taken. -/
theorem readTags_eq_iff {tags : List (Text × Text)} {n : Nat} (hn : tags.length < n) (t u : Text) :
    d.readTags n ((tags.flatMap fun kv => ',' :: escKey kv.1 ++ '=' :: escKey kv.2) ++ ' ' :: t)
        = some (tags.map fun kv => (substituteName kv.1, substituteName kv.2), u)
      ↔ (∀ kv ∈ tags, (Clean kv.1 ∧ d.Accepts kv.1) ∧ Clean kv.2 ∧ d.Accepts kv.2) ∧
        u = ' ' :: t := by
  induction tags generalizing n with
  | nil =>
      obtain ⟨n, rfl⟩ := Nat.exists_eq_add_of_lt hn
      simp [Dialect.readTags, eq_comm]
  | cons kv tags ih =>
      obtain ⟨m, rfl⟩ : ∃ m, n = m + 1 := ⟨n - 1, by simp only [List.length_cons] at hn; omega⟩
      have hm : tags.length < m := by
        simp only [List.length_cons] at hn
        omega
      obtain ⟨c, w, hcw, hc⟩ := encodeTags_head tags t
      have ih := ih hm
      rw [hcw] at ih
      have htext : ((kv :: tags).flatMap fun kv => ',' :: escKey kv.1 ++ '=' :: escKey kv.2)
          ++ ' ' :: t = ',' :: (escKey kv.1 ++ '=' :: (escKey kv.2 ++ c :: w)) := by
        rw [← hcw]
        simp
      rw [htext, List.map_cons, readTags_cons_iff]
      have hcs := isSpecial_of_endsTable hc
      constructor
      · rintro ⟨v, hv, hp, hkey, hvalue, hrest⟩
        obtain ⟨hp₁, hp₂⟩ := Prod.mk.inj hp
        have hclean := clean_of_scanName stops_isSpecial (by decide) hp₁.symm
        rw [scanName_escKey stops_isSpecial (by decide) hclean] at hv
        obtain rfl := (List.cons.inj hv).2
        have hclean' := clean_of_scanName stops_isSpecial hcs hp₂.symm
        rw [scanName_escKey stops_isSpecial hcs hclean'] at hrest
        obtain ⟨hall, hu⟩ := ih.mp hrest
        rw [hclean.substituteName] at hkey
        rw [hclean'.substituteName] at hvalue
        exact ⟨List.forall_mem_cons.mpr ⟨⟨⟨hclean, hkey⟩, hclean', hvalue⟩, hall⟩, hu⟩
      · rintro ⟨hall, hu⟩
        obtain ⟨⟨⟨hclean, hkey⟩, hclean', hvalue⟩, hall⟩ := List.forall_mem_cons.mp hall
        refine ⟨escKey kv.2 ++ c :: w, ?_⟩
        rw [scanName_escKey stops_isSpecial (by decide) hclean,
          scanName_escKey stops_isSpecial hcs hclean', hclean.substituteName,
          hclean'.substituteName]
        exact ⟨rfl, rfl, hkey, hvalue, ih.mpr ⟨hall, hu⟩⟩

/-- One field of the reader, with more behind a comma or none. -/
theorem readFields_cons_iff {n : Nat} {t u : Text} {p : Text × Value}
    {ps : List (Text × Value)} :
    d.readFields (n + 1) t = some (p :: ps, u) ↔
      ∃ s, (scanName isSpecial t).2 = '=' :: s ∧ p.1 = (scanName isSpecial t).1 ∧
        d.Accepts p.1 ∧
        ((∃ w, readValue s = some (p.2, ',' :: w) ∧ d.readFields n w = some (ps, u)) ∨
          (readValue s = some (p.2, u) ∧ u.head? ≠ some ',' ∧ ps = [])) := by
  obtain ⟨key, value⟩ := p
  rw [Dialect.readFields]
  split
  · rename_i s hs
    have hsame : ∀ s', (scanName isSpecial t).2 = '=' :: s' → s' = s := fun s' hs' =>
      (List.cons.inj (hs'.symm.trans hs)).2
    by_cases hacc : d.Accepts (scanName isSpecial t).1
    · rw [if_pos hacc]
      constructor
      · intro h
        split at h
        · rename_i v w hv
          obtain ⟨⟨ps', u'⟩, hrest, heq⟩ := Option.map_eq_some_iff.mp h
          cases heq
          exact ⟨s, hs, rfl, hacc, .inl ⟨w, hv, hrest⟩⟩
        · rename_i v w hno hv
          cases h
          refine ⟨s, hs, rfl, hacc, .inr ⟨hv, fun hhead => ?_, rfl⟩⟩
          cases u with
          | nil => cases hhead
          | cons c u =>
              obtain rfl := Option.some.inj hhead
              exact hno u rfl
        · cases h
      · rintro ⟨s', hs', hkey, -, hmore | hlast⟩
        · obtain rfl := hsame s' hs'
          obtain ⟨w, hv, hrest⟩ := hmore
          rw [hv]
          simp only at hkey hrest ⊢
          rw [hrest, hkey]
          rfl
        · obtain rfl := hsame s' hs'
          obtain ⟨hv, hhead, rfl⟩ := hlast
          simp only at hkey hv
          rw [hv, hkey]
          split
          · rename_i v w hvw
            cases hvw
            exact absurd rfl hhead
          · rename_i v w hno hvw
            cases hvw
            rfl
          · rename_i hvw
            cases hvw
    · rw [if_neg hacc]
      constructor
      · intro h
        cases h
      · rintro ⟨s', -, hkey, hkeyacc, -⟩
        exact absurd (hkey ▸ hkeyacc) hacc
  · rename_i hno
    constructor
    · intro h
      cases h
    · rintro ⟨s, hs, -⟩
      exact absurd hs (hno s)

/-- A field as it is written. -/
def fieldText (kv : Text × Value) : Text := escKey kv.1 ++ '=' :: kv.2.encode F64.display

theorem intercalate_fieldText (kv : Text × Value) (fields : List (Text × Value)) :
    [','].intercalate ((kv :: fields).map fieldText)
      = fieldText kv ++ if fields = [] then [] else ',' :: [','].intercalate (fields.map fieldText) := by
  cases fields with
  | nil => simp [List.intercalate]
  | cons kv' fields => simp [List.intercalate]

/-- **Fields read back exactly when their keys are clean** and taken. -/
theorem readFields_eq_iff {fields : List (Text × Value)} (hne : fields ≠ [])
    (hfinite : ∀ kv ∈ fields, ∀ f, kv.2 = .float f → f.isFinite = true) {n : Nat}
    (hn : fields.length ≤ n) (t u : Text) :
    d.readFields n ([','].intercalate (fields.map fieldText) ++ ' ' :: t)
        = some (fields.map fun kv => (substituteName kv.1, kv.2.substituted), u)
      ↔ (∀ kv ∈ fields, Clean kv.1 ∧ d.Accepts kv.1) ∧ u = ' ' :: t := by
  induction fields generalizing n u with
  | nil => exact absurd rfl hne
  | cons kv fields ih =>
      obtain ⟨m, rfl⟩ : ∃ m, n = m + 1 := ⟨n - 1, by simp only [List.length_cons] at hn; omega⟩
      obtain ⟨hv, hfinite⟩ := List.forall_mem_cons.mp hfinite
      -- what stands behind the value, and what it takes to read on
      obtain ⟨c, w, hcw, hc, hgo⟩ : ∃ c w,
          (if fields = [] then [] else ',' :: [','].intercalate (fields.map fieldText)) ++ ' ' :: t
            = c :: w ∧ endsTable c = true ∧
          ∀ u, ((c = ',' ∧ d.readFields m w
                = some (fields.map fun kv => (substituteName kv.1, kv.2.substituted), u)) ∨
              (u = c :: w ∧ c ≠ ',' ∧ fields = [])) ↔
            (∀ kv ∈ fields, Clean kv.1 ∧ d.Accepts kv.1) ∧ u = ' ' :: t := by
        by_cases hnil : fields = []
        · subst hnil
          refine ⟨' ', t, rfl, rfl, fun u => ?_⟩
          simp
        · refine ⟨',', [','].intercalate (fields.map fieldText) ++ ' ' :: t, by simp [hnil], rfl,
            fun u => ?_⟩
          have hm : fields.length ≤ m := by
            simp only [List.length_cons] at hn
            omega
          rw [ih hnil hfinite hm]
          simp [hnil]
      have htext : [','].intercalate ((kv :: fields).map fieldText) ++ ' ' :: t
          = escKey kv.1 ++ '=' :: (kv.2.encode F64.display ++ c :: w) := by
        rw [intercalate_fieldText, List.append_assoc, hcw, fieldText]
        simp
      have hread := readValue_encode (t := w) hv hc
      rw [htext, List.map_cons, readFields_cons_iff]
      constructor
      · rintro ⟨s, hs, hkey, hacc, hrest⟩
        have hclean := clean_of_scanName stops_isSpecial (by decide) hkey.symm
        rw [scanName_escKey stops_isSpecial (by decide) hclean] at hs
        obtain rfl := (List.cons.inj hs).2
        rw [hread] at hrest
        have hmore := (hgo u).mp (by
          rcases hrest with ⟨w', hw', hfields⟩ | ⟨hu, hhead, hnil⟩
          · cases hw'
            exact .inl ⟨rfl, hfields⟩
          · cases hu
            exact .inr ⟨rfl, by simpa using hhead, by simpa using hnil⟩)
        rw [hclean.substituteName] at hacc
        exact ⟨List.forall_mem_cons.mpr ⟨⟨hclean, hacc⟩, hmore.1⟩, hmore.2⟩
      · rintro ⟨hall, hu⟩
        obtain ⟨⟨hclean, hacc⟩, hall⟩ := List.forall_mem_cons.mp hall
        refine ⟨kv.2.encode F64.display ++ c :: w, ?_⟩
        rw [scanName_escKey stops_isSpecial (by decide) hclean, hclean.substituteName, hread]
        refine ⟨rfl, rfl, hacc, ?_⟩
        rcases (hgo u).mpr ⟨hall, hu⟩ with ⟨rfl, hfields⟩ | ⟨rfl, hcomma, rfl⟩
        · exact .inl ⟨w, rfl, hfields⟩
        · exact .inr ⟨rfl, by simpa using hcomma, rfl⟩

/-! ## Lines -/

theorem readTime_line (n : Int) :
    Dialect.readTime (' ' :: (Text.ofInt n ++ ['\n'])) = some n := by
  have hpass : ∀ x ∈ Text.ofInt n, decide (x ≠ '\n') = true := by
    intro x hx
    rcases mem_ofInt hx with hd | rfl
    · exact decide_eq_true (isDigit_ne hd (by decide))
    · decide
  rw [Dialect.readTime, List.takeWhile_append_of_pos hpass, List.dropWhile_append_of_pos hpass]
  simp [readInt_ofInt]

theorem head_escKey (s t : Text) (hs : s ≠ []) :
    (escKey s ++ t).head? = some '#' ↔ s.head? = some '#' := by
  obtain ⟨c, s, rfl⟩ := List.exists_cons_of_ne_nil hs
  rw [escKey_cons_append]
  by_cases hspecial : isSpecial c = true
  · have hc : c = ',' ∨ c = '=' ∨ c = ' ' := by simpa [isSpecial, or_assoc] using hspecial
    rw [escKeyChar_special hspecial]
    rcases hc with rfl | rfl | rfl <;> simp
  · by_cases hlow : c.toNat < 0x20
    · rw [escKeyChar_control hlow]
      have hne : c ≠ '#' := by
        rintro rfl
        exact absurd hlow (by decide)
      simp [hne]
    · rw [escKeyChar_plain (Bool.eq_false_iff.mpr hspecial) (Nat.not_lt.mp hlow)]
      simp

theorem length_tags_le (tags : List (Text × Text)) :
    tags.length ≤ (tags.flatMap fun kv => ',' :: escKey kv.1 ++ '=' :: escKey kv.2).length := by
  induction tags with
  | nil => exact Nat.le_refl 0
  | cons kv tags ih =>
      simp only [List.flatMap_cons, List.length_append, List.length_cons] at ih ⊢
      omega

theorem length_fields_le (fields : List (Text × Value)) :
    fields.length ≤ ([','].intercalate (fields.map fieldText)).length := by
  induction fields with
  | nil => exact Nat.zero_le _
  | cons kv fields ih =>
      rw [intercalate_fieldText, fieldText]
      by_cases hnil : fields = []
      · simp only [hnil, List.length_cons, List.length_nil, List.length_append]
        omega
      · rw [if_neg hnil]
        simp only [List.length_append, List.length_cons] at ih ⊢
        omega

theorem finite_of_encodable {r : Record} (h : r.Encodable) :
    ∀ kv ∈ r.fields, ∀ f, kv.2 = .float f → f.isFinite = true := by
  intro kv hkv f hf
  have hfinite := List.find?_eq_none.mp (Option.map_eq_none_iff.mp h.2.2) kv hkv
  rw [hf] at hfinite
  simpa using hfinite

/-- What it takes to read a record off a line. -/
theorem parse_eq_some_iff {line : Text} {r : Record} :
    d.parse line = some r ↔
      ¬ (d.comments = true ∧ line.head? = some '#') ∧ r.table ≠ [] ∧
        (scanName endsTable line).1 = r.table ∧
        ∃ t u, d.readTags line.length (scanName endsTable line).2 = some (r.tags, ' ' :: t) ∧
          d.readFields line.length t = some (r.fields, u) ∧ Dialect.readTime u = some r.tsNs := by
  obtain ⟨table, tags, fields, tsNs⟩ := r
  rw [Dialect.parse]
  by_cases hcomment : d.comments = true ∧ line.head? = some '#'
  · simp [hcomment]
  by_cases htable : (scanName endsTable line).1 = []
  · rw [if_neg hcomment, if_pos htable]
    constructor
    · intro h
      cases h
    · rintro ⟨-, hne, heq, -⟩
      exact absurd (heq.symm.trans htable) hne
  rw [if_neg hcomment, if_neg htable]
  constructor
  · intro h
    split at h
    · rename_i tags' t htags
      obtain ⟨⟨fields', u⟩, hfields, hmap⟩ := Option.bind_eq_some_iff.mp h
      obtain ⟨ts, hts, heq⟩ := Option.map_eq_some_iff.mp hmap
      cases heq
      exact ⟨hcomment, htable, rfl, t, u, htags, hfields, hts⟩
    · cases h
  · rintro ⟨-, -, rfl, t, u, htags, hfields, hts⟩
    simp only at htags hfields hts
    rw [htags]
    simp only [hfields, Option.bind_some, hts, Option.map_some]

/-- **A line reads back as its record exactly when it is legible.** -/
theorem parse_line_iff {r : Record} (h : r.Encodable) :
    d.parse (r.line F64.display) = some r.substituted ↔ d.Legible r := by
  obtain ⟨c, w, hcw, hc⟩ := encodeTags_head r.tags
    ([','].intercalate (r.fields.map fieldText) ++ ' ' :: (Text.ofInt r.tsNs ++ ['\n']))
  have hline : r.line F64.display = escKey r.table ++ c :: w := by
    rw [← hcw]
    simp [Record.line, Record.encodeTags, Record.encodeFields]
    rfl
  have hhead := head_escKey r.table (c :: w) h.1
  have htagsLen : r.tags.length < (r.line F64.display).length := by
    have hle := length_tags_le r.tags
    have hlen := congrArg List.length (hline.trans (by rw [← hcw]))
    simp only [List.length_append, List.length_cons] at hlen
    omega
  have hfieldsLen : r.fields.length ≤ (r.line F64.display).length := by
    have hle := length_fields_le r.fields
    have hlen := congrArg List.length (hline.trans (by rw [← hcw]))
    simp only [List.length_append, List.length_cons] at hlen
    omega
  have htags := readTags_eq_iff (d := d) htagsLen
    ([','].intercalate (r.fields.map fieldText) ++ ' ' :: (Text.ofInt r.tsNs ++ ['\n']))
  rw [hcw] at htags
  have hfields := readFields_eq_iff (d := d) h.2.1 (finite_of_encodable h) hfieldsLen
    (Text.ofInt r.tsNs ++ ['\n'])
  rw [parse_eq_some_iff]
  constructor
  · rintro ⟨hcomment, -, htable, t, u, hreadTags, hreadFields, -⟩
    rw [hline] at hcomment htable
    have hclean := clean_of_scanName stops_endsTable hc htable
    rw [hline, scanName_escKey stops_endsTable hc hclean, ← hline] at hreadTags
    obtain ⟨hcleanTags, ht⟩ := (htags _).mp hreadTags
    obtain rfl := (List.cons.inj ht).2
    rw [hhead] at hcomment
    exact ⟨⟨hclean, hcomment⟩, hcleanTags, ((hfields u).mp hreadFields).1⟩
  · rintro ⟨⟨hclean, hcomment⟩, hcleanTags, hcleanFields⟩
    have hscan := scanName_escKey (t := w) stops_endsTable hc hclean
    rw [← hline] at hscan
    rw [hscan]
    refine ⟨?_, ?_, hclean.substituteName.symm, _, _, (htags _).mpr ⟨hcleanTags, rfl⟩,
      (hfields _).mpr ⟨hcleanFields, rfl⟩, readTime_line r.tsNs⟩
    · rw [hline, hhead]
      exact hcomment
    · rw [Record.substituted, hclean.substituteName]
      exact h.1

/-- **Encode, then parse, is the identity exactly on legible records.** -/
theorem encode_parse_iff (d : Dialect) {r : Record} {t : Text}
    (h : r.encode F64.display = .ok t) : d.parse t = some r.substituted ↔ d.Legible r := by
  obtain ⟨hencodable, rfl⟩ := (Record.encode_eq_ok_iff _).mp h
  exact parse_line_iff hencodable

/-! ## A path as a tag -/

/-- The libraries, of which string values need none. -/
def noLibs : Libs :=
  { display := F64.display, parseF64 := fun _ => none, floatOf := fun _ => ⟨0⟩
    render := fun _ => [], parseJson := fun _ => .ok [], intError := fun _ => ""
    parseRfc3339 := fun _ => .error "", parseValue := fun _ => .error "", decodeLossy := id
    isMatch := fun _ _ => false, replaceAll := fun _ _ t => t }

/-- A source that promotes `dir` to a tag. -/
def dirSource : Map.Source :=
  { name := "app".toList, path := "a.log".toList, table := "logs".toList, parser := .json
    timestamp := { field := none, format := "unix_ms".toList, resolution := .millis }
    tags := ["dir".toList], tagsStatic := [], fields := [("message".toList, .string)]
    visibility := none, kubernetes := false }

/-- The line `{"dir": .., "message": ".."}`. -/
def dirLine (dir message : String) : List (Text × Json) :=
  [("dir".toList, .string dir.toList), ("message".toList, .string message.toList)]

def dirRecord (dir message : String) : Record :=
  { table := "logs".toList
    tags := [("dir".toList, dir.toList), ("stream".toList, "app".toList)]
    fields := [("message".toList, .str message.toList)], tsNs := 0 }

theorem encode_parse_of_posix_path :
    let d : Dialect := { comments := true, emptyNames := false }
    d.parse "logs,dir=/var\\ log,stream=app message=\"a\\\"b\\n\" 0\n".toList
        = some (dirRecord "/var log" "a\"b\n").substituted
      ↔ d.Legible (dirRecord "/var log" "a\"b\n") :=
  encode_parse_iff _ (by decide)

/-- A directory that ends in a backslash takes the comma behind it into the tag. -/
theorem trailing_backslash_misread :
    Map.buildRecord noLibs dirSource (dirLine "C:\\" "x") 0 = .ok (dirRecord "C:\\" "x", 0) ∧
      (dirRecord "C:\\" "x").encode F64.display
        = .ok "logs,dir=C:\\,stream=app message=\"x\" 0\n".toList ∧
      ∀ d : Dialect, d.parse "logs,dir=C:\\,stream=app message=\"x\" 0\n".toList
        ≠ some (dirRecord "C:\\" "x").substituted := by
  refine ⟨by decide, by decide, ?_⟩
  rintro ⟨comments, emptyNames⟩
  cases comments <;> cases emptyNames <;> decide

end Tributary.Lp
