import Tributary.Lib.Sublist
import Tributary.Text

/-!
# Line protocol

Encoding of one record as one line. What cannot be written is refused before
anything is written: an empty measurement, a record without fields, a float that
is not finite.
-/

namespace Tributary

/-- A double, by its bits. -/
structure F64 where
  bits : UInt64
deriving DecidableEq, Repr

/-- Neither infinite nor NaN: the exponent is not all ones. -/
def F64.isFinite (f : F64) : Bool := f.bits.toNat / 2 ^ 52 % 2 ^ 11 != 2047

namespace Lp

/-- A value bound for a field column. -/
inductive Value where
  | str (s : Text)
  | int (n : Int)
  | float (f : F64)
  | bool (b : Bool)
deriving DecidableEq, Repr

structure Record where
  table : Text
  tags : List (Text × Text)
  fields : List (Text × Value)
  tsNs : Int
deriving DecidableEq, Repr

inductive EncodeError where
  | noFields
  | emptyTable
  | nonFinite (field : Text)
deriving DecidableEq, Repr

/-- One character of a measurement name, tag key, tag value or field key. -/
def escKeyChar (c : Char) : Text :=
  if c = ',' ∨ c = '=' ∨ c = ' ' then ['\\', c]
  -- a newline inside a key would split the record in two
  else if c.toNat < 0x20 then [' ']
  else [c]

def escKey (s : Text) : Text := s.flatMap escKeyChar

/-- One character of a quoted string. -/
def escStrChar (c : Char) : Text :=
  if c = '"' ∨ c = '\\' then ['\\', c]
  else if c = '\n' then ['\\', 'n']
  else if c = '\r' then []
  else if c.toNat < 0x20 then [' ']
  else [c]

def escStr (s : Text) : Text := '"' :: s.flatMap escStrChar ++ ['"']

variable (display : F64 → Text)

/-- A field value; `display` is how the standard library prints a float. -/
def Value.encode : Value → Text
  | .str s => escStr s
  | .int n => Text.ofInt n ++ ['i']
  | .float f => display f
  | .bool true => ['t', 'r', 'u', 'e']
  | .bool false => ['f', 'a', 'l', 's', 'e']

/-! ## Values that end themselves -/

/-- What is read of a quoted string up to its closing quote, and what follows. -/
def unquote : Text → Text × Text
  | '\\' :: c :: t => ('\\' :: c :: (unquote t).1, (unquote t).2)
  | c :: t => if c = '"' then ([], t) else (c :: (unquote t).1, (unquote t).2)
  | [] => ([], [])

theorem unquote_escStrChar (c : Char) (t : Text) :
    unquote (escStrChar c ++ t) = (escStrChar c ++ (unquote t).1, (unquote t).2) := by
  rw [escStrChar]
  split
  · rfl
  · rename_i hc
    obtain ⟨hquote, hslash⟩ := not_or.mp hc
    split
    · rfl
    · split
      · rfl
      · split
        · rw [List.singleton_append, unquote, if_neg (by decide)]
          · rfl
          · simp
        · rw [List.singleton_append, unquote, if_neg hquote]
          · rfl
          · exact fun _ _ h => absurd h hslash

theorem unquote_escStr (s r : Text) :
    unquote (s.flatMap escStrChar ++ '"' :: r) = (s.flatMap escStrChar, r) := by
  induction s with
  | nil => simp [unquote]
  | cons c s ih => simp [unquote_escStrChar, ih]

/-- A quoted string ends itself. -/
theorem escStr_append_inj {s s' r r' : Text} (h : escStr s ++ r = escStr s' ++ r') :
    escStr s = escStr s' ∧ r = r' := by
  have hopen : s.flatMap escStrChar ++ '"' :: r = s'.flatMap escStrChar ++ '"' :: r' := by
    simpa [escStr] using h
  have hread := congrArg unquote hopen
  rw [unquote_escStr, unquote_escStr] at hread
  obtain ⟨hbody, hrest⟩ := Prod.mk.inj hread
  exact ⟨by rw [escStr, escStr, hbody], hrest⟩

/-- A change that keeps the keys, and all values but strings. -/
def Restrings (g : Text × Value → Text × Value) : Prop :=
  ∀ kv, g kv = kv ∨ ∃ s s', kv.2 = .str s ∧ g kv = (kv.1, .str s')

/-- **Strings changed under their keys read the same only if each is written the
same.** -/
theorem intercalate_fields_map_eq_iff {display : F64 → Text} {g : Text × Value → Text × Value}
    (hg : Restrings g) (fields : List (Text × Value)) :
    [','].intercalate ((fields.map g).map fun kv => escKey kv.1 ++ '=' :: kv.2.encode display)
        = [','].intercalate (fields.map fun kv => escKey kv.1 ++ '=' :: kv.2.encode display)
      ↔ ∀ kv ∈ fields, (g kv).2.encode display = kv.2.encode display := by
  have hkey : ∀ kv, (g kv).1 = kv.1 := by
    intro kv
    rcases hg kv with h | ⟨s, s', -, h⟩ <;> rw [h]
  -- a value and what follows it are told apart
  have hsplit : ∀ kv r r', (g kv).2.encode display ++ r = kv.2.encode display ++ r' →
      (g kv).2.encode display = kv.2.encode display ∧ r = r' := by
    intro kv r r' h
    rcases hg kv with hsame | ⟨s, s', hs, hs'⟩
    · rw [hsame] at h ⊢
      exact ⟨rfl, List.append_cancel_left h⟩
    · rw [hs', hs] at h ⊢
      exact escStr_append_inj h
  constructor
  · intro h
    induction fields with
    | nil => simp
    | cons kv fields ih =>
        cases fields with
        | nil =>
            have h : escKey (g kv).1 ++ '=' :: (g kv).2.encode display
                = escKey kv.1 ++ '=' :: kv.2.encode display := by simpa [List.intercalate] using h
            rw [hkey] at h
            have h := List.append_cancel_left h
            simpa using h
        | cons kv' fields =>
            have h : escKey (g kv).1 ++ '=' :: ((g kv).2.encode display ++ ',' ::
                [','].intercalate (((kv' :: fields).map g).map fun kv =>
                  escKey kv.1 ++ '=' :: kv.2.encode display))
                = escKey kv.1 ++ '=' :: (kv.2.encode display ++ ',' ::
                [','].intercalate ((kv' :: fields).map fun kv =>
                  escKey kv.1 ++ '=' :: kv.2.encode display)) := by
              simpa [List.intercalate] using h
            rw [hkey] at h
            obtain ⟨hvalue, hrest⟩ := hsplit kv _ _ (List.cons.inj (List.append_cancel_left h)).2
            intro x hx
            rcases List.mem_cons.mp hx with rfl | hx
            · exact hvalue
            · exact ih (List.cons.inj hrest).2 x hx
  · intro h
    rw [List.map_map]
    congr 1
    refine List.map_congr_left fun kv hkv => ?_
    simp [hkey, h kv hkv]

/-! ## Records -/

namespace Record

/-- The record under the timestamp the stamper assigned. -/
def withTs (r : Record) (tsNs : Int) : Record := { r with tsNs }

/-- The tag set as it stands in the line. -/
def encodeTags (r : Record) : Text :=
  r.tags.flatMap fun kv => ',' :: escKey kv.1 ++ '=' :: escKey kv.2

def encodeFields (r : Record) : Text :=
  [','].intercalate (r.fields.map fun kv => escKey kv.1 ++ '=' :: kv.2.encode display)

/-- The first field with a value that has no line-protocol form. -/
def firstNonFinite (r : Record) : Option Text :=
  (r.fields.find? fun kv => match kv.2 with
    | .float f => !f.isFinite
    | _ => false).map (·.1)

/-- The line of a record. -/
def line (r : Record) : Text :=
  escKey r.table ++ r.encodeTags ++ ' ' :: r.encodeFields display
    ++ ' ' :: Text.ofInt r.tsNs ++ ['\n']

/-- `Record::encode`: the text it appends, or the reason it appends nothing. -/
def encode (r : Record) : Except EncodeError Text :=
  if r.table = [] then .error .emptyTable
  else if r.fields = [] then .error .noFields
  else
    match r.firstNonFinite with
    | some k => .error (.nonFinite k)
    | none => .ok (r.line display)

/-- What can be written: a named measurement, at least one field, and finite
floats only. -/
def Encodable (r : Record) : Prop :=
  r.table ≠ [] ∧ r.fields ≠ [] ∧ r.firstNonFinite = none

instance (r : Record) : Decidable r.Encodable := inferInstanceAs (Decidable (_ ∧ _ ∧ _))

theorem encode_eq_ok_iff {r : Record} {t : Text} :
    r.encode display = .ok t ↔ r.Encodable ∧ t = r.line display := by
  rw [encode, Encodable]
  by_cases htable : r.table = []
  · simp [htable]
  · by_cases hfields : r.fields = []
    · simp [htable, hfields]
    · cases hfinite : r.firstNonFinite with
      | some k => simp [htable, hfields]
      | none => simp [htable, hfields, eq_comm]

/-! ### One line -/

theorem printable_escKey (s : Text) : (escKey s).Printable := by
  refine .flatMap fun c _ => ?_
  rw [escKeyChar]
  split
  · rename_i hc
    rcases hc with rfl | rfl | rfl <;> simp [Text.Printable]
  · split
    · simp [Text.Printable]
    · rename_i hc
      simpa [Text.Printable] using hc

theorem printable_escStr (s : Text) : (escStr s).Printable := by
  refine .append (.cons (by decide) (.flatMap fun c _ => ?_)) (by simp [Text.Printable])
  rw [escStrChar]
  split
  · rename_i hc
    rcases hc with rfl | rfl <;> simp [Text.Printable]
  · split
    · simp [Text.Printable]
    · split
      · simp [Text.Printable]
      · split
        · simp [Text.Printable]
        · rename_i hc
          simpa [Text.Printable] using hc

variable {display}

theorem Value.printable_encode (hd : ∀ f, (display f).Printable) (v : Value) :
    (v.encode display).Printable := by
  cases v with
  | str s => exact printable_escStr s
  | int n => exact (Text.printable_ofInt n).append (by simp [Text.Printable])
  | float f => exact hd f
  | bool b => cases b <;> simp [Value.encode, Text.Printable]

/-- The line without its newline. -/
def content (display : F64 → Text) (r : Record) : Text :=
  escKey r.table ++ r.encodeTags ++ ' ' :: r.encodeFields display ++ ' ' :: Text.ofInt r.tsNs

theorem line_eq (r : Record) : r.line display = r.content display ++ ['\n'] := rfl

/-- If floats print without control characters, a line has its newline at the end
and no other. -/
theorem printable_content (hd : ∀ f, (display f).Printable) (r : Record) :
    (r.content display).Printable := by
  have hpair : ∀ (k v : Text), v.Printable → (escKey k ++ '=' :: v).Printable := fun k v hv =>
    (printable_escKey k).append (hv.cons (by decide))
  have hfields : (r.encodeFields display).Printable := by
    intro c hc
    obtain ⟨t, ht, hct⟩ := List.mem_flatten.mp hc
    rcases Lib.mem_or_eq_of_mem_intersperse ht with hm | rfl
    · obtain ⟨kv, -, rfl⟩ := List.mem_map.mp hm
      exact hpair _ _ (Value.printable_encode hd kv.2) c hct
    · rw [List.mem_singleton.mp hct]
      decide
  refine .append (.append ((printable_escKey _).append ?_) (hfields.cons (by decide))) ?_
  · exact .flatMap fun kv _ => .cons (by decide) (hpair _ _ (printable_escKey _))
  · exact (Text.printable_ofInt _).cons (by decide)

/-- A line is not blank: it ends with its timestamp. -/
theorem stripEol_line (r : Record) : Text.stripEol (r.line display) = r.content display := by
  obtain ⟨c, hc, hd⟩ := Text.exists_getLast_ofInt r.tsNs
  have hlast : (r.content display).getLast? = some c := by
    rw [content, List.getLast?_append, List.getLast?_cons, hc]
    rfl
  rw [line_eq, Text.stripEol_concat]
  rw [hlast]
  rintro ⟨⟩
  exact absurd hd (by decide)

theorem content_ne_nil (r : Record) : r.content display ≠ [] := by
  simp [content]

end Record

end Lp

end Tributary
